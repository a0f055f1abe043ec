import Xjd1.Json.Lexing

/-! Reading back rendered text. `parseJson` forgets to step over the closing
brace of an empty struct, so a stored document survives only when that brace
can stand in for the closing braces around it. -/
namespace Xjd1

variable {R : Type}

def JsonStr.left (p : JsonStr) : ℕ := if p.eType = .eof then 0 else p.unread.length + 1

theorem scanUnsigned_pos (s : Bytes) (h : s.head?.any xjd1Isdigit = true) : 0 < scanUnsigned s := by
  have hd : 0 < digits s := by
    cases s with
    | nil => cases h
    | cons c t =>
      have hc : xjd1Isdigit c = true := by simpa using h
      simp [digits,hc]
  simp only [scanUnsigned]
  split_ifs <;> omega

theorem lexToken_pos (c : UInt8) (t : Bytes) (h : (lexToken (c::t)).1 ≠ .eof) :
    0 < (lexToken (c::t)).2 := by
  let P : JsonTok × ℕ → Prop := fun x => x.1 ≠ .eof → 0 < x.2
  have hs : xjd1Isdigit c = true → P (.real,scanUnsigned (c::t)) :=
    fun hc _ => scanUnsigned_pos _ (by simpa using hc)
  suffices h : P (lexToken (c::t)) from h ‹_›
  change P (if c = 0 then _ else _)
  refine iteInduction (fun _ h => absurd rfl h) fun _ => ?_
  iterate 11 refine iteInduction (fun _ => by (try split) <;> simp [P]; try omega) fun _ => ?_
  exact iteInduction hs fun _ => by simp [P]

theorem left_tokenNext (p : JsonStr) (h : p.eType ≠ .eof) : (tokenNext p).left < p.left := by
  have hp : p.left = p.unread.length + 1 := if_neg h
  have hw := List.takeWhile_append_dropWhile (p := xjd1Isspace) (l := p.unread)
  rw [hp,tokenNext]
  cases hs : p.unread.dropWhile xjd1Isspace with
  | nil => simp [JsonStr.left]
  | cons c t =>
    have hl := congrArg List.length hw
    rw [List.length_append,hs,List.length_cons] at hl
    simp only [List.isEmpty_cons,Bool.false_eq_true,if_false,JsonStr.left]
    split
    · omega
    · rename_i he
      have hpos := lexToken_pos c t he
      simp only [JsonStr.unread,List.length_drop] at hl ⊢
      omega

theorem jsonStr_left (z : Bytes) (m : ℕ) : (jsonStr z m).left ≤ m + 1 := by
  rw [JsonStr.left,if_neg nofun,JsonStr.unread]
  simp [jsonStr]

theorem left_jsonStr (z : Bytes) (m : ℕ) : (tokenNext (jsonStr z m)).left ≤ m := by
  have h := left_tokenNext (jsonStr z m) nofun
  have hz := jsonStr_left z m
  omega

section Total
variable (R) [CDouble R] (n : ℕ)

def JsonTotal : Prop := ∀ p : JsonStr, 2*p.left + 1 ≤ n →
  ∃ o : JsonNode R × JsonStr, parseJson n p = some o ∧ o.2.left ≤ p.left

def MembersTotal : Prop := ∀ (p : JsonStr) (st : List (Bytes × JsonNode R)), 2*p.left + 2 ≤ n →
  ∃ o : JsonNode R × JsonStr, parseMembers n p st = some o ∧ o.2.left ≤ p.left

def ElemsTotal : Prop := ∀ (p : JsonStr) (ar : List (JsonNode R)), 2*p.left + 2 ≤ n →
  ∃ o : JsonNode R × JsonStr, parseElems n p ar = some o ∧ o.2.left ≤ p.left

variable {R n}

theorem json_total (hMembers : MembersTotal R n) (hElems : ElemsTotal R n) : JsonTotal R (n+1) := by
  intro p hn
  have hl := left_tokenNext p
  rw [parseJson]
  split
  case h_1 he =>
    have h1 := hl (by simp [he])
    split
    · exact ⟨_,rfl,Nat.le_of_lt h1⟩
    · obtain ⟨o,ho,h2⟩ := hMembers (tokenNext p) [] (by omega)
      exact ⟨o,ho,by omega⟩
  case h_2 he =>
    have h1 := hl (by simp [he])
    split
    · rename_i h3
      have h4 := left_tokenNext (tokenNext p) (by simp [h3])
      exact ⟨_,rfl,by simp only; omega⟩
    · obtain ⟨o,ho,h2⟩ := hElems (tokenNext p) [] (by omega)
      exact ⟨o,ho,by omega⟩
  case h_8 => exact ⟨_,rfl,Nat.le_refl _⟩
  all_goals exact ⟨_,rfl,Nat.le_of_lt (hl (by simp [*]))⟩

theorem members_total (hJson : JsonTotal R n) (hMembers : MembersTotal R n) : MembersTotal R (n+1) := by
  intro p st hn
  rw [parseMembers]
  split
  · rename_i he
    have h1 := left_tokenNext p (by simp [he])
    split
    · rename_i hc
      have h2 := left_tokenNext (tokenNext p) (by simp [hc])
      obtain ⟨⟨v,q⟩,ho,h3⟩ := hJson (tokenNext (tokenNext p)) (by omega)
      simp only at h3
      simp only [ho]
      have h4 := left_tokenNext q
      split
      case h_1 hq =>
        have h5 := h4 (by simp [hq])
        obtain ⟨o,ho,h6⟩ := hMembers (tokenNext q) (st ++ [(tokenDequoteString p,v)]) (by omega)
        exact ⟨o,ho,by omega⟩
      case h_2 hq =>
        have h5 := h4 (by simp [hq])
        exact ⟨_,rfl,by simp only; omega⟩
      case h_3 => exact ⟨_,rfl,by simp only; omega⟩
    · exact ⟨_,rfl,Nat.le_of_lt h1⟩
  · exact ⟨_,rfl,Nat.le_refl _⟩

theorem elems_total (hJson : JsonTotal R n) (hElems : ElemsTotal R n) : ElemsTotal R (n+1) := by
  intro p ar hn
  rw [parseElems]
  obtain ⟨⟨v,q⟩,ho,h3⟩ := hJson p (by omega)
  simp only at h3
  simp only [ho]
  have h4 := left_tokenNext q
  split
  case h_1 hq =>
    have h5 := h4 (by simp [hq])
    obtain ⟨o,ho,h6⟩ := hElems (tokenNext q) (ar ++ [v]) (by omega)
    exact ⟨o,ho,by omega⟩
  case h_2 hq =>
    have h5 := h4 (by simp [hq])
    exact ⟨_,rfl,by simp only; omega⟩
  case h_3 => exact ⟨_,rfl,h3⟩

end Total

/-- The parser and its two loops end, and never give back text they have read. -/
theorem parse_total [CDouble R] (n : ℕ) :
    (∀ p : JsonStr, 2*p.left + 1 ≤ n →
      ∃ o : JsonNode R × JsonStr, parseJson n p = some o ∧ o.2.left ≤ p.left) ∧
    (∀ (p : JsonStr) (st : List (Bytes × JsonNode R)), 2*p.left + 2 ≤ n →
      ∃ o : JsonNode R × JsonStr, parseMembers n p st = some o ∧ o.2.left ≤ p.left) ∧
    (∀ (p : JsonStr) (ar : List (JsonNode R)), 2*p.left + 2 ≤ n →
      ∃ o : JsonNode R × JsonStr, parseElems n p ar = some o ∧ o.2.left ≤ p.left) := by
  induction n with
  | zero => refine ⟨?_,?_,?_⟩ <;> intros <;> omega
  | succ n ih =>
    obtain ⟨hJson,hMembers,hElems⟩ := ih
    exact ⟨json_total hMembers hElems,members_total hJson hMembers,elems_total hJson hElems⟩

/-- With more fuel the parser and its loops give the same value. -/
theorem parse_succ [CDouble R] (n : ℕ) :
    (∀ (p : JsonStr) (o : JsonNode R × JsonStr), parseJson n p = some o → parseJson (n+1) p = some o) ∧
    (∀ (p : JsonStr) (st : List (Bytes × JsonNode R)) (o : JsonNode R × JsonStr),
      parseMembers n p st = some o → parseMembers (n+1) p st = some o) ∧
    (∀ (p : JsonStr) (ar : List (JsonNode R)) (o : JsonNode R × JsonStr),
      parseElems n p ar = some o → parseElems (n+1) p ar = some o) := by
  induction n with
  | zero =>
    refine ⟨fun p o h => ?_,fun p st o h => ?_,fun p ar o h => ?_⟩
    · rw [parseJson] at h
      cases h
    · rw [parseMembers] at h
      cases h
    · rw [parseElems] at h
      cases h
  | succ n ih =>
    obtain ⟨hJson,hMembers,hElems⟩ := ih
    refine ⟨fun p o h => ?_,fun p st o h => ?_,fun p ar o h => ?_⟩
    · rw [parseJson] at h ⊢
      cases he : p.eType <;> simp only [he] at h ⊢ <;> try exact h
      case beginArray =>
        split at h
        · rw [if_pos ‹_›]
          exact h
        · rw [if_neg ‹_›]
          exact hElems _ _ _ h
      case beginStruct =>
        split at h
        · rw [if_pos ‹_›]
          exact h
        · rw [if_neg ‹_›]
          exact hMembers _ _ _ h
    · rw [parseMembers] at h ⊢
      split at h
      · rw [if_pos ‹_›]
        split at h
        · rw [if_pos ‹_›]
          cases ho : parseJson (R := R) n (tokenNext (tokenNext p)) with
          | none => simp [ho] at h
          | some q =>
            rw [hJson _ _ ho]
            simp only [ho] at h ⊢
            cases hq : q.2.eType <;> simp only [hq] at h ⊢ <;> first | exact h | exact hMembers _ _ _ h
        · rw [if_neg ‹_›]
          exact h
      · rw [if_neg ‹_›]
        exact h
    · rw [parseElems] at h ⊢
      cases ho : parseJson (R := R) n p with
      | none => simp [ho] at h
      | some q =>
        rw [hJson _ _ ho]
        simp only [ho] at h ⊢
        cases hq : q.2.eType <;> simp only [hq] at h ⊢ <;> first | exact h | exact hElems _ _ _ h

theorem parseJson_le [CDouble R] {n m : ℕ} (hnm : n ≤ m) {p : JsonStr} {o : JsonNode R × JsonStr}
    (h : parseJson n p = some o) : parseJson m p = some o := by
  induction m, hnm using Nat.le_induction with
  | base => exact h
  | succ m _ ih => exact (parse_succ m).1 p o ih

/-- A number whose text is one token, below the parser's limit as all texts of `%.17g` are, from which
`atof` reads the same number. -/
structure ReadsBack [CDouble R] (r : R) : Prop where
  lex : lexToken (CDouble.fmt17 r) = (.real,(CDouble.fmt17 r).length)
  length_lt : (CDouble.fmt17 r).length < 2^30
  atof : ∀ s, Delimited s → CDouble.atof (CDouble.fmt17 r ++ s) = r

mutual
/-- The JSON values: no null pointers, no NUL byte in a string or a label. -/
def Storable [CDouble R] : JsonNode R → Prop
  | .nullptr => False
  | .real r => ReadsBack r
  | .string z => 0 ∉ z
  | .array vs => StorableElems vs
  | .struct ms => StorableMembers ms
  | .false | .true | .null => True

def StorableElems [CDouble R] : List (JsonNode R) → Prop
  | [] => True
  | v::vs => Storable v ∧ StorableElems vs

def StorableMembers [CDouble R] : List (Bytes × JsonNode R) → Prop
  | [] => True
  | (k,v)::ms => 0 ∉ k ∧ Storable v ∧ StorableMembers ms
end

mutual
/-- No struct inside the value is empty. -/
def noEmptyStruct : JsonNode R → Bool
  | .array vs => noEmptyElems vs
  | .struct [] => false
  | .struct (m::ms) => noEmptyMembers (m::ms)
  | _ => true

def noEmptyElems : List (JsonNode R) → Bool
  | [] => true
  | v::vs => noEmptyStruct v && noEmptyElems vs

def noEmptyMembers : List (Bytes × JsonNode R) → Bool
  | [] => true
  | (_,v)::ms => noEmptyStruct v && noEmptyMembers ms
end

mutual
/-- The value is the empty struct, or a struct whose last member's value is such
a value while no other member holds an empty struct. -/
def endsInEmptyStruct : JsonNode R → Bool
  | .struct [] => true
  | .struct (m::ms) => endsMembers (m::ms)
  | _ => false

def endsMembers : List (Bytes × JsonNode R) → Bool
  | [] => false
  | [(_,v)] => endsInEmptyStruct v
  | (_,v)::m::ms => noEmptyStruct v && endsMembers (m::ms)
end

section Render
variable [CDouble R]

theorem renderElems_delimited (vs : List (JsonNode R)) (s b : Bytes) :
    Delimited (renderElems vs ++ s ++ b) := by
  cases vs with
  | nil => exact Or.inr ⟨_,_,by rw [renderElems]; rfl,Or.inr (Or.inl rfl)⟩
  | cons v vs => exact Or.inr ⟨_,_,by rw [renderElems]; rfl,Or.inl rfl⟩

theorem renderMembers_delimited (ms : List (Bytes × JsonNode R)) (s b : Bytes) :
    Delimited (renderMembers ms ++ s ++ b) := by
  cases ms with
  | nil => exact Or.inr ⟨_,_,by rw [renderMembers]; rfl,Or.inr (Or.inr rfl)⟩
  | cons m ms => exact Or.inr ⟨_,_,by rw [renderMembers]; rfl,Or.inl rfl⟩

theorem fmt17_head {r : R} (hr : ReadsBack r) :
    ∃ c t, CDouble.fmt17 r = c::t ∧ xjd1Isspace c = false := by
  cases h : CDouble.fmt17 r with
  | nil => have hl := hr.lex; rw [h] at hl; cases hl
  | cons c t =>
    refine ⟨c,t,rfl,?_⟩
    have hl := hr.lex
    rw [h] at hl
    rcases lexToken_eq_real hl with ⟨rfl,_⟩ | hd
    · rfl
    · simp only [xjd1Isdigit,Bool.and_eq_true,decide_eq_true_eq] at hd
      simp only [xjd1Isspace,Bool.or_eq_false_iff,Bool.and_eq_false_iff,decide_eq_false_iff_not,
        beq_eq_false_iff_ne,UInt8.not_le]
      refine ⟨Or.inr (UInt8.lt_of_lt_of_le (by decide) hd.1),?_⟩
      rintro rfl
      exact absurd hd.1 (by decide)

/-- The first token of a rendered number. -/
theorem tokenNext_real {p : JsonStr} {r : R} {rest b : Bytes} (hr : ReadsBack r) (hd : Delimited rest)
    (hp : Ready p (CDouble.fmt17 r ++ rest) b) :
    OnToken (tokenNext p) .real (CDouble.fmt17 r) rest b := by
  obtain ⟨c,t,hc,hs⟩ := fmt17_head hr
  have hl := lexToken_real _ rest hr.lex hd
  rw [hc] at hp hl ⊢
  exact tokenNext_on hp hs hl

/-- No rendered value starts with a closing bracket. -/
theorem first_token {p : JsonStr} {v : JsonNode R} {rest b : Bytes} (hv : Storable v)
    (hd : Delimited rest) (hp : Ready p (xjd1JsonRender v ++ rest) b) :
    (tokenNext p).eType ≠ .endArray := by
  cases v with
  | nullptr => cases hv
  | false =>
    rw [xjd1JsonRender] at hp
    rw [(tokenNext_on hp rfl (lexToken_false hd.not_ident)).eType]
    nofun
  | true =>
    rw [xjd1JsonRender] at hp
    rw [(tokenNext_on hp rfl (lexToken_true hd.not_ident)).eType]
    nofun
  | null =>
    rw [xjd1JsonRender] at hp
    rw [(tokenNext_on hp rfl (lexToken_null hd.not_ident)).eType]
    nofun
  | real r =>
    rw [Storable] at hv
    rw [xjd1JsonRender] at hp
    rw [(tokenNext_real hv hd hp).eType]
    nofun
  | string z =>
    rw [Storable] at hv
    rw [xjd1JsonRender] at hp
    rw [(tokenNext_string hv hp).eType]
    nofun
  | array vs =>
    have hs : ∃ s, xjd1JsonRender (.array vs) = ch '[' :: s := by
      cases vs <;> exact ⟨_,by rw [xjd1JsonRender]⟩
    obtain ⟨s,hs⟩ := hs
    rw [hs] at hp
    rw [(tokenNext_punct hp rfl rfl).eType]
    nofun
  | struct ms =>
    have hs : ∃ s, xjd1JsonRender (.struct ms) = ch '\x7b' :: s := by
      rcases ms with _ | ⟨⟨k,v⟩,ms⟩ <;> exact ⟨_,by rw [xjd1JsonRender]⟩
    obtain ⟨s,hs⟩ := hs
    rw [hs] at hp
    rw [(tokenNext_punct hp rfl rfl).eType]
    nofun

theorem parseElems_prefix (n : ℕ) (p : JsonStr) (ar : List (JsonNode R)) (o : JsonNode R × JsonStr)
    (h : parseElems n p ar = some o) : o.1 = .nullptr ∨ ∃ l, o.1 = .array (ar ++ l) := by
  induction n generalizing p ar with
  | zero => cases h
  | succ n ih =>
    rw [parseElems] at h
    split at h
    · cases h
    · rename_i v q _
      split at h
      · rcases ih _ _ h with h | ⟨l,h⟩
        · exact Or.inl h
        · exact Or.inr ⟨v::l,by rw [h,List.append_assoc]; rfl⟩
      · cases h
        exact Or.inr ⟨[v],rfl⟩
      · cases h
        exact Or.inl rfl

theorem parseMembers_prefix (n : ℕ) (p : JsonStr) (st : List (Bytes × JsonNode R))
    (o : JsonNode R × JsonStr) (h : parseMembers n p st = some o) :
    o.1 = .nullptr ∨ ∃ l, o.1 = .struct (st ++ l) := by
  induction n generalizing p st with
  | zero => cases h
  | succ n ih =>
    rw [parseMembers] at h
    split at h
    · split at h
      · split at h
        · cases h
        · rename_i v q _
          split at h
          · rcases ih _ _ h with h | ⟨l,h⟩
            · exact Or.inl h
            · exact Or.inr ⟨(tokenDequoteString p,v)::l,by rw [h,List.append_assoc]; rfl⟩
          · cases h
            exact Or.inr ⟨[(tokenDequoteString p,v)],rfl⟩
          · cases h
            exact Or.inl rfl
      · cases h
        exact Or.inl rfl
    · cases h
      exact Or.inl rfl

/-- An element that was read wrongly stays in the array. -/
theorem parseElems_other {n : ℕ} {p q : JsonStr} {ar vs : List (JsonNode R)} {v w : JsonNode R}
    {o : JsonNode R × JsonStr} (h : parseElems (n+1) p ar = some o)
    (hw : parseJson n p = some (w,q)) (hne : w ≠ v) : o.1 ≠ .array (ar ++ v::vs) := by
  intro ho
  simp only [parseElems,hw] at h
  split at h
  · rcases parseElems_prefix _ _ _ _ h with h | ⟨l,h⟩
    · rw [h] at ho
      cases ho
    · rw [h,JsonNode.array.injEq,List.append_assoc,List.append_cancel_left_eq] at ho
      exact hne (List.head_eq_of_cons_eq ho)
  · cases h
    rw [JsonNode.array.injEq,List.append_cancel_left_eq] at ho
    exact hne (List.head_eq_of_cons_eq ho)
  · cases h
    cases ho

/-- A member that was read wrongly stays in the struct. -/
theorem parseMembers_other {n : ℕ} {p q : JsonStr} {k : Bytes} {st ms : List (Bytes × JsonNode R)}
    {v w : JsonNode R} {o : JsonNode R × JsonStr} (h : parseMembers (n+1) p st = some o)
    (hp : p.eType = .string) (hc : (tokenNext p).eType = .colon)
    (hw : parseJson n (tokenNext (tokenNext p)) = some (w,q)) (hne : w ≠ v) :
    o.1 ≠ .struct (st ++ (k,v)::ms) := by
  intro ho
  simp only [parseMembers,hp,hc,hw,if_true] at h
  split at h
  · rcases parseMembers_prefix _ _ _ _ h with h | ⟨l,h⟩
    · rw [h] at ho
      cases ho
    · rw [h,JsonNode.struct.injEq,List.append_assoc,List.append_cancel_left_eq] at ho
      exact hne (congrArg Prod.snd (List.head_eq_of_cons_eq ho))
  · cases h
    rw [JsonNode.struct.injEq,List.append_cancel_left_eq] at ho
    exact hne (congrArg Prod.snd (List.head_eq_of_cons_eq ho))
  · cases h
    cases ho

/-- How the parser leaves a value: read whole with the cursor past it, read with
the cursor still on its closing brace, or read as another value. -/
def Reads (whole stuck : Bool) (rest b : Bytes) (v : JsonNode R) (o : JsonNode R × JsonStr) : Prop :=
  if whole then o.1 = v ∧ ∃ p, Ready p rest b ∧ o.2 = tokenNext p
  else if stuck then o.1 = v ∧ o.2.eType = .endStruct ∧ Ready o.2 rest b
  else o.1 ≠ v

def ParsesAs (v : JsonNode R) : Prop :=
  ∀ (p : JsonStr) (rest b : Bytes), Delimited (rest ++ b) → Ready p (xjd1JsonRender v ++ rest) b →
    ∀ (n : ℕ) (o : JsonNode R × JsonStr), parseJson n (tokenNext p) = some o →
      Reads (noEmptyStruct v) (endsInEmptyStruct v) rest b v o

theorem elem_read {v : JsonNode R} {ar : List (JsonNode R)} {p : JsonStr} {rest b : Bytes} {n : ℕ}
    {o : JsonNode R × JsonStr} (hv : ParsesAs v) (hd : Delimited (rest ++ b))
    (hp : Ready p (xjd1JsonRender v ++ rest) b) (h : parseElems n (tokenNext p) ar = some o) :
    ∃ m w q, n = m+1 ∧ parseJson m (tokenNext p) = some (w,q) ∧
      Reads (noEmptyStruct v) (endsInEmptyStruct v) rest b v (w,q) := by
  cases n with
  | zero => cases h
  | succ m =>
    cases hw : (parseJson m (tokenNext p) : Option (JsonNode R × JsonStr)) with
    | none => simp [parseElems,hw] at h
    | some o' => exact ⟨m,o'.1,o'.2,rfl,hw,hv p _ _ hd hp m o' hw⟩

/-- An empty struct in an element's text ends the array's parse, or spoils the element. -/
theorem parseElems_spoilt {v w : JsonNode R} {vs ar : List (JsonNode R)} {p q : JsonStr}
    {rest b : Bytes} {m : ℕ} {o : JsonNode R × JsonStr} (h : parseElems (m+1) p ar = some o)
    (hw : parseJson m p = some (w,q)) (hr : Reads false (endsInEmptyStruct v) rest b v (w,q)) :
    o.1 ≠ .array (ar ++ v::vs) := by
  by_cases hs : endsInEmptyStruct v = true
  · rw [hs] at hr
    have hq : q.eType = .endStruct := hr.2.1
    simp only [parseElems,hw,hq] at h
    cases h
    nofun
  · rw [Bool.not_eq_true] at hs
    rw [hs] at hr
    exact parseElems_other h hw hr

theorem parseElems_render (v : JsonNode R) (vs : List (JsonNode R)) (hall : ∀ w ∈ v::vs, ParsesAs w)
    (p : JsonStr) (rest b : Bytes) (hp : Ready p (xjd1JsonRender v ++ (renderElems vs ++ rest)) b)
    (n : ℕ) (ar : List (JsonNode R)) (o : JsonNode R × JsonStr)
    (h : parseElems n (tokenNext p) ar = some o) :
    Reads (noEmptyElems (v::vs)) false rest b (.array (ar ++ v::vs)) o := by
  induction vs generalizing v p n ar with
  | nil =>
    obtain ⟨m,w,q,rfl,hw,hr⟩ := elem_read (hall v (by simp)) (renderElems_delimited [] rest b) hp h
    rw [noEmptyElems]
    cases hne : noEmptyStruct v with
    | true =>
      rw [hne] at hr
      obtain ⟨rfl,p',hp',rfl⟩ := hr
      have ht := tokenNext_punct hp' rfl rfl
      simp only [parseElems,hw,ht.eType] at h
      cases h
      exact ⟨rfl,_,ht.ready,rfl⟩
    | false =>
      rw [hne] at hr
      exact parseElems_spoilt h hw hr
  | cons v' vs ih =>
    obtain ⟨m,w,q,rfl,hw,hr⟩ := elem_read (hall v (by simp)) (renderElems_delimited (v'::vs) rest b) hp h
    rw [noEmptyElems]
    cases hne : noEmptyStruct v with
    | true =>
      rw [hne] at hr
      obtain ⟨rfl,p',hp',rfl⟩ := hr
      rw [renderElems,List.cons_append,List.append_assoc] at hp'
      have ht := tokenNext_punct hp' rfl rfl
      simp only [parseElems,hw,ht.eType] at h
      have hr := ih v' (fun w hw => hall w (List.mem_cons_of_mem _ hw)) _ ht.ready _ _ h
      rwa [List.append_assoc] at hr
    | false =>
      rw [hne] at hr
      exact parseElems_spoilt h hw hr

theorem member_read {k : Bytes} {v : JsonNode R} {st : List (Bytes × JsonNode R)} {p : JsonStr}
    {rest b : Bytes} {n : ℕ} {o : JsonNode R × JsonStr} (hk : 0 ∉ k) (hv : ParsesAs v) (hd : Delimited (rest ++ b))
    (hp : Ready p (renderString k ++ ch ':' :: (xjd1JsonRender v ++ rest)) b)
    (h : parseMembers n (tokenNext p) st = some o) :
    ∃ m w q, n = m+1 ∧ (tokenNext p).eType = .string ∧ (tokenNext (tokenNext p)).eType = .colon ∧
      tokenDequoteString (tokenNext p) = k ∧
      parseJson m (tokenNext (tokenNext (tokenNext p))) = some (w,q) ∧
      Reads (noEmptyStruct v) (endsInEmptyStruct v) rest b v (w,q) := by
  have hk' := tokenNext_string hk hp
  have hc := tokenNext_punct hk'.ready rfl rfl
  cases n with
  | zero => cases h
  | succ m =>
    cases hw : (parseJson m (tokenNext (tokenNext (tokenNext p))) : Option (JsonNode R × JsonStr)) with
    | none => simp [parseMembers,hk'.eType,hc.eType,hw] at h
    | some o' =>
      exact ⟨m,o'.1,o'.2,rfl,hk'.eType,hc.eType,tokenDequoteString_on hk',hw,
        hv _ _ _ hd hc.ready m o' hw⟩

theorem parseMembers_render (k : Bytes) (v : JsonNode R) (ms : List (Bytes × JsonNode R))
    (hk : ∀ m ∈ (k,v)::ms, 0 ∉ m.1) (hall : ∀ m ∈ (k,v)::ms, ParsesAs m.2) (p : JsonStr) (rest b : Bytes)
    (hp : Ready p (renderString k ++ ch ':' :: (xjd1JsonRender v ++ (renderMembers ms ++ rest))) b)
    (n : ℕ) (st : List (Bytes × JsonNode R)) (o : JsonNode R × JsonStr)
    (h : parseMembers n (tokenNext p) st = some o) :
    Reads (noEmptyMembers ((k,v)::ms)) (endsMembers ((k,v)::ms)) rest b (.struct (st ++ (k,v)::ms)) o := by
  induction ms generalizing k v p n st with
  | nil =>
    obtain ⟨m,w,q,rfl,hs,hc,hd,hw,hr⟩ := member_read (hk (k,v) (by simp)) (hall (k,v) (by simp))
      (renderMembers_delimited [] rest b) hp h
    rw [noEmptyMembers,endsMembers]
    cases hne : noEmptyStruct v with
    | true =>
      rw [hne] at hr
      obtain ⟨rfl,p',hp',rfl⟩ := hr
      have ht := tokenNext_punct hp' rfl rfl
      simp only [parseMembers,hs,hc,hw,ht.eType,hd,if_true] at h
      cases h
      exact ⟨rfl,_,ht.ready,rfl⟩
    | false =>
      rw [hne] at hr
      cases he : endsInEmptyStruct v with
      | true =>
        -- the brace of the empty struct passes for the brace of this one
        rw [he] at hr
        obtain ⟨rfl,hq,hr⟩ := hr
        simp only at hq hr
        have ht := tokenNext_punct hr rfl rfl
        simp only [parseMembers,hs,hc,hw,hq,hd,if_true] at h
        cases h
        exact ⟨rfl,ht.eType,ht.ready⟩
      | false =>
        rw [he] at hr
        exact parseMembers_other h hs hc hw hr
  | cons m' ms ih =>
    obtain ⟨m,w,q,rfl,hs,hc,hd,hw,hr⟩ := member_read (hk (k,v) (by simp)) (hall (k,v) (by simp))
      (renderMembers_delimited (m'::ms) rest b) hp h
    rw [noEmptyMembers,endsMembers]
    cases hne : noEmptyStruct v with
    | true =>
      rw [hne] at hr
      obtain ⟨rfl,p',hp',rfl⟩ := hr
      rw [renderMembers,List.cons_append,List.append_assoc,List.cons_append,List.append_assoc] at hp'
      have ht := tokenNext_punct hp' rfl rfl
      simp only [parseMembers,hs,hc,hw,ht.eType,hd,if_true] at h
      have hr := ih m'.1 m'.2 (fun m hm => hk m (List.mem_cons_of_mem _ hm))
        (fun m hm => hall m (List.mem_cons_of_mem _ hm)) _ ht.ready _ _ h
      rwa [List.append_assoc] at hr
    | false =>
      rw [hne] at hr
      cases he : endsInEmptyStruct v with
      | true =>
        rw [he] at hr
        obtain ⟨rfl,hq,hr⟩ := hr
        simp only at hq
        simp only [parseMembers,hs,hc,hw,hq,hd,if_true] at h
        cases h
        intro hx
        simp only [JsonNode.struct.injEq,List.append_cancel_left_eq] at hx
        cases hx
      | false =>
        rw [he] at hr
        exact parseMembers_other h hs hc hw hr

theorem StorableElems.of_mem {vs : List (JsonNode R)} (h : StorableElems vs) :
    ∀ v ∈ vs, Storable v := by
  induction vs with
  | nil => nofun
  | cons v vs ih =>
    rw [StorableElems] at h
    exact List.forall_mem_cons.mpr ⟨h.1,ih h.2⟩

theorem StorableMembers.of_mem {ms : List (Bytes × JsonNode R)} (h : StorableMembers ms) :
    ∀ m ∈ ms, 0 ∉ m.1 ∧ Storable m.2 := by
  induction ms with
  | nil => nofun
  | cons m ms ih =>
    rw [StorableMembers] at h
    exact List.forall_mem_cons.mpr ⟨⟨h.1,h.2.1⟩,ih h.2.2⟩

/-- The parser on rendered text, by cases on the value. -/
theorem parseJson_render (v : JsonNode R) (hv : Storable v) : ParsesAs v := by
  intro p rest b hdb hp n o h
  have hd := hdb.left
  cases n with
  | zero => cases h
  | succ n =>
  match v with
  | .nullptr => exact absurd hv (by rw [Storable]; exact id)
  | .false =>
    have ht := tokenNext_on hp rfl (lexToken_false hd.not_ident)
    rw [parseJson,ht.eType] at h
    cases h
    exact ⟨rfl,_,ht.ready,rfl⟩
  | .true =>
    have ht := tokenNext_on hp rfl (lexToken_true hd.not_ident)
    rw [parseJson,ht.eType] at h
    cases h
    exact ⟨rfl,_,ht.ready,rfl⟩
  | .null =>
    have ht := tokenNext_on hp rfl (lexToken_null hd.not_ident)
    rw [parseJson,ht.eType] at h
    cases h
    exact ⟨rfl,_,ht.ready,rfl⟩
  | .real r =>
    rw [Storable] at hv
    have ht := tokenNext_real hv hd hp
    rw [parseJson,ht.eType] at h
    cases h
    exact ⟨by rw [ht.str,hv.atof _ hdb],_,ht.ready,rfl⟩
  | .string z =>
    rw [Storable] at hv
    have ht := tokenNext_string hv hp
    rw [parseJson,ht.eType] at h
    cases h
    exact ⟨by rw [tokenDequoteString_on ht],_,ht.ready,rfl⟩
  | .array [] =>
    have ht := tokenNext_punct hp rfl rfl
    have he := tokenNext_punct ht.ready rfl rfl
    rw [parseJson,ht.eType] at h
    simp only [he.eType,if_true] at h
    cases h
    exact ⟨rfl,_,he.ready,rfl⟩
  | .array (v::vs) =>
    rw [Storable] at hv
    have hvs := hv.of_mem
    rw [xjd1JsonRender,List.cons_append,List.append_assoc] at hp
    have ht := tokenNext_punct hp rfl rfl
    have hf := first_token (hvs v (by simp)) (renderElems_delimited vs rest b).left ht.ready
    rw [parseJson,ht.eType] at h
    simp only [if_neg hf] at h
    have hr := parseElems_render v vs (fun w hw => parseJson_render w (hvs w hw)) _ rest b ht.ready n [] o h
    rw [noEmptyStruct,endsInEmptyStruct]
    · exact hr
    · nofun
    · nofun
  | .struct [] =>
    have ht := tokenNext_punct hp rfl rfl
    have he := tokenNext_punct ht.ready rfl rfl
    rw [parseJson,ht.eType] at h
    simp only [he.eType,if_true] at h
    cases h
    exact ⟨rfl,he.eType,he.ready⟩
  | .struct ((k,v)::ms) =>
    rw [Storable] at hv
    have hms := hv.of_mem
    rw [xjd1JsonRender,List.cons_append,List.append_assoc,List.cons_append,List.append_assoc] at hp
    have ht := tokenNext_punct hp rfl rfl
    have hs := tokenNext_string (hms (k,v) (by simp)).1 ht.ready
    rw [parseJson,ht.eType] at h
    simp only [hs.eType,reduceCtorEq,if_false] at h
    have hr := parseMembers_render k v ms (fun m hm => (hms m hm).1)
      (fun m hm => parseJson_render m.2 (hms m hm).2) _ rest b ht.ready n [] o h
    rw [noEmptyStruct,endsInEmptyStruct]
    exact hr
termination_by sizeOf v
decreasing_by
  · have hlt := List.sizeOf_lt_of_mem hw
    simp only [JsonNode.array.sizeOf_spec]
    omega
  · have hlt := List.sizeOf_lt_of_mem hm
    have hp : sizeOf m = 1 + sizeOf m.1 + sizeOf m.2 := by cases m; rfl
    simp only [JsonNode.struct.sizeOf_spec]
    omega

/-- What the parser makes of a rendered value is what it makes of the part it sees. -/
theorem parse_render (v : JsonNode R) : ∃ o : JsonNode R × JsonStr, xjd1JsonParse (xjd1JsonRender v) = o.1 ∧
    parseJson (2*xjd1Strlen30 (xjd1JsonRender v) + 2)
      (tokenNext (jsonStr (xjd1JsonRender v) (xjd1Strlen30 (xjd1JsonRender v)))) = some o := by
  obtain ⟨o,ho,-⟩ := (parse_total (R := R) (2*xjd1Strlen30 (xjd1JsonRender v) + 2)).1
    (tokenNext (jsonStr (xjd1JsonRender v) (xjd1Strlen30 (xjd1JsonRender v)))) (by
      have h := left_jsonStr (xjd1JsonRender v) (xjd1Strlen30 (xjd1JsonRender v))
      omega)
  exact ⟨o,by rw [xjd1JsonParse,ho],ho⟩

/-- Below the limit a value is read back exactly when a closing brace can stand in for what is not stepped over. -/
theorem parse_render_iff (v : JsonNode R) (hv : Storable v) (hl : (xjd1JsonRender v).length < 2^30) :
    xjd1JsonParse (xjd1JsonRender v) = v ↔ noEmptyStruct v = true ∨ endsInEmptyStruct v = true := by
  obtain ⟨o,hx,ho⟩ := parse_render v
  have hp := ready_jsonStr (xjd1JsonRender v) (xjd1Strlen30 (xjd1JsonRender v))
  have hz : xjd1Strlen30 (xjd1JsonRender v) = (xjd1JsonRender v).length := Nat.mod_eq_of_lt hl
  rw [hz,List.take_length,List.drop_length] at hp
  rw [hz] at ho
  have hr := parseJson_render v hv _ [] [] (.inl rfl) (by rwa [List.append_nil]) _ o ho
  rw [hx]
  rw [Reads] at hr
  split at hr
  · simp [*]
  · split at hr
    · simp [*]
    · simp [*]

end Render

end Xjd1
