import Xjd1.Json.RoundTrip

/-! Text beyond the limit of the parser. It sees the first bytes of such a text only, and from a
rendered value that is cut off it never reads the value. -/
namespace Xjd1

variable {R : Type}

def JsonStr.Dead (p : JsonStr) : Prop := p.eType ≠ .comma ∧ p.eType ≠ .endArray ∧ p.eType ≠ .endStruct

theorem tokenNext_eType {p : JsonStr} (h : (tokenNext p).eType ≠ .eof) :
    ∃ w c t, p.unread = w ++ c::t ∧ (∀ d ∈ w, xjd1Isspace d = true) ∧ (tokenNext p).eType = (lexToken (c::t)).1 ∧
      (tokenNext p).unread = (c::t).drop (lexToken (c::t)).2 := by
  have hw := List.takeWhile_append_dropWhile (p := xjd1Isspace) (l := p.unread)
  cases hs : p.unread.dropWhile xjd1Isspace with
  | nil => exact absurd (by rw [tokenNext,hs]; rfl) h
  | cons c t =>
    rw [hs] at hw
    refine ⟨_,c,t,hw.symm,fun d hd => List.all_eq_true.mp List.all_takeWhile d hd,?_,?_⟩
    · rw [tokenNext,hs]
      rfl
    · have hn : tokenNext p = { p with
          iCur := p.iCur + p.n + (p.unread.takeWhile xjd1Isspace).length, n := (lexToken (c::t)).2,
          eType := (lexToken (c::t)).1 } := by
        rw [tokenNext,hs]
        rfl
      rw [hn,JsonStr.unread]
      simp only
      rw [← List.drop_drop,← List.drop_drop]
      change ((p.unread.drop _).drop _) = _
      nth_rewrite 2 [← hw]
      rw [List.drop_left]

theorem tokenNext_eof {p : JsonStr} (h : p.unread = []) : (tokenNext p).eType = .eof := by
  by_contra hne
  obtain ⟨w,c,t,hu,-⟩ := tokenNext_eType hne
  rw [h] at hu
  exact absurd hu.symm (by simp)

/-- The bytes and the lengths that the types of tokens need. -/
theorem lexToken_type (c : UInt8) (t : Bytes) :
    ((lexToken (c::t)).1 = .comma → c = ch ',') ∧ ((lexToken (c::t)).1 = .endArray → c = ch ']') ∧
      ((lexToken (c::t)).1 = .endStruct → c = ch '\x7d') ∧
      ((lexToken (c::t)).1 = .string → c = ch '"' ∧ (scanString t).2 = true) ∧
      ((lexToken (c::t)).1 = .true → 4 ≤ (c::t).length) ∧ ((lexToken (c::t)).1 = .false → 5 ≤ (c::t).length) ∧
      ((lexToken (c::t)).1 = .null → 4 ≤ (c::t).length) := by
  let P : JsonTok × ℕ → Prop := fun x => (x.1 = .comma → c = ch ',') ∧ (x.1 = .endArray → c = ch ']') ∧
    (x.1 = .endStruct → c = ch '\x7d') ∧ (x.1 = .string → c = ch '"' ∧ (scanString t).2 = true) ∧
    (x.1 = .true → 4 ≤ (c::t).length) ∧ (x.1 = .false → 5 ≤ (c::t).length) ∧ (x.1 = .null → 4 ≤ (c::t).length)
  have herror (k : ℕ) : P (.error,k) := by simp [P]
  have hreal (k : ℕ) : P (.real,k) := by simp [P]
  change P (if c = 0 then _ else _)
  refine iteInduction (fun _ => by simp [P]) fun _ => ?_
  refine iteInduction (fun hq => iteInduction (fun hs => by simp [P,hq,hs]) fun _ => herror _) fun _ => ?_
  iterate 6 refine iteInduction (fun hc => by simp [P,hc]) fun _ => ?_
  iterate 3
    refine iteInduction (fun _ => iteInduction (fun hw => ?_) fun _ => herror _) fun _ => ?_
    · have hle := isWord_le hw
      simp only [P,reduceCtorEq,false_imp_iff,true_and,and_true,true_imp_iff]
      exact hle
  refine iteInduction (fun _ => iteInduction (fun _ => hreal _) fun _ => herror _) fun _ => ?_
  exact iteInduction (fun _ => hreal _) fun _ => herror _

theorem dead_of_bytes {p : JsonStr} (h : ∀ c ∈ p.unread, c ≠ ch ',' ∧ c ≠ ch ']' ∧ c ≠ ch '\x7d') :
    (tokenNext p).Dead := by
  by_cases he : (tokenNext p).eType = .eof
  · simp [JsonStr.Dead,he]
  · obtain ⟨w,c,t,hu,-,ht,-⟩ := tokenNext_eType he
    obtain ⟨h1,h2,h3⟩ := h c (by rw [hu]; simp)
    obtain ⟨k1,k2,k3,-⟩ := lexToken_type c t
    rw [JsonStr.Dead,ht]
    exact ⟨mt k1 h1,mt k2 h2,mt k3 h3⟩

theorem mem_unread {p : JsonStr} {c : UInt8} (he : (tokenNext p).eType ≠ .eof) (h : c ∈ (tokenNext p).unread) :
    c ∈ p.unread := by
  obtain ⟨w,d,t,hu,-,-,hn⟩ := tokenNext_eType he
  rw [hn] at h
  rw [hu]
  exact List.mem_append_right _ (List.mem_of_mem_drop h)

def IsNumeric (c : UInt8) : Prop := xjd1Isdigit c = true ∨ c ∈ [ch '.',ch 'e',ch 'E',ch '+',ch '-']

theorem not_isNumeric {d : UInt8} (h : xjd1Isdigit d = false) (h' : [ch '.',ch 'e',ch 'E',ch '+',ch '-'].contains d = false) :
    ¬ IsNumeric d := by
  rintro (hd | hd)
  · rw [h] at hd
    cases hd
  · rw [List.contains_iff_mem.mpr hd] at h'
    cases h'

theorem IsNumeric.ne {c : UInt8} (h : IsNumeric c) : c ≠ ch ',' ∧ c ≠ ch ']' ∧ c ≠ ch '\x7d' := by
  refine ⟨?_,?_,?_⟩
  all_goals
    rintro rfl
    exact not_isNumeric rfl rfl h

theorem take_digits (s : Bytes) : ∀ c ∈ s.take (digits s), IsNumeric c := by
  rw [digits,← List.prefix_iff_eq_take.mp (List.takeWhile_prefix _)]
  exact fun c hc => .inl (List.all_eq_true.mp List.all_takeWhile c hc)

theorem take_scanFraction (s : Bytes) : ∀ c ∈ s.take (scanFraction s), IsNumeric c := by
  match s with
  | [] => simp
  | [c] => simp [scanFraction]
  | c::d::t =>
    rw [scanFraction]
    split
    · rename_i h
      rw [Nat.add_comm,List.take_succ_cons]
      exact List.forall_mem_cons.mpr ⟨.inr (by rw [h.1]; simp),take_digits _⟩
    · simp

theorem take_scanExponent (s : Bytes) : ∀ c ∈ s.take (scanExponent s), IsNumeric c := by
  rw [scanExponent]
  split
  · rename_i h
    rcases s with _ | ⟨c,_ | ⟨d,t⟩⟩
    · cases h
    · cases h
    · simp only [isExp,Bool.and_eq_true,Bool.or_eq_true,beq_iff_eq] at h
      rw [Nat.add_comm,List.take_succ_cons,List.take_succ_cons]
      refine List.forall_mem_cons.mpr ⟨.inr ?_,List.forall_mem_cons.mpr ⟨?_,take_digits t⟩⟩
      · rcases h.1 with rfl | rfl <;> simp
      · rcases h.2 with hd | ⟨rfl | rfl,-⟩
        · exact .inl hd
        · exact .inr (by simp)
        · exact .inr (by simp)
  · simp

theorem take_scanUnsigned {c : UInt8} (t : Bytes) (hc : xjd1Isdigit c = true) :
    ∀ d ∈ (c::t).take (scanUnsigned (c::t)), IsNumeric d := by
  have hint : ∀ d ∈ (c::t).take (if (c::t).head? = some (ch '0') then 1 else digits (c::t)), IsNumeric d := by
    split
    · simp [IsNumeric,hc]
    · exact take_digits _
  simp only [scanUnsigned]
  generalize (if (c::t).head? = some (ch '0') then 1 else digits (c::t)) = n at hint ⊢
  intro d hd
  rw [List.take_add,List.take_add,List.mem_append,List.mem_append] at hd
  rcases hd with (hd | hd) | hd
  · exact hint d hd
  · exact take_scanFraction _ d hd
  · exact take_scanExponent _ d hd

theorem real_numeric {z : Bytes} (h : lexToken z = (.real,z.length)) : ∀ c ∈ z, IsNumeric c := by
  match z with
  | [] => exact fun _ hc => absurd hc List.not_mem_nil
  | c::t =>
    rcases lexToken_eq_real h with ⟨rfl,hd⟩ | hd
    · cases t with
      | nil => cases hd
      | cons d t =>
        have hd' : xjd1Isdigit d = true := by simpa using hd
        rw [lexToken_minus _ hd,Prod.mk.injEq,List.length_cons,Nat.add_comm 1,Nat.succ_inj] at h
        refine List.forall_mem_cons.mpr ⟨.inr (by simp),?_⟩
        have := take_scanUnsigned t hd'
        rwa [h.2,List.take_length] at this
    · rw [lexToken_digit _ _ hd,Prod.mk.injEq] at h
      have := take_scanUnsigned t hd
      rwa [h.2,List.take_length] at this

theorem append_split {A B t u : Bytes} (h : A ++ B = t ++ u) :
    (∃ a, t = A ++ a ∧ B = a ++ u) ∨ ∃ c, c ≠ [] ∧ A = t ++ c ∧ u = c ++ B := by
  rcases List.append_eq_append_iff.mp h with ⟨a,ht,hb⟩ | ⟨c,hA,hu⟩
  · exact .inl ⟨a,ht,hb⟩
  · by_cases hc : c = []
    · subst hc
      exact .inl ⟨[],by simpa using hA.symm,by simpa using hu.symm⟩
    · exact .inr ⟨c,hc,hA,hu⟩

theorem scanString_cut {z t u : Bytes} (hz : 0 ∉ z) (h : z.flatMap escape ++ [ch '"'] = t ++ u) (hu : u ≠ []) :
    (scanString t).2 = false := by
  induction z generalizing t with
  | nil =>
    have ht : t = [] := by
      rcases t with _ | ⟨c,t⟩
      · rfl
      · simp only [List.flatMap_nil,List.nil_append,List.cons_append,List.cons.injEq,List.nil_eq,
          List.append_eq_nil_iff] at h
        exact absurd h.2.2 hu
    rw [ht]
    rfl
  | cons c z ih =>
    have hc : c ≠ 0 := fun h => hz (h ▸ List.mem_cons_self)
    have hz' : 0 ∉ z := fun h => hz (List.mem_cons_of_mem _ h)
    rw [List.flatMap_cons,List.append_assoc] at h
    rcases append_split h with ⟨a,rfl,ha⟩ | ⟨b,hb,hes,-⟩
    · have hrec := ih hz' ha
      by_cases he : c = ch '"' ∨ c = ch '\\'
      · rw [escape,if_pos he,List.cons_append,List.cons_append,List.nil_append,scanString.eq_def]
        exact hrec
      · rw [escape,if_neg he,List.cons_append,List.nil_append,scanString.eq_def]
        obtain ⟨hq,hs⟩ := not_or.mp he
        simp only [if_neg hc,if_neg hq,if_neg hs]
        exact hrec
    · rw [escape] at hes
      split at hes
      · rcases t with _ | ⟨d,_ | ⟨e,t⟩⟩
        · rfl
        · obtain ⟨rfl,-⟩ := List.cons.inj hes
          rfl
        · simp only [List.cons_append,List.cons.injEq,List.nil_eq,List.append_eq_nil_iff] at hes
          exact absurd hes.2.2.2 hb
      · rcases t with _ | ⟨d,t⟩
        · rfl
        · simp only [List.cons_append,List.cons.injEq,List.nil_eq,List.append_eq_nil_iff] at hes
          exact absurd hes.2.2 hb

theorem string_cut {z t u : Bytes} {p : JsonStr} (hz : 0 ∉ z) (h : renderString z = t ++ u) (hu : u ≠ [])
    (hp : p.unread = t) : (tokenNext p).eType ≠ .string := by
  intro he
  obtain ⟨w,c,r,hur,hw,ht,-⟩ := tokenNext_eType (p := p) (by rw [he]; decide)
  obtain ⟨rfl,hs⟩ := (lexToken_type c r).2.2.2.1 (ht.symm.trans he)
  rw [hp] at hur
  subst hur
  cases w with
  | nil =>
    rw [renderString,List.nil_append,List.cons_append,List.cons.injEq] at h
    rw [scanString_cut hz h.2 hu] at hs
    cases hs
  | cons d w =>
    obtain ⟨rfl,-⟩ := List.cons.inj h
    exact absurd (hw _ List.mem_cons_self) (by decide)

theorem word_length {p : JsonStr} : ((tokenNext p).eType = .true → 4 ≤ p.unread.length) ∧
    ((tokenNext p).eType = .false → 5 ≤ p.unread.length) ∧ ((tokenNext p).eType = .null → 4 ≤ p.unread.length) := by
  by_cases he : (tokenNext p).eType = .eof
  · simp [he]
  · obtain ⟨w,c,t,hu,-,ht,-⟩ := tokenNext_eType he
    obtain ⟨-,-,-,-,h1,h2,h3⟩ := lexToken_type c t
    have hle : (c::t).length ≤ p.unread.length := by
      rw [hu,List.length_append]
      omega
    rw [ht]
    exact ⟨fun h => (h1 h).trans hle,fun h => (h2 h).trans hle,fun h => (h3 h).trans hle⟩

section Cut
variable [CDouble R]

/-- What the first token of a text is when its value is `v`. -/
def Starts : JsonNode R → JsonTok → Prop
  | .nullptr, _ => True
  | .false, ty => ty = .false
  | .true, ty => ty = .true
  | .null, ty => ty = .null
  | .real _, ty => ty = .real
  | .string _, ty => ty = .string
  | .array _, ty => ty = .beginArray
  | .struct _, ty => ty = .beginStruct

theorem parseJson_starts {n : ℕ} {p : JsonStr} {o : JsonNode R × JsonStr} (h : parseJson n p = some o) :
    Starts o.1 p.eType := by
  cases n with
  | zero => cases h
  | succ n =>
    rw [parseJson] at h
    split at h
    case h_1 he =>
      split at h
      · cases h
        exact he
      · rcases parseMembers_prefix _ _ _ _ h with hv | ⟨l,hv⟩
        · rw [hv]
          trivial
        · rw [hv]
          exact he
    case h_2 he =>
      split at h
      · cases h
        exact he
      · rcases parseElems_prefix _ _ _ _ h with hv | ⟨l,hv⟩
        · rw [hv]
          trivial
        · rw [hv]
          exact he
    case h_8 =>
      cases h
      trivial
    all_goals
      cases h
      assumption

/-- From a part of its text that is short of the end a value is not read, unless only a closing
brace is missing or it is a number; then the parser is at a token that ends every container. -/
def Curtailed (v : JsonNode R) : Prop :=
  ∀ (p : JsonStr) (t u s : Bytes), xjd1JsonRender v = t ++ u → u ≠ [] → Ready p t (u ++ s) →
    ∀ (n : ℕ) (o : JsonNode R × JsonStr), parseJson n (tokenNext p) = some o → o.1 = v →
      o.2.Dead ∧ (u.length = 1 ∨ ∃ r, v = .real r)

theorem parseElems_eof {n : ℕ} {p q : JsonStr} {ar vs : List (JsonNode R)} {w : JsonNode R} {o : JsonNode R × JsonStr}
    (h : parseElems (n+1) p ar = some o) (hw : parseJson n p = some (w,q)) (hq : q.Dead) : o.1 ≠ .array vs := by
  obtain ⟨h1,h2,-⟩ := hq
  simp only [parseElems,hw] at h
  cases h
  exact fun h => by cases h

theorem dead_eof {p : JsonStr} (h : p.unread = []) : (tokenNext p).Dead := by
  simp [JsonStr.Dead,tokenNext_eof h]

theorem elem_cut {v : JsonNode R} {vs ar : List (JsonNode R)} {p : JsonStr} {t c s : Bytes} {n : ℕ}
    {o : JsonNode R × JsonStr} (hcut : Curtailed v) (ht : xjd1JsonRender v = t ++ c) (hc : c ≠ [])
    (hp : Ready p t (c ++ s)) (h : parseElems n (tokenNext p) ar = some o) : o.1 ≠ .array (ar ++ v::vs) := by
  cases n with
  | zero => cases h
  | succ m =>
    cases hw : (parseJson m (tokenNext p) : Option (JsonNode R × JsonStr)) with
    | none => simp [parseElems,hw] at h
    | some o' =>
      by_cases hv : o'.1 = v
      · exact parseElems_eof h hw (hcut p t c s ht hc hp m o' hw hv).1
      · exact parseElems_other h hw hv

theorem parseElems_cut (v : JsonNode R) (vs : List (JsonNode R)) (hall : ∀ w ∈ v::vs, ParsesAs w ∧ Curtailed w)
    (p : JsonStr) (t u s : Bytes) (ht : xjd1JsonRender v ++ renderElems vs = t ++ u) (hu : u ≠ [])
    (hp : Ready p t (u ++ s)) (n : ℕ) (ar : List (JsonNode R)) (o : JsonNode R × JsonStr)
    (h : parseElems n (tokenNext p) ar = some o) : o.1 ≠ .array (ar ++ v::vs) := by
  induction vs generalizing v p t n ar with
  | nil =>
    obtain ⟨hv,hcut⟩ := hall v List.mem_cons_self
    rcases append_split ht with ⟨a,rfl,ha⟩ | ⟨c,hc,hvt,rfl⟩
    · obtain rfl : a = [] := by
        rcases a with _ | ⟨d,a⟩
        · rfl
        · simp only [renderElems,List.cons_append,List.cons.injEq,List.nil_eq,List.append_eq_nil_iff] at ha
          exact absurd ha.2.2 hu
      have hd : Delimited ([] ++ (u ++ s)) := by
        have hd := renderElems_delimited ([] : List (JsonNode R)) s []
        rwa [List.append_nil,ha] at hd
      obtain ⟨m,w,q,rfl,hw,hr⟩ := elem_read hv hd hp h
      cases hne : noEmptyStruct v with
      | true =>
        rw [hne] at hr
        obtain ⟨rfl,p',hp',rfl⟩ := hr
        exact parseElems_eof h hw (dead_eof hp'.unread)
      | false =>
        rw [hne] at hr
        exact parseElems_spoilt h hw hr
    · rw [List.append_assoc] at hp
      exact elem_cut hcut hvt hc hp h
  | cons v' vs ih =>
    obtain ⟨hv,hcut⟩ := hall v List.mem_cons_self
    rcases append_split ht with ⟨a,rfl,ha⟩ | ⟨c,hc,hvt,rfl⟩
    · have hd : Delimited (a ++ (u ++ s)) := by
        have hd := renderElems_delimited (v'::vs) s []
        rwa [List.append_nil,ha,List.append_assoc] at hd
      obtain ⟨m,w,q,rfl,hw,hr⟩ := elem_read hv hd hp h
      cases hne : noEmptyStruct v with
      | true =>
        rw [hne] at hr
        obtain ⟨rfl,p',hp',rfl⟩ := hr
        rcases a with _ | ⟨d,a⟩
        · exact parseElems_eof h hw (dead_eof hp'.unread)
        · rw [renderElems,List.cons_append,List.cons.injEq] at ha
          obtain ⟨rfl,ha⟩ := ha
          have ht := tokenNext_punct hp' rfl rfl
          simp only [parseElems,hw,ht.eType] at h
          have hr := ih v' (fun w hw => hall w (List.mem_cons_of_mem _ hw)) _ a ha ht.ready _ _ h
          rwa [List.append_assoc] at hr
      | false =>
        rw [hne] at hr
        exact parseElems_spoilt h hw hr
    · rw [List.append_assoc] at hp
      exact elem_cut hcut hvt hc hp h

theorem parseMembers_eof {n : ℕ} {p q : JsonStr} {st ms : List (Bytes × JsonNode R)} {w : JsonNode R}
    {o : JsonNode R × JsonStr} (h : parseMembers (n+1) p st = some o) (hp : p.eType = .string)
    (hc : (tokenNext p).eType = .colon) (hw : parseJson n (tokenNext (tokenNext p)) = some (w,q)) (hq : q.Dead) :
    o.1 ≠ .struct ms := by
  obtain ⟨h1,-,h3⟩ := hq
  simp only [parseMembers,hp,hc,hw,if_true] at h
  cases h
  exact fun h => by cases h

theorem member_cut {k : Bytes} {v : JsonNode R} {ms st : List (Bytes × JsonNode R)} {p : JsonStr} {t c s : Bytes}
    {n : ℕ} {o : JsonNode R × JsonStr} (hk : 0 ∉ k) (hcut : Curtailed v) (ht : xjd1JsonRender v = t ++ c) (hc : c ≠ [])
    (hp : Ready p (renderString k ++ ch ':' :: t) (c ++ s)) (h : parseMembers n (tokenNext p) st = some o) :
    o.1 ≠ .struct (st ++ (k,v)::ms) := by
  have hkey := tokenNext_string hk hp
  have hcolon := tokenNext_punct hkey.ready rfl rfl
  cases n with
  | zero => cases h
  | succ m =>
    cases hw : (parseJson m (tokenNext (tokenNext (tokenNext p))) : Option (JsonNode R × JsonStr)) with
    | none => simp [parseMembers,hkey.eType,hcolon.eType,hw] at h
    | some o' =>
      by_cases hv : o'.1 = v
      · exact parseMembers_eof h hkey.eType hcolon.eType hw (hcut _ t c s ht hc hcolon.ready m o' hw hv).1
      · exact parseMembers_other h hkey.eType hcolon.eType hw hv

theorem key_cut {k z t u s : Bytes} {ms st : List (Bytes × JsonNode R)} {p : JsonStr} {n : ℕ}
    {o : JsonNode R × JsonStr} (hk : 0 ∉ k) (ht : renderString k ++ ch ':' :: z = t ++ u) (hp : Ready p t (u ++ s)) (h : parseMembers n (tokenNext p) st = some o) (ho : o.1 = .struct ms) :
    ∃ a, t = renderString k ++ ch ':' :: a ∧ z = a ++ u := by
  cases n with
  | zero => cases h
  | succ m =>
    rcases append_split ht with ⟨a,rfl,ha⟩ | ⟨c,hc,hkt,-⟩
    · rcases a with _ | ⟨d,a⟩
      · have hkey := tokenNext_string hk hp
        have heof := tokenNext_eof hkey.ready.unread
        simp only [parseMembers,hkey.eType,heof,if_true,reduceCtorEq,if_false] at h
        cases h
        cases ho
      · rw [List.cons_append,List.cons.injEq] at ha
        obtain ⟨rfl,ha⟩ := ha
        exact ⟨a,rfl,ha⟩
    · have hne := string_cut hk hkt hc hp.unread
      simp only [parseMembers,if_neg hne] at h
      cases h
      cases ho

theorem parseMembers_cut (k : Bytes) (v : JsonNode R) (ms : List (Bytes × JsonNode R))
    (hk : ∀ m ∈ (k,v)::ms, 0 ∉ m.1) (hall : ∀ m ∈ (k,v)::ms, ParsesAs m.2 ∧ Curtailed m.2) (p : JsonStr) (t u s : Bytes)
    (ht : renderString k ++ ch ':' :: (xjd1JsonRender v ++ renderMembers ms) = t ++ u) (hu : u ≠ [])
    (hp : Ready p t (u ++ s)) (n : ℕ) (st : List (Bytes × JsonNode R)) (o : JsonNode R × JsonStr)
    (h : parseMembers n (tokenNext p) st = some o) (ho : o.1 = .struct (st ++ (k,v)::ms)) :
    o.2.Dead ∧ u.length = 1 := by
  induction ms generalizing k v p t n st with
  | nil =>
    obtain ⟨hv,hcut⟩ := hall _ List.mem_cons_self
    have hk0 := hk _ List.mem_cons_self
    obtain ⟨a,rfl,ha⟩ := key_cut hk0 ht hp h ho
    rcases append_split ha with ⟨b,rfl,hb⟩ | ⟨c,hc,hvt,rfl⟩
    · obtain ⟨rfl,rfl⟩ : b = [] ∧ u = [ch '\x7d'] := by
        rcases b with _ | ⟨d,b⟩
        · exact ⟨rfl,by simpa [renderMembers] using hb.symm⟩
        · simp only [renderMembers,List.cons_append,List.cons.injEq,List.nil_eq,List.append_eq_nil_iff] at hb
          exact absurd hb.2.2 hu
      obtain ⟨m,w,q,rfl,hs,hc,hd,hw,hr⟩ := member_read hk0 hv (.inr ⟨_,_,rfl,.inr (.inr rfl)⟩) hp h
      cases hne : noEmptyStruct v with
      | true =>
        rw [hne] at hr
        obtain ⟨rfl,p',hp',rfl⟩ := hr
        exact absurd ho (parseMembers_eof h hs hc hw (dead_eof hp'.unread))
      | false =>
        rw [hne] at hr
        cases he : endsInEmptyStruct v with
        | true =>
          -- the brace of the empty struct passes for the one that is missing
          rw [he] at hr
          obtain ⟨rfl,hq,hr⟩ := hr
          simp only at hq hr
          simp only [parseMembers,hs,hc,hw,hq,hd,if_true] at h
          cases h
          exact ⟨dead_eof hr.unread,rfl⟩
        | false =>
          rw [he] at hr
          exact absurd ho (parseMembers_other h hs hc hw hr)
    · rw [List.append_assoc] at hp
      exact absurd ho (member_cut hk0 hcut hvt hc hp h)
  | cons m' ms ih =>
    obtain ⟨hv,hcut⟩ := hall _ List.mem_cons_self
    have hk0 := hk _ List.mem_cons_self
    obtain ⟨a,rfl,ha⟩ := key_cut hk0 ht hp h ho
    rcases append_split ha with ⟨b,rfl,hb⟩ | ⟨c,hc,hvt,rfl⟩
    · have hdel : Delimited (b ++ (u ++ s)) := by
        have hd := renderMembers_delimited (m'::ms) s []
        rwa [List.append_nil,hb,List.append_assoc] at hd
      obtain ⟨m,w,q,rfl,hs,hc,hd,hw,hr⟩ := member_read hk0 hv hdel hp h
      cases hne : noEmptyStruct v with
      | true =>
        rw [hne] at hr
        obtain ⟨rfl,p',hp',rfl⟩ := hr
        rcases b with _ | ⟨d,b⟩
        · exact absurd ho (parseMembers_eof h hs hc hw (dead_eof hp'.unread))
        · rw [renderMembers,List.cons_append,List.cons.injEq] at hb
          obtain ⟨rfl,hb⟩ := hb
          have ht := tokenNext_punct hp' rfl rfl
          simp only [parseMembers,hs,hc,hw,ht.eType,hd,if_true] at h
          refine ih m'.1 m'.2 (fun m hm => hk m (List.mem_cons_of_mem _ hm))
            (fun m hm => hall m (List.mem_cons_of_mem _ hm)) _ b hb ht.ready _ _ h ?_
          rw [ho,List.append_assoc]
          rfl
      | false =>
        rw [hne] at hr
        cases he : endsInEmptyStruct v with
        | true =>
          rw [he] at hr
          obtain ⟨rfl,hq,hr⟩ := hr
          simp only at hq
          simp only [parseMembers,hs,hc,hw,hq,hd,if_true] at h
          cases h
          simp only [JsonNode.struct.injEq,List.append_cancel_left_eq] at ho
          cases ho
        | false =>
          rw [he] at hr
          exact absurd ho (parseMembers_other h hs hc hw hr)
    · rw [List.append_assoc] at hp
      exact absurd ho (member_cut hk0 hcut hvt hc hp h)

theorem parseElems_nothing {n : ℕ} {p : JsonStr} {ar : List (JsonNode R)} {o : JsonNode R × JsonStr}
    (hp : p.eType = .eof) (h : parseElems n p ar = some o) : o.1 = .nullptr := by
  match n with
  | 0 => cases h
  | 1 => cases h
  | n+2 =>
    simp only [parseElems,parseJson,hp] at h
    cases h
    rfl

theorem parseMembers_nothing {n : ℕ} {p : JsonStr} {st : List (Bytes × JsonNode R)} {o : JsonNode R × JsonStr}
    (hp : p.eType = .eof) (h : parseMembers n p st = some o) : o.1 = .nullptr := by
  cases n with
  | zero => cases h
  | succ n =>
    simp only [parseMembers,hp,reduceCtorEq,if_false] at h
    cases h
    rfl

theorem punct_cut {p : JsonStr} {ty : JsonTok} {c : UInt8} {z t u s : Bytes} (hty : (tokenNext p).eType = ty)
    (hne : ty ≠ .eof) (ht : c::z = t ++ u) (hp : Ready p t s) : ∃ t', t = c::t' ∧ z = t' ++ u := by
  cases t with
  | nil => exact absurd ((tokenNext_eof hp.unread).symm.trans hty).symm hne
  | cons d t =>
    rw [List.cons_append,List.cons.injEq] at ht
    obtain ⟨rfl,ht⟩ := ht
    exact ⟨t,rfl,ht⟩

/-- The parser on text that is cut off, by cases on the value. -/
theorem curtailed (v : JsonNode R) (hv : Storable v) : Curtailed v := by
  intro p t u s ht hu hp n o h ho
  have hstart : Starts v (tokenNext p).eType := ho ▸ parseJson_starts h
  have hlen : t.length < (xjd1JsonRender v).length := by
    rw [ht,List.length_append]
    exact Nat.lt_add_of_pos_right (List.length_pos_iff.mpr hu)
  obtain ⟨hword,hword',hword''⟩ := word_length (p := p)
  rw [hp.unread] at hword hword' hword''
  cases n with
  | zero => cases h
  | succ n =>
  match v with
  | .nullptr => exact absurd hv (by rw [Storable]; exact id)
  | .false => exact absurd (hword' hstart) (Nat.not_le.mpr hlen)
  | .true => exact absurd (hword hstart) (Nat.not_le.mpr hlen)
  | .null => exact absurd (hword'' hstart) (Nat.not_le.mpr hlen)
  | .string z =>
    rw [Storable] at hv
    exact absurd hstart (string_cut hv (by rw [← ht,xjd1JsonRender]) hu hp.unread)
  | .real r =>
    rw [Storable] at hv
    rw [Starts] at hstart
    rw [parseJson,hstart] at h
    cases h
    refine ⟨dead_of_bytes fun c hc => ?_,.inr ⟨r,rfl⟩⟩
    have hmem := mem_unread (by rw [hstart]; decide) hc
    rw [hp.unread] at hmem
    refine (real_numeric hv.lex c ?_).ne
    rw [xjd1JsonRender] at ht
    rw [ht]
    exact List.mem_append_left _ hmem
  | .array [] =>
    obtain ⟨t,rfl,hrest⟩ := punct_cut hstart (by decide) (by rw [xjd1JsonRender] at ht; exact ht) hp
    obtain rfl : t = [] := by
      rcases t with _ | ⟨c,t⟩
      · rfl
      · simp only [List.cons_append,List.cons.injEq,List.nil_eq,List.append_eq_nil_iff] at hrest
        exact absurd hrest.2.2 hu
    have htok := tokenNext_punct hp rfl rfl
    have heof := tokenNext_eof htok.ready.unread
    rw [parseJson,htok.eType] at h
    simp only [heof,reduceCtorEq,if_false] at h
    rw [parseElems_nothing heof h] at ho
    cases ho
  | .array (v::vs) =>
    rw [Storable] at hv
    have hvs := hv.of_mem
    obtain ⟨t,rfl,hrest⟩ := punct_cut hstart (by decide) (by rw [xjd1JsonRender] at ht; exact ht) hp
    have htok := tokenNext_punct hp rfl rfl
    rw [parseJson,htok.eType] at h
    simp only at h
    split at h
    · cases h
      cases ho
    · exact absurd ho (parseElems_cut v vs (fun w hw => ⟨parseJson_render w (hvs w hw),curtailed w (hvs w hw)⟩) _ t u s hrest
        hu htok.ready n [] o h)
  | .struct [] =>
    obtain ⟨t,rfl,hrest⟩ := punct_cut hstart (by decide) (by rw [xjd1JsonRender] at ht; exact ht) hp
    obtain rfl : t = [] := by
      rcases t with _ | ⟨c,t⟩
      · rfl
      · simp only [List.cons_append,List.cons.injEq,List.nil_eq,List.append_eq_nil_iff] at hrest
        exact absurd hrest.2.2 hu
    have htok := tokenNext_punct hp rfl rfl
    have heof := tokenNext_eof htok.ready.unread
    rw [parseJson,htok.eType] at h
    simp only [heof,reduceCtorEq,if_false] at h
    rw [parseMembers_nothing heof h] at ho
    cases ho
  | .struct ((k,v)::ms) =>
    rw [Storable] at hv
    have hms := hv.of_mem
    obtain ⟨t,rfl,hrest⟩ := punct_cut hstart (by decide) (by rw [xjd1JsonRender] at ht; exact ht) hp
    have htok := tokenNext_punct hp rfl rfl
    rw [parseJson,htok.eType] at h
    simp only at h
    split at h
    · cases h
      cases ho
    · obtain ⟨hdead,hone⟩ := parseMembers_cut k v ms (fun m hm => (hms m hm).1)
        (fun m hm => ⟨parseJson_render m.2 (hms m hm).2,curtailed m.2 (hms m hm).2⟩) _ t u s hrest hu htok.ready n [] o h ho
      exact ⟨hdead,.inl hone⟩
termination_by sizeOf v
decreasing_by
  · have hlt := List.sizeOf_lt_of_mem hw
    simp only [JsonNode.array.sizeOf_spec]
    omega
  · have hlt := List.sizeOf_lt_of_mem hm
    have hp : sizeOf m = 1 + sizeOf m.1 + sizeOf m.2 := by cases m; rfl
    simp only [JsonNode.struct.sizeOf_spec]
    omega

end Cut

theorem readsBack_seven : ReadsBack (7 : Int) := by
  refine ⟨rfl,by decide,fun s hs => ?_⟩
  rcases hs with rfl | ⟨c,t,rfl,rfl | rfl | rfl⟩ <;> rfl

end Xjd1
