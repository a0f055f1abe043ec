import Xjd1.Json.Recovery

/-! Which texts are accepted. On JSON it matters where the empty structs are, as
each closes the struct around it as well. -/
namespace Xjd1

variable {R : Type}

def Reading.clean : Reading → Bool
  | .value _ whole | .elem _ whole | .member _ whole | .label _ whole | .colon _ whole | .after _ whole => whole
  | .done whole => whole
  | .failed => false

theorem gotValue_clean (st : List Bracket) (whole : Bool) : (gotValue st whole).clean = whole := by
  cases st <;> rfl

theorem afterStep_clean {st : List Bracket} {whole : Bool} {t : JsonTok}
    (h : (afterStep st whole t).clean = true) : whole = true := by
  induction st generalizing whole with
  | nil => cases h
  | cons b st ih =>
    cases b <;>
    · rw [afterStep] at h
      split at h
      · exact h
      · split at h
        · rwa [gotValue_clean] at h
        · cases ih h

theorem valueStep_clean {st : List Bracket} {whole : Bool} {t : JsonTok}
    (h : (valueStep st whole t).clean = true) : whole = true := by
  rw [valueStep] at h
  split at h
  · rwa [gotValue_clean] at h
  split at h
  · exact h
  split at h
  · exact h
  · cases afterStep_clean h

theorem labelStep_clean {st : List Bracket} {whole : Bool} {t : JsonTok}
    (h : (labelStep st whole t).clean = true) : whole = true := by
  rw [labelStep] at h
  split at h
  · exact h
  · cases afterStep_clean h

theorem Reading.step_clean {s : Reading} {t : JsonTok} (h : (s.step t).clean = true) : s.clean = true := by
  cases s with
  | value st whole => exact valueStep_clean h
  | elem st whole =>
    rw [Reading.step] at h
    split at h
    · rwa [gotValue_clean] at h
    · exact valueStep_clean h
  | member st whole =>
    rw [Reading.step] at h
    split at h
    · split at h
      · exact h
      · exact afterStep_clean h
    · exact labelStep_clean h
  | label st whole => exact labelStep_clean h
  | colon st whole =>
    rw [Reading.step] at h
    split at h
    · exact h
    · cases afterStep_clean h
  | after st whole => exact afterStep_clean h
  | done whole => exact h
  | failed => cases h

theorem Reading.run_clean {s : Reading} {ts : List JsonTok} (h : s.run ts = some true) : s.clean = true := by
  induction ts generalizing s with
  | nil => cases s <;> simp_all [Reading.run,Reading.verdict,Reading.clean]
  | cons t ts ih => exact Reading.step_clean (ih h)

mutual
def JsonTree.full : JsonTree → Bool
  | .atom _ _ => true
  | .array vs => fullAll vs
  | .struct [] => false
  | .struct (v::vs) => v.full && fullAll vs

def fullAll : List JsonTree → Bool
  | [] => true
  | v::vs => v.full && fullAll vs
end

mutual
/-- How many structs are open after the value if `d` are before it, none of them in an
array; 0 once the outermost one is closed. An array with an empty struct in it is not read. -/
def JsonTree.opens : JsonTree → ℕ → Option ℕ
  | .atom _ _, d => some d
  | .array vs, d => if fullAll vs then some d else none
  | .struct [], d => some (d-1)
  | .struct (v::vs), d =>
    (v.opens (d+1)).bind fun d' => if d' = 0 then some 0 else (membersOpen vs d').map (·-1)

def membersOpen : List JsonTree → ℕ → Option ℕ
  | [], d => some d
  | v::vs, d => (v.opens d).bind fun d' => if d' = 0 then some 0 else membersOpen vs d'
end

theorem toks_head (v : JsonTree) : ∃ t ts, v.toks = t::ts ∧ t ≠ .endArray := by
  cases v with
  | atom t ht => exact ⟨t,[],by rw [JsonTree.toks],fun e => by rw [e] at ht; cases ht⟩
  | array vs => cases vs <;> exact ⟨.beginArray,_,by rw [JsonTree.toks],nofun⟩
  | struct vs => cases vs <;> exact ⟨.beginStruct,_,by rw [JsonTree.toks],nofun⟩

theorem elem_run (v : JsonTree) (st : List Bracket) (whole : Bool) (r : List JsonTok) :
    (Reading.elem st whole).run (v.toks ++ r) = (Reading.value (.array::st) whole).run (v.toks ++ r) := by
  obtain ⟨t,ts,hv,ht⟩ := toks_head v
  have hs : (Reading.elem st whole).step t = (Reading.value (.array::st) whole).step t := if_neg ht
  rw [hv,List.cons_append,Reading.run_cons,Reading.run_cons,hs]

mutual
theorem full_run (v : JsonTree) (hv : v.full = true) (st : List Bracket) (whole : Bool) (r : List JsonTok) :
    (Reading.value st whole).run (v.toks ++ r) = (gotValue st whole).run r :=
  match v with
  | .atom t ht => by
    rw [JsonTree.toks,List.singleton_append,Reading.run_cons,Reading.step,valueStep,if_pos ht]
  | .array [] => by
    rw [JsonTree.toks]
    rfl
  | .array (v::vs) => by
    rw [JsonTree.full,fullAll,Bool.and_eq_true] at hv
    rw [JsonTree.toks,List.cons_append,List.append_assoc,Reading.run_cons]
    exact (elem_run v st whole _).trans ((full_run v hv.1 _ whole _).trans (fullElems_run vs hv.2 st whole r))
  | .struct [] => by cases hv
  | .struct (v::vs) => by
    rw [JsonTree.full,Bool.and_eq_true] at hv
    rw [JsonTree.toks,List.cons_append,List.cons_append,List.cons_append,List.append_assoc]
    exact (full_run v hv.1 (.struct::st) whole _).trans (fullMembers_run vs hv.2 st whole r)

theorem fullElems_run (vs : List JsonTree) (hv : fullAll vs = true) (st : List Bracket) (whole : Bool)
    (r : List JsonTok) : (Reading.after (.array::st) whole).run (elemToks vs ++ r) = (gotValue st whole).run r :=
  match vs with
  | [] => rfl
  | v::vs => by
    rw [fullAll,Bool.and_eq_true] at hv
    rw [elemToks,List.cons_append,List.append_assoc]
    exact (full_run v hv.1 (.array::st) whole _).trans (fullElems_run vs hv.2 st whole r)

theorem fullMembers_run (vs : List JsonTree) (hv : fullAll vs = true) (st : List Bracket) (whole : Bool)
    (r : List JsonTok) : (Reading.after (.struct::st) whole).run (memberToks vs ++ r) = (gotValue st whole).run r :=
  match vs with
  | [] => rfl
  | v::vs => by
    rw [fullAll,Bool.and_eq_true] at hv
    rw [memberToks,List.cons_append,List.cons_append,List.cons_append,List.append_assoc]
    exact (full_run v hv.1 (.struct::st) whole _).trans (fullMembers_run vs hv.2 st whole r)
end

/-- `k` structs open inside an array. -/
def structsIn (k : ℕ) (st : List Bracket) : List Bracket := List.replicate k .struct ++ .array::st

/-- Reading goes wrong for good, or closes structs down to `i` with `i + m < k`. -/
def Sinks (s : Reading) (ts : List JsonTok) (whole : Bool) (st : List Bracket) (m k : ℕ) : Prop :=
  (∀ r, s.run (ts ++ r) ≠ some true) ∨
    ∃ i, i + m < k ∧ ∀ r, s.run (ts ++ r) = (Reading.after (structsIn i st) whole).run r

theorem member_in_array (vs : List JsonTree) (whole : Bool) (st : List Bracket) (r : List JsonTok) :
    (Reading.after (.array::st) whole).run (memberToks vs ++ r) ≠ some true := by
  cases vs with
  | nil =>
    intro h
    have hc := Reading.step_clean (s := .after (.array::st) false) (t := .endStruct) (Reading.run_clean h)
    cases hc
  | cons v vs =>
    intro h
    rw [memberToks,List.cons_append,List.cons_append,List.cons_append] at h
    have hc := Reading.step_clean (s := .after (.array::st) false) (t := .colon) (Reading.run_clean h)
    cases hc

theorem sinks_append {v : JsonTree} {vs : List JsonTree} {whole : Bool} {st : List Bracket}
    (hf : (v.full && fullAll vs) = false)
    (hv : v.full = false → ∀ k, Sinks (.value (structsIn k st) whole) v.toks whole st 0 k)
    (hvs : fullAll vs = false → ∀ k, Sinks (.after (structsIn k st) whole) (memberToks vs) whole st 1 k) (k : ℕ) :
    Sinks (.value (structsIn k st) whole) (v.toks ++ memberToks vs) whole st 1 k := by
  rw [Sinks]
  simp only [List.append_assoc]
  cases hvf : v.full with
  | true =>
    have hgot : gotValue (structsIn k st) whole = .after (structsIn k st) whole := by cases k <;> rfl
    rw [hvf,Bool.true_and] at hf
    simp only [full_run v hvf,hgot]
    exact hvs hf k
  | false =>
    rcases hv hvf k with hbad | ⟨i,hi,hrun⟩
    · exact .inl fun r => hbad _
    simp only [hrun]
    cases i with
    | zero => exact .inl fun r => member_in_array vs whole st r
    | succ i =>
      cases hvsf : fullAll vs with
      | true =>
        have hgot : gotValue (structsIn i st) whole = .after (structsIn i st) whole := by cases i <;> rfl
        refine .inr ⟨i,by omega,fun r => ?_⟩
        rw [← hgot]
        exact fullMembers_run vs hvsf (structsIn i st) whole r
      | false =>
        rcases hvs hvsf (i+1) with hbad | ⟨j,hj,hrun⟩
        · exact .inl hbad
        · exact .inr ⟨j,by omega,hrun⟩

theorem elems_append {v : JsonTree} {vs : List JsonTree} {whole : Bool} {st : List Bracket}
    (hf : (v.full && fullAll vs) = false) (hv : v.full = false → Sinks (.value (structsIn 0 st) whole) v.toks whole st 0 0)
    (hvs : fullAll vs = false → ∀ r, (Reading.after (.array::st) whole).run (elemToks vs ++ r) ≠ some true)
    (r : List JsonTok) : (Reading.value (.array::st) whole).run (v.toks ++ (elemToks vs ++ r)) ≠ some true := by
  cases hvf : v.full with
  | true =>
    rw [hvf,Bool.true_and] at hf
    rw [full_run v hvf]
    exact hvs hf r
  | false =>
    rcases hv hvf with hbad | ⟨i,hi,_⟩
    · exact hbad _
    · omega

mutual
theorem sinks_value (v : JsonTree) (hv : v.full = false) (whole : Bool) (st : List Bracket) (k : ℕ) :
    Sinks (.value (structsIn k st) whole) v.toks whole st 0 k :=
  match v with
  | .atom _ _ => by cases hv
  | .array [] => by cases hv
  | .array (v::vs) => by
    refine .inl fun r => ?_
    rw [JsonTree.toks,List.cons_append,List.append_assoc,Reading.run_cons]
    change (Reading.elem (structsIn k st) whole).run _ ≠ _
    rw [elem_run]
    exact elems_append hv (fun h => sinks_value v h whole _ 0) (fun h r => sinks_elems vs h whole _ r) r
  | .struct [] => by
    cases k with
    | zero =>
      refine .inl fun r h => ?_
      have hc := Reading.step_clean (s := .after (.array::st) false) (t := .endStruct) (Reading.run_clean h)
      cases hc
    | succ k =>
      refine .inr ⟨k,by omega,fun r => ?_⟩
      cases k <;> rfl
  | .struct (v::vs) => by
    have hs := sinks_append hv (fun h k => sinks_value v h whole st k) (fun h k => sinks_members vs h whole st k) (k+1)
    rcases hs with hbad | ⟨i,hi,hrun⟩
    · exact .inl fun r h => hbad r (by rw [JsonTree.toks] at h; exact h)
    · exact .inr ⟨i,by omega,fun r => by rw [← hrun,JsonTree.toks]; rfl⟩

theorem sinks_elems (vs : List JsonTree) (hv : fullAll vs = false) (whole : Bool) (st : List Bracket)
    (r : List JsonTok) : (Reading.after (.array::st) whole).run (elemToks vs ++ r) ≠ some true :=
  match vs with
  | [] => by cases hv
  | v::vs => by
    rw [elemToks,List.cons_append,List.append_assoc,Reading.run_cons]
    exact elems_append hv (fun h => sinks_value v h whole _ 0) (fun h r => sinks_elems vs h whole _ r) r

theorem sinks_members (vs : List JsonTree) (hv : fullAll vs = false) (whole : Bool) (st : List Bracket) (k : ℕ) :
    Sinks (.after (structsIn k st) whole) (memberToks vs) whole st 1 k :=
  match vs with
  | [] => by cases hv
  | v::vs => by
    have hs := sinks_append hv (fun h k => sinks_value v h whole st k) (fun h k => sinks_members vs h whole st k) k
    cases k with
    | zero => exact .inl fun r => member_in_array (v::vs) whole st r
    | succ k =>
      rw [memberToks]
      exact hs
end

def Follows (s : Reading) (ts : List JsonTok) (whole : Bool) : Option ℕ → Prop
  | some d => ∀ r, s.run (ts ++ r) = (gotValue (List.replicate d .struct) whole).run r
  | none => ∀ r, s.run (ts ++ r) ≠ some true

theorem follows_append {v : JsonTree} {vs : List JsonTree} {whole : Bool} {d : ℕ}
    (hv : Follows (.value (List.replicate d .struct) whole) v.toks whole (v.opens d))
    (hvs : ∀ d, 0 < d → Follows (.after (List.replicate d .struct) whole) (memberToks vs) whole
      ((membersOpen vs d).map (·-1))) :
    Follows (.value (List.replicate d .struct) whole) (v.toks ++ memberToks vs) whole
      ((v.opens d).bind fun d' => if d' = 0 then some 0 else (membersOpen vs d').map (·-1)) := by
  cases ho : v.opens d with
  | none =>
    rw [ho] at hv
    intro r
    rw [List.append_assoc]
    exact hv _
  | some d' =>
    rw [ho] at hv
    rw [Option.bind_some]
    cases d' with
    | zero =>
      intro r
      rw [List.append_assoc,hv]
      exact (Reading.run_done whole _).trans (Reading.run_done whole _).symm
    | succ d' =>
      have h := hvs (d'+1) (Nat.succ_pos d')
      rw [if_neg (Nat.succ_ne_zero d')]
      cases hm : (membersOpen vs (d'+1)).map (·-1) with
      | none =>
        rw [hm] at h
        intro r
        rw [List.append_assoc,hv]
        exact h r
      | some i =>
        rw [hm] at h
        intro r
        rw [List.append_assoc,hv]
        exact h r

mutual
theorem opens_value (v : JsonTree) (whole : Bool) (d : ℕ) :
    Follows (.value (List.replicate d .struct) whole) v.toks whole (v.opens d) :=
  match v with
  | .atom t ht => by
    rw [JsonTree.opens]
    exact full_run (.atom t ht) rfl _ whole
  | .array vs => by
    rw [JsonTree.opens]
    cases hf : fullAll vs with
    | true => exact full_run (.array vs) hf _ whole
    | false =>
      cases vs with
      | nil => cases hf
      | cons v vs =>
        intro r
        rw [JsonTree.toks,List.cons_append,List.append_assoc,Reading.run_cons]
        change (Reading.elem (List.replicate d .struct) whole).run _ ≠ _
        rw [elem_run]
        exact elems_append hf (fun h => sinks_value v h whole _ 0) (fun h r => sinks_elems vs h whole _ r) r
  | .struct [] => by
    rw [JsonTree.opens,JsonTree.toks]
    intro r
    cases d <;> rfl
  | .struct (v::vs) => by
    have h := follows_append (opens_value v whole (d+1)) fun d hd => opens_members vs whole d hd
    rw [JsonTree.opens,JsonTree.toks]
    exact h

theorem opens_members (vs : List JsonTree) (whole : Bool) (d : ℕ) (hd : 0 < d) :
    Follows (.after (List.replicate d .struct) whole) (memberToks vs) whole ((membersOpen vs d).map (·-1)) :=
  match vs, d with
  | [], d+1 => by
    rw [membersOpen,memberToks]
    intro r
    rfl
  | v::vs, d+1 => by
    have h := follows_append (opens_value v whole (d+1)) fun d hd => opens_members vs whole d hd
    have hsub : (membersOpen (v::vs) (d+1)).map (·-1) = (v.opens (d+1)).bind fun d' =>
        if d' = 0 then some 0 else (membersOpen vs d').map (·-1) := by
      rw [membersOpen,Option.map_bind]
      congr 1
      funext d'
      by_cases hd' : d' = 0
      · simp [hd']
      · simp [hd']
    rw [hsub,memberToks]
    exact h
end

mutual
theorem opens_le (v : JsonTree) {d e : ℕ} (h : v.opens d = some e) : e ≤ d :=
  match v with
  | .atom _ _ => by
    rw [JsonTree.opens] at h
    cases h
    exact Nat.le_refl d
  | .array vs => by
    rw [JsonTree.opens] at h
    split at h <;> cases h
    exact Nat.le_refl d
  | .struct [] => by
    rw [JsonTree.opens] at h
    cases h
    exact Nat.sub_le d 1
  | .struct (v::vs) => by
    rw [JsonTree.opens] at h
    obtain ⟨i,hi,h⟩ := Option.bind_eq_some_iff.mp h
    have hle := opens_le v hi
    split at h
    · cases h
      exact Nat.zero_le d
    · obtain ⟨j,hj,rfl⟩ := Option.map_eq_some_iff.mp h
      have hle' := membersOpen_le vs hj
      omega

theorem membersOpen_le (vs : List JsonTree) {d e : ℕ} (h : membersOpen vs d = some e) : e ≤ d :=
  match vs with
  | [] => by
    rw [membersOpen] at h
    cases h
    exact Nat.le_refl d
  | v::vs => by
    rw [membersOpen] at h
    obtain ⟨i,hi,h⟩ := Option.bind_eq_some_iff.mp h
    have hle := opens_le v hi
    split at h
    · cases h
      exact Nat.zero_le d
    · exact (membersOpen_le vs h).trans hle
end

/-- A JSON text is read whole exactly when no array with an empty struct in it is
reached before the structs that are open have been closed. -/
theorem reading_toks (v : JsonTree) : reading v.toks = some true ↔ (v.opens 0).isSome := by
  have h := opens_value v true 0
  cases ho : v.opens 0 with
  | none =>
    rw [ho] at h
    have hr := h []
    rw [List.append_nil] at hr
    exact ⟨fun hs => absurd hs hr,fun hs => by cases hs⟩
  | some d =>
    rw [ho] at h
    have hr := h []
    rw [List.append_nil,Nat.le_zero.mp (opens_le v ho)] at hr
    exact ⟨fun _ => rfl,fun _ => hr⟩

def seen (z : Bytes) : Bytes := z.take (xjd1Strlen30 z)

/-- The text is accepted exactly if it is JSON, and then no null pointer is in the value. -/
def AcceptsJson (R : Type) [CDouble R] (z : Bytes) : Prop :=
  ((xjd1JsonParse z : JsonNode R) ≠ .nullptr ↔ IsJson z) ∧
  ((xjd1JsonParse z : JsonNode R) ≠ .nullptr → (xjd1JsonParse z : JsonNode R).solid)

/-- When the parser is right about a text: in a JSON text, no array with an empty struct
in it is read, and of another one the brackets do not close a value. Of a text
that is too long only the beginning counts. -/
structure ReadRight (z : Bytes) : Prop where
  json : ∀ v : JsonTree, tokens z = v.toks → z.length < 2^30 → (v.opens 0).isSome
  long : IsJson z → 2^30 ≤ z.length → reading (tokens (seen z)) = some true
  other : ¬ IsJson z → reading (tokens (seen z)) = none

section Parse
variable [CDouble R]

/-- The parser does with a text what the machine does with its tokens. -/
theorem parse_verdict (z : Bytes) : reading (tokens (seen z)) = none ∧ (xjd1JsonParse z : JsonNode R) = .nullptr ∨
    reading (tokens (seen z)) = some (xjd1JsonParse z : JsonNode R).solid ∧ (xjd1JsonParse z : JsonNode R) ≠ .nullptr := by
  have hfuel := left_jsonStr z (xjd1Strlen30 z)
  obtain ⟨⟨v,q⟩,ho,_⟩ := (parse_total (R := R) (2*xjd1Strlen30 z + 2)).1
    (tokenNext (jsonStr z (xjd1Strlen30 z))) (by omega)
  have hx : xjd1JsonParse z = v := by rw [xjd1JsonParse,ho]
  have hread : reading (tokens (seen z)) = (returned [] true v).run q.ahead := by
    rw [← (parse_reading _).1 _ q v ho,ahead_tokenNext]
    rfl
  rw [hx,hread]
  by_cases hv : v = .nullptr
  · subst hv
    refine .inl ⟨?_,rfl⟩
    cases q.ahead with
    | nil => rfl
    | cons t ts => exact Reading.run_failed ts
  · refine .inr ⟨?_,hv⟩
    rw [returned_of_ne hv]
    exact Reading.run_done _ _

end Parse

end Xjd1
