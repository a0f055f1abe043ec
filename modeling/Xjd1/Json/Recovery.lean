import Xjd1.Json.Grammar

/-! What `parseJson` does with texts that are not JSON. A value that cannot be
read counts as a null pointer, and the array or struct around it goes on if a
comma or its own closing bracket comes next; so the parser is a machine on the
brackets that are open. -/
namespace Xjd1

variable {R : Type}

inductive Bracket
  | array | struct
  deriving DecidableEq, Repr

/-- Where the reading of a text stands. `st` are the brackets open around the next
token, the innermost first, and `whole` says that no value has been missed so far. -/
inductive Reading
  | value (st : List Bracket) (whole : Bool)
  | elem (st : List Bracket) (whole : Bool)
  | member (st : List Bracket) (whole : Bool)
  | label (st : List Bracket) (whole : Bool)
  | colon (st : List Bracket) (whole : Bool)
  | after (st : List Bracket) (whole : Bool)
  | done (whole : Bool)
  | failed
  deriving DecidableEq, Repr

def gotValue : List Bracket → Bool → Reading
  | [], whole => .done whole
  | b::st, whole => .after (b::st) whole

/-- A token after a value. One that does not fit gives up the innermost bracket,
and the value that it opened is missed. -/
def afterStep : List Bracket → Bool → JsonTok → Reading
  | [], _, _ => .failed
  | .array::st, whole, t =>
    if t = .comma then .value (.array::st) whole
    else if t = .endArray then gotValue st whole
    else afterStep st false t
  | .struct::st, whole, t =>
    if t = .comma then .label st whole
    else if t = .endStruct then gotValue st whole
    else afterStep st false t

def valueStep (st : List Bracket) (whole : Bool) (t : JsonTok) : Reading :=
  if t.isAtom then gotValue st whole
  else if t = .beginArray then .elem st whole
  else if t = .beginStruct then .member st whole
  else afterStep st false t

def labelStep (st : List Bracket) (whole : Bool) (t : JsonTok) : Reading :=
  if t = .string then .colon st whole else afterStep st false t

def Reading.step : Reading → JsonTok → Reading
  | .value st whole, t => valueStep st whole t
  | .elem st whole, t => if t = .endArray then gotValue st whole else valueStep (.array::st) whole t
  | .member st whole, t =>
    -- the closing brace of the empty struct is not stepped over
    if t = .endStruct then (if st = [] then .done whole else afterStep st whole t)
    else labelStep st whole t
  | .label st whole, t => labelStep st whole t
  | .colon st whole, t => if t = .colon then .value (.struct::st) whole else afterStep st false t
  | .after st whole, t => afterStep st whole t
  | .done whole, _ => .done whole
  | .failed, _ => .failed

def Reading.verdict : Reading → Option Bool
  | .done whole => some whole
  | _ => none

def Reading.run (s : Reading) (ts : List JsonTok) : Option Bool := (ts.foldl Reading.step s).verdict

def reading (ts : List JsonTok) : Option Bool := (Reading.value [] true).run ts

theorem Reading.run_cons (s : Reading) (t : JsonTok) (ts : List JsonTok) : s.run (t::ts) = (s.step t).run ts := rfl

@[simp] theorem Reading.run_done (whole : Bool) (ts : List JsonTok) : (Reading.done whole).run ts = some whole := by
  induction ts with
  | nil => rfl
  | cons t ts ih => exact ih

@[simp] theorem Reading.run_failed (ts : List JsonTok) : Reading.failed.run ts = none := by
  induction ts with
  | nil => rfl
  | cons t ts ih => exact ih

/-- A token that the innermost bracket does not take is left to the one around it. -/
theorem afterStep_other {b : Bracket} {st : List Bracket} {whole : Bool} {t : JsonTok} (hc : t ≠ .comma)
    (hb : t ≠ if b = .array then .endArray else .endStruct) : afterStep (b::st) whole t = afterStep st false t := by
  cases b with
  | array =>
    rw [if_pos rfl] at hb
    simp only [afterStep,if_neg hc,if_neg hb]
  | struct =>
    rw [if_neg nofun] at hb
    simp only [afterStep,if_neg hc,if_neg hb]

mutual
def JsonNode.solid : JsonNode R → Bool
  | .nullptr => false
  | .array vs => solidElems vs
  | .struct ms => solidMembers ms
  | _ => true

def solidElems : List (JsonNode R) → Bool
  | [] => true
  | v::vs => v.solid && solidElems vs

def solidMembers : List (Bytes × JsonNode R) → Bool
  | [] => true
  | (_,v)::ms => v.solid && solidMembers ms
end

theorem solidElems_append (vs : List (JsonNode R)) (v : JsonNode R) :
    solidElems (vs ++ [v]) = (solidElems vs && v.solid) := by
  induction vs with
  | nil => simp [solidElems]
  | cons w vs ih => simp [solidElems,ih,Bool.and_assoc]

theorem solidMembers_append (ms : List (Bytes × JsonNode R)) (k : Bytes) (v : JsonNode R) :
    solidMembers (ms ++ [(k,v)]) = (solidMembers ms && v.solid) := by
  induction ms with
  | nil => simp [solidMembers]
  | cons m ms ih => simp [solidMembers,ih,Bool.and_assoc]

def returned (st : List Bracket) (whole : Bool) : JsonNode R → Reading
  | .nullptr => .after st false
  | v => gotValue st (whole && v.solid)

theorem returned_cons (b : Bracket) (st : List Bracket) (whole : Bool) (v : JsonNode R) :
    returned (b::st) whole v = .after (b::st) (whole && v.solid) := by
  cases v <;> simp [returned,gotValue,JsonNode.solid]

theorem returned_of_ne {v : JsonNode R} (hv : v ≠ .nullptr) (st : List Bracket) (whole : Bool) :
    returned st whole v = gotValue st (whole && v.solid) := by
  cases v <;> first | rfl | exact absurd rfl hv

theorem run_ahead_congr {s s' : Reading} {p : JsonStr} (hv : s.verdict = s'.verdict)
    (hs : s.step p.eType = s'.step p.eType) : s.run p.ahead = s'.run p.ahead := by
  by_cases he : p.eType = .eof
  · rw [JsonStr.ahead,if_pos he]
    exact hv
  · rw [ahead_eq he,Reading.run_cons,Reading.run_cons,hs]

/-- A missed value is missed in front of the next token. -/
theorem run_after_other {b : Bracket} {st : List Bracket} {whole : Bool} {p : JsonStr} (hc : p.eType ≠ .comma)
    (hb : p.eType ≠ if b = .array then .endArray else .endStruct) :
    (Reading.after (b::st) whole).run p.ahead = (Reading.after st false).run p.ahead :=
  run_ahead_congr rfl (afterStep_other hc hb)

section Parse
variable [CDouble R]

def ReadsJson (R : Type) [CDouble R] (n : ℕ) : Prop :=
  ∀ (p q : JsonStr) (v : JsonNode R), parseJson n p = some (v,q) → ∀ st whole,
    (Reading.value st whole).run p.ahead = (returned st whole v).run q.ahead

def ReadsMembers (R : Type) [CDouble R] (n : ℕ) : Prop :=
  ∀ (p q : JsonStr) (ms : List (Bytes × JsonNode R)) (v : JsonNode R), parseMembers n p ms = some (v,q) →
    ∀ st whole, (Reading.label st (whole && solidMembers ms)).run p.ahead = (returned st whole v).run q.ahead

def ReadsElems (R : Type) [CDouble R] (n : ℕ) : Prop :=
  ∀ (p q : JsonStr) (vs : List (JsonNode R)) (v : JsonNode R), parseElems n p vs = some (v,q) → ∀ st whole,
    (Reading.value (.array::st) (whole && solidElems vs)).run p.ahead = (returned st whole v).run q.ahead

theorem readsElems_succ {n : ℕ} (hJson : ReadsJson R n) (hElems : ReadsElems R n) : ReadsElems R (n+1) := by
  intro p q vs v h st whole
  rw [parseElems] at h
  cases ho : parseJson (R := R) n p with
  | none => simp [ho] at h
  | some o =>
    obtain ⟨w,p'⟩ := o
    simp only [ho] at h
    rw [hJson p p' w ho,returned_cons,Bool.and_assoc,← solidElems_append]
    split at h
    case h_1 hc =>
      rw [ahead_eq (by simp [hc]),hc,Reading.run_cons]
      exact hElems _ _ _ _ h st whole
    case h_2 hc =>
      rw [ahead_eq (by simp [hc]),hc,Reading.run_cons]
      cases h
      rfl
    case h_3 hc he =>
      cases h
      exact run_after_other hc he

theorem readsMembers_succ {n : ℕ} (hJson : ReadsJson R n) (hMembers : ReadsMembers R n) :
    ReadsMembers R (n+1) := by
  intro p q ms v h st whole
  rw [parseMembers] at h
  split at h
  · rename_i hp
    rw [ahead_eq (by simp [hp]),hp,Reading.run_cons,Reading.step,labelStep,if_pos rfl]
    split at h
    · rename_i hp'
      rw [ahead_eq (by simp [hp']),hp',Reading.run_cons,Reading.step,if_pos rfl]
      cases ho : parseJson (R := R) n (tokenNext (tokenNext p)) with
      | none => simp [ho] at h
      | some o =>
        obtain ⟨w,p'⟩ := o
        simp only [ho] at h
        rw [hJson _ p' w ho,returned_cons,Bool.and_assoc,← solidMembers_append ms (tokenDequoteString p)]
        split at h
        case h_1 hc =>
          rw [ahead_eq (by simp [hc]),hc,Reading.run_cons]
          exact hMembers _ _ _ _ h st whole
        case h_2 hc =>
          rw [ahead_eq (by simp [hc]),hc,Reading.run_cons]
          cases h
          rfl
        case h_3 hc he =>
          cases h
          exact run_after_other hc he
    · rename_i hp'
      cases h
      exact run_ahead_congr rfl (if_neg hp')
  · rename_i hp
    cases h
    exact run_ahead_congr rfl (if_neg hp)

theorem parse_atom {n : ℕ} {p q : JsonStr} {v : JsonNode R} (ha : p.eType.isAtom)
    (h : parseJson (n+1) p = some (v,q)) : v ≠ .nullptr ∧ v.solid = true ∧ q = tokenNext p := by
  cases he : p.eType <;> rw [he] at ha <;> simp [JsonTok.isAtom] at ha <;>
    (rw [parseJson,he] at h; cases h; exact ⟨(fun hn => by cases hn),rfl,rfl⟩)

theorem readsJson_succ {n : ℕ} (hMembers : ReadsMembers R n) (hElems : ReadsElems R n) :
    ReadsJson R (n+1) := by
  intro p q v h st whole
  by_cases ha : p.eType.isAtom = true
  · obtain ⟨hnull,hsolid,rfl⟩ := parse_atom ha h
    have hne : p.eType ≠ .eof := fun e => by rw [e] at ha; cases ha
    rw [ahead_eq hne,Reading.run_cons,Reading.step,valueStep,if_pos ha,returned_of_ne hnull,hsolid,Bool.and_true]
  by_cases hs : p.eType = .beginStruct
  · rw [parseJson,hs] at h
    simp only at h
    rw [ahead_eq (by simp [hs]),hs,Reading.run_cons]
    change (Reading.member st whole).run _ = _
    by_cases hp : (tokenNext p).eType = .endStruct
    · rw [if_pos hp] at h
      cases h
      -- the closing brace is both the end of the struct and the token after it
      rw [ahead_eq (by simp [hp]),hp,Reading.run_cons,Reading.run_cons,Reading.step,if_pos rfl]
      cases st with
      | nil => simp [returned,gotValue,JsonNode.solid,solidMembers,Reading.step]
      | cons b st => simp [returned_cons,JsonNode.solid,solidMembers,Reading.step]
    · rw [if_neg hp] at h
      have hm := hMembers _ _ _ _ h st whole
      rw [solidMembers,Bool.and_true] at hm
      rw [← hm]
      exact run_ahead_congr rfl (if_neg hp)
  by_cases hb : p.eType = .beginArray
  · rw [parseJson,hb] at h
    simp only at h
    rw [ahead_eq (by simp [hb]),hb,Reading.run_cons]
    change (Reading.elem st whole).run _ = _
    by_cases hp : (tokenNext p).eType = .endArray
    · rw [if_pos hp] at h
      cases h
      rw [ahead_eq (by simp [hp]),hp,Reading.run_cons,Reading.step,if_pos rfl]
      simp [returned,JsonNode.solid,solidElems]
    · rw [if_neg hp] at h
      have hm := hElems _ _ _ _ h st whole
      rw [solidElems,Bool.and_true] at hm
      rw [← hm]
      exact run_ahead_congr rfl (if_neg hp)
  · have hq : v = .nullptr ∧ q = p := by
      cases he : p.eType <;> simp [he,JsonTok.isAtom] at ha hs hb <;>
        (rw [parseJson,he] at h; cases h; exact ⟨rfl,rfl⟩)
    obtain ⟨rfl,rfl⟩ := hq
    refine run_ahead_congr rfl ?_
    rw [Reading.step,valueStep,if_neg ha,if_neg hb,if_neg hs]
    rfl

/-- The parser reads a text as the machine does. -/
theorem parse_reading (n : ℕ) : ReadsJson R n ∧ ReadsMembers R n ∧ ReadsElems R n := by
  induction n with
  | zero =>
    refine ⟨fun p q v h => ?_,fun p q ms v h => ?_,fun p q vs v h => ?_⟩
    · rw [parseJson] at h
      cases h
    · rw [parseMembers] at h
      cases h
    · rw [parseElems] at h
      cases h
  | succ n ih =>
    obtain ⟨hJson,hMembers,hElems⟩ := ih
    exact ⟨readsJson_succ hMembers hElems,readsMembers_succ hJson hMembers,readsElems_succ hJson hElems⟩

end Parse

end Xjd1
