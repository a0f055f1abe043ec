import Xjd1.Json.Numeral
import Xjd1.Query.Members

/-! The `in` operator against the subscript operator. `in` reads a key with `%g` and
`strtol`, a subscript with `%.17g` and `strtod`. -/
namespace Xjd1

open Fueled

variable {R : Type} [CDouble R]

def InInt (v : Int) : Prop := -2^31 ≤ v ∧ v < 2^31

instance (v : Int) : Decidable (InInt v) := inferInstanceAs (Decidable (_ ∧ _))

/-- The double is the integer `i`, in the range of `int`. -/
def IsInt (r : R) (i : Int) : Prop := CDouble.toInt r = some i ∧ CDouble.eq (CDouble.ofInt i) r = true

/-- The digits of an integer without leading zeros, behind a sign. -/
inductive DecimalText : Bytes → Int → Prop
  | zero {sgn : Bytes} (hs : Sign sgn) : DecimalText (sgn ++ [ch '0']) 0
  | digits {sgn ds : Bytes} (hs : Sign sgn) (h0 : ds.head? ≠ some (ch '0')) (hne : ds ≠ [])
    (h : ∀ c ∈ ds, isDigitOf 10 c) : DecimalText (sgn ++ ds) (signed sgn (digitsValue 10 ds))

inductive Exponential : Bytes → Prop
  | intro {sgn t : Bytes} {c d : UInt8} (hs : Sign sgn) (hc : isDigitOf 10 c) (h0 : c ≠ ch '0')
    (hd : d = ch '.' ∨ d = ch 'e') : Exponential (sgn ++ c::d::t)

/-- The double read for the integer `v`: `v` itself in the range of `int`. -/
def ReadAs (r : R) (v : Int) : Prop := if InInt v then IsInt r v else CDouble.toInt r = none

/-- How integers are written and read outside the library. The `%g` of `sqlite3_snprintf` has six
digits; `strtod` reads decimal and hexadecimal digits, and no text as zero. Of the library's own
`%.17g`, which is not exact on integers, nothing is asked. -/
structure IntegerTexts (R : Type) [CDouble R] : Prop where
  small : ∀ (r : R) (i : Int), IsInt r i → -10^6 < i ∧ i < 10^6 → DecimalText (CDouble.fmt6 r) i
  large : ∀ (r : R) (i : Int), IsInt r i → ¬ (-10^6 < i ∧ i < 10^6) → Exponential (CDouble.fmt6 r)
  nil : (CDouble.strtod [] : R × Bytes).2 = [] ∧ IsInt (CDouble.strtod [] : R × Bytes).1 0
  decimal : ∀ sgn ds, Sign sgn → ds ≠ [] → (∀ c ∈ ds, isDigitOf 10 c) →
    (CDouble.strtod (sgn ++ ds) : R × Bytes).2 = [] ∧
      ReadAs (CDouble.strtod (sgn ++ ds) : R × Bytes).1 (signed sgn (digitsValue 10 ds))
  hex : ∀ sgn x ds, Sign sgn → x = ch 'x' ∨ x = ch 'X' → ds ≠ [] → (∀ c ∈ ds, isDigitOf 16 c) →
    (CDouble.strtod (sgn ++ ch '0'::x::ds) : R × Bytes).2 = [] ∧
      ReadAs (CDouble.strtod (sgn ++ ch '0'::x::ds) : R × Bytes).1 (signed sgn (digitsValue 16 ds))

/-- The keys in question: strings, and numbers that are integers in the range of `int`. -/
inductive IsKey : JsonNode R → Prop
  | string (z : Bytes) : IsKey (.string z)
  | real {r : R} {i : Int} (h : IsInt r i) : IsKey (.real r)

/-- `c[k]` is the element or the member `v` of `c`. -/
inductive Selects (k : JsonNode R) : JsonNode R → JsonNode R → Prop
  | element {vs : List (JsonNode R)} {i : ℕ} {v : JsonNode R} (hk : subscript k = .ok (some i)) (hv : vs[i]? = some v) :
    Selects k (.array vs) v
  | member {ms : List (Bytes × JsonNode R)} {v : JsonNode R} (h : lookup ms (xjd1JsonToString k) = some v) :
    Selects k (.struct ms) v

def Index (n : ℕ) (v : Int) : Prop := 0 ≤ v ∧ v < n

/-- The kinds of keys and values on which the operators differ. -/
inductive Differs : JsonNode R → JsonNode R → Prop
  /-- An index that `%g` writes with an exponent. -/
  | index {r : R} {i : Int} {vs : List (JsonNode R)} (hr : IsInt r i) (hi : 10^6 ≤ i) (h : Index vs.length i) :
    Differs (.real r) (.array vs)
  /-- A label that is one of the two texts of a number only. -/
  | label {r : R} {ms : List (Bytes × JsonNode R)}
    (h : (lookup ms (CDouble.fmt6 r)).isSome ↔ ¬ (lookup ms (CDouble.fmt17 r)).isSome) : Differs (.real r) (.struct ms)
  /-- A numeral behind white space. -/
  | spaced {ws z sgn ds : Bytes} {base : ℕ} {vs : List (JsonNode R)} (hne : ws ≠ []) (hws : ∀ c ∈ ws, xjd1Isspace c)
    (hz : Numeral z sgn base ds) (h : Index vs.length (toCInt (held (signed sgn (digitsValue base ds))))) :
    Differs (.string (ws ++ z)) (.array vs)
  /-- A leading `0`, which makes the digits octal for `in` only. -/
  | octal {z sgn ds : Bytes} {vs : List (JsonNode R)} (hz : Numeral z sgn 8 ds)
    (h : Index vs.length (toCInt (held (signed sgn (digitsValue 8 ds)))) ↔
      ¬ (InInt (signed sgn (digitsValue 10 ds)) ∧ Index vs.length (signed sgn (digitsValue 10 ds)))) :
    Differs (.string z) (.array vs)
  /-- A number out of the range of `int` that is an index once it is cut to `int`. -/
  | wrapped {z sgn ds : Bytes} {base : ℕ} {vs : List (JsonNode R)} (hz : Numeral z sgn base ds) (hbase : base ≠ 8)
    (hout : ¬ InInt (signed sgn (digitsValue base ds)))
    (h : Index vs.length (toCInt (held (signed sgn (digitsValue base ds))))) : Differs (.string z) (.array vs)
  /-- Any other text that `strtod` reads as an index, with a fraction or an exponent or with
  the digits 8 and 9 behind a leading `0`. -/
  | other {c : UInt8} {z : Bytes} {vs : List (JsonNode R)} {i : Int} (hc : xjd1Isspace c = false)
    (hz : ∀ sgn base ds, ¬ Numeral (c::z) sgn base ds) (htail : (CDouble.strtod (c::z) : R × Bytes).2 = [])
    (hi : IsInt (CDouble.strtod (c::z) : R × Bytes).1 i) (h : Index vs.length i) :
    Differs (.string (c::z)) (.array vs)

/-- What a subscript selects is its value. -/
theorem Selects.subscriptOperator_eq {k c v : JsonNode R} (h : Selects k c v) (hv : v ≠ .nullptr) :
    subscriptOperator c k = .ok v := by
  cases h with
  | element hk hget => simp only [subscriptOperator,hk,Run.ok_bind,hget]
  | member h => simp only [subscriptOperator,getProperty,h]

/-- A subscript that selects nothing falls back to null. -/
theorem subscriptOperator_eq_null {k c w : JsonNode R} (hc : c.structured) (h : ¬ ∃ v, Selects k c v)
    (hw : subscriptOperator c k = .ok w) : w = .null := by
  cases c with
  | array vs =>
    obtain ⟨o,ho,hw⟩ := Run.bind_eq_ok.mp hw
    cases o with
    | none => exact (Run.ok.inj hw).symm
    | some i =>
      cases hv : vs[i]? with
      | none =>
        simp only [hv] at hw
        exact (Run.ok.inj hw).symm
      | some v => exact absurd ⟨v,.element ho hv⟩ h
  | struct ms =>
    cases hv : lookup ms (xjd1JsonToString k) with
    | none =>
      simp only [subscriptOperator,getProperty,hv] at hw
      exact (Run.ok.inj hw).symm
    | some v => exact absurd ⟨v,.member hv⟩ h
  | _ => cases hc

theorem IsInt.unique {r : R} {i j : Int} (hi : IsInt r i) (hj : IsInt r j) : i = j :=
  Option.some.inj (hi.1.symm.trans hj.1)

theorem subscript_eq_some {k : JsonNode R} {i : ℕ} :
    subscript k = .ok (some i) ↔ (xjd1JsonToReal k).2 = false ∧ IsInt (xjd1JsonToReal k).1 i := by
  rw [subscript]
  cases (xjd1JsonToReal k).2 with
  | true => simp
  | false =>
    rw [if_neg Bool.false_ne_true,toInt,and_iff_right rfl,IsInt]
    cases CDouble.toInt (xjd1JsonToReal k).1 with
    | none => simp
    | some j =>
      simp only [Run.ofOption_some,Run.ok_bind,Run.ok.injEq,Option.some.injEq]
      split
      · rename_i h
        obtain ⟨heq,hpos⟩ := Bool.and_eq_true_iff.mp h
        have hpos : 0 ≤ j := of_decide_eq_true hpos
        constructor
        · intro h
          have hj : j = i := by have := Option.some.inj h; omega
          exact ⟨hj,hj ▸ heq⟩
        · rintro ⟨rfl,_⟩
          rfl
      · rename_i h
        refine iff_of_false (fun h => by cases h) ?_
        rintro ⟨rfl,heq⟩
        exact h (Bool.and_eq_true_iff.mpr ⟨heq,decide_eq_true (Int.natCast_nonneg i)⟩)

theorem selects_array {k : JsonNode R} {vs : List (JsonNode R)} : (∃ v, Selects k (.array vs) v) ↔
    (xjd1JsonToReal k).2 = false ∧ ∃ i, IsInt (xjd1JsonToReal k).1 i ∧ Index vs.length i := by
  constructor
  · rintro ⟨v,h⟩
    cases h with
    | element hk hv =>
      obtain ⟨htail,hi⟩ := subscript_eq_some.mp hk
      obtain ⟨hlt,_⟩ := List.getElem?_eq_some_iff.mp hv
      exact ⟨htail,_,hi,Int.natCast_nonneg _,Int.ofNat_lt.mpr hlt⟩
  · rintro ⟨htail,i,hi,hpos,hlt⟩
    obtain ⟨j,rfl⟩ := Int.eq_ofNat_of_zero_le hpos
    exact ⟨_,.element (subscript_eq_some.mpr ⟨htail,hi⟩) (List.getElem?_eq_getElem (Int.ofNat_lt.mp hlt))⟩

theorem in_array {k : JsonNode R} {z : Bytes} {vs : List (JsonNode R)} (hk : inKey k = some z) :
    inOperator k (.array vs) = true ↔ (strtol z).2 = [] ∧ Index vs.length (toCInt (strtol z).1) := by
  simp [inOperator,hk,Index,and_assoc]

theorem toCInt_held {v : Int} (hv : InInt v) : toCInt (held v) = v := by
  obtain ⟨h1,h2⟩ := hv
  have hheld : held v = v := by rw [held]; omega
  rw [hheld,toCInt]
  exact BitVec.toInt_ofInt_eq_self (by decide) h1 h2

theorem in_struct {k : JsonNode R} {z : Bytes} {ms : List (Bytes × JsonNode R)} (hk : inKey k = some z) :
    inOperator k (.struct ms) = (lookup ms z).isSome := by
  simp only [inOperator,hk]

theorem selects_struct {k : JsonNode R} {ms : List (Bytes × JsonNode R)} : (∃ v, Selects k (.struct ms) v) ↔
    (lookup ms (xjd1JsonToString k)).isSome := by
  rw [Option.isSome_iff_exists]
  constructor
  · rintro ⟨v,h⟩
    cases h with
    | member h => exact ⟨v,h⟩
  · rintro ⟨v,h⟩
    exact ⟨v,.member h⟩

/-- The key `k` is in `c` exactly when `c[k]` selects something. -/
def Agrees (k c : JsonNode R) : Prop := inOperator k c = true ↔ ∃ v, Selects k c v

theorem DecimalText.numeral {z : Bytes} {i : Int} (h : DecimalText z i) :
    ∃ sgn base ds, Numeral z sgn base ds ∧ i = signed sgn (digitsValue base ds) := by
  cases h with
  | @zero sgn hs =>
    refine ⟨sgn,8,_,.intro hs (.octal (List.forall_mem_nil _)),?_⟩
    rw [show digitsValue 8 [ch '0'] = 0 by decide,signed,Nat.cast_zero,neg_zero,ite_self]
  | digits hs h0 hne h => exact ⟨_,10,_,.intro hs (.decimal h0 hne h),rfl⟩

theorem selects_real {r : R} {i : Int} (hr : IsInt r i) (vs : List (JsonNode R)) :
    (∃ v, Selects (.real r) (.array vs) v) ↔ Index vs.length i := by
  rw [selects_array]
  constructor
  · rintro ⟨_,j,hj,h⟩
    exact hr.unique hj ▸ h
  · exact fun h => ⟨rfl,i,hr,h⟩

section Keys
variable (hR : IntegerTexts R)
include hR

theorem real_array_iff {r : R} {i : Int} (hr : IsInt r i) (vs : List (JsonNode R)) :
    Agrees (.real r) (.array vs) ↔ ¬ Differs (.real r) (.array vs) := by
  rw [Agrees,in_array rfl,selects_real hr]
  by_cases hi : -10^6 < i ∧ i < 10^6
  · obtain ⟨sgn,base,ds,hz,hv⟩ := (hR.small r i hr hi).numeral
    have hread := strtol_numeral (List.forall_mem_nil _) hz
    rw [List.nil_append,← hv] at hread
    rw [hread,toCInt_held (by rw [InInt]; omega)]
    refine iff_of_true (by simp) fun h => ?_
    cases h with
    | index hr' hi' h =>
      cases hr.unique hr'
      omega
  · have htail : (strtol (CDouble.fmt6 r)).2 ≠ [] := by
      have hexp := hR.large r i hr hi
      generalize CDouble.fmt6 r = z at hexp
      cases hexp with
      | intro hs hc h0 hd =>
        rw [strtol_stops hs hc h0 (by rcases hd with rfl | rfl <;> decide)]
        exact List.cons_ne_nil _ _
    constructor
    · intro h hd
      cases hd with
      | index hr' hi' hidx =>
        cases hr.unique hr'
        exact htail (h.mpr hidx).1
    · intro h
      refine iff_of_false (fun h => htail h.1) fun hidx => h (.index hr ?_ hidx)
      have := hidx.1
      omega

omit hR in
theorem real_struct_iff (r : R) (ms : List (Bytes × JsonNode R)) :
    Agrees (.real r) (.struct ms) ↔ ¬ Differs (.real r) (.struct ms) := by
  rw [Agrees,in_struct rfl,selects_struct]
  show ((lookup ms (CDouble.fmt6 r)).isSome ↔ (lookup ms (CDouble.fmt17 r)).isSome) ↔ _
  constructor
  · intro h hd
    cases hd with
    | label h' => exact iff_not_self (h.symm.trans h')
  · intro h
    by_contra hne
    exact h (.label (not_iff_comm.mp (not_iff.mp hne)).symm)

omit [CDouble R] hR in
theorem Numeral.head {z sgn ds : Bytes} {base : ℕ} (h : Numeral z sgn base ds) :
    ∃ c t, z = c::t ∧ xjd1Isspace c = false := by
  cases h with
  | intro hs hu =>
    obtain ⟨c,t,rfl,hc⟩ := hu.head
    rcases hs with rfl | rfl | rfl
    · exact ⟨c,t,rfl,hc.1⟩
    · exact ⟨_,_,rfl,rfl⟩
    · exact ⟨_,_,rfl,rfl⟩

/-- `strtod` reads octal digits as decimal ones. -/
theorem strtod_numeral {z sgn ds : Bytes} {base : ℕ} (h : Numeral z sgn base ds) :
    (CDouble.strtod z : R × Bytes).2 = [] ∧
      ReadAs (CDouble.strtod z : R × Bytes).1 (signed sgn (digitsValue (if base = 8 then 10 else base) ds)) := by
  cases h with
  | intro hs hu =>
    cases hu with
    | decimal _ hne h => exact hR.decimal _ _ hs hne h
    | octal h =>
      refine hR.decimal _ _ hs (List.cons_ne_nil _ _) (List.forall_mem_cons.mpr ⟨by decide,fun c hc => ?_⟩)
      have hlt : digitValue c < 8 := of_decide_eq_true (h c hc)
      exact decide_eq_true (Nat.lt_trans hlt (by decide))
    | hex hx hne h => exact hR.hex _ _ _ hs hx hne h

omit hR in
theorem readAs_index {r : R} {v : Int} (h : ReadAs r v) (n : ℕ) :
    (∃ i, IsInt r i ∧ Index n i) ↔ InInt v ∧ Index n v := by
  rw [ReadAs] at h
  split at h
  · rename_i hv
    rw [and_iff_right hv]
    constructor
    · rintro ⟨i,hi,hidx⟩
      exact h.unique hi ▸ hidx
    · exact fun hidx => ⟨v,h,hidx⟩
  · rename_i hv
    refine iff_of_false ?_ fun h => hv h.1
    rintro ⟨i,hi,_⟩
    cases h.symm.trans hi.1

omit hR in
theorem selects_space {c : UInt8} {t : Bytes} {vs : List (JsonNode R)} (hc : xjd1Isspace c) :
    ¬ ∃ v, Selects (.string (c::t)) (.array vs) v := by
  rw [selects_array]
  simp [xjd1JsonToReal,hc]

omit hR in
theorem selects_string {z : Bytes} {vs : List (JsonNode R)} (hz : z.head?.any xjd1Isspace = false) :
    (∃ v, Selects (.string z) (.array vs) v) ↔ (CDouble.strtod z : R × Bytes).2 = [] ∧
      ∃ i, IsInt (CDouble.strtod z : R × Bytes).1 i ∧ Index vs.length i := by
  rw [selects_array]
  simp [xjd1JsonToReal,hz]

/-- A numeral without white space in front of it. -/
theorem numeral_agrees {z sgn ds : Bytes} {base : ℕ} (hz : Numeral z sgn base ds) (vs : List (JsonNode R)) :
    Agrees (.string z : JsonNode R) (.array vs) ↔
      (Index vs.length (toCInt (held (signed sgn (digitsValue base ds)))) ↔
        InInt (signed sgn (digitsValue (if base = 8 then 10 else base) ds)) ∧
          Index vs.length (signed sgn (digitsValue (if base = 8 then 10 else base) ds))) := by
  obtain ⟨c,t,rfl,hc⟩ := hz.head
  obtain ⟨htail,hread⟩ := strtod_numeral hR hz
  have hin := strtol_numeral (List.forall_mem_nil _) hz
  rw [List.nil_append] at hin
  have hany : (c::t).head?.any xjd1Isspace = false := hc
  rw [Agrees,in_array rfl,hin,and_iff_right rfl,selects_string hany,and_iff_right htail,readAs_index hread]

omit hR in
/-- White space in front of a numeral is skipped by `in` only. -/
theorem spaced_agrees {ws z sgn ds : Bytes} {base : ℕ} (hne : ws ≠ []) (hws : ∀ c ∈ ws, xjd1Isspace c)
    (hz : Numeral z sgn base ds) (vs : List (JsonNode R)) : Agrees (.string (ws ++ z) : JsonNode R) (.array vs) ↔
      ¬ Index vs.length (toCInt (held (signed sgn (digitsValue base ds)))) := by
  obtain ⟨c,ws,rfl⟩ := List.exists_cons_of_ne_nil hne
  rw [Agrees,in_array rfl,strtol_numeral hws hz,and_iff_right rfl,List.cons_append,
    iff_false_right (selects_space (hws c List.mem_cons_self))]

omit hR in
theorem other_agrees {c : UInt8} {z : Bytes} (hc : xjd1Isspace c = false)
    (hz : ∀ sgn base ds, ¬ Numeral (c::z) sgn base ds) (vs : List (JsonNode R)) :
    Agrees (.string (c::z)) (.array vs) ↔ ¬ ((CDouble.strtod (c::z) : R × Bytes).2 = [] ∧
      ∃ i, IsInt (CDouble.strtod (c::z) : R × Bytes).1 i ∧ Index vs.length i) := by
  have htail : (strtol (c::z)).2 ≠ [] := by
    intro h
    obtain h | ⟨ws,z',sgn,base,ds,hsplit,hws,hnum⟩ := strtol_whole h
    · cases h
    · cases ws with
      | nil => exact hz sgn base ds (hsplit ▸ hnum)
      | cons d ws =>
        obtain ⟨rfl,_⟩ := List.cons.inj hsplit
        rw [hws c List.mem_cons_self] at hc
        cases hc
  have hany : (c::z).head?.any xjd1Isspace = false := hc
  rw [Agrees,in_array rfl,iff_false_left (fun h : _ ∧ _ => htail h.1),selects_string hany]

theorem string_array_iff (z : Bytes) (vs : List (JsonNode R)) :
    Agrees (.string z : JsonNode R) (.array vs) ↔ ¬ Differs (.string z : JsonNode R) (.array vs) := by
  constructor
  · intro h hd
    cases hd with
    | spaced hne hws hz hidx => exact (spaced_agrees hne hws hz vs).mp h hidx
    | octal hz hiff => exact iff_not_self (((numeral_agrees hR hz vs).mp h).symm.trans hiff)
    | wrapped hz hbase hout hidx =>
      have h := (numeral_agrees hR hz vs).mp h
      rw [if_neg hbase] at h
      exact hout (h.mp hidx).1
    | other hc hz htail hi hidx => exact (other_agrees hc hz vs).mp h ⟨htail,_,hi,hidx⟩
  · intro hd
    cases z with
    | nil =>
      have hzero : toCInt (strtol []).1 = 0 := by decide
      rw [Agrees,in_array rfl,selects_string rfl,and_iff_right hR.nil.1,hzero]
      constructor
      · exact fun h => ⟨0,hR.nil.2,h.2⟩
      · rintro ⟨i,hi,h⟩
        cases hi.unique hR.nil.2
        exact ⟨rfl,h⟩
    | cons c z =>
      by_cases hnum : ∃ sgn base ds, Numeral (c::z) sgn base ds
      · obtain ⟨sgn,base,ds,hz⟩ := hnum
        rw [numeral_agrees hR hz]
        by_cases hbase : base = 8
        · subst hbase
          by_contra hne
          exact hd (.octal hz (not_iff_comm.mp (not_iff.mp hne)).symm)
        · rw [if_neg hbase]
          by_cases hv : InInt (signed sgn (digitsValue base ds))
          · rw [toCInt_held hv,and_iff_right hv]
          · exact iff_of_false (fun h => hd (.wrapped hz hbase hv h)) fun h => hv h.1
      · have hz : ∀ sgn base ds, ¬ Numeral (c::z) sgn base ds := fun sgn base ds h => hnum ⟨sgn,base,ds,h⟩
        cases hc : xjd1Isspace c with
        | false =>
          rw [other_agrees hc hz]
          rintro ⟨htail,i,hi,hidx⟩
          exact hd (.other hc hz htail hi hidx)
        | true =>
          refine iff_of_false (fun h => ?_) (selects_space hc)
          rw [in_array rfl] at h
          obtain h' | ⟨ws,z',sgn,base,ds,hsplit,hws,hz'⟩ := strtol_whole h.1
          · cases h'
          · have hne : ws ≠ [] := by
              rintro rfl
              exact hz sgn base ds (hsplit ▸ hz')
            rw [hsplit] at hd
            rw [hsplit,strtol_numeral hws hz'] at h
            exact hd (.spaced hne hws hz' h.2)

/-- The keys and values on which `in` and the subscript operator differ. -/
theorem in_agrees_iff {k c : JsonNode R} (hk : IsKey k) (hc : c.structured) :
    (inOperator k c = true ↔ ∃ v, Selects k c v) ↔ ¬ Differs k c := by
  cases c with
  | array vs =>
    cases hk with
    | string z => exact string_array_iff hR z vs
    | real hr => exact real_array_iff hR hr vs
  | struct ms =>
    cases hk with
    | string z =>
      refine iff_of_true ?_ fun h => by cases h
      rw [in_struct rfl,selects_struct]
      rfl
    | @real r _ _ => exact real_struct_iff r ms
  | _ => cases hc

end Keys

/-- The doubles that are whole numbers, with the six digits of `%g` and the prefixes and signs
of `strtod`. -/
def Whole : Type := Int

/-- The digits behind the point, which `%g` leaves out with the point if there are none. -/
def fraction (t : Bytes) : Bytes := if t.isEmpty then [] else ch '.'::t

def generalText (x : Int) : Bytes :=
  if -10^6 < x ∧ x < 10^6 then wholeText x
  else
    let ds := digitText x.natAbs
    let t := (((ds.drop 1).take 5).reverse.dropWhile (· = ch '0')).reverse
    let e := ds.length - 1
    (if x < 0 then [ch '-'] else []) ++ (ds.take 1 ++ (fraction t ++
      ch 'e'::ch '+'::(if e < 10 then ch '0'::digitText e else digitText e)))

/-- `strtod` on a text with digits and nothing behind them. -/
def wholeStrtod (z : Bytes) : Int × Bytes :=
  let u := unsigned z
  let isHex := u.head? = some (ch '0') ∧ ((u.drop 1).head? = some (ch 'x') ∨ (u.drop 1).head? = some (ch 'X'))
  let base := if isHex then 16 else 10
  let s := if isHex then u.drop 2 else u
  let ds := s.takeWhile (isDigitOf base)
  (signed (z.take 1) (digitsValue base ds),s.drop ds.length)

instance : CDouble Whole where
  lt (x y : Int) := x < y
  eq (x y : Int) := x = y
  nan := (0 : Int)
  ofInt := id
  toInt (x : Int) := if InInt x then some x else none
  add (x y : Int) := x + y
  sub (x y : Int) := x - y
  mul (x y : Int) := x * y
  div (x y : Int) := Int.tdiv x y
  strtod := wholeStrtod
  fmt17 := wholeText
  fmt6 := generalText

theorem wholeText_decimal (x : Int) : DecimalText (wholeText x) x := by
  have hpos (sgn : Bytes) (hs : Sign sgn) {n : ℕ} (hn : 0 < n) : DecimalText (sgn ++ digitText n) (signed sgn n) := by
    have h := DecimalText.digits hs (digitText_head hn) (digitText_ne_nil n) (digitText_digits n)
    rwa [digitsValue_digitText] at h
  cases x with
  | ofNat n =>
    cases n with
    | zero => exact .zero (Or.inl rfl)
    | succ n => exact hpos [] (Or.inl rfl) (Nat.succ_pos n)
  | negSucc n => exact hpos [ch '-'] (Or.inr (Or.inr rfl)) (Nat.succ_pos n)

theorem fraction_append (t u : Bytes) : ∃ d s, fraction t ++ ch 'e'::u = d::s ∧ (d = ch '.' ∨ d = ch 'e') := by
  cases t with
  | nil => exact ⟨_,_,rfl,Or.inr rfl⟩
  | cons c t => exact ⟨_,_,rfl,Or.inl rfl⟩

theorem generalText_exponential {x : Int} (hx : ¬ (-10^6 < x ∧ x < 10^6)) : Exponential (generalText x) := by
  have hhead := digitText_head (n := x.natAbs) (by omega)
  have hdig := digitText_digits x.natAbs
  obtain ⟨c,ds,hds⟩ := List.exists_cons_of_ne_nil (digitText_ne_nil x.natAbs)
  rw [hds] at hhead hdig
  have hc := hdig c List.mem_cons_self
  have h0 : c ≠ ch '0' := fun h => hhead (congrArg some h)
  have hs : Sign (if x < 0 then [ch '-'] else []) := by
    split
    · exact Or.inr (Or.inr rfl)
    · exact Or.inl rfl
  simp only [generalText,if_neg hx,hds,List.take_succ_cons,List.take_zero,List.cons_append,List.nil_append]
  obtain ⟨d,s,hd,hpoint⟩ := fraction_append _ _
  rw [hd]
  exact .intro hs hc h0 hpoint

theorem signed_take {sgn u : Bytes} (hs : Sign sgn) (hu : ∀ c ∈ u.head?, c ≠ ch '-') (n : ℕ) :
    signed ((sgn ++ u).take 1) n = signed sgn n := by
  rcases hs with rfl | rfl | rfl
  · cases u with
    | nil => rfl
    | cons c u =>
      have hne : [c] ≠ [ch '-'] := fun h => hu c rfl (List.cons.inj h).1
      rw [List.nil_append,List.take_succ_cons,List.take_zero,signed,if_neg hne]
      rfl
  · rfl
  · rfl

theorem wholeStrtod_decimal {sgn ds : Bytes} (hs : Sign sgn) (hds : ∀ c ∈ ds, isDigitOf 10 c) :
    wholeStrtod (sgn ++ ds) = (signed sgn (digitsValue 10 ds),[]) := by
  have hlead : ∀ c ∈ ds.head?, Leading c := fun c hc =>
    leading_of_digit (by decide) (hds c (List.mem_of_mem_head? hc))
  have hhex : ¬ (ds.head? = some (ch '0') ∧ ((ds.drop 1).head? = some (ch 'x') ∨ (ds.drop 1).head? = some (ch 'X'))) := by
    rintro ⟨_,h | h⟩
    · exact absurd (hds _ (List.mem_of_mem_drop (List.mem_of_mem_head? h))) (by decide)
    · exact absurd (hds _ (List.mem_of_mem_drop (List.mem_of_mem_head? h))) (by decide)
  have htake : ds.takeWhile (isDigitOf 10) = ds := List.takeWhile_eq_self_iff.mpr hds
  simp only [wholeStrtod,unsigned_sign hs fun c hc => (hlead c hc).2,if_neg hhex,htake,List.drop_length,
    signed_take hs fun c hc => (hlead c hc).2.1]

theorem wholeStrtod_hex {sgn ds : Bytes} {x : UInt8} (hs : Sign sgn) (hx : x = ch 'x' ∨ x = ch 'X')
    (hds : ∀ c ∈ ds, isDigitOf 16 c) :
    wholeStrtod (sgn ++ ch '0'::x::ds) = (signed sgn (digitsValue 16 ds),[]) := by
  have hzero : ∀ c ∈ (ch '0'::x::ds).head?, c ≠ ch '-' ∧ c ≠ ch '+' := by
    rintro c hc
    cases hc
    decide
  have hhex : (ch '0'::x::ds).head? = some (ch '0') ∧
      (((ch '0'::x::ds).drop 1).head? = some (ch 'x') ∨ ((ch '0'::x::ds).drop 1).head? = some (ch 'X')) :=
    ⟨rfl,hx.imp (congrArg some) (congrArg some)⟩
  have htake : ds.takeWhile (isDigitOf 16) = ds := List.takeWhile_eq_self_iff.mpr hds
  have hdrop : (ch '0'::x::ds).drop 2 = ds := rfl
  simp only [wholeStrtod,unsigned_sign hs hzero,if_pos hhex,hdrop,htake,List.drop_length,
    signed_take hs fun c hc => (hzero c hc).1]

theorem isInt_whole {x i : Int} : IsInt (R := Whole) x i ↔ x = i ∧ InInt i := by
  show (if InInt x then some x else none) = some i ∧ decide (i = x) = true ↔ _
  constructor
  · rintro ⟨h,heq⟩
    obtain rfl := of_decide_eq_true heq
    exact ⟨rfl,by by_contra hn; rw [if_neg hn] at h; cases h⟩
  · rintro ⟨rfl,h⟩
    exact ⟨if_pos h,decide_eq_true rfl⟩

theorem readAs_whole (v : Int) : ReadAs (R := Whole) v v := by
  show if InInt v then IsInt (R := Whole) v v else (if InInt v then some v else none) = none
  by_cases h : InInt v
  · rw [if_pos h]
    exact isInt_whole.mpr ⟨rfl,h⟩
  · rw [if_neg h,if_neg h]

theorem integerTexts_whole : IntegerTexts Whole where
  small := by
    intro (r : Int) i hr hi
    obtain ⟨rfl,_⟩ := isInt_whole.mp hr
    have h : generalText r = wholeText r := if_pos hi
    exact show DecimalText (generalText r) r from h ▸ wholeText_decimal r
  large := by
    intro (r : Int) i hr hi
    obtain ⟨rfl,_⟩ := isInt_whole.mp hr
    exact generalText_exponential hi
  nil := ⟨rfl,rfl,rfl⟩
  decimal := by
    intro sgn ds hs _ hds
    show (wholeStrtod (sgn ++ ds)).2 = [] ∧ ReadAs (R := Whole) (wholeStrtod (sgn ++ ds)).1 _
    rw [wholeStrtod_decimal hs hds]
    exact ⟨rfl,readAs_whole _⟩
  hex := by
    intro sgn x ds hs hx _ hds
    show (wholeStrtod (sgn ++ ch '0'::x::ds)).2 = [] ∧ ReadAs (R := Whole) (wholeStrtod (sgn ++ ch '0'::x::ds)).1 _
    rw [wholeStrtod_hex hs hx hds]
    exact ⟨rfl,readAs_whole _⟩

/-- A million as a label. -/
theorem in_agrees_iff_million :
    let k : JsonNode Whole := .real (1000000 : Int)
    let c : JsonNode Whole := .struct [(digitText 1000000,.true)]
    (inOperator k c = true ↔ ∃ v, Selects k c v) ↔ ¬ Differs k c :=
  in_agrees_iff integerTexts_whole (.real (isInt_whole.mpr ⟨rfl,by decide⟩)) rfl

/-- `in` looks for the label `1e+06`. -/
theorem in_agrees_label :
    let k : JsonNode Whole := .real (1000000 : Int)
    let c : JsonNode Whole := .struct [(digitText 1000000,.true)]
    ¬ (inOperator k c = true ↔ ∃ v, Selects k c v) := by
  intro k c h
  have hin : inOperator k c = false := by decide
  rw [hin] at h
  exact Bool.false_ne_true (h.mpr ⟨.true,.member rfl⟩)

end Xjd1
