import Xjd1.Query.Characters
import Xjd1.Query.InKeys
import Xjd1.Query.Interp

/-! The integer operators against the conventions of JavaScript: operands are cut to
32 bits, and shift counts to five. -/
namespace Xjd1

open Fueled Fueled.Run

variable {R : Type} [CDouble R]

/-- The value converts to the integer `a`, which may be any. -/
def ConvertsTo (v : JsonNode R) (a : Int) : Prop :=
  (xjd1JsonToReal v).2 = false ∧ ReadAs (xjd1JsonToReal v).1 a

def int32 (a : Int) : BitVec 32 := BitVec.ofInt 32 a

def shiftCount (b : Int) : ℕ := (b % 32).toNat

/-- The value of `a eType b`, or of `~a`. The remainder has no convention of its own. -/
def jsOperator (eType : BiOp) (a b : Int) : Option Int :=
  match eType with
  | .bitand => some (int32 a &&& int32 b).toInt
  | .bitor => some (int32 a ||| int32 b).toInt
  | .lshift => some (int32 a <<< shiftCount b).toInt
  | .rshift => some ((int32 a).sshiftRight (shiftCount b)).toInt
  | .bitnot => some (~~~(int32 a)).toInt
  | _ => none

def BiOp.isInteger : BiOp → Bool
  | .rem | .rshift | .lshift | .bitand | .bitor => true
  | _ => false

/-- An integer operator on operands whose values convert to `a` and `b`; `~` has `a` only. -/
inductive Operates (I : Interp R) (ctx : Ctx R) : Expr R → BiOp → Int → Int → Prop
  | binary {eType : BiOp} {pLeft pLeft' pRight pRight' : Expr R} {v w : JsonNode R} {a b : Int}
    (he : eType.isInteger = true) (hl : I.xjd1ExprEval ctx pLeft = .ok (v,pLeft'))
    (hr : I.xjd1ExprEval ctx pRight = .ok (w,pRight')) (hv : ConvertsTo v a) (hw : ConvertsTo w b) :
    Operates I ctx (.bi eType pLeft (some pRight)) eType a b
  | bitnot {pLeft pLeft' : Expr R} {pRight : Option (Expr R)} {v : JsonNode R} {a : Int} (b : Int)
    (hl : I.xjd1ExprEval ctx pLeft = .ok (v,pLeft')) (hv : ConvertsTo v a) :
    Operates I ctx (.bi .bitnot pLeft pRight) .bitnot a b

/-- The evaluation ends without a fault, with the number of the convention if there is one. -/
def Conforms (eType : BiOp) (a b : Int) (x : Exec (JsonNode R × Expr R)) : Prop :=
  ∃ i q, x = .ok (.real (CDouble.ofInt i),q) ∧ ∀ j ∈ jsOperator eType a b, (CDouble.ofInt i : R) = CDouble.ofInt j

/-- The operands the operator does right on. Shifts by 32 and more give what no bits are
left of, so they are right where a shift by the remainder gives the same. -/
def Suits (eType : BiOp) (a b : Int) : Prop :=
  InInt a ∧ match eType with
  | .bitnot => True
  | .rem => InInt b ∧ b ≠ 0 ∧ ¬ (a = -2^31 ∧ b = -1)
  | .rshift => InInt b ∧ 0 ≤ b ∧ (32 ≤ b → -2^shiftCount b ≤ a ∧ a < 2^shiftCount b)
  | .lshift => InInt b ∧ 0 ≤ b ∧ (32 ≤ b → 2^32 ∣ a * 2^shiftCount b)
  | _ => InInt b

theorem toInt_int32 {a : Int} (ha : InInt a) : (int32 a).toInt = a :=
  BitVec.toInt_ofInt_eq_self (by decide) ha.1 ha.2

theorem inInt_toInt (x : BitVec 32) : InInt x.toInt := ⟨x.le_toInt,x.toInt_lt⟩

theorem shiftCount_of_lt {b : Int} (h0 : 0 ≤ b) (h : b < 32) : shiftCount b = b.toNat := by
  rw [shiftCount,Int.emod_eq_of_lt h0 h]

theorem sshiftRight_int32 {a : Int} (ha : InInt a) (n : ℕ) : ((int32 a).sshiftRight n).toInt = a / 2^n := by
  rw [BitVec.toInt_sshiftRight,toInt_int32 ha,Int.shiftRight_eq_div_pow,Int.natCast_pow]
  rfl

theorem shiftLeft_int32 (a : Int) (n : ℕ) : (int32 a <<< n).toInt = (a * 2^n).bmod (2^32) := by
  have hn : BitVec.twoPow 32 n = BitVec.ofInt 32 (2^n) := by
    apply BitVec.eq_of_toInt_eq
    rw [BitVec.twoPow_eq,BitVec.toInt_shiftLeft,BitVec.toInt_ofInt]
    simp [Int.shiftLeft_eq]
  rw [BitVec.shiftLeft_eq_mul_twoPow,hn,int32,← BitVec.ofInt_mul,BitVec.toInt_ofInt]

theorem not_int32 {a : Int} (ha : InInt a) : (~~~(int32 a)).toInt = -a-1 := by
  have h : ~~~(int32 a) = BitVec.ofInt 32 (-a-1) := by
    cases a with
    | ofNat n =>
      have hneg : -Int.ofNat n - 1 = Int.negSucc n := by rw [Int.negSucc_eq,Int.ofNat_eq_natCast]; omega
      rw [hneg,BitVec.ofInt_negSucc_eq_not_ofNat]
      rfl
    | negSucc n =>
      rw [int32,BitVec.ofInt_negSucc_eq_not_ofNat,BitVec.not_not,Int.negSucc_eq]
      simp
  obtain ⟨h1,h2⟩ := ha
  rw [h]
  exact BitVec.toInt_ofInt_eq_self (by decide) (by omega) (by omega)

theorem Integers.ofInt_inj (hR : Integers R) {i j : Int} (hi : InInt i) (hj : InInt j)
    (h : (CDouble.ofInt i : R) = CDouble.ofInt j) : i = j := by
  have hi' := hR.toInt i
  rw [h,hR.toInt] at hi'
  exact (Option.some.inj ((if_pos hj).symm.trans (hi'.trans (if_pos hi)))).symm

theorem ConvertsTo.toInt {v : JsonNode R} {a : Int} (h : ConvertsTo v a) :
    toInt (xjd1JsonToReal v).1 = if InInt a then .ok a else .stop .undefined := by
  have hr := h.2
  rw [ReadAs] at hr
  split at hr
  · rename_i ha
    rw [Xjd1.toInt,hr.1,if_pos ha]
    rfl
  · rename_i ha
    rw [Xjd1.toInt,hr,if_neg ha]
    rfl

/-- The convention stays in the range of `int`, and so does C where it gives a value. -/
theorem jsOperator_inInt {eType : BiOp} {a b j : Int} (h : j ∈ jsOperator eType a b) : InInt j := by
  cases eType with
  | bitand | bitor | lshift | rshift | bitnot =>
    cases h
    exact inInt_toInt _
  | _ => cases h

theorem bitOperator_inInt {eType : BiOp} {a b i : Int} (ha : InInt a) (hb : InInt b)
    (h : bitOperator eType a b = .ok i) : InInt i := by
  cases eType with
  | rem =>
    rw [bitOperator] at h
    split at h
    · cases h
    · cases h
      -- the remainder is below the divisor, whatever the dividend is
      have hlt : (a.tmod b).natAbs < b.natAbs := by
        rw [Int.natAbs_tmod]
        exact Nat.mod_lt _ (by omega)
      obtain ⟨hb1,hb2⟩ := hb
      exact ⟨by omega,by omega⟩
  | rshift =>
    rw [bitOperator] at h
    split at h
    · cases h
      split <;> decide
    · split at h
      · cases h
      · cases h
        exact sshiftRight_int32 ha _ ▸ inInt_toInt _
  | lshift =>
    rw [bitOperator] at h
    split at h
    · cases h
      decide
    · split at h
      · cases h
      · cases h
        exact inInt_toInt _
  | bitand | bitor =>
    cases h
    exact inInt_toInt _
  | _ =>
    cases h
    decide

def Meets (eType : BiOp) (a b : Int) : Prop := ∃ i, bitOperator eType a b = .ok i ∧ ∀ j ∈ jsOperator eType a b, i = j

theorem rem_gives {a b : Int} : Meets .rem a b ↔ b ≠ 0 ∧ ¬ (a = -2^31 ∧ b = -1) := by
  rw [Meets,bitOperator,← not_or]
  split
  · rename_i h
    refine iff_of_false ?_ (not_not_intro h)
    rintro ⟨_,hi,_⟩
    cases hi
  · rename_i h
    exact iff_of_true ⟨_,rfl,fun j hj => absurd hj (Option.not_mem_none j)⟩ h

/-- What is left of a value is its sign if it has no more bits than are shifted out. -/
theorem sign_shift (a : Int) (n : ℕ) : (if a < 0 then -1 else 0) = a / 2^n ↔ -2^n ≤ a ∧ a < 2^n := by
  have hn : (0 : Int) < 2^n := Int.pow_pos (by decide)
  split
  · rename_i ha
    rw [eq_comm,Int.ediv_eq_iff_of_pos hn]
    omega
  · rename_i ha
    rw [eq_comm,Int.ediv_eq_iff_of_pos hn]
    omega

theorem rshift_gives {a b : Int} (ha : InInt a) :
    Meets .rshift a b ↔ 0 ≤ b ∧ (32 ≤ b → -2^shiftCount b ≤ a ∧ a < 2^shiftCount b) := by
  have hjs : jsOperator .rshift a b = some (a / 2^shiftCount b) := congrArg some (sshiftRight_int32 ha _)
  rw [Meets,bitOperator,hjs]
  split
  · rename_i h32
    rw [← sign_shift]
    constructor
    · rintro ⟨i,hi,hj⟩
      cases hi
      exact ⟨by omega,fun _ => hj _ rfl⟩
    · rintro ⟨_,h⟩
      refine ⟨_,rfl,fun j hj => ?_⟩
      cases hj
      exact h h32
  · rename_i h32
    split
    · refine iff_of_false ?_ fun h => by omega
      rintro ⟨_,hi,_⟩
      cases hi
    · refine iff_of_true ⟨_,rfl,fun j hj => ?_⟩ ⟨by omega,fun h => absurd h h32⟩
      cases hj
      rw [shiftCount_of_lt (by omega) (by omega)]

theorem lshift_gives {a b : Int} :
    Meets .lshift a b ↔ 0 ≤ b ∧ (32 ≤ b → 2^32 ∣ a * 2^shiftCount b) := by
  rw [Meets,bitOperator]
  split
  · rename_i h32
    have hjs : jsOperator .lshift a b = some ((a * 2^shiftCount b).bmod (2^32)) :=
      congrArg some (shiftLeft_int32 a _)
    have hdvd : 2^32 ∣ a * 2^shiftCount b ↔ 0 = (a * 2^shiftCount b).bmod (2^32) :=
      Int.dvd_iff_bmod_eq_zero.trans eq_comm
    rw [hdvd,hjs]
    constructor
    · rintro ⟨i,hi,hj⟩
      cases hi
      exact ⟨by omega,fun _ => hj _ rfl⟩
    · rintro ⟨_,h⟩
      refine ⟨0,rfl,fun j hj => ?_⟩
      cases hj
      exact h h32
  · rename_i h32
    split
    · refine iff_of_false ?_ fun h => by omega
      rintro ⟨_,hi,_⟩
      cases hi
    · refine iff_of_true ⟨_,rfl,fun j hj => ?_⟩ ⟨by omega,fun h => absurd h h32⟩
      cases hj
      rw [shiftCount_of_lt (by omega) (by omega),int32]

theorem bitand_gives {a b : Int} : Meets .bitand a b := ⟨_,rfl,fun _ hj => Option.some.inj hj⟩

theorem bitor_gives {a b : Int} : Meets .bitor a b := ⟨_,rfl,fun _ hj => Option.some.inj hj⟩

theorem gives_iff {eType : BiOp} {a b : Int} (he : eType.isInteger = true) :
    InInt a ∧ InInt b ∧ Meets eType a b ↔ Suits eType a b := by
  cases eType with
  | rem => exact and_congr_right fun _ => and_congr_right fun _ => rem_gives
  | rshift => exact and_congr_right fun ha => and_congr_right fun _ => rshift_gives ha
  | lshift => exact and_congr_right fun _ => and_congr_right fun _ => lshift_gives
  | bitand => exact and_congr_right fun _ => and_iff_left bitand_gives
  | bitor => exact and_congr_right fun _ => and_iff_left bitor_gives
  | _ => cases he

section Eval
variable {I : Interp R} {ctx : Ctx R} {pLeft pLeft' pRight pRight' : Expr R} {v w : JsonNode R} {a b : Int}

theorem exprEval_integer {eType : BiOp} (he : eType.isInteger = true) (hl : I.xjd1ExprEval ctx pLeft = .ok (v,pLeft'))
    (hr : I.xjd1ExprEval ctx pRight = .ok (w,pRight')) :
    exprEval I ctx (.bi eType pLeft (some pRight)) = (do
      let iLeft ← toInt (xjd1JsonToReal v).1
      let iRight ← toInt (xjd1JsonToReal w).1
      let i ← bitOperator eType iLeft iRight
      .ok (.real (CDouble.ofInt i),.bi eType pLeft' (some pRight'))) := by
  cases eType with
  | rem | rshift | lshift | bitand | bitor =>
    simp only [exprEval,exprEvalBi,evalOption,hl,hr,ok_bind,biOperator,bind_assoc]
  | _ => cases he

/-- Operands out of the range of `int` are faults, and so are operands the operator does not take. -/
theorem conforms_binary (hR : Integers R) {eType : BiOp} (he : eType.isInteger = true)
    (hl : I.xjd1ExprEval ctx pLeft = .ok (v,pLeft')) (hr : I.xjd1ExprEval ctx pRight = .ok (w,pRight'))
    (hv : ConvertsTo v a) (hw : ConvertsTo w b) :
    Conforms eType a b (exprEval I ctx (.bi eType pLeft (some pRight))) ↔ Suits eType a b := by
  rw [← gives_iff he,exprEval_integer he hl hr,hv.toInt,hw.toInt]
  by_cases ha : InInt a
  · by_cases hb : InInt b
    · simp only [if_pos ha,if_pos hb,ok_bind,and_iff_right ha,and_iff_right hb]
      constructor
      · rintro ⟨i,q,hx,hj⟩
        obtain ⟨k,hk,hx⟩ := bind_eq_ok.mp hx
        injection hx with hx
        injection hx with hki
        injection hki with hki
        exact ⟨k,hk,fun j hjs => hR.ofInt_inj (bitOperator_inInt ha hb hk) (jsOperator_inInt hjs) (hki.trans (hj j hjs))⟩
      · rintro ⟨i,hi,hj⟩
        rw [hi]
        exact ⟨i,_,rfl,fun j hjs => congrArg _ (hj j hjs)⟩
    · simp only [if_pos ha,if_neg hb,ok_bind,stop_bind]
      exact iff_of_false (fun ⟨_,_,hx,_⟩ => by cases hx) fun h => hb h.2.1
  · simp only [if_neg ha,stop_bind]
    exact iff_of_false (fun ⟨_,_,hx,_⟩ => by cases hx) fun h => ha h.1

theorem conforms_bitnot {pRight : Option (Expr R)} (hl : I.xjd1ExprEval ctx pLeft = .ok (v,pLeft'))
    (hv : ConvertsTo v a) : Conforms .bitnot a b (exprEval I ctx (.bi .bitnot pLeft pRight)) ↔ Suits .bitnot a b := by
  simp only [exprEval,exprEvalBi,hl,ok_bind,hv.toInt]
  by_cases ha : InInt a
  · rw [if_pos ha,ok_bind]
    refine iff_of_true ⟨_,_,rfl,fun j hj => ?_⟩ ⟨ha,trivial⟩
    cases hj
    rw [not_int32 ha]
  · rw [if_neg ha]
    exact iff_of_false (fun ⟨_,_,hx,_⟩ => by cases hx) fun h => ha h.1

/-- The evaluation of an integer operator follows the conventions on the operands that suit it, and on no others. -/
theorem intOperators_conform_iff (hR : Integers R) {p : Expr R} {eType : BiOp} (h : Operates I ctx p eType a b) :
    Conforms eType a b (exprEval I ctx p) ↔ Suits eType a b := by
  cases h with
  | binary he hl hr hv hw => exact conforms_binary hR he hl hr hv hw
  | bitnot _ hl hv => exact conforms_bitnot hl hv

end Eval

def literals (eType : BiOp) (v w : JsonNode Int) : Expr Int := .bi eType (.jvalue v) (some (.jvalue w))

def noQuery : Ctx Int := ⟨[],.select,fun _ => []⟩

theorem convertsTo_int (a : Int) : ConvertsTo (.real a : JsonNode Int) a := by
  refine ⟨rfl,?_⟩
  rw [ReadAs]
  split
  · rename_i ha
    exact ⟨if_pos ha,decide_eq_true rfl⟩
  · rename_i ha
    exact if_neg ha

theorem convertsTo_five : ConvertsTo (.string [ch '5'] : JsonNode Int) 5 := by
  refine ⟨rfl,?_⟩
  rw [ReadAs,if_pos (by decide)]
  exact ⟨rfl,rfl⟩

theorem operates_literals {eType : BiOp} {v w : JsonNode Int} {a b : Int} (he : eType.isInteger = true)
    (hv : ConvertsTo v a) (hw : ConvertsTo w b) : Operates (interp 1) noQuery (literals eType v w) eType a b :=
  .binary he rfl rfl hv hw

/-- `"5" << 4`. -/
theorem intOperators_conform_five :
    Conforms .lshift 5 4 (exprEval (interp 1) noQuery (literals .lshift (.string [ch '5']) (.real (4 : Int)))) ↔
      Suits .lshift 5 4 :=
  intOperators_conform_iff integers_int (operates_literals rfl convertsTo_five (convertsTo_int 4))

/-- `1 % 0` divides by zero, and `8 >> 33` gives 0 where a shift by one gives 4. -/
theorem intOperators_conform_zero :
    ¬ Conforms .rem 1 0 (exprEval (interp 1) noQuery (literals .rem (.real (1 : Int)) (.real (0 : Int)))) ∧
    ¬ Conforms .rshift 8 33 (exprEval (interp 1) noQuery (literals .rshift (.real (8 : Int)) (.real (33 : Int)))) := by
  constructor
  · rw [literals,conforms_binary integers_int rfl rfl rfl (convertsTo_int 1) (convertsTo_int 0)]
    exact fun h => h.2.2.1 rfl
  · rw [literals,conforms_binary integers_int rfl rfl rfl (convertsTo_int 8) (convertsTo_int 33)]
    exact fun h => absurd (h.2.2.2 (by decide)).2 (by decide)

end Xjd1
