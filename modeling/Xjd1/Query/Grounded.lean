import Xjd1.Query.Supply

/-! What the evaluation of an expression asks of the state it starts in. The documents and the rows
that it comes to are there, no operand whose type is read is a null pointer, and the numbers that
are taken as `int` are in its range. -/
namespace Xjd1

open Fueled Fueled.Run

variable {R : Type}

def ResultList.HasDoc (pList : ResultList R) (i : ℕ) : Prop :=
  ∃ pItem ∈ pList.pItem.head?, i < pItem.apKey.length

theorem hasDoc_iff (l : ResultList R) (i : ℕ) : l.HasDoc i ↔ ∃ v, l.doc i = .ok v := by
  rw [ResultList.HasDoc,ResultList.doc]
  cases l.pItem with
  | nil => simp
  | cons a as =>
    rcases Nat.lt_or_ge i a.apKey.length with h | h
    · simp [h]
    · simp [h]

/-- The expression that document 0 is the value of, if it is not read from a list. -/
def Query.result (p : Query R) : Option (Expr R) :=
  match p.eDocFrom, p.u with
  | .grouped, .simple s | .datasrc, .simple s => s.pRes
  | _, _ => none

/-- The list that document 0 is read from, if it is read from one, has it at its head. -/
def Query.Listed (p : Query R) : Prop :=
  match p.eDocFrom, p.u with
  | .ordered, _ => p.ordered.HasDoc (p.ordered.nKey-1)
  | .distincted, .simple s => s.distincted.HasDoc 0
  | .grouped, .simple s => s.grouped.HasDoc (s.pGroupBy.getD []).length
  | _, _ => True

variable [CDouble R]

/-- The number of the value is in the range of `int`. -/
def Converts (v : JsonNode R) : Prop := ∃ i, CDouble.toInt (xjd1JsonToReal v).1 = some i

/-- The integers that a bit operator or a remainder has a result for. -/
def BitsDefined (eType : BiOp) (iLeft iRight : Int) : Prop :=
  match eType with
  | .rem => iRight ≠ 0 ∧ ¬ (iLeft = -2^31 ∧ iRight = -1)
  | .rshift | .lshift => 0 ≤ iRight
  | _ => True

/-- The operands that an operator has a result for. -/
def OperatorDefined (eType : BiOp) (pJLeft pJRight : JsonNode R) : Prop :=
  match eType with
  | .lb => match pJLeft with
    | .nullptr => False
    | .array _ | .string _ => (xjd1JsonToReal pJRight).2 = false → Converts pJRight
    | _ => True
  | .rem | .rshift | .lshift | .bitand | .bitor => ∃ iLeft iRight, CDouble.toInt (xjd1JsonToReal pJLeft).1 = some iLeft ∧
      CDouble.toInt (xjd1JsonToReal pJRight).1 = some iRight ∧ BitsDefined eType iLeft iRight
  | _ => True

theorem toInt_ok_iff {r : R} : (∃ i, toInt r = .ok i) ↔ ∃ i, CDouble.toInt r = some i := by
  rw [toInt]
  cases CDouble.toInt r <;> simp

theorem subscript_ok_iff {v : JsonNode R} : (∃ o, subscript v = .ok o) ↔ ((xjd1JsonToReal v).2 = false → Converts v) := by
  rw [subscript]
  cases (xjd1JsonToReal v).2 with
  | true => simp
  | false =>
    rw [if_neg Bool.false_ne_true,Converts,← toInt_ok_iff]
    cases toInt (xjd1JsonToReal v).1 <;> simp

theorem subscriptOperator_ok_iff {v w : JsonNode R} :
    (∃ r, subscriptOperator v w = .ok r) ↔ OperatorDefined .lb v w := by
  cases v with
  | nullptr => simp [subscriptOperator,OperatorDefined]
  | array vs =>
    rw [OperatorDefined,← subscript_ok_iff,subscriptOperator]
    cases subscript w with
    | ok o =>
      rw [ok_bind]
      cases o with
      | none => simp
      | some i =>
        simp only
        split <;> simp
    | stop s => simp
    | more => simp
  | string z =>
    rw [OperatorDefined,← subscript_ok_iff,subscriptOperator]
    cases subscript w with
    | ok o =>
      rw [ok_bind]
      cases o <;> simp
    | stop s => simp
    | more => simp
  | _ => simp [subscriptOperator,OperatorDefined]

theorem bitOperator_ok_iff {op : BiOp} {i j : Int} : (∃ r, bitOperator op i j = .ok r) ↔ BitsDefined op i j := by
  have hcount : ∀ x y : Int, (∃ r, (if 32 ≤ j then .ok x else if j < 0 then .stop .undefined else .ok y : Exec Int) = .ok r) ↔
      0 ≤ j := by
    intro x y
    split
    · simp only [Run.ok.injEq,exists_eq',true_iff]
      omega
    · split
      · simp only [reduceCtorEq,exists_false,false_iff]
        omega
      · simp only [Run.ok.injEq,exists_eq',true_iff]
        omega
  cases op with
  | rshift => exact hcount _ _
  | lshift => exact hcount _ _
  | rem =>
    rw [bitOperator,BitsDefined]
    split
    · rename_i h
      simp only [reduceCtorEq,exists_false,false_iff]
      exact fun h' => h.elim h'.1 h'.2
    · rename_i h
      simp only [Run.ok.injEq,exists_eq',true_iff]
      exact not_or.mp h
  | _ => simp [bitOperator,BitsDefined]

theorem biOperator_ok_iff {op : BiOp} {v w : JsonNode R} : (∃ r, biOperator op v w = .ok r) ↔ OperatorDefined op v w := by
  have hbits : (∃ r, (do
      let iLeft ← toInt (xjd1JsonToReal v).1
      let iRight ← toInt (xjd1JsonToReal w).1
      let i ← bitOperator op iLeft iRight
      .ok (.real (CDouble.ofInt i)) : Exec (JsonNode R)) = .ok r) ↔
      ∃ i j, CDouble.toInt (xjd1JsonToReal v).1 = some i ∧ CDouble.toInt (xjd1JsonToReal w).1 = some j ∧ BitsDefined op i j := by
    rw [toInt,toInt]
    cases CDouble.toInt (xjd1JsonToReal v).1 with
    | none => simp
    | some i =>
      cases CDouble.toInt (xjd1JsonToReal w).1 with
      | none => simp
      | some j =>
        simp only [ofOption_some,ok_bind,Option.some.injEq,exists_eq_left',← bitOperator_ok_iff,exists_and_left]
        cases bitOperator op i j <;> simp
  cases op with
  | lb => exact subscriptOperator_ok_iff
  | rem | rshift | lshift | bitand | bitor => exact hbits
  | _ => simp [biOperator,OperatorDefined]

/-- The evaluations that take both operands first. -/
def BiOp.strict (eType : BiOp) (pRight : Option (Expr R)) : Bool :=
  match eType, pRight with
  | .and, _ | .or, _ | .bang, _ | .bitnot, _ | .eq3, _ | .ne3, _ | .like, _ | .urshift, _ | .bitxor, _ => false
  | .minus, none | .star, none | .slash, none => false
  | _, _ => true

theorem exprEvalBi_strict {I : Interp R} {ctx : Ctx R} {op : BiOp} {r : Option (Expr R)} (h : op.strict r = true)
    (l : Expr R) : exprEvalBi I ctx op l r = (do
      let (v,pLeft) ← I.xjd1ExprEval ctx l
      let (w,pRight) ← evalOption I ctx r
      let x ← biOperator op v w
      .ok (x,.bi op pLeft pRight)) := by
  cases op with
  | minus | star | slash =>
    cases r with
    | none => cases h
    | some r => rfl
  | and | or | bang | bitnot | eq3 | ne3 | like | urshift | bitxor => cases h
  | _ => rfl

theorem exprEvalBi_logical {I : Interp R} {ctx : Ctx R} {op : BiOp} (hop : op = .and ∨ op = .or) (l : Expr R)
    (r : Option (Expr R)) : exprEvalBi I ctx op l r = (do
      let (v,pLeft) ← I.xjd1ExprEval ctx l
      let b ← isTrue v
      if b = (op = .or) then .ok (v,.bi op pLeft r)
      else do
        let (v,pRight) ← evalOption I ctx r
        .ok (v,.bi op pLeft pRight)) := by
  rcases hop with rfl | rfl <;> rfl

section Values
variable (c : ℕ → Ctx R)

def Evaluates (e : Expr R) : Prop := ∃ r, Returns (fun n => (interp n).xjd1ExprEval (c n) e) r

def Value (e : Expr R) (v : JsonNode R) : Prop := ∃ e', Returns (fun n => (interp n).xjd1ExprEval (c n) e) (v,e')

def OptionValue : Option (Expr R) → JsonNode R → Prop
  | none, w => w = .null
  | some e, w => Value c e w

def Truth (e : Expr R) (b : Bool) : Prop := ∃ e', Returns (fun n => xjd1ExprTrue (interp n) (c n) e) (b,e')

/-- The left side of `&&` or `||` gives the value. -/
def Decides (eType : BiOp) (pLeft : Expr R) : Prop := ∃ v b, Value c pLeft v ∧ isTrue v = .ok b ∧ (b = true ↔ eType = .or)

def Query.scopes (p : Query R) : ℕ → Ctx R := fun n => p.scope (interp n) (c n)

end Values

/-- Everything that the evaluation of an expression reads is there: the rules follow it into the operands
that it comes to. -/
inductive Grounded : (ℕ → Ctx R) → Expr R → Prop
  | jvalue {c} (v : JsonNode R) : Grounded c (.jvalue v)
  | dot {c l} (z : Bytes) (hl : Grounded c l) : Grounded c (.dot l z)
  | constant {c op l r} (hop : op = .eq3 ∨ op = .ne3 ∨ op = .like ∨ op = .urshift ∨ op = .bitxor) : Grounded c (.bi op l r)
  | bang {c l r} (hl : Grounded c l) : Grounded c (.bi .bang l r)
  | negative {c l} (hl : Grounded c l) : Grounded c (.bi .minus l none)
  /-- The number is in the range of `int`. -/
  | bitnot {c l r} (hl : Grounded c l) (hv : ∀ v, Value c l v → Converts v) : Grounded c (.bi .bitnot l r)
  /-- The left side is no null pointer. -/
  | logical {c op l r} (hop : op = .and ∨ op = .or) (hl : Grounded c l) (hv : ∀ v, Value c l v → v ≠ .nullptr)
    (hr : ¬ Decides c op l → ∀ e ∈ r, Grounded c e) : Grounded c (.bi op l r)
  | strict {c op l r} (hop : op.strict r = true) (hl : Grounded c l) (hr : ∀ e ∈ r, Grounded c e)
    (hd : ∀ v w, Value c l v → OptionValue c r w → OperatorDefined op v w) : Grounded c (.bi op l r)
  | tri {c t a b} (ht : Grounded c t) (ha : Truth c t true → Grounded c a) (hb : Truth c t false → Grounded c b) :
    Grounded c (.tri t a b)
  /-- The query has the document. -/
  | id {c z q i v} (h : Returns (fun n => identDoc (c n) q i) v) : Grounded c (.id z q i)
  | struct {c es} (h : ∀ e ∈ es, Grounded c e.pExpr) : Grounded c (.struct es)
  | array {c es} (h : ∀ e ∈ es, Grounded c e.pExpr) : Grounded c (.array es)
  /-- The argument of `length` is no null pointer. -/
  | length {c e i} (h : Grounded c e.pExpr) (hv : ∀ v, Value c e.pExpr v → v ≠ .nullptr) :
    Grounded c (.func .length [e] i)
  | agg {c f args i v} (hf : f ≠ .length) (h : Returns (fun n => aggDoc (c n) i) v) : Grounded c (.func f args i)
  /-- The subquery has no row. -/
  | done {c p p'} (h : Returns (fun n => (interp n).xjd1QueryStep (c n) p) (.done,p')) : Grounded c (.subq p)
  /-- The row of the subquery is in a list, at its head. -/
  | listed {c p p'} (h : Returns (fun n => (interp n).xjd1QueryStep (c n) p) (.row,p')) (hr : p'.result = none)
    (hl : p'.Listed) : Grounded c (.subq p)
  /-- The row of the subquery is the value of an expression. -/
  | result {c p p' e} (h : Returns (fun n => (interp n).xjd1QueryStep (c n) p) (.row,p')) (hr : p'.result = some e)
    (he : Grounded (p'.scopes c) e) : Grounded c (.subq p)

/-- The surroundings tell no less with more fuel. -/
def Growing (c : ℕ → Ctx R) : Prop := ∀ n m, n ≤ m → c n ≤ c m

omit [CDouble R] in
theorem Ctx.le_trans {b c d : Ctx R} (h : b ≤ c) (h' : c ≤ d) : b ≤ d := by
  refine ⟨?_,h.2.1.trans h'.2.1,h.2.2.trans h'.2.2⟩
  have hf := h.1
  have hf' := h'.1
  generalize b.frames = fs at hf ⊢
  generalize d.frames = hs at hf' ⊢
  generalize c.frames = gs at hf hf'
  induction hf generalizing hs with
  | nil => exact hf'
  | cons hfg _ ih =>
    cases hf' with
    | cons hgh htail => exact .cons ⟨fun k => Run.le_trans (hfg.1 k) (hgh.1 k),hfg.2.trans hgh.2⟩ (ih _ htail)

omit [CDouble R] in
theorem growing_const (ctx : Ctx R) : Growing fun _ => ctx := fun _ _ _ => Ctx.le_refl ctx

theorem Growing.scopes {c : ℕ → Ctx R} (hc : Growing c) (p : Query R) : Growing (p.scopes c) :=
  fun _ _ h => scope_le (interp_le h) (hc _ _ h) p

section Forward
variable {c : ℕ → Ctx R} (hc : Growing c)
include hc

theorem Evaluates.of_exprEval {e : Expr R} {r : JsonNode R × Expr R} (h : Returns (fun n => exprEval (interp n) (c n) e) r) :
    Evaluates c e := by
  refine ⟨r,Returns.succ_iff.mp ?_⟩
  filter_upwards [h] with n hn
  exact le_ok (exprEval_le (interp_le (Nat.le_refl n)) (hc n (n+1) (Nat.le_succ n)) e) hn

omit hc in
theorem Evaluates.option {r : Option (Expr R)} (h : ∀ e ∈ r, Evaluates c e) :
    ∃ x, Returns (fun n => evalOption (interp n) (c n) r) x ∧ OptionValue c r x.1 := by
  cases r with
  | none => exact ⟨_,Filter.Eventually.of_forall fun _ => rfl,rfl⟩
  | some e =>
    obtain ⟨⟨v,e'⟩,hv⟩ := h e rfl
    exact ⟨(v,some e'),hv.bind (.of_forall fun _ => rfl),e',hv⟩

omit hc in
theorem Evaluates.items {es : List (ExprItem R)} (h : ∀ e ∈ es, Evaluates c e.pExpr) :
    ∃ x, Returns (fun n => evalItems (interp n) (c n) es) x := by
  induction es with
  | nil => exact ⟨_,Filter.Eventually.of_forall fun _ => rfl⟩
  | cons e es ih =>
    obtain ⟨he,hes⟩ := List.forall_mem_cons.mp h
    obtain ⟨r,hr⟩ := he
    obtain ⟨x,hx⟩ := ih hes
    exact ⟨_,hr.bind (hx.bind (.of_forall fun _ => rfl))⟩

omit hc in
theorem Evaluates.truth {e : Expr R} (h : Evaluates c e) : ∃ b, Truth c e b := by
  obtain ⟨⟨v,e'⟩,hv⟩ := h
  cases v
  all_goals exact ⟨_,e',hv.bind (.of_forall fun _ => rfl)⟩

omit hc in
theorem isTrue_ok {v : JsonNode R} (h : v ≠ .nullptr) : ∃ b, isTrue v = .ok b := by
  cases v with
  | nullptr => exact absurd rfl h
  | _ => exact ⟨_,rfl⟩

theorem Evaluates.logical {op : BiOp} (hop : op = .and ∨ op = .or) {l : Expr R} {r : Option (Expr R)} (hl : Evaluates c l)
    (hv : ∀ v, Value c l v → v ≠ .nullptr) (hr : ¬ Decides c op l → ∀ e ∈ r, Evaluates c e) :
    Evaluates c (.bi op l r) := by
  obtain ⟨⟨v,l'⟩,hl⟩ := hl
  have hval : Value c l v := ⟨l',hl⟩
  obtain ⟨b,hb⟩ := isTrue_ok (hv v hval)
  by_cases hs : b = true ↔ op = .or
  · refine Evaluates.of_exprEval hc (r := (v,.bi op l' r)) ?_
    filter_upwards [hl] with n hn
    rw [exprEval,exprEvalBi_logical hop,hn]
    simp only [ok_bind,hb,if_pos (propext hs)]
  · have hnot : ¬ Decides c op l := by
      rintro ⟨w,b',⟨l'',hw⟩,hb',hd⟩
      cases hl.unique hw
      cases hb.symm.trans hb'
      exact hs hd
    obtain ⟨x,hx,_⟩ := Evaluates.option (hr hnot)
    refine Evaluates.of_exprEval hc (r := (x.1,.bi op l' x.2)) ?_
    filter_upwards [hl,hx] with n hn hxn
    rw [exprEval,exprEvalBi_logical hop,hn]
    simp only [ok_bind,hb,if_neg fun h => hs (iff_of_eq h),hxn]

theorem Evaluates.strict {op : BiOp} {l : Expr R} {r : Option (Expr R)} (hop : op.strict r = true) (hl : Evaluates c l)
    (hr : ∀ e ∈ r, Evaluates c e) (hd : ∀ v w, Value c l v → OptionValue c r w → OperatorDefined op v w) :
    Evaluates c (.bi op l r) := by
  obtain ⟨⟨v,l'⟩,hl⟩ := hl
  obtain ⟨⟨w,r'⟩,hr,hw⟩ := Evaluates.option hr
  obtain ⟨x,hx⟩ := biOperator_ok_iff.mpr (hd v w ⟨l',hl⟩ hw)
  refine Evaluates.of_exprEval hc (r := (x,.bi op l' r')) ?_
  filter_upwards [hl,hr] with n hln hrn
  rw [exprEval,exprEvalBi_strict hop,hln]
  simp only [ok_bind,hrn,hx]

end Forward

omit [CDouble R] in
theorem queryDoc_result {p : Query R} {e : Expr R} (h : p.result = some e) :
    ∃ s, ∀ (I : Interp R) ctx, queryDoc I ctx p 0 = resultDoc I ctx p s e := by
  unfold Query.result at h
  split at h
  · rename_i s hd hu
    exact ⟨s,fun _ _ => by simp only [queryDoc,hd,reduceCtorEq,if_false,hu,simpleDoc,h]⟩
  · rename_i s hd hu
    exact ⟨s,fun _ _ => by simp only [queryDoc,hd,reduceCtorEq,if_false,hu,simpleDoc,h]⟩
  · cases h

omit [CDouble R] in
theorem queryDoc_listed {p : Query R} (h : p.result = none) :
    ∃ x, (∀ (I : Interp R) ctx, queryDoc I ctx p 0 = x) ∧ ((∃ r, x = .ok r) ↔ p.Listed) := by
  have hlist : ∀ (l : ResultList R) (i : ℕ), (∃ r, (do
      let v ← l.doc i
      .ok (v,p) : Exec (JsonNode R × Query R)) = .ok r) ↔ l.HasDoc i := by
    intro l i
    rw [hasDoc_iff]
    cases l.doc i <;> simp
  cases hd : p.eDocFrom with
  | ordered =>
    simp only [queryDoc,hd,if_true,Query.Listed]
    exact ⟨_,fun _ _ => rfl,hlist _ _⟩
  | distincted | grouped | datasrc =>
    cases hu : p.u with
    | compound c =>
      simp only [queryDoc,hd,reduceCtorEq,if_false,hu,if_true,Query.Listed,iff_true]
      exact ⟨_,fun _ _ => rfl,_,rfl⟩
    | simple s =>
      simp only [Query.result,hd,hu] at h
      simp only [queryDoc,hd,reduceCtorEq,if_false,hu,simpleDoc,h,Query.Listed]
      exact ⟨_,fun _ _ => rfl,by first | exact hlist _ _ | simp⟩

theorem reads_listed {c : ℕ → Ctx R} {p : Query R} (h : p.result = none) (hl : p.Listed) :
    ∃ r, Returns (fun n => (interp n).xjd1QueryDoc (c n) p 0) r := by
  obtain ⟨x,hx,hiff⟩ := queryDoc_listed h
  obtain ⟨r,rfl⟩ := hiff.mpr hl
  exact ⟨r,Returns.succ_iff.mp (.of_forall fun n => hx (interp n) (c (n+1)))⟩

theorem reads_result {c : ℕ → Ctx R} (hc : Growing c) {p : Query R} {e : Expr R} (h : p.result = some e)
    (he : Evaluates (p.scopes c) e) : ∃ r, Returns (fun n => (interp n).xjd1QueryDoc (c n) p 0) r := by
  obtain ⟨s,hs⟩ := queryDoc_result h
  obtain ⟨⟨v,e'⟩,he⟩ := he
  refine ⟨(v,p.setSimple { s with pRes := some e' }),Returns.succ_iff.mp ?_⟩
  filter_upwards [he] with n hn
  have hle := (interp_le (Nat.le_refl n)).exprEval _ _ (scope_le (interp_le (Nat.le_refl n)) (hc n (n+1) (Nat.le_succ n)) p) e
  show queryDoc (interp n) (c (n+1)) p 0 = _
  rw [hs,resultDoc,le_ok hle hn,ok_bind]

theorem Grounded.evaluates {c : ℕ → Ctx R} {e : Expr R} (h : Grounded c e) (hc : Growing c) : Evaluates c e := by
  induction h with
  | jvalue v => exact .of_exprEval hc (Filter.Eventually.of_forall fun _ => rfl)
  | dot z _ ih =>
    obtain ⟨_,hl⟩ := ih hc
    exact .of_exprEval hc (hl.bind (.of_forall fun _ => rfl))
  | constant hop =>
    rcases hop with rfl | rfl | rfl | rfl | rfl
    all_goals exact .of_exprEval hc (Filter.Eventually.of_forall fun _ => rfl)
  | bang _ ih =>
    obtain ⟨_,_,ht⟩ := (ih hc).truth
    exact .of_exprEval hc (ht.bind (.of_forall fun _ => rfl))
  | negative _ ih =>
    obtain ⟨_,hl⟩ := ih hc
    exact .of_exprEval hc (hl.bind (.of_forall fun _ => rfl))
  | bitnot _ hv ih =>
    obtain ⟨⟨v,l'⟩,hl⟩ := ih hc
    obtain ⟨i,hi⟩ := toInt_ok_iff.mpr (hv v ⟨l',hl⟩)
    exact .of_exprEval hc (hl.bind (.of_forall fun _ => by simp only [hi,ok_bind]; rfl))
  | logical hop _ hv _ ih ihr => exact .logical hc hop (ih hc) hv fun hd e he => ihr hd e he hc
  | strict hop _ _ hd ih ihr => exact .strict hc hop (ih hc) (fun e he => ihr e he hc) hd
  | tri _ _ _ iht iha ihb =>
    obtain ⟨b,t',ht⟩ := (iht hc).truth
    cases b with
    | true =>
      obtain ⟨_,ha⟩ := iha ⟨t',ht⟩ hc
      exact .of_exprEval hc (ht.bind (ha.bind (.of_forall fun _ => rfl)))
    | false =>
      obtain ⟨_,hb⟩ := ihb ⟨t',ht⟩ hc
      exact .of_exprEval hc (ht.bind (hb.bind (.of_forall fun _ => rfl)))
  | @id c z q i v h =>
    refine .of_exprEval hc (r := (v,.id z q i)) ?_
    filter_upwards [h] with n hn
    rw [exprEval_id,hn,ok_bind]
  | struct _ ih =>
    obtain ⟨_,hx⟩ := Evaluates.items fun e he => ih e he hc
    exact .of_exprEval hc (hx.bind (.of_forall fun _ => rfl))
  | array _ ih =>
    obtain ⟨_,hx⟩ := Evaluates.items fun e he => ih e he hc
    exact .of_exprEval hc (hx.bind (.of_forall fun _ => rfl))
  | @length c e i _ hv ih =>
    obtain ⟨⟨v,e'⟩,he⟩ := ih hc
    have hlen : ∃ w, xLength v = .ok w := by
      have hne := hv v ⟨e',he⟩
      cases v with
      | nullptr => exact absurd rfl hne
      | _ => exact ⟨_,rfl⟩
    obtain ⟨w,hw⟩ := hlen
    refine .of_exprEval hc (r := (w,.func .length [{ e with pExpr := e' }] i)) ?_
    filter_upwards [he] with n hn
    simp only [exprEval,xjd1FunctionEval,evalItems,hn,ok_bind,hw]
  | @agg c f args i v hf h =>
    refine .of_exprEval hc (r := (v,.func f args i)) ?_
    filter_upwards [h] with n hn
    generalize c n = d at hn ⊢
    obtain ⟨frames,_,_⟩ := d
    cases frames with
    | nil => cases hn
    | cons g gs =>
      cases hn
      cases f <;> first | exact absurd rfl hf | rfl
  | done h => exact .of_exprEval hc (h.bind (.of_forall fun _ => rfl))
  | listed h hr hl =>
    obtain ⟨_,hv⟩ := reads_listed hr hl
    exact .of_exprEval hc (h.bind (hv.bind (.of_forall fun _ => rfl)))
  | result h hr _ ih =>
    obtain ⟨_,hv⟩ := reads_result hc hr (ih (hc.scopes _))
    exact .of_exprEval hc (h.bind (hv.bind (.of_forall fun _ => rfl)))

section Backward
variable {c : ℕ → Ctx R} (hc : Growing c) {d : Ctx R} {m n : ℕ} (hd : d ≤ c m)
include hc hd

omit [CDouble R] in
theorem returns_of_le {α : Type} {f : ℕ → Ctx R → Exec α} (hf : ∀ n k d d', n ≤ k → d ≤ d' → f n d ≤ f k d') {r : α}
    (h : f n d = .ok r) : Returns (fun n => f n (c n)) r :=
  Filter.eventually_atTop.mpr ⟨max n m,fun k hk =>
    le_ok (hf n k d (c k) (Nat.le_trans (Nat.le_max_left n m) hk)
      (Ctx.le_trans hd (hc m k (Nat.le_trans (Nat.le_max_right n m) hk)))) h⟩

theorem Value.of_exprEval {e : Expr R} {v : JsonNode R} {e' : Expr R} (h : (interp n).xjd1ExprEval d e = .ok (v,e')) :
    Value c e v :=
  ⟨e',returns_of_le hc hd (f := fun n d => (interp n).xjd1ExprEval d e)
    (fun _ _ d d' hnk hdd => (interp_le hnk).exprEval d d' hdd e) h⟩

omit hc hd in
theorem Value.unique {e : Expr R} {v w : JsonNode R} (hv : Value c e v) (hw : Value c e w) : v = w := by
  obtain ⟨_,hv⟩ := hv
  obtain ⟨_,hw⟩ := hw
  cases hv.unique hw
  rfl

theorem OptionValue.of_evalOption {r : Option (Expr R)} {w : JsonNode R} {r' : Option (Expr R)}
    (h : evalOption (interp n) d r = .ok (w,r')) : OptionValue c r w := by
  cases r with
  | none =>
    cases h
    rfl
  | some e =>
    obtain ⟨⟨v,e'⟩,he,h⟩ := bind_eq_ok.mp h
    cases h
    exact .of_exprEval hc hd he

omit hc hd in
theorem OptionValue.unique {r : Option (Expr R)} {v w : JsonNode R} (hv : OptionValue c r v) (hw : OptionValue c r w) :
    v = w := by
  cases r with
  | none => exact hv.trans hw.symm
  | some e => exact Value.unique hv hw

theorem Truth.of_exprTrue {e : Expr R} {b : Bool} {e' : Expr R} (h : xjd1ExprTrue (interp n) d e = .ok (b,e')) :
    Truth c e b :=
  ⟨e',returns_of_le hc hd (f := fun n d => xjd1ExprTrue (interp n) d e)
    (fun _ _ _ _ hnk hdd => exprTrue_le (interp_le hnk) hdd e) h⟩

omit hc hd in
theorem Truth.unique {e : Expr R} {a b : Bool} (ha : Truth c e a) (hb : Truth c e b) : a = b := by
  obtain ⟨_,ha⟩ := ha
  obtain ⟨_,hb⟩ := hb
  cases ha.unique hb
  rfl

variable (ih : ∀ e x, (interp n).xjd1ExprEval d e = .ok x → Grounded c e)
include ih

omit hc hd in
theorem grounded_option {r : Option (Expr R)} {x : JsonNode R × Option (Expr R)}
    (h : evalOption (interp n) d r = .ok x) : ∀ e ∈ r, Grounded c e := by
  intro e he
  cases he
  obtain ⟨a,ha,_⟩ := bind_eq_ok.mp h
  exact ih e a ha

omit hc hd in
theorem grounded_items {es : List (ExprItem R)} {x : List (JsonNode R) × List (ExprItem R)}
    (h : evalItems (interp n) d es = .ok x) : ∀ e ∈ es, Grounded c e.pExpr := by
  induction es generalizing x with
  | nil => exact fun e he => absurd he List.not_mem_nil
  | cons e es ihes =>
    obtain ⟨a,ha,h⟩ := bind_eq_ok.mp h
    obtain ⟨b,hb,_⟩ := bind_eq_ok.mp h
    exact List.forall_mem_cons.mpr ⟨ih _ a ha,ihes hb⟩

omit hc hd in
theorem grounded_test {t : Expr R} {x : Bool × Expr R} (h : xjd1ExprTrue (interp n) d t = .ok x) : Grounded c t := by
  obtain ⟨a,ha,_⟩ := bind_eq_ok.mp h
  exact ih t a ha

theorem grounded_logical {op : BiOp} (hop : op = .and ∨ op = .or) {l : Expr R} {r : Option (Expr R)}
    {x : JsonNode R × Expr R} (h : exprEvalBi (interp n) d op l r = .ok x) : Grounded c (.bi op l r) := by
  rw [exprEvalBi_logical hop] at h
  obtain ⟨⟨v,l'⟩,hl,h⟩ := bind_eq_ok.mp h
  obtain ⟨b,hb,h⟩ := bind_eq_ok.mp h
  have hv := Value.of_exprEval hc hd hl
  refine .logical hop (ih l _ hl) (fun w hw => ?_) fun hnot => ?_
  · rw [Value.unique hw hv]
    rintro rfl
    cases hb
  · rw [if_neg fun hs => hnot ⟨v,b,hv,hb,iff_of_eq hs⟩] at h
    obtain ⟨y,hy,_⟩ := bind_eq_ok.mp h
    exact grounded_option ih hy

theorem grounded_strict {op : BiOp} {l : Expr R} {r : Option (Expr R)} (hop : op.strict r = true)
    {x : JsonNode R × Expr R} (h : exprEvalBi (interp n) d op l r = .ok x) : Grounded c (.bi op l r) := by
  rw [exprEvalBi_strict hop] at h
  obtain ⟨⟨v,l'⟩,hl,h⟩ := bind_eq_ok.mp h
  obtain ⟨⟨w,r'⟩,hr,h⟩ := bind_eq_ok.mp h
  obtain ⟨y,hy,_⟩ := bind_eq_ok.mp h
  refine .strict hop (ih l _ hl) (grounded_option ih hr) fun v' w' hv hw => ?_
  rw [Value.unique hv (.of_exprEval hc hd hl),OptionValue.unique hw (.of_evalOption hc hd hr)]
  exact biOperator_ok_iff.mp ⟨y,hy⟩

theorem grounded_bi {op : BiOp} {l : Expr R} {r : Option (Expr R)} {x : JsonNode R × Expr R}
    (h : exprEvalBi (interp n) d op l r = .ok x) : Grounded c (.bi op l r) := by
  cases op with
  | and => exact grounded_logical hc hd ih (.inl rfl) h
  | or => exact grounded_logical hc hd ih (.inr rfl) h
  | bang =>
    obtain ⟨t,ht,_⟩ := bind_eq_ok.mp h
    exact .bang (grounded_test ih ht)
  | bitnot =>
    obtain ⟨⟨v,l'⟩,hl,h⟩ := bind_eq_ok.mp h
    obtain ⟨i,hi,_⟩ := bind_eq_ok.mp h
    refine .bitnot (ih l _ hl) fun w hw => ?_
    rw [Value.unique hw (.of_exprEval hc hd hl)]
    exact toInt_ok_iff.mp ⟨i,hi⟩
  | eq3 | ne3 | like | urshift | bitxor => exact .constant (by decide)
  | minus =>
    cases r with
    | none =>
      obtain ⟨a,ha,_⟩ := bind_eq_ok.mp h
      exact .negative (ih l a ha)
    | some r => exact grounded_strict hc hd ih rfl h
  | star | slash =>
    cases r with
    | none => cases h
    | some r => exact grounded_strict hc hd ih rfl h
  | _ => exact grounded_strict hc hd ih rfl h

end Backward

/-- An expression that has a value has all it reads. -/
theorem grounded_of_exprEval {c : ℕ → Ctx R} (hc : Growing c) {n m : ℕ} {d : Ctx R} (hd : d ≤ c m) {e : Expr R}
    {x : JsonNode R × Expr R} (h : (interp n).xjd1ExprEval d e = .ok x) : Grounded c e := by
  induction n using Nat.strong_induction_on generalizing c m d e x with
  | _ n ihn =>
  cases n with
  | zero => cases h
  | succ n =>
  have ih : ∀ e x, (interp n).xjd1ExprEval d e = .ok x → Grounded c e :=
    fun _ _ h => ihn n (Nat.lt_succ_self n) hc hd h
  change exprEval (interp n) d e = _ at h
  cases e with
  | jvalue v => exact .jvalue v
  | dot l z =>
    obtain ⟨a,ha,_⟩ := bind_eq_ok.mp h
    exact .dot z (ih l a ha)
  | bi op l r => exact grounded_bi hc hd ih h
  | tri t a b =>
    obtain ⟨⟨b',t'⟩,ht,h⟩ := bind_eq_ok.mp h
    have htruth := Truth.of_exprTrue hc hd ht
    refine .tri (grounded_test ih ht) (fun hb => ?_) fun hb => ?_
    · obtain rfl := Truth.unique htruth hb
      obtain ⟨y,hy,_⟩ := bind_eq_ok.mp h
      exact ih a y hy
    · obtain rfl := Truth.unique htruth hb
      obtain ⟨y,hy,_⟩ := bind_eq_ok.mp h
      exact ih b y hy
  | id z q i =>
    rw [exprEval_id] at h
    obtain ⟨v,hv,_⟩ := bind_eq_ok.mp h
    exact .id (returns_of_le hc hd (f := fun _ d => identDoc d q i) (n := n) (fun _ _ _ _ _ hdd => identDoc_mono hdd q i) hv)
  | struct es =>
    obtain ⟨y,hy,_⟩ := bind_eq_ok.mp h
    exact .struct (grounded_items ih hy)
  | array es =>
    obtain ⟨y,hy,_⟩ := bind_eq_ok.mp h
    exact .array (grounded_items ih hy)
  | func f args i =>
    by_cases hf : f = .length
    · subst hf
      obtain ⟨⟨vs,args'⟩,hy,h⟩ := bind_eq_ok.mp h
      have hlen := evalItems_length hy
      have hg := grounded_items ih hy
      match args, vs, hlen with
      | [], [], _ => cases h
      | [e], [v], _ =>
        obtain ⟨w,hw,_⟩ := bind_eq_ok.mp h
        obtain ⟨⟨v',e'⟩,he,hy⟩ := bind_eq_ok.mp hy
        cases hy
        refine .length (hg e List.mem_cons_self) fun u hu => ?_
        rw [Value.unique hu (.of_exprEval hc hd he)]
        rintro rfl
        cases hw
      | _::_::_, _::_::_, _ => cases h
    · have hv : ∃ v, aggDoc d i = .ok v := by
        obtain ⟨frames,_,_⟩ := d
        cases f <;> first
          | exact absurd rfl hf
          | cases frames with
            | nil => cases h
            | cons g gs => exact ⟨_,rfl⟩
      obtain ⟨v,hv⟩ := hv
      exact .agg hf (returns_of_le hc hd (f := fun _ d => aggDoc d i) (n := n) (fun _ _ _ _ _ hdd => aggDoc_mono hdd i) hv)
  | subq p =>
    obtain ⟨⟨rc,p'⟩,hp,h⟩ := bind_eq_ok.mp h
    have hstep := returns_of_le hc hd (f := fun n d => (interp n).xjd1QueryStep d p)
      (fun _ _ d d' hnk hdd => (interp_le hnk).queryStep d d' hdd p) hp
    cases rc with
    | done => exact .done hstep
    | row =>
      obtain ⟨y,hy,_⟩ := bind_eq_ok.mp h
      cases n with
      | zero => cases hy
      | succ n =>
        change queryDoc (interp n) d p' 0 = _ at hy
        cases hr : p'.result with
        | none =>
          obtain ⟨z,hz,hiff⟩ := queryDoc_listed hr
          exact .listed hstep hr (hiff.mp ⟨y,(hz _ _).symm.trans hy⟩)
        | some e =>
          obtain ⟨s,hs⟩ := queryDoc_result hr
          rw [hs] at hy
          obtain ⟨z,hz,_⟩ := bind_eq_ok.mp hy
          have hle : p'.scope (interp n) d ≤ p'.scopes c (max n m) :=
            scope_le (interp_le (Nat.le_max_left n m)) (Ctx.le_trans hd (hc m _ (Nat.le_max_right n m))) p'
          exact .result hstep hr (ihn n (Nat.lt_succ_of_lt (Nat.lt_succ_self n)) (hc.scopes p') hle hz)

/-- The evaluation comes to an end exactly when everything that it reads is there. -/
theorem evaluates_iff {c : ℕ → Ctx R} (hc : Growing c) (e : Expr R) : Evaluates c e ↔ Grounded c e := by
  refine ⟨?_,fun h => h.evaluates hc⟩
  rintro ⟨r,h⟩
  obtain ⟨n,hn⟩ := h.exists
  exact grounded_of_exprEval hc (Ctx.le_refl (c n)) hn

/-- There is a row to read: it is at the head of its list, or everything is there that its result
expression reads. -/
def Query.HasRow (ctx : Ctx R) (p : Query R) : Prop :=
  match p.result with
  | some pRes => Grounded (p.scopes fun _ => ctx) pRes
  | none => p.Listed

/-- Document 0 is read with enough fuel exactly when there is a row to read. -/
theorem reads0_iff (ctx : Ctx R) (p : Query R) : (∃ r, Reads0 ctx p r) ↔ p.HasRow ctx := by
  have hc := growing_const ctx
  rw [Query.HasRow]
  cases hr : p.result with
  | none =>
    refine ⟨?_,fun h => reads_listed hr h⟩
    rintro ⟨r,h⟩
    obtain ⟨n,hn⟩ := (Returns.succ_iff.mpr h).exists
    obtain ⟨x,hx,hiff⟩ := queryDoc_listed hr
    exact hiff.mp ⟨r,(hx _ _).symm.trans hn⟩
  | some e =>
    refine ⟨?_,fun h => reads_result hc hr (h.evaluates (hc.scopes p))⟩
    rintro ⟨r,h⟩
    obtain ⟨n,hn⟩ := (Returns.succ_iff.mpr h).exists
    obtain ⟨s,hs⟩ := queryDoc_result hr
    change queryDoc (interp n) ctx p 0 = _ at hn
    rw [hs] at hn
    obtain ⟨y,hy,_⟩ := bind_eq_ok.mp hn
    exact grounded_of_exprEval (hc.scopes p) (m := n) (Ctx.le_refl _) hy

end Xjd1
