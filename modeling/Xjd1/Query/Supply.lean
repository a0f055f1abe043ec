import Xjd1.Query.Initial
import Xjd1.Query.Stream

/-! Null pointers among the values of expressions. The operands whose type is read are
nodes if what supplies them is: the documents and aggregate values they take, and
the rows of their subqueries. -/
namespace Xjd1

open Fueled Fueled.Run

variable {R : Type}

def isNode : JsonNode R → Bool
  | .nullptr => false
  | _ => true

def yieldsNode : Exec (JsonNode R) → Bool
  | .ok v => isNode v
  | .stop _ => true
  | .more => false

theorem yieldsNode_mono {x y : Exec (JsonNode R)} (h : x ≤ y) (hx : yieldsNode x = true) : yieldsNode y = true := by
  rcases h with rfl | rfl
  · cases hx
  · exact hx

def identDoc (ctx : Ctx R) (pQuery : Option ℕ) (iDatasrc : ℕ) : Exec (JsonNode R) :=
  match pQuery, ctx.pDoc with
  | some k, .select => match ctx.frames[k]? with
    | some f => f.doc iDatasrc
    | none => .stop .undefined
  | none, .doc pDoc => .ok pDoc
  | _, _ => .stop .assertFail

def aggDoc (ctx : Ctx R) (iAgg : ℕ) : Exec (JsonNode R) :=
  match ctx.frames with
  | f::_ => .ok (f.agg iAgg)
  | [] => .stop .undefined

/-- A test has an outcome, and what its outcome asks for is there. -/
def decided (x : Exec Bool) (f : Bool → Bool) : Bool :=
  match x with
  | .ok b => f b
  | .stop _ => true
  | .more => false

theorem decided_mono {x y : Exec Bool} {f g : Bool → Bool} (h : x ≤ y) (hf : ∀ b, f b = true → g b = true)
    (hx : decided x f = true) : decided y g = true := by
  rcases h with rfl | rfl
  · cases hx
  · cases x with
    | ok b => exact hf b hx
    | stop _ => rfl
    | more => cases hx

section Supply
variable [CDouble R] (I : Interp R) (ctx : Ctx R)

def subqDoc (p : Query R) : Exec (JsonNode R) := do
  let (rc,p) ← I.xjd1QueryStep ctx p
  match rc with
  | .row => Prod.fst <$> I.xjd1QueryDoc ctx p 0
  | .done => .ok .null

/-- The truth of the left side of `&&` and `||`. -/
def leftTruth (pLeft : Expr R) : Exec Bool := do
  let (v,_) ← I.xjd1ExprEval ctx pLeft
  isTrue v

mutual
/-- Whatever the expression takes its value from is there. -/
def supplied : Expr R → Bool
  | .jvalue p => isNode p
  | .bi eType pLeft pRight =>
    if eType = .and ∨ eType = .or then
      supplied pLeft && decided (leftTruth I ctx pLeft) fun b => if b = (eType = .or) then true else suppliedOption pRight
    else true
  | .tri pTest pIfTrue pIfFalse =>
    decided (Prod.fst <$> xjd1ExprTrue I ctx pTest) fun b => if b then supplied pIfTrue else supplied pIfFalse
  | .id _ pQuery iDatasrc => yieldsNode (identDoc ctx pQuery iDatasrc)
  | .func pFunction _ iAgg => if pFunction = .length then true else yieldsNode (aggDoc ctx iAgg)
  | .subq p => yieldsNode (subqDoc I ctx p)
  | .dot _ _ | .struct _ | .array _ => true

def suppliedOption : Option (Expr R) → Bool
  | none => true
  | some e => supplied e
end

def operandSupplied : Expr R → Bool
  | .bi eType pLeft _ => if eType = .and ∨ eType = .or ∨ eType = .lb then supplied I ctx pLeft else true
  | .func pFunction args _ => if pFunction = .length then args.head?.all fun pItem => supplied I ctx pItem.pExpr else true
  | _ => true

def AggExpr.supplied (a : AggExpr R) : Bool :=
  if a.pFunction = .count then a.args.head?.all fun pItem => Xjd1.supplied I ctx pItem.pExpr else true

end Supply

/-- The run up to where it reads a null pointer. -/
def untilNull {α : Type} : Exec α → Exec α
  | .stop .nullNode => .more
  | x => x

section Checked
variable [CDouble R]

/-- The engine on the evaluations whose operands are supplied. A step of a query in
which `count` or FLATTEN reads a null pointer is not followed any further. -/
def Interp.checked (I : Interp R) (n : ℕ) : Interp R :=
  { I.next n with
    xjd1ExprEval := fun ctx e => if operandSupplied I ctx e then exprEval I ctx e else .more
    xjd1QueryStep := fun ctx p => untilNull (queryStep I n ctx p) }

def checked : ℕ → Interp R
  | 0 => interp 0
  | n+1 => (checked n).checked n

end Checked

section Mono
variable {I J : Interp R} {c d : Ctx R}

theorem identDoc_mono (hc : c ≤ d) (pQuery : Option ℕ) (i : ℕ) : identDoc c pQuery i ≤ identDoc d pQuery i := by
  obtain ⟨cf,cp,_⟩ := c
  obtain ⟨df,dp,_⟩ := d
  obtain ⟨hf,hp,_⟩ := hc
  simp only at hp
  subst hp
  cases pQuery with
  | none => cases cp <;> exact Run.le_refl _
  | some k =>
    cases cp with
    | insert | doc v => exact Run.le_refl _
    | select =>
      simp only [identDoc]
      rcases forall2_getElem? hf k with ⟨h1,h2⟩ | ⟨f,g,h1,h2,h⟩
      · simp only [h1,h2]
        exact Run.le_refl _
      · simp only [h1,h2]
        exact h.1 i

theorem aggDoc_mono (hc : c ≤ d) (i : ℕ) : aggDoc c i ≤ aggDoc d i := by
  obtain ⟨cf,_,_⟩ := c
  obtain ⟨df,_,_⟩ := d
  obtain ⟨hf,_,_⟩ := hc
  cases hf with
  | nil => exact Run.le_refl _
  | cons h _ =>
    simp only [aggDoc,h.2]
    exact Run.le_refl _

theorem subqDoc_mono (hI : I.Le J) (hc : c ≤ d) (p : Query R) : subqDoc I c p ≤ subqDoc J d p := by
  refine bind_le_bind (hI.queryStep c d hc p) fun x => ?_
  obtain ⟨rc,p⟩ := x
  cases rc
  · exact map_le_map _ (hI.queryDoc c d hc p 0)
  · exact Run.le_refl _

variable [CDouble R]

theorem leftTruth_mono (hI : I.Le J) (hc : c ≤ d) (pLeft : Expr R) : leftTruth I c pLeft ≤ leftTruth J d pLeft :=
  bind_le_bind (hI.exprEval c d hc pLeft) fun _ => Run.le_refl _

mutual
theorem supplied_mono (hI : I.Le J) (hc : c ≤ d) (e : Expr R) (h : supplied I c e = true) : supplied J d e = true := by
  match e with
  | .jvalue p => exact h
  | .bi eType pLeft pRight =>
    rw [supplied] at h ⊢
    split at h
    · rename_i he
      rw [Bool.and_eq_true] at h
      rw [if_pos he,Bool.and_eq_true]
      refine ⟨supplied_mono hI hc pLeft h.1,decided_mono (leftTruth_mono hI hc pLeft) (fun b hb => ?_) h.2⟩
      split at hb
      · rename_i hb'
        rw [if_pos hb']
      · rename_i hb'
        rw [if_neg hb']
        exact suppliedOption_mono hI hc pRight hb
    · rename_i he
      rw [if_neg he]
  | .tri pTest pIfTrue pIfFalse =>
    rw [supplied] at h ⊢
    refine decided_mono (map_le_map _ (exprTrue_le hI hc pTest)) (fun b hb => ?_) h
    cases b with
    | true => exact supplied_mono hI hc pIfTrue hb
    | false => exact supplied_mono hI hc pIfFalse hb
  | .id _ pQuery iDatasrc => exact yieldsNode_mono (identDoc_mono hc pQuery iDatasrc) h
  | .func pFunction args iAgg =>
    rw [supplied] at h ⊢
    split at h
    · rename_i he
      rw [if_pos he]
    · rename_i he
      rw [if_neg he]
      exact yieldsNode_mono (aggDoc_mono hc iAgg) h
  | .subq p => exact yieldsNode_mono (subqDoc_mono hI hc p) h
  | .dot _ _ | .struct _ | .array _ => rfl

theorem suppliedOption_mono (hI : I.Le J) (hc : c ≤ d) (e : Option (Expr R)) (h : suppliedOption I c e = true) :
    suppliedOption J d e = true := by
  match e with
  | none => rfl
  | some e => exact supplied_mono hI hc e h
end

theorem operandSupplied_mono (hI : I.Le J) (hc : c ≤ d) (e : Expr R) (h : operandSupplied I c e = true) :
    operandSupplied J d e = true := by
  cases e with
  | bi eType pLeft pRight =>
    rw [operandSupplied] at h ⊢
    split at h
    · rename_i he
      rw [if_pos he]
      exact supplied_mono hI hc pLeft h
    · rename_i he
      rw [if_neg he]
  | func pFunction args iAgg =>
    rw [operandSupplied] at h ⊢
    split at h
    · rename_i he
      rw [if_pos he]
      rw [Option.all_eq_true] at h ⊢
      exact fun e he => supplied_mono hI hc _ (h e he)
    · rename_i he
      rw [if_neg he]
  | _ => rfl

theorem untilNull_le {α : Type} (x : Exec α) : untilNull x ≤ x := by
  unfold untilNull
  split
  · exact more_le _
  · exact Run.le_refl _

theorem untilNull_mono {α : Type} {x y : Exec α} (h : x ≤ y) : untilNull x ≤ untilNull y := by
  rcases h with rfl | rfl
  · exact more_le _
  · exact Run.le_refl _

/-- An engine that is followed nowhere as far as `J` is. -/
theorem checked_le_next (hI : I.Le J) (n : ℕ) : (I.checked n).Le (J.next n) where
  exprEval c d hc e := by
    show (if operandSupplied I c e then exprEval I c e else .more) ≤ exprEval J d e
    split
    · exact exprEval_le hI hc e
    · exact more_le _
  dataSrcStep _ _ hc := dataSrcStep_le hI hc (Nat.le_refl n)
  stepCompounded _ _ hc := stepCompounded_le hI hc (Nat.le_refl n)
  queryStep _ _ hc p := Run.le_trans (untilNull_le _) (queryStep_le hI hc (Nat.le_refl n) p)
  queryDoc _ _ hc := queryDoc_le hI hc

theorem Interp.checked_le (hI : I.Le J) {n m : ℕ} (hnm : n ≤ m) : (I.checked n).Le (J.checked m) where
  exprEval c d hc e := by
    show (if operandSupplied I c e then exprEval I c e else .more) ≤
      if operandSupplied J d e then exprEval J d e else .more
    split
    · rename_i he
      rw [if_pos (operandSupplied_mono hI hc e he)]
      exact exprEval_le hI hc e
    · exact more_le _
  dataSrcStep _ _ hc := dataSrcStep_le hI hc hnm
  stepCompounded _ _ hc := stepCompounded_le hI hc hnm
  queryStep _ _ hc p := untilNull_mono (queryStep_le hI hc hnm p)
  queryDoc _ _ hc := queryDoc_le hI hc

end Mono

theorem isNode_of_ne {v : JsonNode R} (h : v ≠ .nullptr) : isNode v = true := by
  cases v with
  | nullptr => exact absurd rfl h
  | _ => rfl

theorem isNode_ofBool (b : Bool) : isNode (ofBool b : JsonNode R) = true := by
  cases b <;> rfl

theorem isNode_getProperty (v : JsonNode R) (z : Bytes) : isNode (getProperty v z) = true := by
  unfold getProperty
  split
  · split
    · rfl
    · rfl
    · rename_i h _
      exact isNode_of_ne h
  · rfl

section Operators
variable [CDouble R]

theorem isTrue_avoids {v : JsonNode R} (h : isNode v = true) : Avoids .nullNode (fun _ => True) (isTrue v) := by
  cases v with
  | nullptr => cases h
  | _ => trivial

theorem subscriptOperator_avoids {v : JsonNode R} (h : isNode v = true) (w : JsonNode R) :
    Avoids .nullNode (fun r => isNode r = true) (subscriptOperator v w) := by
  cases v with
  | nullptr => cases h
  | struct ms => exact isNode_getProperty _ _
  | array vs =>
    refine (subscript_avoids (by decide) w).bind fun o _ _ => ?_
    cases o with
    | none => rfl
    | some i =>
      cases hv : vs[i]? with
      | none => simp only [hv]; rfl
      | some x => simp only [hv]; cases x <;> rfl
  | string z =>
    refine (subscript_avoids (by decide) w).bind fun o _ _ => ?_
    cases o with
    | none => rfl
    | some i =>
      show isNode (if _ then _ else _) = true
      split <;> rfl
  | _ => rfl

/-- An operator gives a node, and `x[y]` alone needs one. -/
theorem biOperator_avoids {op : BiOp} {v : JsonNode R} (h : op = .lb → isNode v = true) (w : JsonNode R) :
    Avoids .nullNode (fun r => isNode r = true) (biOperator op v w) := by
  cases op with
  | lb => exact subscriptOperator_avoids (h rfl) w
  | eqeq | ne | lt | le | gt | ge | inOp | within => exact isNode_ofBool _
  | plus =>
    show isNode (plusOperator v w) = true
    unfold plusOperator
    split <;> rfl
  | rem | rshift | lshift | bitand | bitor =>
    exact (toInt_avoids (by decide) _).bind fun _ _ _ => (toInt_avoids (by decide) _).bind fun _ _ _ =>
      (bitOperator_avoids (by decide) _ _ _).bind fun _ _ _ => rfl
  | _ => rfl

theorem xLength_avoids {v : JsonNode R} (h : isNode v = true) : Avoids .nullNode (fun r => isNode r = true) (xLength v) := by
  cases v with
  | nullptr => cases h
  | _ => rfl

end Operators

/-- Reading a document of the queries around does not stop at a null pointer. -/
def Ctx.Sound (ctx : Ctx R) : Prop := ∀ f ∈ ctx.frames, ∀ k, Avoids .nullNode (fun _ => True) (f.doc k)

variable [CDouble R]

/-- The engine does not read null pointers in evaluations, and gives nodes where they are
supplied as far as any engine tells that follows it. -/
structure Interp.Safe (I : Interp R) : Prop where
  le : I.Le I
  exprEval : ∀ K, I.Le K → ∀ ctx, ctx.Sound → ∀ e,
    Avoids .nullNode (fun r => supplied K ctx e = true → isNode r.1 = true) (I.xjd1ExprEval ctx e)
  queryStep : ∀ ctx, ctx.Sound → ∀ p, Avoids .nullNode (fun _ => True) (I.xjd1QueryStep ctx p)
  queryDoc : ∀ ctx, ctx.Sound → ∀ p k, Avoids .nullNode (fun _ => True) (I.xjd1QueryDoc ctx p k)

omit [CDouble R] in
theorem identDoc_avoids {ctx : Ctx R} (hctx : ctx.Sound) (q : Option ℕ) (i : ℕ) :
    Avoids .nullNode (fun _ => True) (identDoc ctx q i) := by
  unfold identDoc
  split
  · split
    · rename_i f hf
      exact hctx f (List.mem_of_getElem? hf) i
    · exact fun h => nomatch h
  · trivial
  · exact fun h => nomatch h

theorem exprEval_id (I : Interp R) (ctx : Ctx R) (z : Bytes) (q : Option ℕ) (i : ℕ) :
    exprEval I ctx (.id z q i) = (identDoc ctx q i >>= fun v => .ok (v,.id z q i)) := by
  obtain ⟨frames,pDoc,_⟩ := ctx
  cases q with
  | none => cases pDoc <;> rfl
  | some k =>
    cases pDoc with
    | insert | doc v => rfl
    | select =>
      simp only [exprEval,identDoc]
      cases frames[k]? <;> rfl

section Safe
variable {I K : Interp R} (hI : I.Safe) (hK : I.Le K) {ctx : Ctx R} (hctx : ctx.Sound)
include hI hctx

theorem scope_sound (p : Query R) : (p.scope I ctx).Sound := by
  intro f hf k
  rcases List.mem_cons.mp hf with rfl | hf
  · exact (hI.queryDoc ctx hctx p k).bind fun _ _ _ => trivial
  · exact hctx f hf k

theorem evalItems_avoids (es : List (ExprItem R)) : Avoids .nullNode
    (fun r => (es.head?.all fun e => supplied I ctx e.pExpr) = true → ∀ v ∈ r.1.head?, isNode v = true)
    (evalItems I ctx es) := by
  induction es with
  | nil => exact fun _ v hv => absurd hv (Option.not_mem_none v)
  | cons e es ih =>
    refine (hI.exprEval I hI.le ctx hctx e.pExpr).bind fun a _ ha => ih.bind fun b _ _ hs v hv => ?_
    obtain rfl := Option.some.inj hv
    exact ha hs

include hK in
theorem evalOption_avoids (e : Option (Expr R)) :
    Avoids .nullNode (fun r => suppliedOption K ctx e = true → isNode r.1 = true) (evalOption I ctx e) := by
  cases e with
  | none => exact fun _ => rfl
  | some e => exact (hI.exprEval K hK ctx hctx e).bind fun _ _ h => h

/-- The one place that looks for a null pointer first. -/
theorem exprTrue_avoids (e : Expr R) : Avoids .nullNode (fun _ => True) (xjd1ExprTrue I ctx e) := by
  refine (hI.exprEval I hI.le ctx hctx e).bind fun x _ _ => ?_
  obtain ⟨v,e⟩ := x
  by_cases hv : v = .nullptr
  · subst hv
    trivial
  · have hn := isNode_of_ne hv
    cases v with
    | nullptr => cases hn
    | _ => exact (isTrue_avoids hn).bind fun _ _ _ => trivial

theorem functionEval_avoids {f : Function} {args : List (ExprItem R)} {i : ℕ}
    (ho : operandSupplied I ctx (.func f args i) = true) : Avoids .nullNode
      (fun r => supplied K ctx (.func f args i) = true → isNode r.1 = true) (xjd1FunctionEval I ctx f args i) := by
  cases f with
  | length =>
    refine (evalItems_avoids hI hctx args).bind fun x _ hx => ?_
    obtain ⟨vs,args'⟩ := x
    match vs with
    | [v] =>
      exact (xLength_avoids (hx ho v rfl)).bind fun _ _ h _ => h
    | [] | _::_::_ => exact fun h => nomatch h
  | _ =>
    obtain ⟨frames,_,_⟩ := ctx
    cases frames with
    | nil => exact fun h => nomatch h
    | cons g gs => exact fun h => h

include hK in
theorem logical_avoids {op : BiOp} (hop : op = .and ∨ op = .or) {l : Expr R} {r : Option (Expr R)}
    (ho : operandSupplied I ctx (.bi op l r) = true) : Avoids .nullNode
      (fun x => supplied K ctx (.bi op l r) = true → isNode x.1 = true) (exprEvalBi I ctx op l r) := by
  have hl : supplied I ctx l = true := by
    rw [operandSupplied,if_pos (hop.imp_right .inl)] at ho
    exact ho
  rcases hop with rfl | rfl
  all_goals
    refine (hI.exprEval I hI.le ctx hctx l).bind fun x hx' hx => ?_
    refine (isTrue_avoids (hx hl)).bind fun b hb _ => ?_
    have ht : leftTruth K ctx l = .ok b := by
      rw [leftTruth,le_ok (hK.exprEval ctx ctx (Ctx.le_refl ctx) l) hx']
      exact hb
    split
    · exact fun _ => hx hl
    · rename_i hs
      refine (evalOption_avoids hI hK hctx r).bind fun y _ hy h => hy ?_
      rw [supplied,if_pos (by decide),Bool.and_eq_true,ht,decided,if_neg hs] at h
      exact h.2

theorem strict_avoids {op : BiOp} {l : Expr R} (hl : op = .lb → supplied I ctx l = true) (r : Option (Expr R)) :
    Avoids .nullNode (fun x => isNode x.1 = true) (do
      let (v,pLeft) ← I.xjd1ExprEval ctx l
      let (w,pRight) ← evalOption I ctx r
      let x ← biOperator op v w
      .ok (x,Expr.bi op pLeft pRight)) := by
  refine (hI.exprEval I hI.le ctx hctx l).bind fun x _ hx => ?_
  refine (evalOption_avoids hI hI.le hctx r).bind fun y _ _ => ?_
  exact (biOperator_avoids (fun h => hx (hl h)) y.1).bind fun _ _ h => h

include hK in
theorem exprEvalBi_avoids {op : BiOp} {l : Expr R} {r : Option (Expr R)}
    (ho : operandSupplied I ctx (.bi op l r) = true) : Avoids .nullNode
      (fun x => supplied K ctx (.bi op l r) = true → isNode x.1 = true) (exprEvalBi I ctx op l r) := by
  have hl : op = .lb → supplied I ctx l = true := by
    rintro rfl
    exact ho
  cases op with
  | and => exact logical_avoids hI hK hctx (.inl rfl) ho
  | or => exact logical_avoids hI hK hctx (.inr rfl) ho
  | bang => exact (exprTrue_avoids hI hctx l).bind fun _ _ _ _ => isNode_ofBool _
  | bitnot =>
    exact (hI.exprEval I hI.le ctx hctx l).bind fun _ _ _ => (toInt_avoids (by decide) _).bind fun _ _ _ _ => rfl
  | minus =>
    cases r with
    | none => exact (hI.exprEval I hI.le ctx hctx l).bind fun _ _ _ _ => rfl
    | some r => exact (strict_avoids hI hctx hl (some r)).mono fun _ _ h _ => h
  | star | slash =>
    cases r with
    | none => exact fun h => nomatch h
    | some r => exact (strict_avoids hI hctx hl (some r)).mono fun _ _ h _ => h
  | eq3 | ne3 | like | urshift | bitxor => exact fun _ => rfl
  | _ => exact (strict_avoids hI hctx hl r).mono fun _ _ h _ => h

include hK in
/-- An evaluation whose own operand is supplied, with its subqueries followed by `I`. -/
theorem exprEval_avoids {e : Expr R} (ho : operandSupplied I ctx e = true) :
    Avoids .nullNode (fun r => supplied K ctx e = true → isNode r.1 = true) (exprEval I ctx e) := by
  cases e with
  | jvalue p => exact fun h => h
  | dot l z => exact (hI.exprEval I hI.le ctx hctx l).bind fun _ _ _ _ => isNode_getProperty _ _
  | bi op l r => exact exprEvalBi_avoids hI hK hctx ho
  | tri t a b =>
    refine (exprTrue_avoids hI hctx t).bind fun x hx _ => ?_
    have ht := le_ok (exprTrue_le hK (Ctx.le_refl ctx) t) hx
    obtain ⟨c,t'⟩ := x
    cases c with
    | true =>
      refine (hI.exprEval K hK ctx hctx a).bind fun y _ hy hs => hy ?_
      rwa [supplied,ht] at hs
    | false =>
      refine (hI.exprEval K hK ctx hctx b).bind fun y _ hy hs => hy ?_
      rwa [supplied,ht] at hs
  | id z q i =>
    rw [exprEval_id]
    refine (identDoc_avoids hctx q i).bind fun v hv _ hs => ?_
    rw [supplied,hv] at hs
    exact hs
  | struct st => exact (evalItems_avoids hI hctx st).bind fun _ _ _ _ => rfl
  | array ar => exact (evalItems_avoids hI hctx ar).bind fun _ _ _ _ => rfl
  | func f args i => exact functionEval_avoids hI hctx ho
  | subq p =>
    refine (hI.queryStep ctx hctx p).bind fun x hx _ => ?_
    obtain ⟨rc,p'⟩ := x
    cases rc with
    | done => exact fun _ => rfl
    | row =>
      refine (hI.queryDoc ctx hctx p' 0).bind fun y hy _ hs => ?_
      have hx' := le_ok (hK.queryStep ctx ctx (Ctx.le_refl ctx) p) hx
      have hy' := le_ok (hK.queryDoc ctx ctx (Ctx.le_refl ctx) p' 0) hy
      rw [supplied,subqDoc,hx'] at hs
      simp only [ok_bind,hy',map_ok] at hs
      exact hs

omit [CDouble R] hI hctx in
theorem resultList_doc_avoids (l : ResultList R) (i : ℕ) : Avoids .nullNode (fun _ => True) (l.doc i) := by
  unfold ResultList.doc
  split
  · exact fun h => nomatch h
  · exact .ofOption (by decide) _

theorem resultDoc_avoids (p : Query R) (s : SimpleQuery R) (e : Expr R) :
    Avoids .nullNode (fun _ => True) (resultDoc I ctx p s e) :=
  (hI.exprEval I hI.le _ (scope_sound hI hctx p) e).bind fun _ _ _ => trivial

theorem simpleDoc_avoids (p : Query R) (s : SimpleQuery R) (k : ℕ) :
    Avoids .nullNode (fun _ => True) (simpleDoc I ctx p s k) := by
  unfold simpleDoc
  split
  · exact fun h => nomatch h
  · exact (resultList_doc_avoids _ _).bind fun _ _ _ => trivial
  · exact resultDoc_avoids hI hctx p s _
  · exact (resultList_doc_avoids _ _).bind fun _ _ _ => trivial
  · exact resultDoc_avoids hI hctx p s _
  · trivial

theorem queryDoc_avoids (p : Query R) (k : ℕ) : Avoids .nullNode (fun _ => True) (queryDoc I ctx p k) := by
  unfold queryDoc
  split
  · split
    · exact (resultList_doc_avoids _ _).bind fun _ _ _ => trivial
    · exact fun h => nomatch h
  · split
    · exact simpleDoc_avoids hI hctx p _ k
    · split
      · trivial
      · exact fun h => nomatch h

theorem aggregateStep_avoids (l : List (AggExpr R)) (hl : ∀ a ∈ l, a.supplied I ctx = true) :
    Avoids .nullNode (fun _ => True) (xjd1AggregateStep I ctx l) := by
  induction l with
  | nil => trivial
  | cons a l ih =>
    obtain ⟨ha,hl⟩ := List.forall_mem_cons.mp hl
    have hstep : Avoids .nullNode (fun _ => True) (aggExprStep I ctx a) := by
      refine (evalItems_avoids hI hctx a.args).bind fun x _ hx => ?_
      have hc : a.pFunction = .count → x.1.head? ≠ some .nullptr := by
        -- `count` alone reads the type of its argument, and its arguments are supplied
        intro hf hnull
        rw [AggExpr.supplied,if_pos hf] at ha
        cases hx ha _ hnull
      exact (xStep_avoids (by decide) (by decide) (fun hf => .inr (hc hf)) a.pAggCtx).bind fun _ _ _ => trivial
    exact hstep.bind fun _ _ _ => (ih hl).bind fun _ _ _ => trivial

end Safe

theorem isNode_of_isTrue {v : JsonNode R} {b : Bool} (h : isTrue v = .ok b) : isNode v = true := by
  cases v with
  | nullptr => cases h
  | _ => rfl

/-- Where the engine gives a node, the expression is supplied. -/
def Interp.Supplies (I : Interp R) : Prop :=
  ∀ ctx e r, I.xjd1ExprEval ctx e = .ok r → isNode r.1 = true → supplied I ctx e = true

section Supplies
variable {I : Interp R} (hI : I.Supplies) {ctx : Ctx R}
include hI

theorem evalOption_supplied {e : Option (Expr R)} {r : JsonNode R × Option (Expr R)}
    (h : evalOption I ctx e = .ok r) (hr : isNode r.1 = true) : suppliedOption I ctx e = true := by
  cases e with
  | none => rfl
  | some e =>
    obtain ⟨a,ha,h⟩ := bind_eq_ok.mp h
    cases h
    exact hI ctx e a ha hr

theorem evalItems_supplied {es es' : List (ExprItem R)} {vs : List (JsonNode R)}
    (h : evalItems I ctx es = .ok (vs,es')) (hvs : ∀ v ∈ vs.head?, isNode v = true) :
    (es.head?.all fun e => supplied I ctx e.pExpr) = true := by
  cases es with
  | nil => rfl
  | cons e es =>
    obtain ⟨a,ha,h⟩ := bind_eq_ok.mp h
    obtain ⟨b,-,h⟩ := bind_eq_ok.mp h
    cases h
    exact hI ctx e.pExpr a ha (hvs a.1 rfl)

/-- The left side of `&&` and `||` has a truth value only if it is a node. -/
theorem logical_supplied {op : BiOp} (hop : op = .and ∨ op = .or) {l : Expr R} {r : Option (Expr R)}
    {x : JsonNode R × Expr R} (h : exprEvalBi I ctx op l r = .ok x) : supplied I ctx l = true ∧
      (isNode x.1 = true → supplied I ctx (.bi op l r) = true) := by
  rcases hop with rfl | rfl
  all_goals
    obtain ⟨a,ha,h⟩ := bind_eq_ok.mp h
    obtain ⟨b,hb,h⟩ := bind_eq_ok.mp h
    have hl := hI ctx l a ha (isNode_of_isTrue hb)
    refine ⟨hl,fun hx => ?_⟩
    have ht : leftTruth I ctx l = .ok b := by
      rw [leftTruth,ha]
      exact hb
    rw [supplied,if_pos (by decide),Bool.and_eq_true,ht,decided]
    refine ⟨hl,?_⟩
    split at h
    · rename_i hs
      rw [if_pos hs]
    · rename_i hs
      rw [if_neg hs]
      obtain ⟨c,hc,h⟩ := bind_eq_ok.mp h
      cases h
      exact evalOption_supplied hI hc hx

theorem exprEval_supplied {e : Expr R} {x : JsonNode R × Expr R} (h : exprEval I ctx e = .ok x)
    (hx : isNode x.1 = true) : supplied I ctx e = true := by
  cases e with
  | jvalue p =>
    cases h
    exact hx
  | bi op l r =>
    by_cases hop : op = .and ∨ op = .or
    · exact (logical_supplied hI hop h).2 hx
    · rw [supplied,if_neg hop]
  | tri t a b =>
    obtain ⟨c,hc,h⟩ := bind_eq_ok.mp h
    obtain ⟨c,t'⟩ := c
    rw [supplied,hc]
    cases c with
    | true =>
      obtain ⟨y,hy,h⟩ := bind_eq_ok.mp h
      cases h
      exact hI ctx a y hy hx
    | false =>
      obtain ⟨y,hy,h⟩ := bind_eq_ok.mp h
      cases h
      exact hI ctx b y hy hx
  | id z q i =>
    rw [exprEval_id] at h
    obtain ⟨v,hv,h⟩ := bind_eq_ok.mp h
    cases h
    rw [supplied,hv]
    exact hx
  | func f args i =>
    rw [supplied]
    split
    · rfl
    · obtain ⟨frames,_,_⟩ := ctx
      cases f with
      | length => contradiction
      | _ =>
        cases frames with
        | nil => cases h
        | cons g gs =>
          cases h
          exact hx
  | subq p =>
    obtain ⟨y,hy,h⟩ := bind_eq_ok.mp h
    obtain ⟨rc,p'⟩ := y
    rw [supplied,subqDoc,hy]
    cases rc with
    | done => rfl
    | row =>
      obtain ⟨v,hv,h⟩ := bind_eq_ok.mp h
      cases h
      simp only [ok_bind,hv,map_ok]
      exact hx
  | dot l z => rfl
  | struct st => rfl
  | array ar => rfl

/-- An evaluation that gives a value has the operand supplied whose type it reads. -/
theorem exprEval_operandSupplied {e : Expr R} {x : JsonNode R × Expr R} (h : exprEval I ctx e = .ok x) :
    operandSupplied I ctx e = true := by
  cases e with
  | bi op l r =>
    rw [operandSupplied]
    split
    · rename_i hop
      rw [← or_assoc] at hop
      rcases hop with hop | rfl
      · exact (logical_supplied hI hop h).1
      · obtain ⟨a,ha,h⟩ := bind_eq_ok.mp h
        obtain ⟨b,-,h⟩ := bind_eq_ok.mp h
        obtain ⟨c,hc,-⟩ := bind_eq_ok.mp h
        refine hI ctx l a ha (isNode_of_ne fun hn => ?_)
        rw [hn] at hc
        cases hc
    · rfl
  | func f args i =>
    rw [operandSupplied]
    split
    · rename_i hf
      subst hf
      obtain ⟨a,ha,h⟩ := bind_eq_ok.mp h
      obtain ⟨vs,args'⟩ := a
      rcases vs with _ | ⟨v,_ | ⟨w,vs⟩⟩
      · cases h
      · obtain ⟨c,hc,-⟩ := bind_eq_ok.mp h
        refine evalItems_supplied hI ha fun v' hv' => isNode_of_ne fun hn => ?_
        obtain rfl := Option.some.inj hv'
        rw [hn] at hc
        cases hc
      · cases h
    · rfl
  | _ => rfl

theorem aggExprStep_supplied {a : AggExpr R} {x : AggExpr R × Bool} (h : aggExprStep I ctx a = .ok x) :
    a.supplied I ctx = true := by
  rw [AggExpr.supplied]
  split
  · rename_i hf
    obtain ⟨y,hy,h⟩ := bind_eq_ok.mp h
    obtain ⟨c,hc,-⟩ := bind_eq_ok.mp h
    obtain ⟨vs,args⟩ := y
    rw [hf] at hc
    refine evalItems_supplied hI hy fun v hv => isNode_of_ne fun hn => ?_
    subst hn
    obtain ⟨ws,rfl⟩ := List.head?_eq_some_iff.mp hv
    cases hc
  · rfl

end Supplies

theorem interp_supplies (n : ℕ) : (interp n : Interp R).Supplies := by
  induction n with
  | zero => exact fun _ _ _ h => by cases h
  | succ n ih =>
    intro ctx e r h hr
    exact supplied_mono (interp_le (Nat.le_succ n)) (Ctx.le_refl ctx) e (exprEval_supplied ih h hr)

section Runs

theorem untilNull_avoids {α : Type} (x : Exec α) : Avoids .nullNode (fun _ => True) (untilNull x) := by
  cases x with
  | stop t => cases t <;> first | trivial | exact fun h => nomatch h
  | _ => trivial

theorem checked_le {n m : ℕ} (h : n ≤ m) : (checked n : Interp R).Le (checked m) :=
  Interp.mono (F := checked) rfl (fun hl => Interp.checked_le hl) h

/-- As far as a run is followed, it is a run of the engine. -/
theorem checked_le_interp (n : ℕ) : (checked n : Interp R).Le (interp n) := by
  induction n with
  | zero => exact interp_le (Nat.le_refl 0)
  | succ n ih => exact checked_le_next ih n

theorem checked_safe (n : ℕ) : (checked n : Interp R).Safe := by
  induction n with
  | zero => exact ⟨checked_le (Nat.le_refl 0),fun _ _ _ _ _ => trivial,fun _ _ _ => trivial,fun _ _ _ _ => trivial⟩
  | succ n ih =>
    refine ⟨checked_le (Nat.le_refl _),fun K hK ctx hctx e => ?_,fun _ _ _ => untilNull_avoids _,
      fun ctx hctx p k => queryDoc_avoids ih hctx p k⟩
    show Avoids _ _ (if operandSupplied (checked n) ctx e then exprEval (checked n) ctx e else .more)
    split
    · rename_i ho
      refine exprEval_avoids ih ?_ hctx ho
      exact (checked_le (Nat.le_succ n)).trans hK
    · trivial

/-- The surroundings that the expressions of a statement are evaluated in. -/
inductive Ctx.Reached : Ctx R → Prop
  | start (pDoc : StmtDoc R) (db : Bytes → List Bytes) : Reached ⟨[],pDoc,db⟩
  | scope (n : ℕ) (p : Query R) {ctx : Ctx R} (h : Reached ctx) : Reached (p.scope (checked n) ctx)

theorem Ctx.Reached.sound {ctx : Ctx R} (h : ctx.Reached) : ctx.Sound := by
  induction h with
  | start pDoc db => exact fun f hf => absurd hf List.not_mem_nil
  | scope n p _ ih => exact scope_sound (checked_safe n) ih p

end Runs

/-- `(true ? 1 : c) && null` where `c` is a null pointer, as in `UPDATE c .. ELSE INSERT ..` without a row. -/
def branchNotTaken : Expr Int :=
  .bi .and (.tri (.jvalue .true) (.jvalue (.real 1)) (.id [ch 'c'] none 0)) (some (.jvalue .null))

/-- `SELECT x && count() FROM c AS x`. -/
def emptyCount : Query Int :=
  ⟨.simple ⟨false,some (.bi .and (.id [ch 'x'] (some 0) 1) (some (.func .count [] 0))),
    .tab (some [ch 'x']) .nullptr [ch 'c'] 0,none,none,none,some [⟨.count,[],.nullptr,.null⟩],.empty,.empty⟩,
    none,none,none,none,.datasrc,.empty,none⟩

end Xjd1
