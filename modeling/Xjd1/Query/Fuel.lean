import Xjd1.Query.Interp

/-! More fuel never changes an outcome of the engine. Every function is monotone
in the calls it makes, in the surroundings it reads and in its own loops. -/
namespace Xjd1

open Fueled Fueled.Run

variable {R : Type}

/-- A frame that gives every document another one gives. -/
instance : LE (Frame R) := ⟨fun f g => (∀ k, f.doc k ≤ g.doc k) ∧ f.agg = g.agg⟩

instance : LE (Ctx R) :=
  ⟨fun c d => List.Forall₂ (· ≤ ·) c.frames d.frames ∧ c.pDoc = d.pDoc ∧ c.db = d.db⟩

/-- `J` gives every outcome `I` gives. -/
structure Interp.Le (I J : Interp R) : Prop where
  exprEval : ∀ c d, c ≤ d → ∀ e, I.xjd1ExprEval c e ≤ J.xjd1ExprEval d e
  dataSrcStep : ∀ c d, c ≤ d → ∀ p, I.xjd1DataSrcStep c p ≤ J.xjd1DataSrcStep d p
  stepCompounded : ∀ c d, c ≤ d → ∀ p, I.selectStepCompounded c p ≤ J.selectStepCompounded d p
  queryStep : ∀ c d, c ≤ d → ∀ p, I.xjd1QueryStep c p ≤ J.xjd1QueryStep d p
  queryDoc : ∀ c d, c ≤ d → ∀ p k, I.xjd1QueryDoc c p k ≤ J.xjd1QueryDoc d p k

theorem Ctx.le_refl (ctx : Ctx R) : ctx ≤ ctx :=
  ⟨List.forall₂_same.mpr fun _ _ => ⟨fun _ => Run.le_refl _,rfl⟩,rfl,rfl⟩

theorem Interp.Le.trans {I J K : Interp R} (h : I.Le J) (h' : J.Le K) : I.Le K where
  exprEval c d hc e := Run.le_trans (h.exprEval c c (Ctx.le_refl c) e) (h'.exprEval c d hc e)
  dataSrcStep c d hc p := Run.le_trans (h.dataSrcStep c c (Ctx.le_refl c) p) (h'.dataSrcStep c d hc p)
  stepCompounded c d hc p := Run.le_trans (h.stepCompounded c c (Ctx.le_refl c) p) (h'.stepCompounded c d hc p)
  queryStep c d hc p := Run.le_trans (h.queryStep c c (Ctx.le_refl c) p) (h'.queryStep c d hc p)
  queryDoc c d hc p k := Run.le_trans (h.queryDoc c c (Ctx.le_refl c) p k) (h'.queryDoc c d hc p k)

theorem Ctx.push_le_push {c d : Ctx R} (h : c ≤ d) {f g : Frame R} (hf : f ≤ g) :
    c.push f ≤ d.push g := ⟨List.Forall₂.cons hf h.1,h.2⟩

theorem Ctx.top_le_top {c d : Ctx R} (h : c ≤ d) : c.top ≤ d.top := ⟨List.Forall₂.nil,h.2⟩

theorem forall2_getElem? {α β : Type} {r : α → β → Prop} {as : List α} {bs : List β}
    (h : List.Forall₂ r as bs) (k : ℕ) :
    (as[k]? = none ∧ bs[k]? = none) ∨ ∃ a b, as[k]? = some a ∧ bs[k]? = some b ∧ r a b := by
  induction h generalizing k with
  | nil => exact Or.inl ⟨rfl,rfl⟩
  | cons hab _ ih =>
    cases k with
    | zero => exact Or.inr ⟨_,_,rfl,rfl,hab⟩
    | succ k => exact ih k

section Eval
variable {I J : Interp R} (hI : I.Le J) {c d : Ctx R} (hc : c ≤ d)
include hI hc

theorem evalOption_le (e : Option (Expr R)) : evalOption I c e ≤ evalOption J d e := by
  cases e with
  | none => exact Run.le_refl _
  | some e => exact bind_le_bind (hI.exprEval c d hc e) fun _ => Run.le_refl _

theorem evalItems_le (es : List (ExprItem R)) : evalItems I c es ≤ evalItems J d es := by
  induction es with
  | nil => exact Run.le_refl _
  | cons e es ih =>
    exact bind_le_bind (hI.exprEval c d hc _) fun _ => bind_le_bind ih fun _ => Run.le_refl _

variable [CDouble R]

theorem exprTrue_le (e : Expr R) : xjd1ExprTrue I c e ≤ xjd1ExprTrue J d e :=
  bind_le_bind (hI.exprEval c d hc e) fun _ => Run.le_refl _

theorem functionEval_le (f : Function) (args : List (ExprItem R)) (i : ℕ) :
    xjd1FunctionEval I c f args i ≤ xjd1FunctionEval J d f args i := by
  have hargs := evalItems_le hI hc args
  obtain ⟨cf,_,_⟩ := c
  obtain ⟨df,_,_⟩ := d
  obtain ⟨hf,_,_⟩ := hc
  cases f with
  | length => exact bind_le_bind hargs fun _ => Run.le_refl _
  | _ =>
    cases hf with
    | nil => exact Run.le_refl _
    | cons h _ => simp only [xjd1FunctionEval,h.2]; exact Run.le_refl _

theorem exprEvalBi_le (op : BiOp) (l : Expr R) (r : Option (Expr R)) :
    exprEvalBi I c op l r ≤ exprEvalBi J d op l r := by
  have hl := hI.exprEval c d hc l
  have hr := evalOption_le hI hc r
  unfold exprEvalBi
  split
  case h_1 | h_2 =>
    refine bind_le_bind hl fun _ => bind_le_bind (Run.le_refl _) fun b => ?_
    split
    · exact Run.le_refl _
    · exact bind_le_bind hr fun _ => Run.le_refl _
  all_goals first
    | exact Run.le_refl _
    | exact bind_le_bind (exprTrue_le hI hc l) fun _ => Run.le_refl _
    | exact bind_le_bind hl fun _ => Run.le_refl _
    | exact bind_le_bind hl fun _ => bind_le_bind hr fun _ => Run.le_refl _

theorem exprEval_le (e : Expr R) : exprEval I c e ≤ exprEval J d e := by
  cases e with
  | jvalue p => exact Run.le_refl _
  | dot l z => exact bind_le_bind (hI.exprEval c d hc l) fun _ => Run.le_refl _
  | bi op l r => exact exprEvalBi_le hI hc op l r
  | tri t a b =>
    refine bind_le_bind (exprTrue_le hI hc t) fun x => ?_
    obtain ⟨b,t⟩ := x
    cases b
    · exact bind_le_bind (hI.exprEval c d hc _) fun _ => Run.le_refl _
    · exact bind_le_bind (hI.exprEval c d hc _) fun _ => Run.le_refl _
  | id z q i =>
    obtain ⟨cf,cp,_⟩ := c
    obtain ⟨df,dp,_⟩ := d
    obtain ⟨hf,hp,_⟩ := hc
    simp only at hp
    subst hp
    cases q with
    | none => cases cp <;> exact Run.le_refl _
    | some k =>
      cases cp with
      | insert | doc v => exact Run.le_refl _
      | select =>
        simp only [exprEval]
        rcases forall2_getElem? hf k with ⟨h1,h2⟩ | ⟨f,g,h1,h2,h⟩
        · simp only [h1,h2]
          exact Run.le_refl _
        · simp only [h1,h2]
          exact bind_le_bind (h.1 i) fun _ => Run.le_refl _
  | struct st => exact bind_le_bind (evalItems_le hI hc st) fun _ => Run.le_refl _
  | array ar => exact bind_le_bind (evalItems_le hI hc ar) fun _ => Run.le_refl _
  | func f args i => exact functionEval_le hI hc f args i
  | subq p =>
    refine bind_le_bind (hI.queryStep c d hc p) fun x => ?_
    obtain ⟨rc,p⟩ := x
    cases rc
    · exact bind_le_bind (hI.queryDoc c d hc p 0) fun _ => Run.le_refl _
    · exact Run.le_refl _

theorem aggExprStep_le (a : AggExpr R) : aggExprStep I c a ≤ aggExprStep J d a :=
  bind_le_bind (evalItems_le hI hc a.args) fun _ => Run.le_refl _

theorem aggregateStep_le (l : List (AggExpr R)) : xjd1AggregateStep I c l ≤ xjd1AggregateStep J d l := by
  induction l with
  | nil => exact Run.le_refl _
  | cons a l ih => exact bind_le_bind (aggExprStep_le hI hc a) fun _ => bind_le_bind ih fun _ => Run.le_refl _

omit [CDouble R] in
theorem joinStep_le (l r : DataSrc R) : joinStep I c l r ≤ joinStep J d l r := by
  refine bind_le_bind (hI.dataSrcStep c d hc r) fun x => ?_
  obtain ⟨rc,r⟩ := x
  cases rc
  · exact Run.le_refl _
  · refine bind_le_bind (hI.dataSrcStep c d hc l) fun x => ?_
    obtain ⟨rc,l⟩ := x
    cases rc
    · exact bind_le_bind (hI.dataSrcStep c d hc _) fun _ => Run.le_refl _
    · exact Run.le_refl _

omit [CDouble R] in
theorem pathArray_le (e : Expr R) (v : JsonNode R) : pathArray I c e v ≤ pathArray J d e v := by
  cases v with
  | nullptr => exact hI.exprEval c d hc e
  | _ => exact Run.le_refl _

variable {n m : ℕ} (hnm : n ≤ m)
include hnm

omit hI hc in
theorem flattenIterNext_le (it : Option (FlattenIter R)) : flattenIterNext n it ≤ flattenIterNext m it := by
  cases it with
  | none => exact Run.le_refl _
  | some it => exact bind_le_bind (loop_le_loop (fun _ => Run.le_refl _) hnm it) fun _ => Run.le_refl _

theorem flattenTurn_le (op : UInt8) (e : Expr R) (s : DataSrc R × Option (FlattenIter R)) :
    flattenTurn I n c op e s ≤ flattenTurn J m d op e s := by
  refine bind_le_bind (flattenIterNext_le hnm s.2) fun x => ?_
  obtain ⟨rc,it⟩ := x
  cases rc
  · exact Run.le_refl _
  · exact bind_le_bind (hI.dataSrcStep c d hc s.1) fun _ => Run.le_refl _

theorem dataSrcStep_le (p : DataSrc R) : dataSrcStep I n c p ≤ dataSrcStep J m d p := by
  cases p with
  | comma b l r =>
    simp only [dataSrcStep]
    split
    · exact joinStep_le hI hc l r
    · refine bind_le_bind (hI.dataSrcStep c d hc l) fun x => ?_
      obtain ⟨rc,l⟩ := x
      cases rc
      · exact joinStep_le hI hc l r
      · exact Run.le_refl _
  | subq z v q =>
    have ht := Ctx.top_le_top hc
    exact bind_le_bind (hI.queryStep _ _ ht q) fun _ => bind_le_bind (hI.queryDoc _ _ ht _ 0) fun _ =>
      Run.le_refl _
  | tab z v name k =>
    simp only [dataSrcStep,hc.2.2]
    exact Run.le_refl _
  | flatten v p op e as it =>
    exact bind_le_bind (loop_le_loop (flattenTurn_le hI hc hnm op e) hnm _) fun _ => Run.le_refl _
  | path z v e a i => exact bind_le_bind (pathArray_le hI hc e a) fun _ => Run.le_refl _
  | null b => exact Run.le_refl _

omit hnm [CDouble R] in
theorem scope_le (p : Query R) : p.scope I c ≤ p.scope J d :=
  Ctx.push_le_push hc ⟨fun k => map_le_map _ (hI.queryDoc c d hc p k),rfl⟩

omit hnm in
theorem whereTurn_le (p : Query R) : whereTurn I c p ≤ whereTurn J d p := by
  refine bind_le_bind (Run.le_refl _) fun s => bind_le_bind (hI.dataSrcStep c d hc _) fun x => ?_
  obtain ⟨rc,pFrom⟩ := x
  simp only
  split
  · exact bind_le_bind (exprTrue_le hI (scope_le hI hc _) _) fun _ => Run.le_refl _
  · exact Run.le_refl _

theorem whered_le (p : Query R) : selectStepWhered I n c p ≤ selectStepWhered J m d p :=
  loop_le_loop (whereTurn_le hI hc) hnm p

omit hnm in
theorem queryAggregateStep_le (p : Query R) : queryAggregateStep I c p ≤ queryAggregateStep J d p :=
  bind_le_bind (Run.le_refl _) fun _ => bind_le_bind (aggregateStep_le hI (scope_le hI hc _) _) fun _ =>
    Run.le_refl _

theorem plainAggTurn_le (st : Option (List (JsonNode R)) × Query R) :
    plainAggTurn I n c st ≤ plainAggTurn J m d st := by
  refine bind_le_bind (whered_le hI hc hnm _) fun x => ?_
  obtain ⟨rc,p⟩ := x
  cases rc
  · exact bind_le_bind (queryAggregateStep_le hI hc p) fun _ => Run.le_refl _
  · exact Run.le_refl _

theorem plainAggStep_le (p : Query R) : plainAggStep I n c p ≤ plainAggStep J m d p := by
  refine bind_le_bind (Run.le_refl _) fun s => ?_
  split
  · exact Run.le_refl _
  · split
    · exact Run.le_refl _
    · exact bind_le_bind (Run.le_refl _) fun _ =>
        bind_le_bind (loop_le_loop (plainAggTurn_le hI hc hnm) hnm _) fun _ => Run.le_refl _

theorem groupFillTurn_le (p : Query R) : groupFillTurn I n c p ≤ groupFillTurn J m d p := by
  refine bind_le_bind (whered_le hI hc hnm _) fun x => ?_
  obtain ⟨rc,p⟩ := x
  cases rc
  · exact bind_le_bind (Run.le_refl _) fun _ =>
      bind_le_bind (evalItems_le hI (scope_le hI hc _) _) fun _ => Run.le_refl _
  · exact Run.le_refl _

theorem groupFill_le (p : Query R) : groupFill I n c p ≤ groupFill J m d p :=
  bind_le_bind (Run.le_refl _) fun _ => bind_le_bind (Run.le_refl _) fun _ =>
    bind_le_bind (loop_le_loop (groupFillTurn_le hI hc hnm) hnm _) fun _ => Run.le_refl _

omit hnm in
theorem groupTurn_le (p : Query R) : groupTurn I c p ≤ groupTurn J d p := by
  refine bind_le_bind (Run.le_refl _) fun s => ?_
  cases s.grouped.pItem with
  | nil => exact Run.le_refl _
  | cons a l => exact bind_le_bind (queryAggregateStep_le hI hc p) fun _ => Run.le_refl _

theorem groupAdvance_le (p : Query R) : groupAdvance I n c p ≤ groupAdvance J m d p := by
  refine bind_le_bind (Run.le_refl _) fun s => ?_
  split
  · exact Run.le_refl _
  · exact groupFill_le hI hc hnm p

theorem groupNext_le (p : Query R) : groupNext I n c p ≤ groupNext J m d p := by
  refine bind_le_bind (groupAdvance_le hI hc hnm p) fun p => bind_le_bind (Run.le_refl _) fun s => ?_
  split
  · exact Run.le_refl _
  · exact bind_le_bind (loop_le_loop (groupTurn_le hI hc) hnm _) fun _ => Run.le_refl _

theorem havingTurn_le (p : Query R) : havingTurn I n c p ≤ havingTurn J m d p := by
  refine bind_le_bind (groupNext_le hI hc hnm p) fun x => ?_
  obtain ⟨rc,p⟩ := x
  refine bind_le_bind (Run.le_refl _) fun s => ?_
  simp only
  split
  · exact bind_le_bind (exprTrue_le hI (scope_le hI hc _) _) fun _ => Run.le_refl _
  · exact Run.le_refl _

theorem grouped_le (p : Query R) : selectStepGrouped I n c p ≤ selectStepGrouped J m d p := by
  refine bind_le_bind (Run.le_refl _) fun s => ?_
  split
  · exact whered_le hI hc hnm p
  · exact plainAggStep_le hI hc hnm p
  · exact loop_le_loop (havingTurn_le hI hc hnm) hnm p

theorem distinctFillTurn_le (p : Query R) : distinctFillTurn I n c p ≤ distinctFillTurn J m d p := by
  refine bind_le_bind (grouped_le hI hc hnm p) fun x => ?_
  obtain ⟨rc,p⟩ := x
  cases rc
  · exact bind_le_bind (hI.queryDoc c d hc p 0) fun _ => Run.le_refl _
  · exact Run.le_refl _

theorem distinctFill_le (p : Query R) : distinctFill I n c p ≤ distinctFill J m d p :=
  bind_le_bind (Run.le_refl _) fun _ => bind_le_bind (Run.le_refl _) fun _ =>
    bind_le_bind (loop_le_loop (distinctFillTurn_le hI hc hnm) hnm _) fun _ => Run.le_refl _

theorem distinct_le (p : Query R) : selectStepDistinct I n c p ≤ selectStepDistinct J m d p := by
  refine bind_le_bind (Run.le_refl _) fun s => ?_
  split
  · split
    · exact Run.le_refl _
    · exact bind_le_bind (distinctFill_le hI hc hnm p) fun _ => Run.le_refl _
  · exact grouped_le hI hc hnm p

omit hnm [CDouble R] in
theorem operandStep_le (p : Query R) : operandStep I c p ≤ operandStep J d p := by
  refine bind_le_bind (hI.stepCompounded c d hc _) fun x => ?_
  obtain ⟨rc,p⟩ := x
  cases rc
  · exact bind_le_bind (hI.queryDoc c d hc p 0) fun _ => Run.le_refl _
  · exact Run.le_refl _

omit hnm [CDouble R] in
theorem cacheTurn_le (st : ResultList R × Query R) : cacheTurn I c st ≤ cacheTurn J d st :=
  bind_le_bind (operandStep_le hI hc _) fun _ => Run.le_refl _

theorem cacheQuery_le (p : Query R) : cacheQuery I n c p ≤ cacheQuery J m d p :=
  bind_le_bind (loop_le_loop (cacheTurn_le hI hc) hnm _) fun _ => Run.le_refl _

omit hnm [CDouble R] in
theorem allRightStep_le (q : CompoundQuery R) : allRightStep I c q ≤ allRightStep J d q :=
  bind_le_bind (operandStep_le hI hc _) fun _ => Run.le_refl _

omit hnm [CDouble R] in
theorem allStep_le (q : CompoundQuery R) : allStep I c q ≤ allStep J d q := by
  unfold allStep
  split
  · exact allRightStep_le hI hc q
  · refine bind_le_bind (operandStep_le hI hc _) fun x => ?_
    obtain ⟨rc,v,l⟩ := x
    cases rc
    · exact Run.le_refl _
    · exact allRightStep_le hI hc _

theorem setOpFill_le (q : CompoundQuery R) : setOpFill I n c q ≤ setOpFill J m d q := by
  unfold setOpFill
  split
  · exact Run.le_refl _
  · exact bind_le_bind (cacheQuery_le hI hc hnm _) fun _ =>
      bind_le_bind (cacheQuery_le hI hc hnm _) fun _ => Run.le_refl _

theorem compoundStep_le (q : CompoundQuery R) : compoundStep I n c q ≤ compoundStep J m d q := by
  unfold compoundStep
  split
  · exact allStep_le hI hc q
  · exact bind_le_bind (setOpFill_le hI hc hnm q) fun _ => Run.le_refl _

theorem stepCompounded_le (p : Query R) : stepCompounded I n c p ≤ stepCompounded J m d p := by
  unfold stepCompounded
  split
  · exact distinct_le hI hc hnm p
  · exact bind_le_bind (compoundStep_le hI hc hnm _) fun _ => Run.le_refl _

theorem orderFillTurn_le (p : Query R) : orderFillTurn I n c p ≤ orderFillTurn J m d p := by
  refine bind_le_bind (stepCompounded_le hI hc hnm p) fun x => ?_
  obtain ⟨rc,p⟩ := x
  cases rc
  · exact bind_le_bind (evalItems_le hI (scope_le hI hc _) _) fun _ =>
      bind_le_bind (hI.queryDoc c d hc _ 0) fun _ => Run.le_refl _
  · exact Run.le_refl _

theorem orderFill_le (p : Query R) : orderFill I n c p ≤ orderFill J m d p :=
  bind_le_bind (loop_le_loop (orderFillTurn_le hI hc hnm) hnm _) fun _ => Run.le_refl _

theorem orderAdvance_le (p : Query R) : orderAdvance I n c p ≤ orderAdvance J m d p := by
  unfold orderAdvance
  split
  · exact Run.le_refl _
  · exact orderFill_le hI hc hnm p

theorem ordered_le (p : Query R) : selectStepOrdered I n c p ≤ selectStepOrdered J m d p := by
  unfold selectStepOrdered
  split
  · exact stepCompounded_le hI hc hnm p
  · exact bind_le_bind (orderAdvance_le hI hc hnm p) fun _ => Run.le_refl _

theorem offsetLoop_le (k : ℕ) (p : Query R) : offsetLoop I n c k p ≤ offsetLoop J m d k p := by
  induction k generalizing p with
  | zero => exact Run.le_refl _
  | succ k ih =>
    refine bind_le_bind (ordered_le hI hc hnm p) fun x => ?_
    obtain ⟨rc,p⟩ := x
    cases rc
    · exact ih p
    · exact Run.le_refl _

theorem applyOffset_le (p : Query R) : applyOffset I n c p ≤ applyOffset J m d p := by
  unfold applyOffset
  split
  · exact Run.le_refl _
  · exact bind_le_bind (hI.exprEval _ _ (scope_le hI hc p) _) fun _ =>
      bind_le_bind (Run.le_refl _) fun _ => offsetLoop_le hI hc hnm _ _

omit hnm in
theorem setLimit_le (p : Query R) : setLimit I c p ≤ setLimit J d p := by
  unfold setLimit
  split
  · exact Run.le_refl _
  · exact bind_le_bind (hI.exprEval _ _ (scope_le hI hc p) _) fun _ => Run.le_refl _

theorem limitStep_le (k : Int) (p : Query R) : limitStep I n c k p ≤ limitStep J m d k p := by
  unfold limitStep
  split
  · exact Run.le_refl _
  · exact bind_le_bind (ordered_le hI hc hnm p) fun _ => Run.le_refl _

theorem queryStep_le (p : Query R) : queryStep I n c p ≤ queryStep J m d p := by
  unfold queryStep
  split
  · exact limitStep_le hI hc hnm _ p
  · refine bind_le_bind (applyOffset_le hI hc hnm p) fun x => ?_
    obtain ⟨rc,p⟩ := x
    refine bind_le_bind (setLimit_le hI hc p) fun p => ?_
    cases rc
    · exact limitStep_le hI hc hnm _ p
    · exact Run.le_refl _

omit hnm [CDouble R] in
theorem simpleDoc_le (p : Query R) (s : SimpleQuery R) (k : ℕ) :
    simpleDoc I c p s k ≤ simpleDoc J d p s k := by
  unfold simpleDoc
  split
  case h_3 | h_5 => exact bind_le_bind (hI.exprEval _ _ (scope_le hI hc p) _) fun _ => Run.le_refl _
  all_goals exact Run.le_refl _

omit hnm [CDouble R] in
theorem queryDoc_le (p : Query R) (k : ℕ) : queryDoc I c p k ≤ queryDoc J d p k := by
  unfold queryDoc
  split
  · exact Run.le_refl _
  · split
    · exact simpleDoc_le hI hc p _ k
    · exact Run.le_refl _

end Eval

variable [CDouble R]

theorem Interp.next_le {I J : Interp R} (h : I.Le J) {n m : ℕ} (hnm : n ≤ m) :
    (I.next n).Le (J.next m) where
  exprEval _ _ hc := exprEval_le h hc
  dataSrcStep _ _ hc := dataSrcStep_le h hc hnm
  stepCompounded _ _ hc := stepCompounded_le h hc hnm
  queryStep _ _ hc := queryStep_le h hc hnm
  queryDoc _ _ hc := queryDoc_le h hc

/-- Engines that start without fuel get further with more of it, if their steps do. -/
theorem Interp.mono {F : ℕ → Interp R} (h0 : F 0 = interp 0)
    (hF : ∀ {n m : ℕ}, (F n).Le (F m) → n ≤ m → (F (n+1)).Le (F (m+1))) {n m : ℕ} (h : n ≤ m) :
    (F n).Le (F m) := by
  induction n generalizing m with
  | zero =>
    rw [h0]
    exact ⟨fun _ _ _ _ => more_le _,fun _ _ _ _ => more_le _,fun _ _ _ _ => more_le _,
      fun _ _ _ _ => more_le _,fun _ _ _ _ _ => more_le _⟩
  | succ n ih =>
    cases m with
    | zero => exact absurd h (Nat.not_succ_le_zero n)
    | succ m => exact hF (ih (Nat.le_of_succ_le_succ h)) (Nat.le_of_succ_le_succ h)

theorem interp_le {n m : ℕ} (h : n ≤ m) : (interp n : Interp R).Le (interp m) :=
  Interp.mono (F := interp) rfl (fun hl => Interp.next_le hl) h

end Xjd1
