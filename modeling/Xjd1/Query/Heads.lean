import Xjd1.Query.Scoped

/-! The heads of the result lists. Documents of a query are read from the list its stages
have filled last, if they have filled one, and a step to a row leaves a head in it. -/
namespace Xjd1

open Fueled Fueled.Run SlotSort

variable {R : Type}

/-- The run does not read the head of an empty list, and a value that it gives has the property. -/
abbrev Headed {α : Type} (P : α → Prop) (x : Exec α) : Prop := Avoids .emptyList P x

/-- Reading a document of a query in `S` does not read an empty list. -/
def Ctx.Heads (S : ℕ → Bool) (ctx : Ctx R) : Prop :=
  ∀ k f, S k = true → ctx.frames[k]? = some f → ∀ i, Headed (fun _ => True) (f.doc i)

theorem Ctx.Heads.push {S : ℕ → Bool} {ctx : Ctx R} (h : ctx.Heads S) {b : Bool} {f : Frame R}
    (hf : b = true → ∀ i, Headed (fun _ => True) (f.doc i)) : (ctx.push f).Heads (inside b S) := by
  intro k g hk hg
  cases k with
  | zero =>
    cases hg
    exact hf hk
  | succ k => exact h k g hk hg

theorem Ctx.top_heads (ctx : Ctx R) (S : ℕ → Bool) : ctx.top.Heads S := by
  intro k f _ hf
  cases hf

/-- The list that documents are read from, if they are read from one, has a head. -/
def Query.AtHead (p : Query R) : Prop :=
  match p.eDocFrom, p.u with
  | .ordered, _ => p.ordered.pItem ≠ []
  | .distincted, .simple s => s.distincted.pItem ≠ []
  | .grouped, .simple s => s.grouped.pItem ≠ []
  | _, _ => True

section Operators
variable [CDouble R]

theorem isTrue_headed (v : JsonNode R) : Headed (fun _ => True) (isTrue v) := by
  cases v <;> first | trivial | exact .stop (by decide)

theorem subscriptOperator_headed (v w : JsonNode R) : Headed (fun _ => True) (subscriptOperator v w) := by
  cases v with
  | nullptr => exact .stop (by decide)
  | array vs =>
    refine (subscript_avoids (by decide) w).bind fun o _ _ => ?_
    cases o with
    | none => trivial
    | some i =>
      simp only
      split <;> trivial
  | string z =>
    refine (subscript_avoids (by decide) w).bind fun o _ _ => ?_
    cases o <;> trivial
  | _ => trivial

theorem biOperator_headed (op : BiOp) (v w : JsonNode R) : Headed (fun _ => True) (biOperator op v w) := by
  cases op with
  | lb => exact subscriptOperator_headed v w
  | rem | rshift | lshift | bitand | bitor =>
    exact (toInt_avoids (by decide) _).bind fun _ _ _ => (toInt_avoids (by decide) _).bind fun _ _ _ =>
      (bitOperator_avoids (by decide) _ _ _).bind fun _ _ _ => trivial
  | _ => trivial

theorem xLength_headed (v : JsonNode R) : Headed (fun _ => True) (xLength v) := by
  cases v <;> first | trivial | exact .stop (by decide)

theorem xStep_headed (f : Function) (vs : List (JsonNode R)) (pp : AggCtx R) :
    Headed (fun _ => True) (xStep f vs pp) :=
  xStep_avoids (by decide) (by decide) (fun _ => .inl (by decide)) pp

theorem limitValue_headed (v : JsonNode R) : Headed (fun _ => True) (limitValue v) := by
  unfold limitValue
  split
  · trivial
  · exact (toInt_avoids (by decide) _).bind fun _ _ _ => trivial

theorem sortResultList_headed (l : ResultList R) (es : Option (List (ExprItem R))) (u : Bool) :
    Headed (fun l' => l'.pPool = l.pPool ∧ (l.pItem ≠ [] → l'.pItem ≠ [])) (sortResultList l es u) := by
  rw [sortResultList]
  cases hs : slotSort (cmpResultItem es) nSlot l.pItem with
  | none => exact .stop (by decide)
  | some s =>
    have hne : l.pItem ≠ [] → s ≠ [] := by
      rintro hl rfl
      exact hl (List.nil_perm.mp (slotSort_perm hs))
    have hcheck : ∀ (c : Int) (pHead : List (ResultItem R)), (l.pItem ≠ [] → pHead ≠ []) →
        Headed (fun l' => l'.pPool = l.pPool ∧ (l.pItem ≠ [] → l'.pItem ≠ []))
          (if ascends (cmpResultItem es) c pHead then .ok { l with pItem := pHead } else .stop .assertFail) := by
      intro c pHead h
      split
      · exact ⟨rfl,h⟩
      · exact .stop (by decide)
    cases u with
    | false => exact hcheck _ s hne
    | true => exact hcheck _ _ fun hl => uniq_ne_nil (hne hl)

end Operators

section Expr
variable {I : Interp R} {S : ℕ → Bool} {ctx : Ctx R}

/-- Evaluations of expressions in their scope do not read the head of an empty list. -/
def Interp.EvalHeaded (I : Interp R) : Prop :=
  ∀ S ctx e, Ctx.Heads S ctx → ExprFit S e → Headed (fun _ => True) (I.xjd1ExprEval ctx e)

variable (hI : I.EvalHeaded) (hctx : ctx.Heads S)
include hI hctx

theorem evalOption_headed {e : Option (Expr R)} (hi : optionInitial e) (hs : optionScoped e S = true) :
    Headed (fun _ => True) (evalOption I ctx e) := by
  cases e with
  | none => trivial
  | some e => exact (hI S ctx e hctx ⟨hi,hs⟩).bind fun _ _ _ => trivial

theorem evalItems_headed {es : List (ExprItem R)} (hi : itemsInitial es) (hs : itemsScoped es S = true) :
    Headed (fun _ => True) (evalItems I ctx es) := by
  induction es with
  | nil => trivial
  | cons pItem es ih =>
    obtain ⟨z,e⟩ := pItem
    rw [itemsInitial] at hi
    rw [itemsScoped,Bool.and_eq_true] at hs
    exact (hI S ctx e hctx ⟨hi.1,hs.1⟩).bind fun _ _ _ => (ih hi.2 hs.2).bind fun _ _ _ => trivial

variable [CDouble R]

theorem exprTrue_headed {e : Expr R} (he : ExprFit S e) : Headed (fun _ => True) (xjd1ExprTrue I ctx e) := by
  refine (hI S ctx e hctx he).bind fun x _ _ => ?_
  obtain ⟨v,e⟩ := x
  simp only
  split
  · trivial
  · exact (isTrue_headed _).bind fun _ _ _ => trivial

theorem functionEval_headed {f : Function} {args : List (ExprItem R)} {i : ℕ} (he : ExprFit S (.func f args i)) :
    Headed (fun _ => True) (xjd1FunctionEval I ctx f args i) := by
  have hi := he.initial
  have hs := he.inScope
  rw [Expr.Initial] at hi
  rw [Expr.scoped] at hs
  cases f with
  | length =>
    refine (evalItems_headed hI hctx hi hs).bind fun x _ _ => ?_
    obtain ⟨vs,args'⟩ := x
    cases vs with
    | nil => exact .stop (by decide)
    | cons v vs =>
      cases vs with
      | nil => exact (xLength_headed v).bind fun _ _ _ => trivial
      | cons w vs => exact .stop (by decide)
  | _ =>
    obtain ⟨frames,_,_⟩ := ctx
    cases frames with
    | nil => exact .stop (by decide)
    | cons g gs => trivial

theorem strict_headed (op : BiOp) {l : Expr R} {r : Option (Expr R)} (hl : ExprFit S l)
    (hr : Headed (fun _ => True) (evalOption I ctx r)) : Headed (fun _ => True) (do
      let (v,pLeft) ← I.xjd1ExprEval ctx l
      let (w,pRight) ← evalOption I ctx r
      let x ← biOperator op v w
      .ok (x,Expr.bi op pLeft pRight)) :=
  (hI S ctx l hctx hl).bind fun _ _ _ => hr.bind fun _ _ _ => (biOperator_headed _ _ _).bind fun _ _ _ => trivial

theorem exprEvalBi_headed {op : BiOp} {l : Expr R} {r : Option (Expr R)} (he : ExprFit S (.bi op l r)) :
    Headed (fun _ => True) (exprEvalBi I ctx op l r) := by
  have hi := he.initial
  have hs := he.inScope
  rw [Expr.Initial] at hi
  rw [Expr.scoped,Bool.and_eq_true] at hs
  have hl : ExprFit S l := ⟨hi.1,hs.1⟩
  have hr := evalOption_headed hI hctx hi.2 hs.2
  have hstrict := strict_headed hI hctx op hl hr
  cases op with
  | and | or =>
    refine (hI S ctx l hctx hl).bind fun x _ _ => (isTrue_headed x.1).bind fun b _ _ => ?_
    split
    · trivial
    · exact hr.bind fun _ _ _ => trivial
  | bang => exact (exprTrue_headed hI hctx hl).bind fun _ _ _ => trivial
  | bitnot => exact (hI S ctx l hctx hl).bind fun _ _ _ => (toInt_avoids (by decide) _).bind fun _ _ _ => trivial
  | minus =>
    cases r with
    | none => exact (hI S ctx l hctx hl).bind fun _ _ _ => trivial
    | some r => exact hstrict
  | star | slash =>
    cases r with
    | none => exact .stop (by decide)
    | some r => exact hstrict
  | eq3 | ne3 | like | urshift | bitxor => trivial
  | _ => exact hstrict

theorem aggregateStep_headed {l : List (AggExpr R)} (hi : aggsInitial (l.map AggExpr.clear))
    (hs : aggsScoped l S = true) : Headed (fun _ => True) (xjd1AggregateStep I ctx l) := by
  induction l with
  | nil => trivial
  | cons a l ih =>
    obtain ⟨f,args,v,c⟩ := a
    rw [List.map_cons,AggExpr.clear,aggsInitial] at hi
    rw [aggsScoped,Bool.and_eq_true] at hs
    have hstep : Headed (fun _ => True) (aggExprStep I ctx ⟨f,args,v,c⟩) :=
      (evalItems_headed hI hctx hi.1.1 hs.1).bind fun _ _ _ => (xStep_headed _ _ _).bind fun _ _ _ => trivial
    exact hstep.bind fun _ _ _ => (ih hi.2 hs.2).bind fun _ _ _ => trivial

end Expr

/-- Documents are read from lists of stages that the query has, and that have been filled. -/
structure Query.Flagged (p : Query R) : Prop where
  ordered : p.eDocFrom = .ordered → p.pOrderBy.isSome = true ∧ p.ordered.pPool = true
  distincted : ∀ s, p.u = .simple s → p.eDocFrom = .distincted → s.isDistinct = true ∧ s.distincted.pPool = true
  pPool : ∀ s, p.u = .simple s → p.eDocFrom ≠ .ordered → s.isDistinct = true → s.distincted.pPool = true →
    p.eDocFrom = .distincted
  grouped : ∀ s, p.u = .simple s → p.eDocFrom = .grouped →
    s.pAgg.isSome = true ∧ s.grouped.pPool = true ∧ (s.pGroupBy = none → s.grouped.pItem ≠ [])

/-- The rows or the groups of the query are sorted, in a list that documents are then read from. -/
def Query.listed (p : Query R) : Bool :=
  p.pOrderBy.isSome || match p.u with
    | .simple s => s.isDistinct || (s.pAgg.isSome && s.pGroupBy.isSome)
    | .compound _ => false

mutual
/-- The queries in a FROM clause are as steps leave them. -/
def DataSrc.Settled : DataSrc R → Prop
  | .comma _ pLeft pRight => pLeft.Settled ∧ pRight.Settled
  | .subq _ _ q => q.Settled
  | .flatten _ pNext _ _ _ _ => pNext.Settled
  | .tab _ _ _ _ | .path _ _ _ _ _ | .null _ => True

def SimpleQuery.Settled : SimpleQuery R → Prop
  | ⟨_,_,pFrom,_,_,_,_,_,_⟩ => pFrom.Settled

/-- The operands of a compound operator are not sorted. -/
def CompoundQuery.Settled : CompoundQuery R → Prop
  | ⟨_,pLeft,pRight,_,_,_,_⟩ =>
    (pLeft.Settled ∧ pLeft.eDocFrom ≠ .ordered) ∧ pRight.Settled ∧ pRight.eDocFrom ≠ .ordered

def QueryU.Settled : QueryU R → Prop
  | .simple s => s.Settled
  | .compound c => c.Settled

/-- A query as steps leave it. -/
def Query.Settled : Query R → Prop
  | ⟨u,zAs,pOrderBy,pLimit,pOffset,eDocFrom,ordered,nLimit⟩ =>
    (⟨u,zAs,pOrderBy,pLimit,pOffset,eDocFrom,ordered,nLimit⟩ : Query R).Flagged ∧ u.Settled
end

theorem simpleSettled_iff (s : SimpleQuery R) : s.Settled ↔ s.pFrom.Settled := by
  cases s
  rw [SimpleQuery.Settled]

theorem compoundSettled_iff (c : CompoundQuery R) : c.Settled ↔
    (c.pLeft.Settled ∧ c.pLeft.eDocFrom ≠ .ordered) ∧ c.pRight.Settled ∧ c.pRight.eDocFrom ≠ .ordered := by
  cases c
  rw [CompoundQuery.Settled]

theorem querySettled_iff (p : Query R) : p.Settled ↔ p.Flagged ∧ p.u.Settled := by
  cases p
  rw [Query.Settled]

theorem Query.AtHead.of_datasrc {p : Query R} (h : p.eDocFrom = .datasrc) : p.AtHead := by
  rw [Query.AtHead,h]
  split <;> trivial

mutual
theorem dataSrcInitial_settled : (d : DataSrc R) → d.Initial → d.Settled
  | .comma _ l r, h => by
    rw [DataSrc.Initial] at h
    rw [DataSrc.Settled]
    exact ⟨dataSrcInitial_settled l h.2.1,dataSrcInitial_settled r h.2.2⟩
  | .subq _ _ q, h => by
    rw [DataSrc.Initial] at h
    rw [DataSrc.Settled]
    exact queryInitial_settled q h.2
  | .flatten _ p _ _ _ _, h => by
    rw [DataSrc.Initial] at h
    rw [DataSrc.Settled]
    exact dataSrcInitial_settled p h.2.1
  | .tab _ _ _ _, _ | .path _ _ _ _ _, _ | .null _, _ => by
    rw [DataSrc.Settled]
    trivial

theorem simpleInitial_settled : (s : SimpleQuery R) → s.Initial → s.Settled
  | ⟨_,_,src,_,_,_,_,_,_⟩, h => by
    rw [SimpleQuery.Initial] at h
    rw [SimpleQuery.Settled]
    exact dataSrcInitial_settled src h.2.1

theorem compoundInitial_settled : (c : CompoundQuery R) → c.Initial → c.Settled
  | ⟨_,l,r,_,_,_,_⟩, h => by
    rw [CompoundQuery.Initial] at h
    rw [CompoundQuery.Settled]
    have hd : ∀ q : Query R, q.Initial → q.eDocFrom ≠ .ordered := fun q hq hd => by
      rw [((queryInitial_iff q).mp hq).2.2.2.2.1] at hd
      cases hd
    exact ⟨⟨queryInitial_settled l h.1,hd l h.1⟩,queryInitial_settled r h.2.1,hd r h.2.1⟩

theorem queryUInitial_settled : (u : QueryU R) → u.Initial → u.Settled
  | .simple s, h => by
    rw [QueryU.Initial] at h
    rw [QueryU.Settled]
    exact simpleInitial_settled s h
  | .compound c, h => by
    rw [QueryU.Initial] at h
    rw [QueryU.Settled]
    exact compoundInitial_settled c h

theorem queryInitial_settled : (p : Query R) → p.Initial → p.Settled
  | ⟨u,_,_,_,_,_,_,_⟩, h => by
    rw [Query.Initial] at h
    rw [Query.Settled]
    refine ⟨⟨fun hd => ?_,fun _ _ hd => ?_,fun s hs _ _ hpool => ?_,fun _ _ hd => ?_⟩,queryUInitial_settled u h.1⟩
    · cases h.2.2.2.2.1.symm.trans hd
    · cases h.2.2.2.2.1.symm.trans hd
    · simp only at hs
      have hi := h.1
      rw [hs,QueryU.Initial,simpleInitial_iff] at hi
      rw [hi.2.2.2.2.2.2.2] at hpool
      cases hpool
    · cases h.2.2.2.2.1.symm.trans hd
end

end Xjd1
