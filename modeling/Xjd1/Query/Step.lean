import Xjd1.Query.DataSrc

/-! The stages of a query: WHERE, GROUP BY, DISTINCT, compound operators,
ORDER BY, and OFFSET with LIMIT, each stepping the one below it. -/
namespace Xjd1

open Fueled

variable {R : Type}

/-- The fields of a SELECT; the stages below the compound operators assert that it is one. -/
def Query.simple (p : Query R) : Exec (SimpleQuery R) :=
  match p.u with
  | .simple s => .ok s
  | .compound _ => .stop .assertFail

def Query.setSimple (p : Query R) (s : SimpleQuery R) : Query R := { p with u := .simple s }

@[simp] theorem Query.simple_setSimple (p : Query R) (s : SimpleQuery R) :
    (p.setSimple s).simple = .ok s := rfl
@[simp] theorem Query.setSimple_u (p : Query R) (s : SimpleQuery R) :
    (p.setSimple s).u = .simple s := rfl
@[simp] theorem Query.setSimple_setSimple (p : Query R) (s t : SimpleQuery R) :
    (p.setSimple s).setSimple t = p.setSimple t := rfl
@[simp] theorem Query.setSimple_eDocFrom (p : Query R) (s : SimpleQuery R) :
    (p.setSimple s).eDocFrom = p.eDocFrom := rfl

theorem Query.simple_eq_ok {p : Query R} {s : SimpleQuery R} : p.simple = .ok s ↔ p.u = .simple s := by
  rw [Query.simple]
  cases p.u <;> simp

section Step
variable [CDouble R] (I : Interp R) (n : ℕ) (ctx : Ctx R)

/-- What an expression inside `p` sees of `p`. Reading a document leaves the
query as it was, so only the value is kept. -/
def Query.frame (p : Query R) : Frame R where
  doc k := Prod.fst <$> I.xjd1QueryDoc ctx p k
  agg i := match p.u with
    | .simple s => ((s.pAgg.getD [])[i]?.map AggExpr.pValue).getD .nullptr
    | .compound _ => .nullptr

def Query.scope (p : Query R) : Ctx R := ctx.push (p.frame I ctx)

def whereTurn (p : Query R) : Exec ((Rc × Query R) ⊕ Query R) := do
  let s ← p.simple
  let (rc,pFrom) ← I.xjd1DataSrcStep ctx s.pFrom
  let p := p.setSimple { s with pFrom := pFrom }
  match rc, s.pWhere with
  | .row, some pWhere => do
    let (b,pWhere) ← xjd1ExprTrue I (p.scope I ctx) pWhere
    let p := p.setSimple { s with pFrom := pFrom, pWhere := some pWhere }
    .ok (if b then .inl (.row,p) else .inr p)
  | _, _ => .ok (.inl (rc,p))

def selectStepWhered (p : Query R) : Exec (Rc × Query R) := Run.loop (whereTurn I ctx) n p

def queryAggregateStep (p : Query R) : Exec (Bool × Query R) := do
  let s ← p.simple
  let (pAgg,save) ← xjd1AggregateStep I (p.scope I ctx) (s.pAgg.getD [])
  .ok (save,p.setSimple { s with pAgg := s.pAgg.map fun _ => pAgg })

def queryAggregateFinalize (p : Query R) : Exec (Query R) := do
  let s ← p.simple
  .ok (p.setSimple { s with pAgg := s.pAgg.map xjd1AggregateFinalize })

def setGrouped (p : Query R) (grouped : ResultList R) : Exec (Query R) := do
  let s ← p.simple
  .ok (p.setSimple { s with grouped := grouped })

/-- One turn of the loop over the rows of an aggregate query without GROUP BY:
`apSrc` is the row saved last, if one has been. -/
def plainAggTurn (st : Option (List (JsonNode R)) × Query R) :
    Exec ((Option (List (JsonNode R)) × Query R) ⊕ (Option (List (JsonNode R)) × Query R)) := do
  let (rc,p) ← selectStepWhered I n ctx st.2
  match rc with
  | .done => .ok (.inl (st.1,p))
  | .row => do
    let (saveThisRow,p) ← queryAggregateStep I ctx p
    let s ← p.simple
    if st.1.isNone || saveThisRow then .ok (.inr (some (xjd1DataSrcCacheSave s.pFrom),p))
    else .ok (.inr (st.1,p))

/-- An aggregate query without GROUP BY: one row, then the end. -/
def plainAggStep (p : Query R) : Exec (Rc × Query R) := do
  let s ← p.simple
  if s.pHaving.isSome then .stop .assertFail
  else if s.grouped.pPool then .ok (.done,p)
  else do
    let nSrc := xjd1DataSrcCount s.pFrom
    let p ← setGrouped p (.new nSrc)
    let (apSrc,p) ← Run.loop (plainAggTurn I n ctx) n (none,p)
    let s ← p.simple
    let p ← setGrouped p (addToResultList s.grouped (apSrc.getD (List.replicate nSrc .nullptr)))
    let p ← queryAggregateFinalize p
    .ok (.row,{ p with eDocFrom := .grouped })

def groupFillTurn (p : Query R) : Exec (Query R ⊕ Query R) := do
  let (rc,p) ← selectStepWhered I n ctx p
  match rc with
  | .done => .ok (.inl p)
  | .row => do
    let s ← p.simple
    let (keys,es) ← evalItems I (p.scope I ctx) (s.pGroupBy.getD [])
    let apKey := keys ++ xjd1DataSrcCacheSave s.pFrom
    .ok (.inr (p.setSimple { s with
      pGroupBy := s.pGroupBy.map fun _ => es, grouped := addToResultList s.grouped apKey }))

def groupFill (p : Query R) : Exec (Query R) := do
  let s ← p.simple
  let p ← setGrouped p (.new ((s.pGroupBy.getD []).length + xjd1DataSrcCount s.pFrom))
  let p ← Run.loop (groupFillTurn I n ctx) n p
  let s ← p.simple
  let grouped ← sortResultList s.grouped s.pGroupBy false
  setGrouped p grouped

def endsGroup (pGroupBy : Option (List (ExprItem R))) (pItem : ResultItem R) : List (ResultItem R) → Bool
  | [] => true
  | pNext::_ => cmpResultItem pGroupBy pItem pNext ≠ 0

def groupTurn (p : Query R) : Exec (Query R ⊕ Query R) := do
  let s ← p.simple
  match s.grouped.pItem with
  | [] => .stop .emptyList
  | pItem::pNext => do
    let (saveThisRow,p) ← queryAggregateStep I ctx p
    let grouped := if saveThisRow then saveResultList s.grouped else s.grouped
    if endsGroup s.pGroupBy pItem pNext then do
      let p ← setGrouped p (restoreResultList grouped)
      .ok (.inl p)
    else do
      let p ← setGrouped p (if saveThisRow then grouped else popResultList grouped)
      .ok (.inr p)

/-- Put the first row of the next group at the head: fill the list, or drop the
row that stands for the last group. -/
def groupAdvance (p : Query R) : Exec (Query R) := do
  let s ← p.simple
  if s.grouped.pPool then setGrouped p (popResultList s.grouped) else groupFill I n ctx p

/-- Move to the next group and step the aggregates over its rows. -/
def groupNext (p : Query R) : Exec (Rc × Query R) := do
  let p ← groupAdvance I n ctx p
  let p := { p with eDocFrom := .grouped }
  let s ← p.simple
  if s.grouped.pItem.isEmpty then .ok (.done,p)
  else do
    let p ← Run.loop (groupTurn I ctx) n p
    let p ← queryAggregateFinalize p
    .ok (.row,p)

def havingTurn (p : Query R) : Exec ((Rc × Query R) ⊕ Query R) := do
  let (rc,p) ← groupNext I n ctx p
  let s ← p.simple
  match rc, s.pHaving with
  | .row, some pHaving => do
    let (b,pHaving) ← xjd1ExprTrue I (p.scope I ctx) pHaving
    let p := p.setSimple { s with pHaving := some pHaving }
    .ok (if b then .inl (.row,p) else .inr p)
  | _, _ => .ok (.inl (rc,p))

def selectStepGrouped (p : Query R) : Exec (Rc × Query R) := do
  let s ← p.simple
  match s.pAgg, s.pGroupBy with
  | none, _ => selectStepWhered I n ctx p
  | some _, none => plainAggStep I n ctx p
  | some _, some _ => Run.loop (havingTurn I n ctx) n p

def setDistincted (p : Query R) (distincted : ResultList R) : Exec (Query R) := do
  let s ← p.simple
  .ok (p.setSimple { s with distincted := distincted })

def distinctFillTurn (p : Query R) : Exec (Query R ⊕ Query R) := do
  let (rc,p) ← selectStepGrouped I n ctx p
  match rc with
  | .done => .ok (.inl p)
  | .row => do
    let (v,p) ← I.xjd1QueryDoc ctx p 0
    let s ← p.simple
    let p ← setDistincted p (addToResultList s.distincted (v :: xjd1DataSrcCacheSave s.pFrom))
    .ok (.inr p)

/-- Fill the distincted list with the rows of the stages below, one of each value. -/
def distinctFill (p : Query R) : Exec (Query R) := do
  let s ← p.simple
  let p ← setDistincted p (.new (1 + xjd1DataSrcCount s.pFrom))
  let p ← Run.loop (distinctFillTurn I n ctx) n p
  let s ← p.simple
  let distincted ← sortResultList s.distincted none true
  let p ← setDistincted p distincted
  .ok { p with eDocFrom := .distincted }

def selectStepDistinct (p : Query R) : Exec (Rc × Query R) := do
  let s ← p.simple
  if s.isDistinct then
    if s.distincted.pPool then do
      let distincted := popResultList s.distincted
      let p ← setDistincted p distincted
      .ok (if distincted.pItem.isEmpty then .done else .row,p)
    else do
      let p ← distinctFill I n ctx p
      .ok (.row,p)
  else selectStepGrouped I n ctx p

def operandStep (p : Query R) : Exec (Rc × JsonNode R × Query R) := do
  let (rc,p) ← I.selectStepCompounded ctx p
  match rc with
  | .done => .ok (.done,.nullptr,p)
  | .row => do
    let (v,p) ← I.xjd1QueryDoc ctx p 0
    .ok (.row,v,p)

def cacheTurn (st : ResultList R × Query R) :
    Exec ((ResultList R × Query R) ⊕ (ResultList R × Query R)) := do
  let (rc,v,p) ← operandStep I ctx st.2
  .ok (match rc with
    | .done => .inl (st.1,p)
    | .row => .inr (addToResultList st.1 [v],p))

def cacheQuery (p : Query R) : Exec (ResultList R × Query R) := do
  let (pList,p) ← Run.loop (cacheTurn I ctx) n (.new 1,p)
  let pList ← sortResultList pList none true
  .ok (pList,p)

def unionStep (p1 p2 : List (ResultItem R)) :
    Option (JsonNode R) × List (ResultItem R) × List (ResultItem R) :=
  match p1, p2 with
  | [], [] => (none,[],[])
  | [], b::p2 => (some b.first,[],p2)
  | a::p1, [] => (some a.first,p1,[])
  | a::p1, b::p2 =>
    let c := cmpResultItem none a b
    (some (if c < 0 then a.first else b.first),if c ≤ 0 then p1 else a::p1,
      if 0 ≤ c then p2 else b::p2)

/-- The loop of the `TK_INTERSECT` case, which drops an item from one list or from both. -/
def intersectStep : ℕ → List (ResultItem R) → List (ResultItem R) →
    Option (JsonNode R) × List (ResultItem R) × List (ResultItem R)
  | m+1, a::p1, b::p2 =>
    let c := cmpResultItem none a b
    if c = 0 then (some a.first,p1,p2)
    else if c < 0 then intersectStep m p1 (b::p2)
    else intersectStep m (a::p1) p2
  | _, p1, p2 => (none,p1,p2)

def exceptStep : ℕ → List (ResultItem R) → List (ResultItem R) →
    Option (JsonNode R) × List (ResultItem R) × List (ResultItem R)
  | m+1, a::p1, b::p2 =>
    let c := cmpResultItem none a b
    if c < 0 then (some a.first,p1,b::p2)
    else if c = 0 then exceptStep m p1 (b::p2)
    else exceptStep m (a::p1) p2
  | _+1, a::p1, [] => (some a.first,p1,[])
  | _, p1, p2 => (none,p1,p2)

/-- One step of a set operator on the cached lists; the loops end within the items there are. -/
def setOpStep (eQType : CompoundOp) (p1 p2 : List (ResultItem R)) :
    Option (JsonNode R) × List (ResultItem R) × List (ResultItem R) :=
  match eQType with
  | .union => unionStep p1 p2
  | .intersect => intersectStep (p1.length + p2.length) p1 p2
  | .except => exceptStep (p1.length + p2.length) p1 p2
  | .all => (none,p1,p2)

def allRightStep (c : CompoundQuery R) : Exec (Rc × CompoundQuery R) := do
  let (rc,v,pRight) ← operandStep I ctx c.pRight
  .ok (rc,{ c with doneLeft := true, pRight := pRight, pOut := v })

def allStep (c : CompoundQuery R) : Exec (Rc × CompoundQuery R) :=
  if c.doneLeft then allRightStep I ctx c
  else do
    let (rc,v,pLeft) ← operandStep I ctx c.pLeft
    match rc with
    | .row => .ok (.row,{ c with pLeft := pLeft, pOut := v })
    | .done => allRightStep I ctx { c with pLeft := pLeft }

def setOpFill (c : CompoundQuery R) : Exec (CompoundQuery R) :=
  if c.left.pPool then .ok c
  else do
    let (left,pLeft) ← cacheQuery I n ctx c.pLeft
    let (right,pRight) ← cacheQuery I n ctx c.pRight
    .ok { c with pLeft := pLeft, left := left, pRight := pRight, right := right }

def compoundStep (c : CompoundQuery R) : Exec (Rc × CompoundQuery R) :=
  if c.eQType = .all then allStep I ctx c
  else do
    let c ← setOpFill I n ctx c
    let (pOut,p1,p2) := setOpStep c.eQType c.left.pItem c.right.pItem
    .ok (if pOut.isSome then .row else .done,{ c with
      left := { c.left with pItem := p1 }, right := { c.right with pItem := p2 },
      pOut := pOut.getD .nullptr })

def stepCompounded (p : Query R) : Exec (Rc × Query R) :=
  match p.u with
  | .simple _ => selectStepDistinct I n ctx p
  | .compound c => do
    let (rc,c) ← compoundStep I n ctx c
    .ok (rc,{ p with u := .compound c })

def orderFillTurn (p : Query R) : Exec (Query R ⊕ Query R) := do
  let (rc,p) ← stepCompounded I n ctx p
  match rc with
  | .done => .ok (.inl p)
  | .row => do
    let (keys,es) ← evalItems I (p.scope I ctx) (p.pOrderBy.getD [])
    let (v,p) ← I.xjd1QueryDoc ctx { p with pOrderBy := p.pOrderBy.map fun _ => es } 0
    .ok (.inr { p with ordered := addToResultList p.ordered (keys ++ [v]) })

def orderFill (p : Query R) : Exec (Query R) := do
  let p ← Run.loop (orderFillTurn I n ctx) n
    { p with ordered := .new ((p.pOrderBy.getD []).length + 1) }
  let ordered ← sortResultList p.ordered p.pOrderBy false
  .ok { p with ordered := ordered, eDocFrom := .ordered }

def orderAdvance (p : Query R) : Exec (Query R) :=
  if p.ordered.pPool then
    if p.eDocFrom = .ordered then .ok { p with ordered := popResultList p.ordered }
    else .stop .assertFail
  else orderFill I n ctx p

def selectStepOrdered (p : Query R) : Exec (Rc × Query R) :=
  if p.pOrderBy.isNone then stepCompounded I n ctx p
  else do
    let p ← orderAdvance I n ctx p
    .ok (if p.ordered.pItem.isEmpty then .done else .row,p)

def offsetLoop : ℕ → Query R → Exec (Rc × Query R)
  | 0, p => .ok (.row,p)
  | k+1, p => do
    let (rc,p) ← selectStepOrdered I n ctx p
    match rc with
    | .done => .ok (.done,p)
    | .row => offsetLoop k p

def limitValue (v : JsonNode R) : Exec (Option Int) :=
  if (xjd1JsonToReal v).2 then .ok none
  else do
    let i ← toInt (xjd1JsonToReal v).1
    .ok (some i)

def applyOffset (p : Query R) : Exec (Rc × Query R) :=
  match p.pOffset with
  | none => .ok (.row,p)
  | some pOffset => do
    let (v,pOffset) ← I.xjd1ExprEval (p.scope I ctx) pOffset
    let p := { p with pOffset := some pOffset }
    let k ← limitValue v
    offsetLoop I n ctx (k.getD 0).toNat p

def setLimit (p : Query R) : Exec (Query R) :=
  match p.pLimit with
  | none => .ok { p with nLimit := some (-1) }
  | some pLimit => do
    let (v,pLimit) ← I.xjd1ExprEval (p.scope I ctx) pLimit
    let k ← limitValue v
    .ok { p with pLimit := some pLimit, nLimit := some (k.getD (-1)) }

def limitStep (nLimit : Int) (p : Query R) : Exec (Rc × Query R) :=
  if nLimit = 0 then .ok (.done,p)
  else do
    let (rc,p) ← selectStepOrdered I n ctx p
    .ok (rc,if 0 < nLimit then { p with nLimit := some (nLimit-1) } else p)

def queryStep (p : Query R) : Exec (Rc × Query R) :=
  match p.nLimit with
  | some nLimit => limitStep I n ctx nLimit p
  | none => do
    let (rc,p) ← applyOffset I n ctx p
    let p ← setLimit I ctx p
    match rc with
    | .done => .ok (.done,p)
    | .row => limitStep I n ctx (p.nLimit.getD (-1)) p

def ResultList.doc (pList : ResultList R) (i : ℕ) : Exec (JsonNode R) :=
  match pList.pItem with
  | [] => .stop .emptyList
  | pItem::_ => Run.ofOption .undefined pItem.apKey[i]?

def resultDoc (p : Query R) (s : SimpleQuery R) (pRes : Expr R) : Exec (JsonNode R × Query R) := do
  let (v,pRes) ← I.xjd1ExprEval (p.scope I ctx) pRes
  .ok (v,p.setSimple { s with pRes := some pRes })

def simpleDoc (p : Query R) (s : SimpleQuery R) (iDoc : ℕ) : Exec (JsonNode R × Query R) :=
  match p.eDocFrom, s.pRes, iDoc with
  | .ordered, _, _ => .stop .assertFail
  | .distincted, _, _ => do
    let v ← s.distincted.doc iDoc
    .ok (v,p)
  | .grouped, some pRes, 0 => resultDoc I ctx p s pRes
  | .grouped, _, _ => do
    let v ← s.grouped.doc ((s.pGroupBy.getD []).length + (iDoc-1))
    .ok (v,p)
  | .datasrc, some pRes, 0 => resultDoc I ctx p s pRes
  | .datasrc, _, _ => .ok (xjd1DataSrcRead s.pFrom (max iDoc 1),p)

def queryDoc (p : Query R) (iDoc : ℕ) : Exec (JsonNode R × Query R) :=
  if p.eDocFrom = .ordered then
    if iDoc = 0 then do
      let v ← p.ordered.doc (p.ordered.nKey-1)
      .ok (v,p)
    else .stop .assertFail
  else match p.u with
    | .simple s => simpleDoc I ctx p s iDoc
    | .compound c => if iDoc = 0 then .ok (c.pOut,p) else .stop .assertFail

end Step

end Xjd1
