import Xjd1.Query.Results

/-! Evaluation of expressions and of aggregate calls. The functions of the
engine call each other in a circle; each is written here for any interpretation
of the calls that leave it, and the circle is closed later. -/
namespace Xjd1

open Fueled

variable {R : Type}

inductive Rc
  | row | done
  deriving DecidableEq, Repr

/-- What an expression can see of a query around it: the current documents, and
the values of the aggregate calls. -/
structure Frame (R : Type) where
  doc : ℕ → Exec (JsonNode R)
  agg : ℕ → JsonNode R

/-- The kind of the statement, with the document of a DELETE or an UPDATE, which is a null pointer
but for the rows. -/
inductive StmtDoc (R : Type)
  | select | insert
  | doc (pDoc : JsonNode R)

/-- The surroundings of an evaluation: the queries around it, innermost first,
the statement, and the collections. -/
structure Ctx (R : Type) where
  frames : List (Frame R)
  pDoc : StmtDoc R
  db : Bytes → List Bytes

def Ctx.push (ctx : Ctx R) (f : Frame R) : Ctx R := { ctx with frames := f :: ctx.frames }

/-- The surroundings of a subquery in a FROM clause, which sees no other query. -/
def Ctx.top (ctx : Ctx R) : Ctx R := { ctx with frames := [] }

structure Interp (R : Type) where
  xjd1ExprEval : Ctx R → Expr R → Exec (JsonNode R × Expr R)
  xjd1DataSrcStep : Ctx R → DataSrc R → Exec (Rc × DataSrc R)
  selectStepCompounded : Ctx R → Query R → Exec (Rc × Query R)
  xjd1QueryStep : Ctx R → Query R → Exec (Rc × Query R)
  xjd1QueryDoc : Ctx R → Query R → ℕ → Exec (JsonNode R × Query R)

section Eval
variable [CDouble R] (I : Interp R) (ctx : Ctx R)

def evalOption : Option (Expr R) → Exec (JsonNode R × Option (Expr R))
  | none => .ok (.null,none)
  | some e => do
    let (v,e) ← I.xjd1ExprEval ctx e
    .ok (v,some e)

def evalItems : List (ExprItem R) → Exec (List (JsonNode R) × List (ExprItem R))
  | [] => .ok ([],[])
  | pItem::es => do
    let (v,e) ← I.xjd1ExprEval ctx pItem.pExpr
    let (vs,es) ← evalItems es
    .ok (v::vs,{ pItem with pExpr := e }::es)

def xjd1ExprTrue (p : Expr R) : Exec (Bool × Expr R) := do
  let (v,p) ← I.xjd1ExprEval ctx p
  match v with
  | .nullptr => .ok (false,p)
  | v =>
    let b ← isTrue v
    .ok (b,p)

def structValue (st : List (ExprItem R)) (vs : List (JsonNode R)) : JsonNode R :=
  .struct ((st.map fun pItem => pItem.zAs.getD []).zip vs)

def xjd1FunctionEval (pFunction : Function) (args : List (ExprItem R)) (iAgg : ℕ) :
    Exec (JsonNode R × Expr R) :=
  match pFunction with
  | .length => do
    let (vs,args) ← evalItems I ctx args
    match vs with
    | [v] =>
      let v ← xLength v
      .ok (v,.func pFunction args iAgg)
    | _ => .stop .assertFail
  | _ => match ctx.frames with
    | f::_ => .ok (f.agg iAgg,.func pFunction args iAgg)
    | [] => .stop .undefined

def exprEvalBi (eType : BiOp) (pLeft : Expr R) (pRight : Option (Expr R)) :
    Exec (JsonNode R × Expr R) :=
  match eType, pRight with
  | .and, _ | .or, _ => do
    let (v,pLeft) ← I.xjd1ExprEval ctx pLeft
    let b ← isTrue v
    if b = (eType = .or) then .ok (v,.bi eType pLeft pRight)
    else do
      let (v,pRight) ← evalOption I ctx pRight
      .ok (v,.bi eType pLeft pRight)
  | .bang, _ => do
    let (b,pLeft) ← xjd1ExprTrue I ctx pLeft
    .ok (ofBool !b,.bi eType pLeft pRight)
  | .bitnot, _ => do
    let (v,pLeft) ← I.xjd1ExprEval ctx pLeft
    let i ← toInt (xjd1JsonToReal v).1
    .ok (.real (CDouble.ofInt (-i-1)),.bi eType pLeft pRight)
  | .minus, none => do
    let (v,pLeft) ← I.xjd1ExprEval ctx pLeft
    .ok (.real (CDouble.mul (CDouble.ofInt (-1)) (xjd1JsonToReal v).1),.bi eType pLeft pRight)
  | .star, none | .slash, none => .stop .assertFail
  | .eq3, _ | .ne3, _ | .like, _ | .urshift, _ | .bitxor, _ => .ok (.null,.bi eType pLeft pRight)
  | _, _ => do
    let (v,pLeft) ← I.xjd1ExprEval ctx pLeft
    let (w,pRight) ← evalOption I ctx pRight
    let r ← biOperator eType v w
    .ok (r,.bi eType pLeft pRight)

/-- `xjd1ExprEval`, with the expression after the subqueries in it have run. -/
def exprEval : Expr R → Exec (JsonNode R × Expr R)
  | .jvalue p => .ok (p,.jvalue p)
  | .dot pLeft zId => do
    let (pBase,pLeft) ← I.xjd1ExprEval ctx pLeft
    .ok (getProperty pBase zId,.dot pLeft zId)
  | .bi eType pLeft pRight => exprEvalBi I ctx eType pLeft pRight
  | .tri pTest pIfTrue pIfFalse => do
    let (b,pTest) ← xjd1ExprTrue I ctx pTest
    if b then do
      let (v,pIfTrue) ← I.xjd1ExprEval ctx pIfTrue
      .ok (v,.tri pTest pIfTrue pIfFalse)
    else do
      let (v,pIfFalse) ← I.xjd1ExprEval ctx pIfFalse
      .ok (v,.tri pTest pIfTrue pIfFalse)
  | .id zId pQuery iDatasrc =>
    match pQuery, ctx.pDoc with
    | some k, .select => match ctx.frames[k]? with
      | some f => do
        let v ← f.doc iDatasrc
        .ok (v,.id zId pQuery iDatasrc)
      | none => .stop .undefined
    | none, .doc pDoc => .ok (pDoc,.id zId pQuery iDatasrc)
    | _, _ => .stop .assertFail
  | .struct st => do
    let (vs,st) ← evalItems I ctx st
    .ok (structValue st vs,.struct st)
  | .array ar => do
    let (vs,ar) ← evalItems I ctx ar
    .ok (.array vs,.array ar)
  | .func pFunction args iAgg => xjd1FunctionEval I ctx pFunction args iAgg
  | .subq p => do
    let (rc,p) ← I.xjd1QueryStep ctx p
    match rc with
    | .row => do
      let (v,p) ← I.xjd1QueryDoc ctx p 0
      .ok (v,.subq (xjd1QueryRewind p))
    | .done => .ok (.null,.subq (xjd1QueryRewind p))

def aggExprStep (a : AggExpr R) : Exec (AggExpr R × Bool) := do
  let (vs,args) ← evalItems I ctx a.args
  let (c,save) ← xStep a.pFunction vs a.pAggCtx
  .ok ({ a with args := args, pAggCtx := c },save)

/-- `xjd1AggregateStep`; the flag tells whether any call asks for the row to be saved. -/
def xjd1AggregateStep : List (AggExpr R) → Exec (List (AggExpr R) × Bool)
  | [] => .ok ([],false)
  | a::pAgg => do
    let (a,save) ← aggExprStep I ctx a
    let (pAgg,save') ← xjd1AggregateStep pAgg
    .ok (a::pAgg,save || save')

def xjd1AggregateFinalize (pAgg : List (AggExpr R)) : List (AggExpr R) :=
  pAgg.map fun a => { a with pValue := xFinal a.pFunction a.pAggCtx, pAggCtx := .null }

end Eval

theorem evalItems_length {I : Interp R} {ctx : Ctx R} {es es' : List (ExprItem R)} {vs : List (JsonNode R)}
    (h : evalItems I ctx es = .ok (vs,es')) : vs.length = es.length := by
  induction es generalizing vs es' with
  | nil =>
    cases h
    rfl
  | cons e es ih =>
    obtain ⟨⟨v,e1⟩,_,h⟩ := Run.bind_eq_ok.mp h
    obtain ⟨⟨ws,es1⟩,h1,h⟩ := Run.bind_eq_ok.mp h
    cases h
    rw [List.length_cons,List.length_cons,ih h1]

end Xjd1
