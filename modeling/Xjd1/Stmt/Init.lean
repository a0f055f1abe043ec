import Xjd1.Stmt.Command

/-! Initialising a statement: the walks of `xjd1ExprInit`, `xjd1QueryInit` and
`xjd1DataSrcInit` over its tree. What an identifier is bound to is a parameter. -/
namespace Xjd1
namespace Parsed

inductive Clause
  | result | where | groupBy | having | orderBy | limit | offset
  deriving DecidableEq, Repr

/-- What resolving a name reads of a query and of the role of the expression in it.
A compound query has no FROM clause. -/
structure Scope where
  level : ℕ
  pFrom : Option DataSrc
  zAs : Option Bytes
  pAgg : Bool
  eExpr : Clause

/-- A `ResolveCtx` and its parents, innermost first; one without a query is `none`. -/
abbrev ResolveCtx := List (Option Scope)

inductive Resolution
  | bound (b : Binding)
  | noSuchObject
  | assertFail
  deriving DecidableEq, Repr

/-- The errors that initialising reports. -/
inductive InitError
  | noSuchObject (zDoc : Bytes)
  | noSuchFunction (zName : Bytes)
  | wrongNumArgs (zName : Bytes)
  | illegalAggregate (zName : Bytes)
  deriving DecidableEq, Repr

/-- The errors of the statement, the cursors opened so far, and `pAgg` of the query
that the walk is in. `names` are the names resolved so far. -/
structure InitState where
  errors : List InitError
  opened : List ℕ
  pAgg : Option ℕ
  names : List (ResolveCtx × Bytes × Resolution)

/-- A step of the walk; no result means that an assertion failed. -/
def InitM (α : Type) := InitState → Option (α × InitState)

namespace InitM

variable {α β : Type}

def ret (a : α) : InitM α := fun s => some (a,s)
def andThen (x : InitM α) (f : α → InitM β) : InitM β := fun s => (x s).bind fun r => f r.1 r.2

instance : Monad InitM where
  pure := ret
  bind := andThen

theorem bind_eq_some {x : InitM α} {f : α → InitM β} {s : InitState} {r : β × InitState} :
    (x >>= f) s = some r ↔ ∃ a t, x s = some (a,t) ∧ f a t = some r := by
  constructor
  · intro h
    obtain ⟨⟨a,t⟩,hx,hf⟩ := Option.bind_eq_some_iff.mp h
    exact ⟨a,t,hx,hf⟩
  · rintro ⟨a,t,hx,hf⟩
    exact Option.bind_eq_some_iff.mpr ⟨(a,t),hx,hf⟩

end InitM

def stmtError (e : InitError) : InitM Unit := fun s => some ((),{ s with errors := s.errors ++ [e] })

def ifOk {α : Type} (rc : Bool) (a : α) (x : InitM (Bool × α)) : InitM (Bool × α) :=
  if rc then x else pure (false,a)

structure FuncRow where
  nMinArg : ℕ
  nMaxArg : ℕ
  zName : Bytes
  pFunction : Function

def aFunc : List FuncRow :=
  [⟨1,1,[108,101,110,103,116,104],.length⟩,⟨0,1,[99,111,117,110,116],.count⟩,⟨1,1,[109,105,110],.min⟩,
    ⟨1,1,[109,97,120],.max⟩,⟨1,1,[97,114,114,97,121],.array⟩,⟨1,1,[115,117,109],.sum⟩,⟨1,1,[97,118,103],.avg⟩]

def isAggregate : Function → Bool
  | .length => false
  | _ => true

def aggOk : ResolveCtx → Bool
  | some s::_ => s.pFrom.isSome && (s.eExpr == .result || s.eExpr == .groupBy || s.eExpr == .having || s.eExpr == .orderBy)
  | _ => false

/-- `xjd1AggregateInit` for a call: its number among the aggregate calls of the query. -/
def aggregateInit : InitM ℕ := fun s =>
  some (s.pAgg.getD 0,{ s with pAgg := some (s.pAgg.getD 0 + 1) })

def xjd1FunctionInit (ctx : ResolveCtx) (zName : Bytes) (nArg : ℕ) : InitM (Bool × Option Function × ℕ) :=
  match aFunc.find? fun f => f.zName == zName with
  | none => do
    stmtError (.noSuchFunction zName)
    pure (false,none,0)
  | some f =>
    if nArg ≤ f.nMaxArg ∧ f.nMinArg ≤ nArg then
      if isAggregate f.pFunction then
        if aggOk ctx then do
          let iAgg ← aggregateInit
          pure (true,some f.pFunction,iAgg)
        else do
          stmtError (.illegalAggregate zName)
          pure (false,none,0)
      else pure (true,some f.pFunction,0)
    else do
      stmtError (.wrongNumArgs zName)
      pure (false,none,0)

section Walk
variable (resolve : ResolveCtx → Bytes → Resolution) (exist : Bytes → Bool)

def identInit (ctx : ResolveCtx) (p : Ident) : InitM (Bool × Ident) := fun s =>
  let t := { s with names := s.names ++ [(ctx,p.zId,resolve ctx p.zId)] }
  match resolve ctx p.zId with
  | .bound b => some ((true,⟨p.zId,true,some b⟩),t)
  | .noSuchObject => some ((false,⟨p.zId,true,none⟩),{ t with errors := t.errors ++ [.noSuchObject p.zId] })
  | .assertFail => none

/-- `sqlite3_prepare_v2` of the query that reads a collection, which fails without
a message if there is none of the name. -/
def prepareTable (zName : Bytes) : InitM (Option ℕ) := fun s =>
  if exist zName then some (some s.opened.length,{ s with opened := s.opened ++ [s.opened.length] })
  else some (none,s)

/-- The walk over a path; the result of the first callback is the error code. -/
def pathInit (ctx : ResolveCtx) : Path → InitM (Bool × Path)
  | .id p => do
    let (rc,p) ← identInit resolve ctx p
    pure (rc,.id p)
  | .dot pLeft zId => do
    let (_,pLeft) ← pathInit ctx pLeft
    pure (true,.dot pLeft zId)

def enterQuery : InitM (Option ℕ) := fun s => some (s.pAgg,{ s with pAgg := none })

def leaveQuery (pAgg : Option ℕ) : InitM (Option ℕ) := fun s => some (s.pAgg,{ s with pAgg := pAgg })

def hasAgg : InitM Bool := fun s => some (s.pAgg.isSome,s)

/-- `xjd1AggregateInit( pStmt, p, 0 )` of a query with GROUP BY. -/
def groupAggregateInit (pGroupBy : List Expr) : InitM Unit := fun s =>
  some ((),if pGroupBy.isEmpty then s else { s with pAgg := some (s.pAgg.getD 0) })

mutual
/-- `xjd1ExprInit`: the callback at a node and then the walk over its children, whose
error codes are not looked at. -/
def xjd1ExprInit (level : ℕ) (ctx : ResolveCtx) : Expr → InitM (Bool × Expr)
  | .nullptr => pure (true,.nullptr)
  | .jvalue => pure (true,.jvalue)
  | .dot pLeft zId => do
    let (_,pLeft) ← xjd1ExprInit level ctx pLeft
    pure (true,.dot pLeft zId)
  | .bi eType pLeft pRight => do
    let (_,pLeft) ← xjd1ExprInit level ctx pLeft
    let (_,pRight) ← xjd1ExprInit level ctx pRight
    pure (true,.bi eType pLeft pRight)
  | .tri pTest pIfTrue pIfFalse => do
    let (_,pTest) ← xjd1ExprInit level ctx pTest
    let (_,pIfTrue) ← xjd1ExprInit level ctx pIfTrue
    let (_,pIfFalse) ← xjd1ExprInit level ctx pIfFalse
    pure (true,.tri pTest pIfTrue pIfFalse)
  | .id p => do
    let (rc,p) ← identInit resolve ctx p
    pure (rc,.id p)
  | .struct st => do
    let st ← xjd1ExprListInit level ctx st
    pure (true,.struct st)
  | .array ar => do
    let ar ← xjd1ExprListInit level ctx ar
    pure (true,.array ar)
  | .func zFName args _ _ => do
    let (rc,pFunction,iAgg) ← xjd1FunctionInit ctx zFName args.length
    let args ← xjd1ExprListInit level ctx args
    pure (rc,.func zFName args pFunction iAgg)
  | .subq p => do
    let (rc,p) ← xjd1QueryInit level ctx p
    pure (rc,.subq p)

def xjd1ExprListInit (level : ℕ) (ctx : ResolveCtx) : List Expr → InitM (List Expr)
  | [] => pure []
  | e::es => do
    let (_,e) ← xjd1ExprInit level ctx e
    let es ← xjd1ExprListInit level ctx es
    pure (e::es)

def xjd1DataSrcInit (level : ℕ) (outer : ResolveCtx) : DataSrc → InitM (Bool × DataSrc)
  | .comma pLeft pRight => do
    let (_,pLeft) ← xjd1DataSrcInit level outer pLeft
    let (_,pRight) ← xjd1DataSrcInit level outer pRight
    pure (true,.comma pLeft pRight)
  | .subq zAs q => do
    -- the contexts around the query are not handed on
    let (_,q) ← xjd1QueryInit level [] q
    pure (true,.subq zAs q)
  | .tab zAs zName _ => do
    let pStmt ← prepareTable exist zName
    pure (true,.tab zAs zName pStmt)
  | .flatten pNext => do
    let (_,pNext) ← xjd1DataSrcInit level outer pNext
    pure (true,.flatten pNext)
  | .path zAs pPath => do
    let (rc,pPath) ← pathInit resolve (none::outer) pPath
    pure (rc,.path zAs pPath)
  | .null => pure (true,.null)

def xjd1QueryInit (level : ℕ) (ctx : ResolveCtx) : Query → InitM (Bool × Query)
  | .simple _ pRes pFrom pWhere pGroupBy pHaving _ zAs pOrderBy pLimit pOffset => do
    let clause (eExpr : Clause) (pAgg : Bool) : ResolveCtx := some ⟨level,some pFrom,zAs,pAgg,eExpr⟩::ctx
    let outer ← enterQuery
    let (rc,pRes') ← xjd1ExprInit (level+1) (clause .result (← hasAgg)) pRes
    let (rc,pFrom') ← ifOk rc pFrom (xjd1DataSrcInit (level+1) ctx pFrom)
    let (rc,pWhere') ← ifOk rc pWhere (xjd1ExprInit (level+1) (clause .where (← hasAgg)) pWhere)
    let (rc,pGroupBy') ← ifOk rc pGroupBy do
      pure (true,← xjd1ExprListInit (level+1) (clause .groupBy (← hasAgg)) pGroupBy)
    let (rc,pHaving') ← ifOk rc pHaving (xjd1ExprInit (level+1) (clause .having (← hasAgg)) pHaving)
    let (rc,()) ← ifOk rc () do
      pure (true,← groupAggregateInit pGroupBy)
    let (rc,pOrderBy') ← ifOk rc pOrderBy do
      pure (true,← xjd1ExprListInit (level+1) (clause .orderBy (← hasAgg)) pOrderBy)
    let (rc,pLimit') ← ifOk rc pLimit (xjd1ExprInit (level+1) (clause .limit (← hasAgg)) pLimit)
    let (rc,pOffset') ← ifOk rc pOffset (xjd1ExprInit (level+1) (clause .offset (← hasAgg)) pOffset)
    let pAgg ← leaveQuery outer
    pure (rc,.simple true pRes' pFrom' pWhere' pGroupBy' pHaving' pAgg zAs pOrderBy' pLimit' pOffset')
  | .compound _ eQType pLeft pRight zAs pOrderBy pLimit pOffset => do
    let clause (eExpr : Clause) : ResolveCtx := some ⟨level,none,zAs,false,eExpr⟩::ctx
    let (rc,pLeft') ← xjd1QueryInit (level+1) ctx pLeft
    let (rc,pRight') ← ifOk rc pRight (xjd1QueryInit (level+1) ctx pRight)
    let (rc,pOrderBy') ← ifOk rc pOrderBy do
      pure (true,← xjd1ExprListInit (level+1) (clause .orderBy) pOrderBy)
    let (rc,pLimit') ← ifOk rc pLimit (xjd1ExprInit (level+1) (clause .limit) pLimit)
    let (rc,pOffset') ← ifOk rc pOffset (xjd1ExprInit (level+1) (clause .offset) pOffset)
    pure (rc,.compound true eQType pLeft' pRight' zAs pOrderBy' pLimit' pOffset')
end

end Walk

end Parsed
end Xjd1
