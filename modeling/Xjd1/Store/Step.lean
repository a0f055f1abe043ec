import Xjd1.Store.Sqlite
import Xjd1.Update.Revise

/-! Statements that are stepped: what `xjd1_stmt_step` does with the database. -/
namespace Xjd1

open Fueled KeyedRows

variable {R σ : Type}

structure UpdateCmd (R : Type) where
  zName : Bytes
  pWhere : Option (Expr R)
  pChng : List (Expr R × Expr R)
  pUpsert : Option (Expr R)

inductive Stmt (R : Type)
  | createCollection (ifExists : Bool) (zName : Bytes)
  | dropCollection (ifExists : Bool) (zName : Bytes)
  | insertValue (zName : Bytes) (pValue : Expr R)
  | insertSelect (zName : Bytes) (pQuery : Query R)
  | select (pQuery : Query R)
  | delete (zName : Bytes) (pWhere : Option (Expr R))
  | update (c : UpdateCmd R)

inductive StepRc
  | ok | error | row | done
  deriving DecidableEq, Repr

structure Conn (σ : Type) where
  db : σ
  errCode : StepRc
  errMsg : Bytes

/-- `xjd1Error` with the format `"%s"` and `XJD1_ERROR`; nothing ever sets `appendErr`. -/
def xjd1Error (zErr : Bytes) (pConn : Conn σ) : Conn σ := { pConn with errCode := .error, errMsg := zErr }

def insertSelectError : Bytes :=
  "INSERT INTO ... SELECT not yet implemented".toList.map ch

mutual
/-- Whether a cursor is at a row. Those in expressions are not: an evaluation rewinds them. -/
def DataSrc.atRow : DataSrc R → Bool
  | .comma _ pLeft pRight => pLeft.atRow || pRight.atRow
  | .subq _ _ q => q.atRow
  | .tab _ _ _ pStmt => pStmt != 0
  | .flatten _ pNext _ _ _ _ => pNext.atRow
  | .path _ _ _ _ _ => false
  | .null _ => false

def Query.atRow : Query R → Bool
  | ⟨.simple ⟨_,_,pFrom,_,_,_,_,_,_⟩,_,_,_,_,_,_,_⟩ => pFrom.atRow
  | ⟨.compound ⟨_,pLeft,pRight,_,_,_,_⟩,_,_,_,_,_,_,_⟩ => pLeft.atRow || pRight.atRow
end

/-- Whether a cursor that is at a row is left when the source is closed, which reaches none
in a join or a subquery. -/
def DataSrc.leavesRow : DataSrc R → Bool
  | .comma bStart pLeft pRight => (DataSrc.comma bStart pLeft pRight).atRow
  | .subq _ _ q => q.atRow
  | .flatten _ pNext _ _ _ _ => pNext.leavesRow
  | .tab _ _ _ _ | .path _ _ _ _ _ | .null _ => false

def Query.leavesRow : Query R → Bool
  | ⟨.simple s,_,_,_,_,_,_,_⟩ => s.pFrom.leavesRow
  | ⟨.compound ⟨_,pLeft,pRight,_,_,_,_⟩,_,_,_,_,_,_,_⟩ => pLeft.leavesRow || pRight.leavesRow

/-- The same for the other commands, where all cursors have been rewound or finalised. -/
def Stmt.leavesRow : Stmt R → Bool
  | .select pQuery => pQuery.leavesRow
  | _ => false

section Code
variable [Sqlite σ]

def dbTexts (s : σ) (zName : Bytes) : List Bytes := ((table s zName).getD []).map Prod.snd

def stmtCtx (s : σ) (pDoc : StmtDoc R) : Ctx R := ⟨[],pDoc,dbTexts s⟩

/-- `sqlite3_step` of a cursor that was last at the row `last`. -/
def cursorStep (s : σ) (zName : Bytes) (last : Option Int) : Option (Int × Bytes) := next ((table s zName).getD []) last

variable [CDouble R] (I : Interp R) (n : ℕ)

def deleteTurn (zName : Bytes) (x : Option Int × Expr R × σ) : Exec ((Expr R × σ) ⊕ (Option Int × Expr R × σ)) :=
  let (last,pWhere,s) := x
  match cursorStep s zName last with
  | none => .ok (.inl (pWhere,s))
  | some (rowid,zJson) => do
    let (b,pWhere) ← xjd1ExprTrue I (stmtCtx s (.doc (xjd1JsonParse zJson))) pWhere
    .ok (.inr (some rowid,pWhere,if b then noteRow rowid s else s))

def xjd1DeleteStep (zName : Bytes) (pWhere : Option (Expr R)) (s : σ) : Exec (Option (Expr R) × σ) :=
  match pWhere with
  | none => .ok (none,deleteFrom zName s)
  | some pWhere => do
    let s := beginDelete s
    let (pWhere,s) ← if (table s zName).isSome then Run.loop (deleteTurn I zName) n (none,pWhere,s) else .ok (pWhere,s)
    .ok (some pWhere,deleteNoted zName s)

def testRow (ctx : Ctx R) : Option (Expr R) → Exec (Bool × Option (Expr R))
  | none => .ok (true,none)
  | some pWhere => do
    let (b,pWhere) ← xjd1ExprTrue I ctx pWhere
    .ok (b,some pWhere)

/-- The changes of a row, one after the other. No right side may show a node of the document or
of a literal below a new one: the code would write into it. -/
def reviseFields (ctx : Ctx R) : JsonNode R → List (Expr R × Expr R) → Exec (JsonNode R × List (Expr R × Expr R))
  | pDoc, [] => .ok (pDoc,[])
  | pDoc, c::pChng => do
    let (pDoc,pLvalue,pValue) ← reviseOneField I ctx pDoc c.1 c.2
    let (pDoc,pChng) ← reviseFields ctx pDoc pChng
    .ok (pDoc,(pLvalue,pValue)::pChng)

def updateTurn (x : Option Int × UpdateCmd R × ℕ × σ) :
    Exec ((UpdateCmd R × ℕ × σ) ⊕ (Option Int × UpdateCmd R × ℕ × σ)) :=
  let (last,c,nUpdate,s) := x
  match cursorStep s c.zName last with
  | none => .ok (.inl (c,nUpdate,s))
  | some (rowid,zJson) => do
    let pDoc := xjd1JsonParse zJson
    let ctx := stmtCtx s (.doc pDoc)
    let (b,pWhere) ← testRow I ctx c.pWhere
    let c := { c with pWhere := pWhere }
    if b then do
      let (pNewDoc,pChng) ← reviseFields I ctx pDoc c.pChng
      .ok (.inr (some rowid,{ c with pChng := pChng },nUpdate + 1,replaceRow c.zName rowid (xjd1JsonRender pNewDoc) s))
    else .ok (.inr (some rowid,c,nUpdate,s))

def upsertStep (c : UpdateCmd R) (pUpsert : Expr R) (nUpdate : ℕ) (s : σ) : Exec (UpdateCmd R × σ) :=
  if nUpdate = 0 then do
    let (pToIns,pUpsert) ← I.xjd1ExprEval (stmtCtx s (.doc .nullptr)) pUpsert
    .ok ({ c with pUpsert := some pUpsert },commitUpsert (insertInto c.zName (xjd1JsonRender pToIns) s).2)
  else .ok (c,commitUpsert s)

/-- `xjd1UpdateStep`, where the right sides are unshared. -/
def xjd1UpdateStep (c : UpdateCmd R) (s : σ) : Exec (UpdateCmd R × σ) := do
  let s := if c.pUpsert.isSome then beginUpsert s else s
  let (c,nUpdate,s) ← if (table s c.zName).isSome then Run.loop (updateTurn I) n (none,c,0,s) else .ok (c,0,s)
  match c.pUpsert with
  | none => .ok (c,s)
  | some pUpsert => upsertStep I c pUpsert nUpdate s

def reportStep (r : Option Bytes × σ) (pConn : Conn σ) : StepRc × Conn σ :=
  match r.1 with
  | none => (.done,{ pConn with db := r.2 })
  | some zErr => (.error,xjd1Error zErr { pConn with db := r.2 })

/-- `xjd1_stmt_step`, with the value of a row that it returns. -/
def xjd1StmtStep (pStmt : Stmt R) (pConn : Conn σ) : Exec (StepRc × Option Bytes × Stmt R × Conn σ) :=
  match pStmt with
  | .createCollection ifExists zName =>
    let (rc,pConn) := reportStep (createTable ifExists zName pConn.db) pConn
    .ok (rc,none,pStmt,pConn)
  | .dropCollection ifExists zName =>
    let (rc,pConn) := reportStep (dropTable ifExists zName pConn.db) pConn
    .ok (rc,none,pStmt,pConn)
  | .insertSelect _ _ => .ok (.done,none,pStmt,xjd1Error insertSelectError pConn)
  | .insertValue zName pValue => do
    let (pNode,pValue) ← I.xjd1ExprEval (stmtCtx pConn.db .insert) pValue
    match pNode with
    | .nullptr => .ok (.done,none,.insertValue zName pValue,pConn)
    | pNode =>
      let (rc,pConn) := reportStep (insertInto zName (xjd1JsonRender pNode) pConn.db) pConn
      .ok (rc,none,.insertValue zName pValue,pConn)
  | .select pQuery => do
    let (rc,pQuery) ← I.xjd1QueryStep (stmtCtx pConn.db .select) pQuery
    match rc with
    | .row => do
      let (pValue,pQuery) ← I.xjd1QueryDoc (stmtCtx pConn.db .select) pQuery 0
      .ok (.row,some (xjd1JsonRender pValue),.select pQuery,pConn)
    | .done => .ok (.done,none,.select pQuery,pConn)
  | .delete zName pWhere => do
    let (pWhere,s) ← xjd1DeleteStep I n zName pWhere pConn.db
    .ok (.ok,none,.delete zName pWhere,{ pConn with db := s })
  | .update c => do
    let (c,s) ← xjd1UpdateStep I n c pConn.db
    .ok (.ok,none,.update c,{ pConn with db := s })

/-- `xjd1_stmt_delete`, as far as the database goes. -/
def stmtDelete (pStmt : Stmt R) (pConn : Conn σ) : Conn σ :=
  if pStmt.leavesRow then { pConn with db := leaveRow pConn.db } else pConn

/-- One turn of the loop of `processOneStatement`, with the values of the rows so far. -/
def processTurn (x : List Bytes × Stmt R × Conn σ) :
    Exec ((List Bytes × StepRc × Stmt R × Conn σ) ⊕ (List Bytes × Stmt R × Conn σ)) := do
  let (zOut,pStmt,pConn) := x
  let (rc,zValue,pStmt,pConn) ← xjd1StmtStep I n pStmt pConn
  match rc with
  | .row => .ok (.inr (zOut ++ zValue.toList,pStmt,pConn))
  | rc => .ok (.inl (zOut,rc,pStmt,pConn))

/-- `processOneStatement`, once the statement is prepared. -/
def processOneStatement (pStmt : Stmt R) (pConn : Conn σ) : Exec (List Bytes × StepRc × Conn σ) := do
  let (zOut,rc,pStmt,pConn) ← Run.loop (processTurn I n) n ([],pStmt,pConn)
  .ok (zOut,rc,stmtDelete pStmt pConn)

def processStatements : List (Stmt R) → Conn σ → Exec (List (List Bytes × StepRc) × Conn σ)
  | [], pConn => .ok ([],pConn)
  | pStmt::ps, pConn => do
    let (zOut,rc,pConn) ← processOneStatement I n pStmt pConn
    let (outs,pConn) ← processStatements ps pConn
    .ok ((zOut,rc)::outs,pConn)

end Code

end Xjd1
