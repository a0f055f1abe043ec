import Xjd1.Query.Syntax

/-! The tree of a statement as the parser builds it. The fields that `xjd1_stmt_new`
sets are kept in place: in the tree of the parser they are zero. -/
namespace Xjd1
namespace Parsed

/-- What an identifier is bound to: a query, given by the number of queries around
it, and one of its sources, or 0 for its result; or the document of the statement. -/
structure Binding where
  pQuery : Option ℕ
  iDatasrc : ℕ
  deriving DecidableEq, Repr

structure Ident where
  zId : Bytes
  pStmt : Bool
  bound : Option Binding
  deriving DecidableEq, Repr

inductive Path
  | id (p : Ident)
  | dot (pLeft : Path) (zId : Bytes)
  deriving DecidableEq, Repr

mutual
inductive Expr
  | nullptr
  | jvalue
  | dot (pLeft : Expr) (zId : Bytes)
  | bi (eType : BiOp) (pLeft pRight : Expr)
  | tri (pTest pIfTrue pIfFalse : Expr)
  | id (p : Ident)
  | struct (st : List Expr)
  | array (ar : List Expr)
  | func (zFName : Bytes) (args : List Expr) (pFunction : Option Function) (iAgg : ℕ)
  | subq (p : Query)

inductive DataSrc
  | comma (pLeft pRight : DataSrc)
  | subq (zAs : Option Bytes) (q : Query)
  | tab (zAs : Option Bytes) (zName : Bytes) (pStmt : Option ℕ)
  | flatten (pNext : DataSrc)
  | path (zAs : Option Bytes) (pPath : Path)
  | null

/-- A query. A list of expressions is empty also where the C pointer is null, and
`pAgg` is the number of its aggregate calls. -/
inductive Query
  | simple (pStmt : Bool) (pRes : Expr) (pFrom : DataSrc) (pWhere : Expr) (pGroupBy : List Expr) (pHaving : Expr)
      (pAgg : Option ℕ) (zAs : Option Bytes) (pOrderBy : List Expr) (pLimit pOffset : Expr)
  | compound (pStmt : Bool) (eQType : CompoundOp) (pLeft pRight : Query) (zAs : Option Bytes)
      (pOrderBy : List Expr) (pLimit pOffset : Expr)
end

/-- The commands with expressions or queries in them that are evaluated. -/
inductive Command
  | select (pQuery : Query)
  | insertValue (zName : Bytes) (pValue : Expr)
  | insertSelect (zName : Bytes) (pQuery : Query)
  | delete (zName : Bytes) (pWhere : Expr)
  | update (zName : Bytes) (pWhere : Expr) (pChng : List Expr) (pUpsert : Expr)
  | other

def isNamed (zAs : Option Bytes) (zName : Option Bytes) (zDocname : Bytes) : Bool :=
  zAs == some zDocname || (zAs == none && zName == some zDocname)

/-- `datasrcResolveRecursive`: the entry that has the name, or 0, and the number of
the next entry. -/
def datasrcResolveRecursive (zDocname : Bytes) : DataSrc → ℕ → ℕ × ℕ
  | .comma pLeft pRight, iEntry =>
    let (ret,iEntry) := datasrcResolveRecursive zDocname pLeft iEntry
    if ret = 0 then datasrcResolveRecursive zDocname pRight iEntry else (ret,iEntry)
  | .flatten pNext, iEntry => datasrcResolveRecursive zDocname pNext iEntry
  | .tab zAs zName _, iEntry => (if isNamed zAs (some zName) zDocname then iEntry else 0,iEntry+1)
  | .subq zAs _, iEntry => (if isNamed zAs none zDocname then iEntry else 0,iEntry+1)
  | .path zAs _, iEntry => (if isNamed zAs none zDocname then iEntry else 0,iEntry+1)
  | .null, iEntry => (0,iEntry+1)

def xjd1DataSrcResolve (p : DataSrc) (zDocname : Bytes) : ℕ := (datasrcResolveRecursive zDocname p 1).1

end Parsed
end Xjd1
