import Xjd1.Json.Node

/-! A prepared query: expressions, data sources and queries with the state that
stepping changes kept in place, as the structs of `xjd1Int.h` keep it. -/
namespace Xjd1

inductive BiOp
  | lb | and | or | eqeq | ne | lt | le | gt | ge | eq3 | ne3 | like
  | plus | minus | star | slash | bang
  | rem | rshift | lshift | urshift | bitand | bitor | bitxor | bitnot
  | inOp | within
  deriving DecidableEq, Repr

inductive Function
  | length | count | min | max | array | sum | avg
  deriving DecidableEq, Repr

/-- What an aggregate's `pAggCtx` points to; `null` is the null pointer. -/
inductive AggCtx (R : Type)
  | null
  | count (n : Int)
  | node (p : JsonNode R)
  | avg (nRow : Int) (rSum : R)

inductive DocFrom
  | datasrc | grouped | distincted | ordered
  deriving DecidableEq, Repr

inductive CompoundOp
  | union | all | intersect | except
  deriving DecidableEq, Repr

structure ResultItem (R : Type) where
  apKey : List (JsonNode R)

/-- A list of sorted results. The pool is kept as the fact that there is one. -/
structure ResultList (R : Type) where
  pPool : Bool
  nKey : ℕ
  pSaved : Option (ResultItem R)
  pItem : List (ResultItem R)

def ResultList.empty {R : Type} : ResultList R := ⟨false,0,none,[]⟩

structure FlattenIterElem (R : Type) where
  pVal : JsonNode R
  pos : ℕ

structure FlattenIter (R : Type) where
  isRecursive : Bool
  aIter : List (FlattenIterElem R)

mutual
structure ExprItem (R : Type) where
  zAs : Option Bytes
  pExpr : Expr R

/-- An expression. An identifier names the query it reads by its distance among
the queries around it, or reads the statement's document if there is none. -/
inductive Expr (R : Type)
  | jvalue (p : JsonNode R)
  | dot (pLeft : Expr R) (zId : Bytes)
  | bi (eType : BiOp) (pLeft : Expr R) (pRight : Option (Expr R))
  | tri (pTest pIfTrue pIfFalse : Expr R)
  | id (zId : Bytes) (pQuery : Option ℕ) (iDatasrc : ℕ)
  | struct (st : List (ExprItem R))
  | array (ar : List (ExprItem R))
  | func (pFunction : Function) (args : List (ExprItem R)) (iAgg : ℕ)
  | subq (p : Query R)

/-- An aggregate call of a query, with the function and arguments of its `pExpr`. -/
structure AggExpr (R : Type) where
  pFunction : Function
  args : List (ExprItem R)
  pValue : JsonNode R
  pAggCtx : AggCtx R

/-- A term of a FROM clause. A table keeps the number of rows its cursor has passed. -/
inductive DataSrc (R : Type)
  | comma (bStart : Bool) (pLeft pRight : DataSrc R)
  | subq (zAs : Option Bytes) (pValue : JsonNode R) (q : Query R)
  | tab (zAs : Option Bytes) (pValue : JsonNode R) (zName : Bytes) (pStmt : ℕ)
  | flatten (pValue : JsonNode R) (pNext : DataSrc R) (cOpName : UInt8) (pExpr pAs : Expr R)
      (pIter : Option (FlattenIter R))
  | path (zAs : Option Bytes) (pValue : JsonNode R) (pPath : Expr R) (pArray : JsonNode R) (iNext : ℕ)
  | null (isDone : Bool)

structure SimpleQuery (R : Type) where
  isDistinct : Bool
  pRes : Option (Expr R)
  pFrom : DataSrc R
  pWhere : Option (Expr R)
  pGroupBy : Option (List (ExprItem R))
  pHaving : Option (Expr R)
  pAgg : Option (List (AggExpr R))
  grouped : ResultList R
  distincted : ResultList R

structure CompoundQuery (R : Type) where
  eQType : CompoundOp
  pLeft : Query R
  pRight : Query R
  doneLeft : Bool
  left : ResultList R
  right : ResultList R
  pOut : JsonNode R

inductive QueryU (R : Type)
  | simple (s : SimpleQuery R)
  | compound (c : CompoundQuery R)

/-- A query. `nLimit` has a value once `bLimitValid` is set. -/
structure Query (R : Type) where
  u : QueryU R
  zAs : Option Bytes
  pOrderBy : Option (List (ExprItem R))
  pLimit : Option (Expr R)
  pOffset : Option (Expr R)
  eDocFrom : DocFrom
  ordered : ResultList R
  nLimit : Option Int
end

variable {R : Type}

def DataSrc.pValue : DataSrc R → JsonNode R
  | .comma .. => .nullptr
  | .subq _ pValue _ => pValue
  | .tab _ pValue _ _ => pValue
  | .flatten pValue _ _ _ _ _ => pValue
  | .path _ pValue _ _ _ => pValue
  | .null _ => .nullptr

def AggExpr.clear (a : AggExpr R) : AggExpr R := { a with pValue := .nullptr, pAggCtx := .null }

mutual
def xjd1DataSrcRewind : DataSrc R → DataSrc R
  | .comma _ pLeft pRight => .comma false (xjd1DataSrcRewind pLeft) (xjd1DataSrcRewind pRight)
  | .subq zAs _ q => .subq zAs .nullptr (xjd1QueryRewind q)
  | .tab zAs _ zName _ => .tab zAs .nullptr zName 0
  | .flatten _ pNext cOpName pExpr pAs _ =>
    .flatten .nullptr (xjd1DataSrcRewind pNext) cOpName pExpr pAs none
  | .path zAs _ pPath _ _ => .path zAs .nullptr pPath .nullptr 0
  | .null _ => .null false

def simpleRewind : SimpleQuery R → SimpleQuery R
  | ⟨isDistinct,pRes,pFrom,pWhere,pGroupBy,pHaving,pAgg,_,_⟩ =>
    ⟨isDistinct,pRes,xjd1DataSrcRewind pFrom,pWhere,pGroupBy,pHaving,pAgg.map (List.map AggExpr.clear),
      .empty,.empty⟩

def compoundRewind : CompoundQuery R → CompoundQuery R
  | ⟨eQType,pLeft,pRight,_,_,_,_⟩ =>
    ⟨eQType,xjd1QueryRewind pLeft,xjd1QueryRewind pRight,false,.empty,.empty,.nullptr⟩

def queryURewind : QueryU R → QueryU R
  | .simple s => .simple (simpleRewind s)
  | .compound c => .compound (compoundRewind c)

def xjd1QueryRewind : Query R → Query R
  | ⟨u,zAs,pOrderBy,pLimit,pOffset,_,_,_⟩ =>
    ⟨queryURewind u,zAs,pOrderBy,pLimit,pOffset,.datasrc,.empty,none⟩
end

end Xjd1
