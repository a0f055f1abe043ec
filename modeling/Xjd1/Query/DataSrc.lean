import Xjd1.Query.Eval

/-! Data sources: tables, subqueries, joins, paths and the FLATTEN and EACH operators. -/
namespace Xjd1

open Fueled

variable {R : Type} [CDouble R]

def findStructElem (pVal : JsonNode R) : Expr R → Option (JsonNode R)
  | .dot pLeft zId => match findStructElem pVal pLeft with
    | some (.struct ms) => lookup ms zId
    | _ => none
  | .id zId _ _ => match pVal with
    | .struct ms => lookup ms zId
    | _ => none
  | _ => none

def editMember (zAs : Bytes) (f : JsonNode R → Option (JsonNode R)) :
    List (Bytes × JsonNode R) → Option (List (Bytes × JsonNode R))
  | [] => (f .nullptr).map fun v => [(zAs,v)]
  | (k,v)::ms =>
    if k = zAs then (f v).map fun v => (k,v)::ms
    else (editMember zAs f ms).map fun ms => (k,v)::ms

def editStructElem (pVal : JsonNode R) (f : JsonNode R → Option (JsonNode R)) :
    Expr R → Option (JsonNode R)
  | .dot pLeft zId => editStructElem pVal (fun
    | .struct ms => (editMember zId f ms).map .struct
    | _ => none) pLeft
  | .id zId _ _ => match pVal with
    | .struct ms => (editMember zId f ms).map .struct
    | _ => none
  | _ => none

def memberAt (pVal : JsonNode R) (i : ℕ) : Exec (Option (JsonNode R × JsonNode R)) :=
  match pVal with
  | .struct ms => .ok (ms[i]?.map fun m => (.string m.1,m.2))
  | .array vs => .ok (vs[i]?.map fun v => (.real (CDouble.ofInt i),v))
  | .nullptr => .stop .nullNode
  | _ => .stop .assertFail

def isContainer : JsonNode R → Exec Bool
  | .struct _ | .array _ => .ok true
  | .nullptr => .stop .nullNode
  | _ => .ok false

def flattenIterNew (pBase : JsonNode R) (pPath : Expr R) (isRecursive : Bool) :
    Exec (Option (FlattenIter R)) :=
  match findStructElem pBase pPath with
  | none => .ok none
  | some pVal => do
    if ← isContainer pVal then .ok (some ⟨isRecursive,[⟨pVal,0⟩]⟩) else .ok none

def flattenIterTurn (it : FlattenIter R) : Exec ((Rc × FlattenIter R) ⊕ FlattenIter R) :=
  match it.aIter with
  | [] => .ok (.inl (.done,it))
  | p::rest => do
    match ← memberAt p.pVal p.pos with
    | none => .ok (.inr { it with aIter := rest })
    | some (_,v) =>
      if it.isRecursive then do
        if ← isContainer v then
          .ok (.inr { it with aIter := ⟨v,0⟩::⟨p.pVal,p.pos+1⟩::rest })
        else .ok (.inl (.row,{ it with aIter := ⟨p.pVal,p.pos+1⟩::rest }))
      else .ok (.inl (.row,{ it with aIter := ⟨p.pVal,p.pos+1⟩::rest }))

def flattenIterNext (n : ℕ) : Option (FlattenIter R) → Exec (Rc × Option (FlattenIter R))
  | none => .ok (.done,none)
  | some it => do
    let (rc,it) ← Run.loop flattenIterTurn n it
    .ok (rc,some it)

def currentMember (p : FlattenIterElem R) : Exec (JsonNode R × JsonNode R) :=
  match p.pos with
  | 0 => .stop .undefined
  | i+1 => do
    let m ← memberAt p.pVal i
    Run.ofOption .undefined m

def currentKeys : List (FlattenIterElem R) → Exec (List (JsonNode R))
  | [] => .ok []
  | p::rest => do
    let keys ← currentKeys rest
    let m ← currentMember p
    .ok (keys ++ [m.1])

/-- `flattenIterEntry`: FLATTEN has the list of keys on the way down as its key. -/
def flattenIterEntry (it : FlattenIter R) : Exec (JsonNode R × JsonNode R) :=
  match it.aIter with
  | [] => .stop .undefined
  | p::rest => do
    let m ← currentMember p
    if it.isRecursive then do
      let keys ← currentKeys (p::rest)
      .ok (.array keys,m.2)
    else .ok m

def flattenedObject (pBase pKey pValue : JsonNode R) (pPath : Expr R) : Exec (JsonNode R) :=
  Run.ofOption .nullNode
    (editStructElem pBase (fun _ => some (.struct [([ch 'k'],pKey),([ch 'v'],pValue)])) pPath)

section Step
variable (I : Interp R) (n : ℕ) (ctx : Ctx R)

def flattenTurn (cOpName : UInt8) (pExpr : Expr R) (s : DataSrc R × Option (FlattenIter R)) :
    Exec ((Rc × DataSrc R × Option (FlattenIter R)) ⊕ (DataSrc R × Option (FlattenIter R))) := do
  let (rc,pIter) ← flattenIterNext n s.2
  match rc with
  | .row => .ok (.inl (.row,s.1,pIter))
  | .done => do
    let (rc,pNext) ← I.xjd1DataSrcStep ctx s.1
    match rc with
    | .done => .ok (.inl (.done,pNext,none))
    | .row => do
      let pIter ← flattenIterNew pNext.pValue pExpr (cOpName = ch 'F')
      .ok (.inr (pNext,pIter))

def joinStep (pLeft pRight : DataSrc R) : Exec (Rc × DataSrc R) := do
  let (rc,pRight) ← I.xjd1DataSrcStep ctx pRight
  match rc with
  | .row => .ok (.row,.comma true pLeft pRight)
  | .done => do
    let (rc,pLeft) ← I.xjd1DataSrcStep ctx pLeft
    match rc with
    | .done => .ok (.done,.comma true pLeft pRight)
    | .row => do
      let (rc,pRight) ← I.xjd1DataSrcStep ctx (xjd1DataSrcRewind pRight)
      .ok (rc,.comma true pLeft pRight)

def pathArray (pPath : Expr R) (pArray : JsonNode R) : Exec (JsonNode R × Expr R) :=
  match pArray with
  | .nullptr => I.xjd1ExprEval ctx pPath
  | v => .ok (v,pPath)

/-- `xjd1DataSrcStep`. A table's cursor starts over when it is stepped past its end. -/
def dataSrcStep : DataSrc R → Exec (Rc × DataSrc R)
  | .comma bStart pLeft pRight =>
    if bStart then joinStep I ctx pLeft pRight
    else do
      let (rc,pLeft) ← I.xjd1DataSrcStep ctx pLeft
      match rc with
      | .row => joinStep I ctx pLeft pRight
      | .done => .ok (.done,.comma true pLeft pRight)
  | .subq zAs _ q => do
    let (rc,q) ← I.xjd1QueryStep ctx.top q
    let (pValue,q) ← I.xjd1QueryDoc ctx.top q 0
    .ok (rc,.subq zAs pValue q)
  | .tab zAs _ zName pStmt => match (ctx.db zName)[pStmt]? with
    | some zJson => .ok (.row,.tab zAs (xjd1JsonParse zJson) zName (pStmt+1))
    | none => .ok (.done,.tab zAs .nullptr zName 0)
  | .flatten _ pNext cOpName pExpr pAs pIter => do
    let (rc,pNext,pIter) ← Run.loop (flattenTurn I n ctx cOpName pExpr) n (pNext,pIter)
    match rc, pIter with
    | .row, some it => do
      let (pKey,pValue) ← flattenIterEntry it
      let pValue ← flattenedObject pNext.pValue pKey pValue pAs
      .ok (.row,.flatten pValue pNext cOpName pExpr pAs pIter)
    | .row, none => .stop .undefined
    | .done, _ => .ok (.done,.flatten .nullptr pNext cOpName pExpr pAs pIter)
  | .path zAs _ pPath pArray iNext => do
    let (pArray,pPath) ← pathArray I ctx pPath pArray
    match pArray with
    | .array apElem => match apElem[iNext]? with
      | some v => .ok (.row,.path zAs v pPath pArray (iNext+1))
      | none => .ok (.done,.path zAs .nullptr pPath pArray iNext)
    | _ => .ok (.done,.path zAs .nullptr pPath pArray iNext)
  | .null isDone => .ok (if isDone then .done else .row,.null true)

end Step

/-- The current documents from left to right, as `xjd1DataSrcCacheSave` stores them. -/
def xjd1DataSrcCacheSave : DataSrc R → List (JsonNode R)
  | .comma _ pLeft pRight => xjd1DataSrcCacheSave pLeft ++ xjd1DataSrcCacheSave pRight
  | p => [p.pValue]

def xjd1DataSrcCount : DataSrc R → ℕ
  | .comma _ pLeft pRight => xjd1DataSrcCount pLeft + xjd1DataSrcCount pRight
  | _ => 1

def datasrcReadRecursive (iDoc : ℕ) : DataSrc R → ℕ → JsonNode R × ℕ
  | .comma _ pLeft pRight, iEntry =>
    match datasrcReadRecursive iDoc pLeft iEntry with
    | (.nullptr,iEntry) => datasrcReadRecursive iDoc pRight iEntry
    | r => r
  | p, iEntry => (if iEntry = iDoc then p.pValue else .nullptr,iEntry+1)

def xjd1DataSrcRead (p : DataSrc R) (iDoc : ℕ) : JsonNode R := (datasrcReadRecursive iDoc p 1).1

end Xjd1
