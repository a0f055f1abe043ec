import Mathlib.Logic.Function.Iterate
import Xjd1.Json.Convert
import Xjd1.Lib.Run
import Xjd1.Query.Syntax

/-! The operators of `expr.c` on values that have been evaluated. -/
namespace Xjd1

/-- Where a step of the engine leaves the code's intended behaviour: it reads the
head item of an empty list, reads a node through a null pointer, fails an
assertion, runs past the slots of the sorter, or does what C leaves undefined. -/
inductive Stop
  | emptyList | nullNode | assertFail | slots | undefined
  deriving DecidableEq, Repr

abbrev Exec := Fueled.Run Stop

open Fueled

variable {R : Type} [CDouble R]

def ofBool (b : Bool) : JsonNode R := if b then .true else .false

def toInt (r : R) : Exec Int := Run.ofOption .undefined (CDouble.toInt r)

def isStr : JsonNode R → Bool
  | .string _ | .array _ | .struct _ => true
  | _ => false

/-- `isTrue`. It reads the type of the value without a check for a null pointer. -/
def isTrue : JsonNode R → Exec Bool
  | .nullptr => .stop .nullNode
  | .real r => .ok !(CDouble.eq r (CDouble.ofInt 0))
  | .string z => .ok !z.isEmpty
  | .array _ | .struct _ | .true => .ok true
  | .false | .null => .ok false

def lookup (ms : List (Bytes × JsonNode R)) (zId : Bytes) : Option (JsonNode R) :=
  (ms.find? fun m => m.1 = zId).map Prod.snd

def getProperty (pStruct : JsonNode R) (zProperty : Bytes) : JsonNode R :=
  match pStruct with
  | .struct ms => match lookup ms zProperty with
    | some .nullptr | none => .null
    | some v => v
  | _ => .null

def inKey : JsonNode R → Option Bytes
  | .real r => some (CDouble.fmt6 r)
  | .string z => some z
  | _ => none

def inOperator (pA pB : JsonNode R) : Bool :=
  match inKey pA, pB with
  | some zLHS, .array vs =>
    (strtol zLHS).2.isEmpty && 0 ≤ toCInt (strtol zLHS).1 && toCInt (strtol zLHS).1 < vs.length
  | some zLHS, .struct ms => (lookup ms zLHS).isSome
  | _, _ => false

def withinOperator (pA pB : JsonNode R) : Bool :=
  match pA, pB with
  | .nullptr, _ => false
  | _, .array vs => vs.any fun v => xjd1JsonCompare pA v = 0
  | _, .struct ms => ms.any fun m => xjd1JsonCompare pA m.2 = 0
  | _, _ => false

/-- `XJD1_SKIP_UTF8` on the text from `zIn` on. -/
def skipUtf8 : Bytes → Bytes
  | [] => []
  | c::t => if 0xc0 ≤ c then t.dropWhile fun d => d &&& 0xc0 = 0x80 else t

def subscript (pIndex : JsonNode R) : Exec (Option ℕ) :=
  if (xjd1JsonToReal pIndex).2 then .ok none
  else do
    let iIdx ← toInt (xjd1JsonToReal pIndex).1
    .ok (if CDouble.eq (CDouble.ofInt iIdx) (xjd1JsonToReal pIndex).1 && 0 ≤ iIdx then some iIdx.toNat
      else none)

def subscriptOperator (pJLeft pJRight : JsonNode R) : Exec (JsonNode R) :=
  match pJLeft with
  | .nullptr => .stop .nullNode
  | .struct _ => .ok (getProperty pJLeft (xjd1JsonToString pJRight))
  | .array vs => do
    match ← subscript pJRight with
    | some i => match vs[i]? with
      | some .nullptr | none => .ok .null
      | some v => .ok v
    | none => .ok .null
  | .string z => do
    match ← subscript pJRight with
    | some i =>
      let s := Nat.iterate skipUtf8 i z
      .ok (if s.isEmpty then .null else .string (s.take (s.length - (skipUtf8 s).length)))
    | none => .ok .null
  | _ => .ok .null

def compareOperator (eType : BiOp) (c : Int) : Bool :=
  match eType with
  | .eqeq => c = 0
  | .ne => c ≠ 0
  | .lt => c < 0
  | .le => c ≤ 0
  | .gt => 0 < c
  | .ge => 0 ≤ c
  | _ => false

def plusOperator (pJLeft pJRight : JsonNode R) : JsonNode R :=
  if isStr pJLeft || isStr pJRight then
    .string (xjd1JsonToString pJLeft ++ xjd1JsonToString pJRight)
  else .real (CDouble.add (xjd1JsonToReal pJLeft).1 (xjd1JsonToReal pJRight).1)

def arithOperator (eType : BiOp) (rLeft rRight : R) : R :=
  match eType with
  | .minus => CDouble.sub rLeft rRight
  | .slash =>
    if CDouble.eq rRight (CDouble.ofInt 0) then CDouble.ofInt 0 else CDouble.div rLeft rRight
  | .star => CDouble.mul rLeft rRight
  | _ => CDouble.ofInt 0

/-- The integer operators on `int` operands. What C leaves open about the sign bit is taken
as the compiler of the build has it: `<<` drops the bits that leave the 32, `>>` keeps the sign. -/
def bitOperator (eType : BiOp) (iLeft iRight : Int) : Exec Int :=
  match eType with
  | .rshift =>
    if 32 ≤ iRight then .ok (if iLeft < 0 then -1 else 0)
    else if iRight < 0 then .stop .undefined
    else .ok (iLeft / 2^iRight.toNat)
  | .lshift =>
    if 32 ≤ iRight then .ok 0
    else if iRight < 0 then .stop .undefined
    else .ok (BitVec.ofInt 32 iLeft <<< iRight.toNat).toInt
  | .bitand => .ok (BitVec.ofInt 32 iLeft &&& BitVec.ofInt 32 iRight).toInt
  | .bitor => .ok (BitVec.ofInt 32 iLeft ||| BitVec.ofInt 32 iRight).toInt
  | .rem =>
    if iRight = 0 ∨ (iLeft = -2^31 ∧ iRight = -1) then .stop .undefined else .ok (iLeft.tmod iRight)
  | _ => .ok 0

def biOperator (eType : BiOp) (pJLeft pJRight : JsonNode R) : Exec (JsonNode R) :=
  match eType with
  | .lb => subscriptOperator pJLeft pJRight
  | .eqeq | .ne | .lt | .le | .gt | .ge =>
    .ok (ofBool (compareOperator eType (xjd1JsonCompare pJLeft pJRight)))
  | .plus => .ok (plusOperator pJLeft pJRight)
  | .star | .slash | .minus =>
    .ok (.real (arithOperator eType (xjd1JsonToReal pJLeft).1 (xjd1JsonToReal pJRight).1))
  | .rem | .rshift | .lshift | .bitand | .bitor => do
    let iLeft ← toInt (xjd1JsonToReal pJLeft).1
    let iRight ← toInt (xjd1JsonToReal pJRight).1
    let i ← bitOperator eType iLeft iRight
    .ok (.real (CDouble.ofInt i))
  | .inOp => .ok (ofBool (inOperator pJLeft pJRight))
  | .within => .ok (ofBool (withinOperator pJLeft pJRight))
  | _ => .ok .null

def xLength : JsonNode R → Exec (JsonNode R)
  | .nullptr => .stop .nullNode
  | .string z => .ok (.real (CDouble.ofInt (xjd1Strlen30 z)))
  | v => .ok (.real (CDouble.ofInt (xjd1JsonToString v).length))

def increment (n : Int) : Exec Int := if n < 2^31-1 then .ok (n+1) else .stop .undefined

/-- The `xStep` functions: the context after the step, and whether the row is to be saved. -/
def xStep (pFunction : Function) (apArg : List (JsonNode R)) (pp : AggCtx R) : Exec (AggCtx R × Bool) :=
  match pFunction, apArg with
  | .count, _ => do
    let n : Int := match pp with
      | .count n => n
      | _ => 0
    match apArg with
    | .nullptr :: _ => .stop .nullNode
    | .null :: _ => .ok (.count n,false)
    | _ => do
      let n ← increment n
      .ok (.count n,false)
  | .min, [pArg] => .ok (xBestStep (fun c => c < 0) pArg pp)
  | .max, [pArg] => .ok (xBestStep (fun c => 0 < c) pArg pp)
  | .array, pArg :: _ => do
    let apElem := match pp with
      | .node (.array vs) => vs
      | _ => []
    let _ ← increment apElem.length
    .ok (.node (.array (apElem ++ [pArg])),false)
  | .sum, pArg :: _ =>
    let r : R := match pp with
      | .node (.real r) => r
      | _ => CDouble.ofInt 0
    .ok (.node (.real (if (xjd1JsonToReal pArg).2 then r else CDouble.add r (xjd1JsonToReal pArg).1)),false)
  | .avg, pArg :: _ => do
    let (nRow,rSum) : Int × R := match pp with
      | .avg nRow rSum => (nRow,rSum)
      | _ => (0,CDouble.ofInt 0)
    let nRow ← increment nRow
    .ok (.avg nRow (if (xjd1JsonToReal pArg).2 then rSum else CDouble.add rSum (xjd1JsonToReal pArg).1),
      false)
  | _, _ => .stop .assertFail
where
  /-- `xMinStep` and `xMaxStep`: a better argument replaces the best one so far. -/
  xBestStep (better : Int → Bool) (pArg : JsonNode R) (pp : AggCtx R) : AggCtx R × Bool :=
    let new := match pArg with
      | .nullptr => AggCtx.null
      | v => .node v
    match pp with
    | .node pBest => if better (xjd1JsonCompare pArg pBest) then (new,true) else (pp,false)
    | _ => (new,true)

def xFinal (pFunction : Function) (p : AggCtx R) : JsonNode R :=
  match pFunction, p with
  | .count, .count n => .real (CDouble.ofInt n)
  | .count, _ => .real (CDouble.ofInt 0)
  | .min, .node v | .max, .node v => v
  | .min, _ | .max, _ => .null
  | .array, .node v => v
  | .array, _ => .array []
  | .sum, .node v => v
  | .sum, _ => .real (CDouble.ofInt 0)
  | .avg, .avg nRow rSum => .real (CDouble.div rSum (CDouble.ofInt nRow))
  | .avg, _ => .null
  | .length, _ => .nullptr

section Lookup
variable {ms pre post : List (Bytes × JsonNode R)} {z : Bytes} {v : JsonNode R}

omit [CDouble R] in
theorem lookup_eq_some (h : lookup ms z = some v) : ∃ pre post, ms = pre ++ (z,v)::post ∧ ∀ m ∈ pre, m.1 ≠ z := by
  obtain ⟨m,hm,rfl⟩ := Option.map_eq_some_iff.mp h
  obtain ⟨hz,pre,post,rfl,hpre⟩ := List.find?_eq_some_iff_append.mp hm
  obtain rfl : m.1 = z := of_decide_eq_true hz
  exact ⟨pre,post,rfl,fun l hl => by simpa using hpre l hl⟩

omit [CDouble R] in
theorem lookup_eq_none (h : lookup ms z = none) : ∀ m ∈ ms, m.1 ≠ z := by
  have hfind : (ms.find? fun m => m.1 = z) = none := Option.map_eq_none_iff.mp h
  intro m hm
  simpa using List.find?_eq_none.mp hfind m hm

omit [CDouble R] in
theorem lookup_append (hpre : ∀ m ∈ pre, m.1 ≠ z) (v : JsonNode R) : lookup (pre ++ (z,v)::post) z = some v := by
  have hnone : pre.find? (fun m => m.1 = z) = none := by
    simpa using fun k w h => hpre (k,w) h
  rw [lookup,List.find?_append,hnone,Option.none_or,List.find?_cons_of_pos (by simp)]
  rfl

end Lookup

section Faults
variable {s : Stop} (hs : .undefined ≠ s)
include hs

theorem toInt_avoids (r : R) : Run.Avoids s (fun _ => True) (toInt r) := .ofOption hs _

theorem subscript_avoids (v : JsonNode R) : Run.Avoids s (fun _ => True) (subscript v) := by
  unfold subscript
  split
  · trivial
  · exact (toInt_avoids hs _).bind fun _ _ _ => trivial

omit [CDouble R] in
theorem increment_avoids {β : Type} (n : Int) (g : Int → β) :
    Run.Avoids s (fun _ => True) (increment n >>= fun i => Run.ok (g i)) := by
  unfold increment
  split <;> trivial

omit [CDouble R] in
theorem bitOperator_avoids (op : BiOp) (i j : Int) : Run.Avoids s (fun _ => True) (bitOperator op i j) := by
  cases op <;> simp only [bitOperator] <;> (repeat' split) <;> trivial

/-- A step of an aggregate counts a row or misses its argument; `count` reads the type of its own. -/
theorem xStep_avoids (ha : .assertFail ≠ s) {f : Function} {vs : List (JsonNode R)}
    (hc : f = .count → .nullNode ≠ s ∨ vs.head? ≠ some .nullptr) (pp : AggCtx R) :
    Run.Avoids s (fun _ => True) (xStep f vs pp) := by
  cases f with
  | count =>
    match vs with
    | [] => exact increment_avoids hs _ _
    | v::vs =>
      cases v with
      | nullptr => exact .stop ((hc rfl).resolve_right (not_not_intro rfl))
      | null => trivial
      | _ => exact increment_avoids hs _ _
  | length => exact .stop ha
  | min | max =>
    match vs with
    | [] | _::_::_ => exact .stop ha
    | [v] => trivial
  | array | avg =>
    match vs with
    | [] => exact .stop ha
    | v::vs => exact increment_avoids hs _ _
  | sum =>
    match vs with
    | [] => exact .stop ha
    | v::vs => trivial

end Faults

end Xjd1
