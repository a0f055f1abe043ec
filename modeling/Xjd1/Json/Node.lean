import Mathlib.Algebra.Order.Ring.Int
import Mathlib.Data.List.Basic

/-! JSON values as the engine holds them (`struct JsonNode`) and their order.
A value may be the C null pointer, which is not the JSON `null`. -/
namespace Xjd1

/-- The bytes of a C string before its terminator. -/
abbrev Bytes := List UInt8

/-- What the engine uses of the C `double` and of the conversions between
doubles and text. A conversion the C standard leaves undefined has no result. -/
class CDouble (R : Type) where
  lt : R → R → Bool
  eq : R → R → Bool
  nan : R
  ofInt : Int → R
  toInt : R → Option Int
  add : R → R → R
  sub : R → R → R
  mul : R → R → R
  div : R → R → R
  strtod : Bytes → R × Bytes
  fmt17 : R → Bytes
  fmt6 : R → Bytes

def CDouble.atof {R : Type} [CDouble R] (z : Bytes) : R := (CDouble.strtod z).1

/-- A pointer to a `JsonNode`. -/
inductive JsonNode (R : Type) : Type
  | nullptr
  | false
  | true
  | real (r : R)
  | null
  | string (z : Bytes)
  | array (apElem : List (JsonNode R))
  | struct (pFirst : List (Bytes × JsonNode R))

variable {R : Type}

def JsonNode.eJType : JsonNode R → Option Int
  | .nullptr => none
  | .false => some 0
  | .true => some 1
  | .real _ => some 2
  | .null => some 3
  | .string _ => some 4
  | .array _ => some 5
  | .struct _ => some 6

def strcmp : Bytes → Bytes → Int
  | [], [] => 0
  | [], b::_ => -(b.toNat : Int)
  | a::_, [] => (a.toNat : Int)
  | a::as, b::bs => if a = b then strcmp as bs else (a.toNat : Int) - b.toNat

section Compare
variable [CDouble R]

mutual
def xjd1JsonCompare : JsonNode R → JsonNode R → Int
  | .nullptr, .nullptr => 0
  | .nullptr, _ => -1
  | .real x, .real y => if CDouble.lt x y then -1 else if CDouble.lt y x then 1 else 0
  | .string a, .string b => strcmp a b
  | .array as, .array bs => compareArray as bs
  | .struct as, .struct bs => compareStruct as bs
  | a, b => match a.eJType, b.eJType with
    | some i, some j => i - j
    | _, _ => 1

def compareArray : List (JsonNode R) → List (JsonNode R) → Int
  | a::as, b::bs =>
    let c := xjd1JsonCompare a b
    if c = 0 then compareArray as bs else c
  | as, bs => (as.length : Int) - bs.length

def compareStruct : List (Bytes × JsonNode R) → List (Bytes × JsonNode R) → Int
  | (k,a)::as, (l,b)::bs =>
    let c := strcmp k l
    if c = 0 then
      let c := xjd1JsonCompare a b
      if c = 0 then compareStruct as bs else c
    else c
  | [], [] => 0
  | _::_, [] => 1
  | [], _::_ => -1
end

end Compare

end Xjd1
