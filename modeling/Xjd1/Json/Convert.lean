import Xjd1.Json.Text

/-! Conversions of JSON values to numbers and to text, and the C library's
`strtol`, which the operators of an expression use. -/
namespace Xjd1

variable {R : Type} [CDouble R]

/-- `xjd1JsonToReal`: the number left in `*pRes`, and whether there is an error. -/
def xjd1JsonToReal : JsonNode R → R × Bool
  | .false => (CDouble.ofInt 0,Bool.false)
  | .true => (CDouble.ofInt 1,Bool.false)
  | .real r => (r,Bool.false)
  | .string z =>
    if z.head?.any xjd1Isspace then (CDouble.nan,Bool.true)
    else ((CDouble.strtod z).1,!(CDouble.strtod z : R × Bytes).2.isEmpty)
  | _ => (CDouble.nan,Bool.true)

def xjd1JsonToString : JsonNode R → Bytes
  | .string z => z
  | v => xjd1JsonRender v

def digitValue (c : UInt8) : ℕ :=
  if xjd1Isdigit c then c.toNat - 48
  else if 97 ≤ c ∧ c ≤ 122 then c.toNat - 87
  else if 65 ≤ c ∧ c ≤ 90 then c.toNat - 55
  else 36

def isDigitOf (base : ℕ) (c : UInt8) : Bool := digitValue c < base

/-- The base a prefix announces, and the text after the prefix. -/
def strtolBase : Bytes → ℕ × Bytes
  | c::d::e::t =>
    if c = ch '0' ∧ (d = ch 'x' ∨ d = ch 'X') ∧ isDigitOf 16 e then (16,e::t)
    else if c = ch '0' then (8,c::d::e::t)
    else (10,c::d::e::t)
  | s => if s.head? = some (ch '0') then (8,s) else (10,s)

/-- `strtol( z, &zTail, 0 )`: the number, held to the range of `long`, and the tail. -/
def strtol (z : Bytes) : Int × Bytes :=
  let s := z.dropWhile xjd1Isspace
  let neg := s.head? = some (ch '-')
  let s := if s.head? = some (ch '-') ∨ s.head? = some (ch '+') then s.drop 1 else s
  let (base,s) := strtolBase s
  let digits := s.takeWhile (isDigitOf base)
  let value : ℕ := digits.foldl (fun n c => base*n + digitValue c) 0
  if digits.isEmpty then (0,z)
  else (if neg then max (-(value : Int)) (-2^63) else min (value : Int) (2^63-1),s.drop digits.length)

def toCInt (x : Int) : Int := (BitVec.ofInt 32 x).toInt

end Xjd1
