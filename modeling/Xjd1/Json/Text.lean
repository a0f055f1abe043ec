import Xjd1.Json.Node

/-! JSON text: the renderer, the tokenizer and the recursive-descent parser of
`json.c`. The tokenizer keeps the source's cursor, so a caller that forgets to
step over a token is visible in the model. -/
namespace Xjd1

variable {R : Type}

abbrev ch (c : Char) : UInt8 := c.toNat.toUInt8

def xjd1Isspace (c : UInt8) : Bool := (9 ≤ c && c ≤ 13) || c == 32
def xjd1Isdigit (c : UInt8) : Bool := 48 ≤ c && c ≤ 57
def xjd1Isalpha (c : UInt8) : Bool := (65 ≤ c && c ≤ 90) || (97 ≤ c && c ≤ 122)
def xjd1Isident (c : UInt8) : Bool := xjd1Isalpha c || xjd1Isdigit c || c == 95 || 128 ≤ c

def xjd1Strlen30 (z : Bytes) : ℕ := z.length % 2^30

def zTrue : Bytes := [ch 't', ch 'r', ch 'u', ch 'e']
def zFalse : Bytes := [ch 'f', ch 'a', ch 'l', ch 's', ch 'e']
def zNull : Bytes := [ch 'n', ch 'u', ch 'l', ch 'l']

def escape (c : UInt8) : Bytes :=
  if c = ch '"' ∨ c = ch '\\' then [ch '\\', c] else [c]

def renderString (z : Bytes) : Bytes := ch '"' :: (z.flatMap escape ++ [ch '"'])

section Render
variable [CDouble R]

mutual
def xjd1JsonRender : JsonNode R → Bytes
  | .nullptr => zNull
  | .false => zFalse
  | .true => zTrue
  | .null => zNull
  | .real r => CDouble.fmt17 r
  | .string z => renderString z
  | .array [] => [ch '[', ch ']']
  | .array (v::vs) => ch '[' :: (xjd1JsonRender v ++ renderElems vs)
  | .struct [] => [ch '{', ch '}']
  | .struct ((k,v)::ms) =>
    ch '{' :: (renderString k ++ ch ':' :: (xjd1JsonRender v ++ renderMembers ms))

def renderElems : List (JsonNode R) → Bytes
  | [] => [ch ']']
  | v::vs => ch ',' :: (xjd1JsonRender v ++ renderElems vs)

def renderMembers : List (Bytes × JsonNode R) → Bytes
  | [] => [ch '}']
  | (k,v)::ms => ch ',' :: (renderString k ++ ch ':' :: (xjd1JsonRender v ++ renderMembers ms))
end

end Render

inductive JsonTok
  | false | true | real | null | string | beginArray | beginStruct
  | endArray | comma | endStruct | colon | eof | error
  deriving DecidableEq, Repr

def digits (s : Bytes) : ℕ := (s.takeWhile xjd1Isdigit).length

/-- The scan of a string body: the bytes before the closing quote, and whether
there is one. A backslash passes the byte after it unseen. -/
def scanString : Bytes → ℕ × Bool
  | [] => (0,Bool.false)
  | c::t =>
    if c = 0 then (0,Bool.false)
    else if c = ch '"' then (0,Bool.true)
    else if c = ch '\\' then
      match t with
      | [] => (1,Bool.false)
      | _::t => ((scanString t).1+2,(scanString t).2)
    else ((scanString t).1+1,(scanString t).2)

def isExp : Bytes → Bool
  | c::d::t =>
    (c == ch 'e' || c == ch 'E') &&
      (xjd1Isdigit d || ((d == ch '-' || d == ch '+') && (t.head?.any xjd1Isdigit)))
  | _ => Bool.false

def scanFraction : Bytes → ℕ
  | c::d::t => if c = ch '.' ∧ xjd1Isdigit d then 1 + digits (d::t) else 0
  | _ => 0
def scanExponent (s : Bytes) : ℕ := if isExp s then 2 + digits (s.drop 2) else 0

def scanUnsigned (s : Bytes) : ℕ :=
  let n := if s.head? = some (ch '0') then 1 else digits s
  let n := n + scanFraction (s.drop n)
  n + scanExponent (s.drop n)

def isWord (word s : Bytes) : Bool :=
  word.isPrefixOf s && !((s.drop word.length).head?.any xjd1Isident)

/-- The type and length of the token at the start of a text that is not empty
and does not start with white space. -/
def lexToken (s : Bytes) : JsonTok × ℕ :=
  match s with
  | [] => (.eof,0)
  | c::t =>
    if c = 0 then (.eof,0)
    else if c = ch '"' then
      if (scanString t).2 then (.string,(scanString t).1+2) else (.error,(scanString t).1+1)
    else if c = ch '\x7b' then (.beginStruct,1)
    else if c = ch '\x7d' then (.endStruct,1)
    else if c = ch '[' then (.beginArray,1)
    else if c = ch ']' then (.endArray,1)
    else if c = ch ',' then (.comma,1)
    else if c = ch ':' then (.colon,1)
    else if c = ch 't' then if isWord zTrue s then (.true,4) else (.error,1)
    else if c = ch 'f' then if isWord zFalse s then (.false,5) else (.error,1)
    else if c = ch 'n' then if isWord zNull s then (.null,4) else (.error,1)
    else if c = ch '-' then
      if t.head?.any xjd1Isdigit then (.real,1 + scanUnsigned t) else (.error,1)
    else if xjd1Isdigit c then (.real,scanUnsigned s)
    else (.error,1)

structure JsonStr where
  zIn : Bytes
  mxIn : ℕ
  iCur : ℕ
  n : ℕ
  eType : JsonTok

def JsonStr.unread (p : JsonStr) : Bytes := (p.zIn.take p.mxIn).drop (p.iCur + p.n)

/-- `tokenNext`. At the end of the text the cursor stays on the last token. -/
def tokenNext (p : JsonStr) : JsonStr :=
  let i := p.iCur + p.n + (p.unread.takeWhile xjd1Isspace).length
  let s := p.unread.dropWhile xjd1Isspace
  if s.isEmpty then { p with n := 0, eType := .eof }
  else { p with iCur := i, n := (lexToken s).2, eType := (lexToken s).1 }

def dequote : Bytes → Bytes
  | c::d::t =>
    if c = ch '\\' then
      (if d = ch 'b' then [8]
        else if d = ch 'f' then [12]
        else if d = ch 'n' then [10]
        else if d = ch 'r' then [13]
        else if d = ch 't' then [9]
        else if d = ch 'u' ∧ 4 ≤ t.length then []
        else [d]) ++ dequote t
    else c :: dequote (d::t)
  | _ => []

/-- The bytes of the text from the current token on, as `tokenString` points at them. -/
def tokenString (p : JsonStr) : Bytes := p.zIn.drop p.iCur

def tokenDequoteString (p : JsonStr) : Bytes := dequote ((tokenString p).take p.n |>.drop 1)

section Parse
variable [CDouble R]

mutual
/-- `parseJson`. No result means that the fuel ran out. -/
def parseJson : ℕ → JsonStr → Option (JsonNode R × JsonStr)
  | 0, _ => none
  | n+1, p =>
    match p.eType with
    | .beginStruct =>
      if (tokenNext p).eType = .endStruct then some (.struct [],tokenNext p)
      else parseMembers n (tokenNext p) []
    | .beginArray =>
      if (tokenNext p).eType = .endArray then some (.array [],tokenNext (tokenNext p))
      else parseElems n (tokenNext p) []
    | .string => some (.string (tokenDequoteString p),tokenNext p)
    | .real => some (.real (CDouble.atof (tokenString p)),tokenNext p)
    | .true => some (.true,tokenNext p)
    | .false => some (.false,tokenNext p)
    | .null => some (.null,tokenNext p)
    | _ => some (.nullptr,p)

def parseMembers : ℕ → JsonStr → List (Bytes × JsonNode R) → Option (JsonNode R × JsonStr)
  | 0, _, _ => none
  | n+1, p, st =>
    if p.eType = .string then
      if (tokenNext p).eType = .colon then
        match parseJson n (tokenNext (tokenNext p)) with
        | none => none
        | some (v,q) =>
          match q.eType with
          | .comma => parseMembers n (tokenNext q) (st ++ [(tokenDequoteString p,v)])
          | .endStruct => some (.struct (st ++ [(tokenDequoteString p,v)]),tokenNext q)
          | _ => some (.nullptr,q)
      else some (.nullptr,tokenNext p)
    else some (.nullptr,p)

def parseElems : ℕ → JsonStr → List (JsonNode R) → Option (JsonNode R × JsonStr)
  | 0, _, _ => none
  | n+1, p, ar =>
    match parseJson n p with
    | none => none
    | some (v,q) =>
      match q.eType with
      | .comma => parseElems n (tokenNext q) (ar ++ [v])
      | .endArray => some (.array (ar ++ [v]),tokenNext q)
      | _ => some (.nullptr,q)
end

def jsonStr (zIn : Bytes) (mxIn : ℕ) : JsonStr := ⟨zIn,mxIn,0,0,.false⟩

/-- `xjd1JsonParse( zIn, -1 )`. Two units of fuel a byte are always enough. -/
def xjd1JsonParse (zIn : Bytes) : JsonNode R :=
  match parseJson (2*xjd1Strlen30 zIn + 2) (tokenNext (jsonStr zIn (xjd1Strlen30 zIn))) with
  | some (v,_) => v
  | none => .nullptr

end Parse

/-- The decimal text of a whole number. The library's `%.17g` writes it up to 855; from there on
the factor 0.1 in it can leave a last digit, as in 856.0000000000001. -/
def wholeText : Int → Bytes
  | .ofNat n => (Nat.toDigits 10 n).map ch
  | .negSucc n => ch '-' :: (Nat.toDigits 10 (n+1)).map ch

def wholeRead (z : Bytes) : Int × Bytes :=
  let value (t : Bytes) : Int :=
    ((t.takeWhile xjd1Isdigit).foldl (fun n c => 10*n + (c.toNat - 48)) 0 : ℕ)
  if z.head? = some (ch '-') then (-(value (z.drop 1)),(z.drop 1).dropWhile xjd1Isdigit)
  else (value z,z.dropWhile xjd1Isdigit)

/-- The doubles that are whole numbers, which runs on concrete input compute with. -/
instance : CDouble Int where
  lt x y := x < y
  eq x y := x = y
  nan := 0
  ofInt := id
  toInt x := if -2^31 ≤ x ∧ x < 2^31 then some x else none
  add := (· + ·)
  sub := (· - ·)
  mul := (· * ·)
  div := Int.tdiv
  strtod := wholeRead
  fmt17 := wholeText
  fmt6 := wholeText

end Xjd1
