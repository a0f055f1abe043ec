import Xjd1.Json.Text

/-! The tokenizer of statement texts (`tokenize.c`). A text is the bytes before its
terminator; reading at the terminator gives 0. -/
namespace Xjd1

inductive Tk
  | space | illegal | minus | qm | lp | rp | lb | rb | lc | rc | semi | plus | star | slash | rem | eq
  | eqeq | eq3 | le | ne | lshift | lt | ge | gt | urshift | rshift | bang | ne3 | bitor | or | comma
  | colon | and | bitand | bitnot | string | dot | integer | float | id
  | begin | into | order | rollback | elseTk | select | group | update | flattenop | having | likeop
  | byTk | within | insert | all | existsTk | ascending | async | asTk | sync | collate | except
  | collection | null | limit | create | delete | descending | drop | pragma | notTk | ifTk | fromTk
  | union | value | whereTk | inTk | commit | distinct | intersect | offset | setTk | false | true
  deriving DecidableEq, Repr

/-- The keywords, overlapped. -/
def zText : Bytes :=
  ([
    'B','E','G','I','N','T','O','R','D','E','R','O','L','L','B','A','C','K','E','L','S','E','L','E','C',
    'T','G','R','O','U','P','D','A','T','E','A','C','H','A','V','I','N','G','L','O','B','Y','W','I','T',
    'H','I','N','S','E','R','T','A','L','L','I','K','E','X','I','S','T','S','A','S','C','E','N','D','I',
    'N','G','A','S','Y','N','C','H','R','O','N','O','U','S','C','O','L','L','A','T','E','X','C','E','P',
    'T','C','O','L','L','E','C','T','I','O','N','U','L','L','I','M','I','T','C','R','E','A','T','E','D',
    'E','L','E','T','E','D','E','S','C','E','N','D','I','N','G','D','R','O','P','R','A','G','M','A','F',
    'L','A','T','T','E','N','O','T','I','F','R','O','M','U','N','I','O','N','V','A','L','U','E','W','H',
    'E','R','E','i','n','u','l','l','C','O','M','M','I','T','D','I','S','T','I','N','C','T','I','N','T',
    'E','R','S','E','C','T','O','F','F','S','E','T','f','a','l','s','e','t','r','u','e'] : List Char).map ch

def aHash : List ℕ := [
  0,35,1,0,7,0,17,27,0,26,0,0,21,0,41,38,36,45,42,0,0,0,39,0,0,8,22,0,0,4,0,0,0,0,0,0,0,0,0,0,0,0,43,0,
  13,0,0,49,0,0,6,0,0,0,44,40,0,51,23,0,0,0,0,0,25,30,48,37,20,29,0,0,0,2,18,33,0,47,0,0,0,50,0,0,28,31,
  0,0,0,32,14,5,0,0,24,15,46]

def aNext : List ℕ := [
  0,0,0,0,0,0,0,0,0,0,0,0,0,11,0,0,0,0,0,9,0,0,0,0,0,0,0,19,0,0,0,0,3,0,12,0,0,0,16,0,10,0,0,0,0,34,0,0,
  0,0,0]

def aLen : List ℕ := [
  5,4,5,8,4,6,5,6,4,6,4,2,6,6,3,4,6,3,9,5,12,2,11,4,7,6,10,4,5,6,6,4,10,4,6,7,3,2,4,5,5,5,2,4,6,8,9,6,3,
  5,4]

def aOffset : List ℕ := [
  0,3,6,10,18,20,26,29,34,37,42,45,47,51,57,59,62,68,68,77,77,77,78,78,89,95,101,110,113,118,124,130,130,
  140,143,149,155,158,159,163,168,173,178,179,183,189,197,206,209,212,217]

def aCode : List Tk := [
  .begin,.into,.order,.rollback,.elseTk,.select,.group,.update,.flattenop,.having,.likeop,.byTk,.within,
  .insert,.all,.likeop,.existsTk,.ascending,.ascending,.async,.async,.asTk,.sync,.sync,.collate,.except,
  .collection,.null,.limit,.create,.delete,.descending,.descending,.drop,.pragma,.flattenop,.notTk,.ifTk,
  .fromTk,.union,.value,.whereTk,.inTk,.null,.commit,.distinct,.intersect,.offset,.setTk,.false,.true]

def signedChar (c : UInt8) : Int := if c < 128 then c.toNat else (c.toNat : Int) - 256

/-- The hash of an identifier, which a byte from 128 on can make negative. -/
def keywordHash (z : Bytes) : Int :=
  (BitVec.ofInt 32 (signedChar (z.headD 0) * 4) ^^^ BitVec.ofInt 32 (signedChar (z.getLastD 0) * 3) ^^^
    BitVec.ofNat 32 z.length).toInt.tmod 97

def keywordWalk (z : Bytes) : ℕ → ℕ → Option Tk
  | _, 0 => some .id
  | 0, _ => none
  | m+1, i+1 => do
    let n ← aLen[i]?
    let k ← aOffset[i]?
    if n = z.length ∧ (zText.drop k).take n = z then aCode[i]?
    else keywordWalk z m (← aNext[i]?)

/-- `keywordCode`. It gives nothing when the hash is no index of `aHash`. -/
def keywordCode (z : Bytes) : Option Tk :=
  if z.length < 2 then some .id
  else if keywordHash z < 0 then none
  else do keywordWalk z 51 (← aHash[(keywordHash z).toNat]?)

def peek (z : Bytes) (i : ℕ) : UInt8 := (z[i]?).getD 0

/-- The scan of a string after its opening quote: the bytes before the quote that
ends it, or before the terminator. A quote is skipped if another one follows. -/
def scanQuoted : Bytes → ℕ
  | [] => 0
  | c::t =>
    if c = 0 then 0
    else if c = ch '"' then
      match t with
      | [] => 0
      | d::t => if d = ch '"' then scanQuoted t + 2 else 0
    else scanQuoted t + 1

/-- The scan of a comment, with the byte `c` behind the cursor: how far it goes,
and whether it meets the end of the comment. -/
def scanComment (c : UInt8) (z : Bytes) : ℕ × Bool :=
  if c = ch '*' ∧ z.head? = some (ch '/') then (0,true)
  else match z with
    | [] => (0,false)
    | d::t => if d = 0 then (0,false) else ((scanComment d t).1 + 1,(scanComment d t).2)

/-- The exponent at the start of a text; any two bytes after the `e` when the second one is a digit. -/
def expLength (z : Bytes) : ℕ :=
  if (peek z 0 = ch 'e' ∨ peek z 0 = ch 'E') ∧ (xjd1Isdigit (peek z 1) ∨
    ((peek z 1 = ch '+' ∨ peek z 1 = ch '-') ∧ xjd1Isdigit (peek z 2))) then 2 + digits (z.drop 2) else 0

def getNumber (z : Bytes) : Tk × ℕ :=
  let n := digits z
  let nFrac := if peek z n = ch '.' then 1 + digits (z.drop (n+1)) else 0
  let nExp := expLength (z.drop (n+nFrac))
  let nIdent := ((z.drop (n+nFrac+nExp)).takeWhile xjd1Isident).length
  (if 0 < nIdent then .illegal else if 0 < nFrac + nExp then .float else .integer,n+nFrac+nExp+nIdent)

def charToken (c : UInt8) : Option Tk :=
  if c = ch '?' then some .qm
  else if c = ch '(' then some .lp
  else if c = ch ')' then some .rp
  else if c = ch '[' then some .lb
  else if c = ch ']' then some .rb
  else if c = ch '\x7b' then some .lc
  else if c = ch '\x7d' then some .rc
  else if c = ch ';' then some .semi
  else if c = ch '+' then some .plus
  else if c = ch '*' then some .star
  else if c = ch '%' then some .rem
  else if c = ch ',' then some .comma
  else if c = ch ':' then some .colon
  else if c = ch '~' then some .bitnot
  else none

def operatorToken (c d e : UInt8) : Option (Tk × ℕ) :=
  if c = ch '=' then
    some (if d ≠ ch '=' then (.eq,1) else if e = ch '=' then (.eq3,3) else (.eqeq,2))
  else if c = ch '<' then
    some (if d = ch '=' then (.le,2) else if d = ch '>' then (.ne,2) else if d = ch '<' then (.lshift,2)
      else (.lt,1))
  else if c = ch '>' then
    some (if d = ch '=' then (.ge,2) else if d ≠ ch '>' then (.gt,1) else if e = ch '>' then (.urshift,3)
      else (.rshift,2))
  else if c = ch '!' then
    some (if d ≠ ch '=' then (.bang,1) else if e = ch '=' then (.ne3,3) else (.ne,2))
  else if c = ch '|' then some (if d ≠ ch '|' then (.bitor,1) else (.or,2))
  else if c = ch '&' then some (if d = ch '&' then (.and,2) else (.bitand,1))
  else none

/-- The white space a token can start with, which has no vertical tab. -/
def startsSpace (c : UInt8) : Bool := c = ch ' ' || c = 9 || c = 10 || c = 12 || c = 13

/-- `xjd1GetToken`: the type and the length of the token at the start of a text. -/
def xjd1GetToken (z : Bytes) : Option (Tk × ℕ) :=
  let c := peek z 0
  if startsSpace c then some (.space,1 + ((z.drop 1).takeWhile xjd1Isspace).length)
  else if c = ch '-' then
    if peek z 1 = ch '-' then
      some (.space,2 + ((z.drop 2).takeWhile fun d => d != 0 && d != 10).length)
    else some (.minus,1)
  else if c = ch '/' then
    if peek z 1 ≠ ch '*' ∨ peek z 2 = 0 then some (.slash,1)
    else
      let r := scanComment (peek z 2) (z.drop 3)
      some (.space,3 + r.1 + if r.2 then 1 else 0)
  else if c = ch '"' then some (.string,scanQuoted (z.drop 1) + 2)
  else if c = ch '.' ∧ ¬ xjd1Isdigit (peek z 1) then some (.dot,1)
  else if c = ch '.' ∨ xjd1Isdigit c then some (getNumber z)
  else match charToken c, operatorToken c (peek z 1) (peek z 2) with
    | some tk, _ => some (tk,1)
    | none, some r => some r
    | none, none =>
      if xjd1Isident c then do
        let n := 1 + ((z.drop 1).takeWhile xjd1Isident).length
        let tk ← keywordCode (z.take n)
        some (tk,n)
      else some (.illegal,1)

def tokenStr (z : Bytes) : Bytes := if z.head? = some (ch '"') then dequote (z.drop 1) else z

end Xjd1
