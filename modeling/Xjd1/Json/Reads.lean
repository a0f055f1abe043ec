import Xjd1.Lib.Run
import Xjd1.Json.RoundTrip

/-! The reads of the JSON tokenizer: the functions of `Json.Text` again, with every byte read by its
index. A read outside of the text and its terminator is a fault, and there is none. -/
namespace Xjd1
open Fueled

inductive ReadFault
  | outOfBounds | assertFail
  deriving DecidableEq, Repr

namespace Bounded

def byteAt (z : Bytes) (i : ℕ) : Run ReadFault UInt8 :=
  match z[i]? with
  | some c => .ok c
  | none => if i = z.length then .ok 0 else .stop .outOfBounds

def bytesAt (z : Bytes) (i n : ℕ) : Run ReadFault Bytes :=
  if i+n ≤ z.length+1 then .ok (((z ++ [0]).drop i).take n) else .stop .outOfBounds

def strlen (z : Bytes) : ℕ → ℕ → Run ReadFault ℕ
  | 0,_ => .more
  | m+1,i => do if (← byteAt z i) = 0 then .ok i else strlen z m (i+1)

def scanWhile (p : UInt8 → Bool) (z : Bytes) (mx : ℕ) : ℕ → ℕ → Run ReadFault ℕ
  | 0,_ => .more
  | m+1,i =>
    if i < mx then do
      if p (← byteAt z i) then return (← scanWhile p z mx m (i+1)) + 1 else .ok 0
    else .ok 0

def scanString (z : Bytes) (mx i : ℕ) : ℕ → ℕ → UInt8 → Run ReadFault (ℕ × UInt8)
  | 0,_,_ => .more
  | m+1,n,c =>
    if i+n < mx then do
      let c ← byteAt z (i+n)
      if c = 0 ∨ c = ch '"' then .ok (n,c)
      else if c = ch '\\' then scanString z mx i m (n+2) c
      else scanString z mx i m (n+1) c
    else .ok (n,c)

/-- The string case of `tokenNext`. The loop need not set `c`, which then is what it was: `junk`. -/
def stringToken (m : ℕ) (junk : UInt8) (z : Bytes) (mx i : ℕ) : Run ReadFault (JsonTok × ℕ) := do
  let (n,c) ← scanString z mx i m 1 junk
  let n := if c = ch '"' then n+1 else n
  if mx < i+n then .ok (.error,mx-i)
  else .ok (if c = ch '"' then .string else .error,n)

def isWord (word : Bytes) (z : Bytes) (mx i : ℕ) : Run ReadFault Bool :=
  if i + word.length ≤ mx then do
    if (← bytesAt z i word.length) = word then
      if i + word.length = mx then .ok true else return !xjd1Isident (← byteAt z (i + word.length))
    else .ok false
  else .ok false

def isExp (z : Bytes) (i n : ℕ) : Run ReadFault Bool :=
  if n < 2 then .ok false
  else do
    let c ← byteAt z i
    if c ≠ ch 'e' ∧ c ≠ ch 'E' then .ok false
    else
      let d ← byteAt z (i+1)
      if xjd1Isdigit d then .ok true
      else if n < 3 ∨ (d ≠ ch '-' ∧ d ≠ ch '+') then .ok false
      else return xjd1Isdigit (← byteAt z (i+2))

def scanDigits (m : ℕ) (z : Bytes) (mx i n : ℕ) : Run ReadFault ℕ := do
  if (← byteAt z (i+n)) = ch '0' then .ok (n+1) else return n + (← scanWhile xjd1Isdigit z mx m (i+n))

def scanFraction (m : ℕ) (z : Bytes) (mx i n : ℕ) : Run ReadFault ℕ :=
  if i+n+1 < mx then do
    if (← byteAt z (i+n)) = ch '.' then
      if xjd1Isdigit (← byteAt z (i+n+1)) then return n+1 + (← scanWhile xjd1Isdigit z mx m (i+n+1)) else .ok n
    else .ok n
  else .ok n

def scanExponent (m : ℕ) (z : Bytes) (mx i n : ℕ) : Run ReadFault ℕ := do
  if ← isExp z (i+n) (mx-(i+n)) then return n+2 + (← scanWhile xjd1Isdigit z mx m (i+n+2)) else .ok n

def scanUnsigned (m : ℕ) (z : Bytes) (mx i n : ℕ) : Run ReadFault ℕ := do
  let n ← scanDigits m z mx i n
  let n ← scanFraction m z mx i n
  scanExponent m z mx i n

def lexToken (m : ℕ) (junk : UInt8) (z : Bytes) (mx i : ℕ) : Run ReadFault (JsonTok × ℕ) := do
  let c ← byteAt z i
  if c = 0 then .ok (.eof,0)
  else if c = ch '"' then stringToken m junk z mx i
  else if c = ch '\x7b' then .ok (.beginStruct,1)
  else if c = ch '\x7d' then .ok (.endStruct,1)
  else if c = ch '[' then .ok (.beginArray,1)
  else if c = ch ']' then .ok (.endArray,1)
  else if c = ch ',' then .ok (.comma,1)
  else if c = ch ':' then .ok (.colon,1)
  else if c = ch 't' then return if ← isWord zTrue z mx i then (.true,4) else (.error,1)
  else if c = ch 'f' then return if ← isWord zFalse z mx i then (.false,5) else (.error,1)
  else if c = ch 'n' then return if ← isWord zNull z mx i then (.null,4) else (.error,1)
  else if c = ch '-' then
    if i+1 < mx then
      if xjd1Isdigit (← byteAt z (i+1)) then return (.real,← scanUnsigned m z mx i 1) else .ok (.error,1)
    else .ok (.error,1)
  else if xjd1Isdigit c then return (.real,← scanUnsigned m z mx i 0)
  else .ok (.error,1)

/-- `tokenNext`; `m` bounds the turns of its loops. -/
def tokenNext (m : ℕ) (junk : UInt8) (p : JsonStr) : Run ReadFault JsonStr := do
  let i := p.iCur + p.n + (← scanWhile xjd1Isspace p.zIn p.mxIn m (p.iCur + p.n))
  if i < p.mxIn then
    let (eType,n) ← lexToken m junk p.zIn p.mxIn i
    .ok { p with iCur := i, n := n, eType := eType }
  else .ok { p with n := 0, eType := .eof }

def readCopy (z : Bytes) (i : ℕ) : Run ReadFault UInt8 := Run.ofOption .outOfBounds z[i]?

def writeCopy (z : Bytes) (i : ℕ) (c : UInt8) : Run ReadFault Bytes :=
  if i < z.length then .ok (z.set i c) else .stop .outOfBounds

def writeEscape (z : Bytes) (n i j : ℕ) : Run ReadFault (Bytes × ℕ) := do
  let c ← readCopy z i
  if c = ch 'b' then return (← writeCopy z j 8,j+1)
  else if c = ch 'f' then return (← writeCopy z j 12,j+1)
  else if c = ch 'n' then return (← writeCopy z j 10,j+1)
  else if c = ch 'r' then return (← writeCopy z j 13,j+1)
  else if c = ch 't' then return (← writeCopy z j 9,j+1)
  else if c = ch 'u' ∧ i+4 < n then .ok (z,j)
  else return (← writeCopy z j c,j+1)

def dequote (n : ℕ) : ℕ → Bytes → ℕ → ℕ → Run ReadFault Bytes
  | 0,_,_,_ => .more
  | m+1,z,i,j =>
    if i+1 < n then do
      let c ← readCopy z i
      if c ≠ ch '\\' then
        let z ← writeCopy z j c
        dequote n m z (i+1) (j+1)
      else
        let (z,j) ← writeEscape z n (i+1) j
        dequote n m z (i+2) j
    else writeCopy z j 0

def xjd1DequoteString (m : ℕ) (z : Bytes) (n : ℕ) : Run ReadFault Bytes :=
  if 2 ≤ n then do
    if (← readCopy z 0) = ch '"' ∧ (← readCopy z (n-1)) = ch '"' then dequote n m z 1 0 else .stop .assertFail
  else .stop .assertFail

/-- `tokenDequoteString`, with the string up to its terminator. -/
def tokenDequoteString (m : ℕ) (p : JsonStr) : Run ReadFault Bytes := do
  if (← byteAt p.zIn p.iCur) = ch '"' ∧ (← byteAt p.zIn (p.iCur + p.n - 1)) = ch '"' then
    let zOut ← bytesAt p.zIn p.iCur p.n
    let zOut ← xjd1DequoteString m zOut p.n
    .ok (zOut.takeWhile (· ≠ 0))
  else .stop .assertFail

structure At (z : Bytes) (mx i : ℕ) (s : Bytes) : Prop where
  le : mx ≤ z.length
  within : i ≤ mx
  drop : (z.take mx).drop i = s

section At
variable {z s t : Bytes} {mx i m : ℕ} {c : UInt8}

theorem byteAt_lt {i : ℕ} (h : i < z.length) : byteAt z i = .ok z[i] := by
  rw [byteAt,List.getElem?_eq_getElem h]

theorem At.length (h : At z mx i s) : i + s.length = mx := by
  have hl := congrArg List.length h.drop
  rw [List.length_drop,List.length_take,Nat.min_eq_left h.le] at hl
  have hw := h.within
  omega

theorem At.skip (h : At z mx i s) {k : ℕ} (hk : k ≤ s.length) : At z mx (i+k) (s.drop k) := by
  have hl := h.length
  exact ⟨h.le,by omega,by rw [← h.drop,List.drop_drop]⟩

theorem At.tail (h : At z mx i (c::t)) : At z mx (i+1) t :=
  h.skip (Nat.succ_le_succ (Nat.zero_le t.length))

theorem At.lt (h : At z mx i (c::t)) : i < mx := by
  have hl := h.length
  rw [List.length_cons] at hl
  omega

theorem At.end (h : At z mx i []) : ¬ i < mx := by
  have hl := h.length
  rw [List.length_nil] at hl
  omega

theorem At.byte (h : At z mx i (c::t)) : byteAt z i = .ok c := by
  have hd := congrArg (·[0]?) h.drop
  simp only [List.getElem?_drop,List.getElem?_cons_zero,Nat.add_zero,List.getElem?_take_of_lt h.lt] at hd
  rw [byteAt,hd]

theorem At.bytes (h : At z mx i s) {k : ℕ} (hk : k ≤ s.length) : bytesAt z i k = .ok (s.take k) := by
  have hl := h.length
  have hle := h.le
  have hs : s.take k = (z.drop i).take k := by
    rw [← h.drop,List.drop_take,List.take_take,Nat.min_eq_left (by omega)]
  rw [bytesAt,if_pos (by omega),hs,List.drop_append_of_le_length (by omega),
    List.take_append_of_le_length (by rw [List.length_drop]; omega)]

theorem strlen_eq (h : 0 ∉ z) (hs : z.drop i = s) (hi : i ≤ z.length) (hm : s.length < m) :
    strlen z m i = .ok z.length := by
  induction s generalizing m i with
  | nil =>
    obtain ⟨m,rfl⟩ := Nat.exists_eq_succ_of_ne_zero (Nat.ne_zero_of_lt hm)
    obtain rfl : i = z.length := Nat.le_antisymm hi (List.drop_eq_nil_iff.mp hs)
    have hb : byteAt z z.length = .ok 0 := by
      rw [byteAt,List.getElem?_eq_none (Nat.le_refl _)]
      exact if_pos rfl
    rw [strlen,hb,Run.ok_bind,if_pos rfl]
  | cons c s ih =>
    obtain ⟨m,rfl⟩ := Nat.exists_eq_succ_of_ne_zero (Nat.ne_zero_of_lt hm)
    have hlt : i < z.length := by
      have hl := congrArg List.length hs
      rw [List.length_drop,List.length_cons] at hl
      omega
    rw [List.drop_eq_getElem_cons hlt,List.cons.injEq] at hs
    have hne : z[i] ≠ 0 := fun h0 => h (h0 ▸ List.getElem_mem hlt)
    rw [List.length_cons] at hm
    rw [strlen,byteAt_lt hlt,Run.ok_bind,if_neg hne]
    exact ih hs.2 hlt (by omega)

theorem scanWhile_eq (p : UInt8 → Bool) (h : At z mx i s) (hm : s.length < m) :
    scanWhile p z mx m i = .ok (s.takeWhile p).length := by
  induction s generalizing m i with
  | nil =>
    obtain ⟨m,rfl⟩ := Nat.exists_eq_succ_of_ne_zero (Nat.ne_zero_of_lt hm)
    rw [scanWhile,if_neg h.end]
    rfl
  | cons c s ih =>
    obtain ⟨m,rfl⟩ := Nat.exists_eq_succ_of_ne_zero (Nat.ne_zero_of_lt hm)
    rw [List.length_cons] at hm
    rw [scanWhile,if_pos h.lt,h.byte,Run.ok_bind]
    cases hp : p c with
    | true => rw [if_pos rfl,ih h.tail (by omega),List.takeWhile_cons_of_pos hp]; rfl
    | false =>
      rw [if_neg Bool.false_ne_true,List.takeWhile_cons_of_neg (by rw [hp]; exact Bool.false_ne_true)]
      rfl

/-- The loop of the string case has left `n` and `c`: it is at a quote, or at the end of the text
or past it, as the scan of the text behind the first quote says. -/
structure Scanned (mx i n₀ : ℕ) (r : ℕ × Bool) (n : ℕ) (c : UInt8) : Prop where
  quote : c = ch '"' ↔ r.2 = true
  found : r.2 = true → n = n₀ + r.1 ∧ i + n < mx
  missed : r.2 = false → min (i+n) mx = i + n₀ + r.1

theorem Scanned.shift {n₀ n k : ℕ} {r : ℕ × Bool} (h : Scanned mx i (n₀+k) r n c) :
    Scanned mx i n₀ (r.1+k,r.2) n c := by
  obtain ⟨hq,hf,hm⟩ := h
  refine ⟨hq,fun hr => ?_,fun hr => ?_⟩
  · have hf := hf hr
    exact ⟨by omega,hf.2⟩
  · have hm := hm hr
    omega

theorem scanString_eq {n : ℕ} (h : At z mx (i+n) s) (hm : s.length < m) (hc : s = [] → c ≠ ch '"') :
    ∃ n' c', scanString z mx i m n c = .ok (n',c') ∧ Scanned mx i n (Xjd1.scanString s) n' c' := by
  induction m generalizing s n c with
  | zero => exact absurd hm (Nat.not_lt_zero _)
  | succ m ih =>
    rw [scanString]
    cases s with
    | nil =>
      have hl := h.length
      rw [List.length_nil] at hl
      rw [Xjd1.scanString.eq_def]
      exact ⟨n,c,if_neg h.end,⟨iff_of_false (hc rfl) Bool.false_ne_true,fun h => absurd h Bool.false_ne_true,
        fun _ => by simp only; omega⟩⟩
    | cons d t =>
      have hlt := h.lt
      rw [List.length_cons] at hm
      rw [if_pos hlt,h.byte,Run.ok_bind,Xjd1.scanString.eq_def]
      by_cases h0 : d = 0
      · exact ⟨n,d,if_pos (Or.inl h0),by
          simp only [if_pos h0]
          exact ⟨iff_of_false (by rw [h0]; decide) Bool.false_ne_true,fun h => absurd h Bool.false_ne_true,
            fun _ => by omega⟩⟩
      by_cases hq : d = ch '"'
      · exact ⟨n,d,if_pos (Or.inr hq),by
          simp only [if_neg h0,if_pos hq]
          exact ⟨iff_of_true hq rfl,fun _ => ⟨rfl,hlt⟩,fun h => absurd h.symm Bool.false_ne_true⟩⟩
      rw [if_neg (not_or.mpr ⟨h0,hq⟩)]
      simp only [if_neg h0,if_neg hq]
      by_cases hb : d = ch '\\'
      · rw [if_pos hb]
        simp only [if_pos hb]
        cases t with
        | nil =>
          -- the byte behind the backslash is not in the text
          have hl := h.length
          rw [List.length_singleton] at hl
          obtain ⟨m,rfl⟩ := Nat.exists_eq_succ_of_ne_zero (Nat.ne_zero_of_lt (Nat.lt_of_succ_lt_succ hm))
          exact ⟨n+2,d,by rw [scanString,if_neg (by omega)],
            ⟨iff_of_false hq Bool.false_ne_true,fun h => absurd h Bool.false_ne_true,fun _ => by simp only; omega⟩⟩
        | cons e t =>
          have ht : At z mx (i+(n+2)) t := h.tail.tail
          rw [List.length_cons] at hm
          obtain ⟨n',c',heq,hs⟩ := ih ht (by omega) (fun _ => hq)
          exact ⟨n',c',heq,hs.shift⟩
      · rw [if_neg hb]
        simp only [if_neg hb]
        have ht : At z mx (i+(n+1)) t := h.tail
        obtain ⟨n',c',heq,hs⟩ := ih ht (by omega) (fun _ => hq)
        exact ⟨n',c',heq,hs.shift⟩

theorem stringToken_eq (h : At z mx (i+1) t) (hm : t.length < m) (junk : UInt8) : stringToken m junk z mx i =
    .ok (if (Xjd1.scanString t).2 then (.string,(Xjd1.scanString t).1+2) else (.error,(Xjd1.scanString t).1+1)) := by
  rw [stringToken]
  cases t with
  | nil =>
    -- nothing follows the quote, and the loop has not set `c`
    obtain ⟨m,rfl⟩ := Nat.exists_eq_succ_of_ne_zero (Nat.ne_zero_of_lt hm)
    have hl := h.length
    rw [List.length_nil] at hl
    have hi : mx - i = 1 := by omega
    rw [scanString,if_neg h.end,Run.ok_bind]
    simp only
    by_cases hj : junk = ch '"'
    · rw [if_pos hj,if_pos (by omega),hi]
      rfl
    · rw [if_neg hj,if_neg (by omega),if_neg hj]
      rfl
  | cons d t =>
    obtain ⟨n,c,heq,hq,hf,hm'⟩ := scanString_eq (c := junk) h hm fun h => absurd h (List.cons_ne_nil d t)
    rw [heq,Run.ok_bind]
    simp only
    cases hr : (Xjd1.scanString (d::t)).2 with
    | true =>
      obtain ⟨hn,hlt⟩ := hf hr
      have hc := hq.mpr hr
      rw [if_pos hc,if_neg (by omega),if_pos hc,if_pos rfl,hn]
      congr 2
      omega
    | false =>
      have hn := hm' hr
      have hc : c ≠ ch '"' := fun h => by simp [hq.mp h] at hr
      rw [if_neg hc,if_neg hc,if_neg Bool.false_ne_true]
      split
      · congr 2
        omega
      · congr 2
        omega

theorem isWord_eq (h : At z mx i s) (word : Bytes) : isWord word z mx i = .ok (Xjd1.isWord word s) := by
  have hl := h.length
  rw [isWord,Xjd1.isWord]
  by_cases hw : word.length ≤ s.length
  · have hskip := h.skip hw
    rw [if_pos (by omega),h.bytes hw,Run.ok_bind]
    by_cases he : s.take word.length = word
    · have hp : word.isPrefixOf s = true := List.isPrefixOf_iff_prefix.mpr (he ▸ List.take_prefix _ _)
      rw [if_pos he,hp,Bool.true_and]
      cases hd : s.drop word.length with
      | nil =>
        rw [List.drop_eq_nil_iff] at hd
        rw [if_pos (by omega)]
        rfl
      | cons c t =>
        rw [hd] at hskip
        have hlt := hskip.lt
        rw [if_neg (by omega),hskip.byte]
        rfl
    · have hp : word.isPrefixOf s = false :=
        Bool.eq_false_iff.mpr fun hp => he (List.prefix_iff_eq_take.mp (List.isPrefixOf_iff_prefix.mp hp)).symm
      rw [if_neg he,hp]
      rfl
  · have hp : word.isPrefixOf s = false :=
      Bool.eq_false_iff.mpr fun hp => hw (List.isPrefixOf_iff_prefix.mp hp).length_le
    rw [if_neg (by omega),hp]
    rfl

theorem isExp_eq (h : At z mx i s) : isExp z i (mx-i) = .ok (Xjd1.isExp s) := by
  have hl := h.length
  match s, h, hl with
  | [], h, hl => exact if_pos (by rw [List.length_nil] at hl; omega)
  | [c], h, hl => exact if_pos (by rw [List.length_singleton] at hl; omega)
  | c::d::t, h, hl =>
    rw [List.length_cons,List.length_cons] at hl
    rw [isExp,if_neg (by omega),h.byte,Run.ok_bind,Xjd1.isExp]
    by_cases hc : c ≠ ch 'e' ∧ c ≠ ch 'E'
    · rw [if_pos hc,beq_eq_false_iff_ne.mpr hc.1,beq_eq_false_iff_ne.mpr hc.2]
      rfl
    have hc' : (c == ch 'e' || c == ch 'E') = true := by
      rw [Bool.or_eq_true,beq_iff_eq,beq_iff_eq]
      exact or_iff_not_and_not.mpr hc
    rw [if_neg hc,h.tail.byte,Run.ok_bind,hc',Bool.true_and]
    cases hd : xjd1Isdigit d with
    | true => rfl
    | false =>
      rw [if_neg Bool.false_ne_true,Bool.false_or]
      by_cases hs : d ≠ ch '-' ∧ d ≠ ch '+'
      · rw [if_pos (Or.inr hs),beq_eq_false_iff_ne.mpr hs.1,beq_eq_false_iff_ne.mpr hs.2]
        rfl
      have hs' : (d == ch '-' || d == ch '+') = true := by
        rw [Bool.or_eq_true,beq_iff_eq,beq_iff_eq]
        exact or_iff_not_and_not.mpr hs
      rw [hs',Bool.true_and]
      cases t with
      | nil =>
        rw [List.length_nil] at hl
        rw [if_pos (Or.inl (by omega))]
        rfl
      | cons e t =>
        rw [List.length_cons] at hl
        rw [if_neg (not_or.mpr ⟨by omega,hs⟩),h.tail.tail.byte]
        rfl

theorem scanDigits_eq {n : ℕ} (h : At z mx (i+n) (c::t)) (hm : t.length + 1 < m) :
    scanDigits m z mx i n = .ok (n + if (c::t).head? = some (ch '0') then 1 else digits (c::t)) := by
  rw [scanDigits,h.byte,Run.ok_bind,List.head?_cons]
  by_cases hc : c = ch '0'
  · rw [if_pos hc,if_pos (congrArg some hc)]
  · rw [if_neg hc,if_neg fun h => hc (Option.some.inj h),scanWhile_eq _ h hm]
    rfl

theorem scanFraction_eq {n : ℕ} (h : At z mx (i+n) s) (hm : s.length < m) :
    scanFraction m z mx i n = .ok (n + Xjd1.scanFraction s) := by
  have hl := h.length
  match s, h, hl, hm with
  | [], h, hl, hm => exact if_neg (by rw [List.length_nil] at hl; omega)
  | [c], h, hl, hm => exact if_neg (by rw [List.length_singleton] at hl; omega)
  | c::d::t, h, hl, hm =>
    rw [List.length_cons,List.length_cons] at hl
    rw [scanFraction,if_pos (by omega),h.byte,Run.ok_bind,Xjd1.scanFraction]
    by_cases hc : c = ch '.'
    · rw [if_pos hc,h.tail.byte,Run.ok_bind]
      cases hd : xjd1Isdigit d with
      | true =>
        rw [if_pos rfl,if_pos ⟨hc,rfl⟩,scanWhile_eq _ h.tail (Nat.lt_of_succ_lt hm),← Nat.add_assoc]
        rfl
      | false =>
        rw [if_neg Bool.false_ne_true,if_neg fun h => Bool.false_ne_true h.2]
        rfl
    · rw [if_neg hc,if_neg fun h => hc h.1]
      rfl

theorem scanExponent_eq {n : ℕ} (h : At z mx (i+n) s) (hm : s.length < m) :
    scanExponent m z mx i n = .ok (n + Xjd1.scanExponent s) := by
  rw [scanExponent,isExp_eq h,Run.ok_bind,Xjd1.scanExponent]
  cases he : Xjd1.isExp s with
  | true =>
    have h2 := isExp_length he
    rw [if_pos rfl,if_pos rfl,scanWhile_eq _ (h.skip h2) (by rw [List.length_drop]; omega),← Nat.add_assoc]
    rfl
  | false => rfl

theorem scanUnsigned_eq {n : ℕ} (h : At z mx (i+n) (c::t)) (hm : t.length + 1 < m) :
    scanUnsigned m z mx i n = .ok (n + Xjd1.scanUnsigned (c::t)) := by
  have hn : (if (c::t).head? = some (ch '0') then 1 else digits (c::t)) ≤ (c::t).length := by
    have hd := digits_le (c::t)
    rw [List.length_cons] at hd ⊢
    split <;> omega
  rw [scanUnsigned,scanDigits_eq h hm,Run.ok_bind]
  simp only [Xjd1.scanUnsigned]
  generalize (if (c::t).head? = some (ch '0') then 1 else digits (c::t)) = k at hn ⊢
  have hk := h.skip hn
  rw [Nat.add_assoc] at hk
  have hf := scanFraction_le ((c::t).drop k)
  have hj := hk.skip hf
  rw [List.drop_drop,Nat.add_assoc,Nat.add_assoc] at hj
  rw [List.length_drop,List.length_cons] at hf
  rw [scanFraction_eq hk (by rw [List.length_drop,List.length_cons]; omega),Run.ok_bind,Nat.add_assoc,
    scanExponent_eq hj (by rw [List.length_drop,List.length_cons]; omega),Nat.add_assoc]

theorem ite_eq_ok {α : Type} {p : Prop} [Decidable p] {x y : Run ReadFault α} {a b : α} (h : p → x = .ok a)
    (h' : ¬ p → y = .ok b) : (if p then x else y) = .ok (if p then a else b) := by
  split
  · exact h ‹_›
  · exact h' ‹_›

theorem lexToken_eq (h : At z mx i (c::t)) (hm : t.length + 1 < m) (junk : UInt8) :
    lexToken m junk z mx i = .ok (Xjd1.lexToken (c::t)) := by
  have hword (word : Bytes) (a b : JsonTok × ℕ) :
      (do return if ← isWord word z mx i then a else b) = Run.ok (if Xjd1.isWord word (c::t) then a else b) := by
    rw [isWord_eq h]
    rfl
  rw [lexToken,h.byte,Run.ok_bind,Xjd1.lexToken]
  refine ite_eq_ok (fun _ => rfl) fun _ => ?_
  refine ite_eq_ok (fun _ => stringToken_eq h.tail (by omega) junk) fun _ => ?_
  iterate 6 refine ite_eq_ok (fun _ => rfl) fun _ => ?_
  iterate 3 refine ite_eq_ok (fun _ => hword _ _ _) fun _ => ?_
  refine ite_eq_ok (fun _ => ?_) fun _ => ?_
  · cases t with
    | nil =>
      rw [if_neg (by have hl := h.length; rw [List.length_singleton] at hl; omega)]
      rfl
    | cons d t =>
      rw [if_pos h.tail.lt,h.tail.byte,Run.ok_bind]
      refine ite_eq_ok (fun _ => ?_) fun _ => rfl
      rw [scanUnsigned_eq h.tail (Nat.lt_of_succ_lt hm)]
      rfl
  · refine ite_eq_ok (fun _ => ?_) fun _ => rfl
    rw [scanUnsigned_eq h hm,Nat.zero_add]
    rfl

/-- The tokenizer reads what it is given, and moves as the one on lists does. -/
theorem tokenNext_eq {p : JsonStr} (hle : p.mxIn ≤ p.zIn.length) (hi : p.iCur + p.n ≤ p.mxIn)
    (hm : p.mxIn < m) (junk : UInt8) : tokenNext m junk p = .ok (Xjd1.tokenNext p) := by
  have h : At p.zIn p.mxIn (p.iCur + p.n) p.unread := ⟨hle,hi,rfl⟩
  have hl := h.length
  have hw := (List.takeWhile_prefix xjd1Isspace (l := p.unread)).length_le
  have hs := h.skip hw
  have hd : p.unread.drop (p.unread.takeWhile xjd1Isspace).length = p.unread.dropWhile xjd1Isspace :=
    (congrArg (List.drop _) List.takeWhile_append_dropWhile.symm).trans List.drop_left
  rw [hd] at hs
  rw [tokenNext,scanWhile_eq _ h (by omega),Run.ok_bind,Xjd1.tokenNext]
  simp only
  cases hu : p.unread.dropWhile xjd1Isspace with
  | nil =>
    rw [hu] at hs
    rw [if_neg hs.end]
    rfl
  | cons c t =>
    rw [hu] at hs
    have hlen := hs.length
    rw [List.length_cons] at hlen
    rw [if_pos hs.lt,lexToken_eq hs (by omega)]
    rfl

end At

/-- In `xjd1DequoteString`, `out` has been written over the start of the copy, `gap` has been read
since, and `s` is still to be read. -/
structure Midway (n i j : ℕ) (z out gap s : Bytes) : Prop where
  eq : z = out ++ gap ++ s
  ne : gap ≠ []
  i : i = out.length + gap.length
  j : j = out.length
  n : n = out.length + gap.length + s.length

section Dequote
variable {n m i j : ℕ} {z out gap s t w : Bytes} {c : UInt8}

theorem Midway.read (h : Midway n i j z out gap (c::s)) : readCopy z i = .ok c := by
  have hi : i = (out ++ gap).length := by rw [h.i,List.length_append]
  rw [readCopy,h.eq,List.getElem?_append_right (Nat.le_of_eq hi.symm),hi,Nat.sub_self]
  rfl

theorem Midway.skip (h : Midway n i j z out gap (c::s)) : Midway n (i+1) j z out (gap ++ [c]) s := by
  have hn := h.n
  rw [List.length_cons] at hn
  refine ⟨by rw [h.eq]; simp,by simp,?_,h.j,?_⟩
  · rw [h.i,List.length_append,List.length_singleton,Nat.add_assoc]
  · rw [List.length_append,List.length_singleton]
    omega

theorem Midway.write (h : Midway n i j z out gap s) (c : UInt8) :
    writeCopy z j c = .ok (out ++ [c] ++ gap.tail ++ s) := by
  obtain ⟨g,gap,rfl⟩ := List.exists_cons_of_ne_nil h.ne
  rw [writeCopy,h.eq,h.j,if_pos (by simp),List.append_assoc,List.set_append_right _ _ (Nat.le_refl _),Nat.sub_self]
  simp

theorem Midway.put (h : Midway n i j z out gap s) (hg : 2 ≤ gap.length) (c : UInt8) :
    Midway n i (j+1) (out ++ [c] ++ gap.tail ++ s) (out ++ [c]) gap.tail s := by
  have hi := h.i
  have hn := h.n
  have ht : gap.tail.length = gap.length - 1 := List.length_tail
  have ho : (out ++ [c]).length = out.length + 1 := List.length_append
  refine ⟨rfl,List.ne_nil_of_length_pos (by omega),by omega,by rw [ho,h.j],by omega⟩

def Written (n i : ℕ) (out s w : Bytes) (x : Run ReadFault (Bytes × ℕ)) : Prop :=
  ∃ z j gap, x = .ok (z,j) ∧ Midway n i j z (out ++ w) gap s

theorem Written.ite {p : Prop} [Decidable p] {v : Bytes} {x y : Run ReadFault (Bytes × ℕ)}
    (h : p → Written n i out s w x) (h' : ¬ p → Written n i out s v y) :
    Written n i out s (if p then w else v) (if p then x else y) := by
  split
  · exact h ‹_›
  · exact h' ‹_›

theorem writeEscape_eq (h : Midway n i j z out gap (c::t)) (hg : gap ≠ []) :
    ∃ w, Xjd1.dequote (ch '\\'::c::t) = w ++ Xjd1.dequote t ∧ Written n (i+1) out t w (writeEscape z n i j) := by
  have hput (d : UInt8) : Written n (i+1) out t [d] (do return (← writeCopy z j d,j+1)) := by
    have hlen : 2 ≤ (gap ++ [c]).length := by
      have hpos := List.length_pos_of_ne_nil hg
      rw [List.length_append,List.length_singleton]
      omega
    exact ⟨_,_,_,by rw [h.skip.write d]; rfl,h.skip.put hlen d⟩
  have hlen : i + 4 < n ↔ 4 ≤ t.length := by
    rw [h.n,h.i,List.length_cons]
    omega
  rw [Xjd1.dequote,if_pos rfl]
  refine ⟨_,rfl,?_⟩
  rw [writeEscape,h.read,Run.ok_bind]
  simp only [hlen]
  refine .ite (fun _ => hput 8) fun _ => ?_
  refine .ite (fun _ => hput 12) fun _ => ?_
  refine .ite (fun _ => hput 10) fun _ => ?_
  refine .ite (fun _ => hput 13) fun _ => ?_
  refine .ite (fun _ => hput 9) fun _ => ?_
  refine .ite (fun _ => ?_) fun _ => hput c
  exact ⟨z,j,_,rfl,by rw [List.append_nil]; exact h.skip⟩

theorem dequote_eq (h : Midway n i j z out gap s) (hm : s.length < m) :
    ∃ r, dequote n m z i j = .ok (out ++ Xjd1.dequote s ++ 0::r) := by
  induction m generalizing s out gap z i j with
  | zero => exact absurd hm (Nat.not_lt_zero _)
  | succ m ih =>
    have hi := h.i
    have hn := h.n
    have hend (hs : s.length < 2) (hd : Xjd1.dequote s = []) :
        ∃ r, dequote n (m+1) z i j = .ok (out ++ Xjd1.dequote s ++ 0::r) := by
      refine ⟨gap.tail ++ s,?_⟩
      rw [dequote,if_neg (by omega),h.write,hd]
      simp
    match s, h, hm, hn, hend with
    | [], _, _, _, hend => exact hend Nat.two_pos rfl
    | [c], _, _, _, hend => exact hend Nat.one_lt_two rfl
    | c::d::t, h, hm, hn, _ =>
      rw [List.length_cons,List.length_cons] at hm hn
      rw [dequote,if_pos (by omega),h.read,Run.ok_bind]
      by_cases hc : c = ch '\\'
      · obtain rfl := hc
        obtain ⟨w,hw,z',j',gap',heq,hmid⟩ := writeEscape_eq h.skip (by simp)
        obtain ⟨r,hr⟩ := ih hmid (by omega)
        rw [if_neg (not_not.mpr rfl),heq,Run.ok_bind,hw,← List.append_assoc]
        exact ⟨r,hr⟩
      · have hlen : 2 ≤ (gap ++ [c]).length := by
          have hpos := List.length_pos_of_ne_nil h.ne
          rw [List.length_append,List.length_singleton]
          omega
        obtain ⟨r,hr⟩ := ih (h.skip.put hlen c) (by rw [List.length_cons]; omega)
        rw [if_pos hc,h.skip.write,Run.ok_bind,Xjd1.dequote,if_neg hc,
          List.append_cons out c (Xjd1.dequote (d::t))]
        exact ⟨r,hr⟩

end Dequote

end Bounded

theorem dequote_noNul {s : Bytes} (h : 0 ∉ s) : 0 ∉ dequote s := by
  induction s using dequote.induct with
  | case1 d t ih =>
    rw [dequote,if_pos rfl,List.mem_append,not_or]
    simp only [List.mem_cons,not_or] at h
    refine ⟨?_,ih h.2.2⟩
    iterate 5 refine iteInduction (motive := fun w : Bytes => 0 ∉ w) (fun _ => by decide) fun _ => ?_
    exact iteInduction (motive := fun w : Bytes => 0 ∉ w) (fun _ => List.not_mem_nil) fun _ hd =>
      h.2.1 (List.mem_singleton.mp hd)
  | case2 c d t hc ih =>
    rw [dequote,if_neg hc,List.mem_cons,not_or]
    rw [List.mem_cons,not_or] at h
    exact ⟨h.1,ih h.2⟩
  | case3 s hs =>
    rw [dequote]
    · exact List.not_mem_nil
    · exact hs

namespace Bounded

structure Quoted (p : JsonStr) : Prop where
  two : 2 ≤ p.n
  first : p.zIn[p.iCur]? = some (ch '"')
  last : p.zIn[p.iCur + p.n - 1]? = some (ch '"')

theorem tokenDequoteString_eq {p : JsonStr} {m : ℕ} (hz : 0 ∉ p.zIn) (hle : p.iCur + p.n ≤ p.zIn.length)
    (hq : Quoted p) (hm : p.n < m) : tokenDequoteString m p = .ok (Xjd1.tokenDequoteString p) := by
  obtain ⟨h2,h0,h1⟩ := hq
  have hw (k : ℕ) (hk : k < p.n) : ((p.zIn.drop p.iCur).take p.n)[k]? = p.zIn[p.iCur+k]? := by
    rw [List.getElem?_take_of_lt hk,List.getElem?_drop]
  have hw0 := (hw 0 (by omega)).trans h0
  have hw1 : ((p.zIn.drop p.iCur).take p.n)[p.n-1]? = some (ch '"') := by
    rw [hw _ (by omega),← h1]
    congr 1
    omega
  have hlen : ((p.zIn.drop p.iCur).take p.n).length = p.n := by
    rw [List.length_take,List.length_drop]
    omega
  have hmem : ∀ c ∈ (p.zIn.drop p.iCur).take p.n, c ∈ p.zIn := fun c hc =>
    List.mem_of_mem_drop (List.mem_of_mem_take hc)
  have hbytes : bytesAt p.zIn p.iCur p.n = .ok ((p.zIn.drop p.iCur).take p.n) := by
    rw [bytesAt,if_pos (by omega),List.drop_append_of_le_length (by omega),
      List.take_append_of_le_length (by rw [List.length_drop]; omega)]
  rw [tokenDequoteString,byteAt,h0,Run.ok_bind,byteAt,h1,Run.ok_bind,if_pos ⟨rfl,rfl⟩,hbytes,Run.ok_bind,
    Xjd1.tokenDequoteString,tokenString]
  generalize (p.zIn.drop p.iCur).take p.n = w at hw0 hw1 hlen hmem
  cases w with
  | nil => cases hw0
  | cons c t =>
    obtain rfl := Option.some.inj hw0
    have ht : 0 ∉ t := fun h => hz (hmem 0 (List.mem_cons_of_mem _ h))
    rw [List.length_cons] at hlen
    have hmid : Midway p.n 1 0 (ch '"'::t) [] [ch '"'] t :=
      ⟨rfl,List.cons_ne_nil _ _,rfl,rfl,by rw [List.length_nil,List.length_singleton]; omega⟩
    obtain ⟨r,hr⟩ := dequote_eq hmid (m := m) (by omega)
    have hall : ∀ c ∈ Xjd1.dequote t, decide (c ≠ 0) = true := fun c hc =>
      decide_eq_true fun h => dequote_noNul ht (h ▸ hc)
    rw [xjd1DequoteString,if_pos h2,readCopy,readCopy,hw1,List.getElem?_cons_zero,Run.ofOption_some,Run.ok_bind,
      Run.ok_bind,if_pos ⟨rfl,rfl⟩,hr,Run.ok_bind,List.nil_append,List.takeWhile_append_of_pos hall,
      List.takeWhile_cons_of_neg (by simp),List.append_nil]
    rfl

end Bounded

end Xjd1
