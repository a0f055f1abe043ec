import Xjd1.Mem.Pool

/-! Strings that grow (`string.c`), and the renderer of string literals, which reserves
room in such a string and then fills it. -/
namespace Xjd1

open Buffer Fueled

/-- `struct String`, with or without a pool. A byte of the buffer that has not been written
has no value. -/
structure StringBuf where
  pPool : Bool
  zBuf : Option (List (Option UInt8))
  nUsed : Int
  nAlloc : Int
  deriving DecidableEq, Repr

def intValue (i : Int) : Run MemFault Int := if -2^31 ≤ i ∧ i < 2^31 then .ok i else .stop .overflow

namespace StringBuf

def write (s : StringBuf) (i : Int) (w : List (Option UInt8)) : Run MemFault StringBuf :=
  match s.zBuf with
  | none => .stop .nullPointer
  | some b =>
    if 0 ≤ i ∧ i + w.length ≤ b.length then .ok { s with zBuf := some (overwrite b i.toNat w) } else .stop .outOfBounds

/-- `resizeString`, where the memory is there if `ok` is set: whether it fails, and the string.
From a pool it gets a new block with a copy of the bytes used. -/
def resizeString (ok : Bool) (s : StringBuf) (newSize : Int) : Run MemFault (Bool × StringBuf) :=
  if ok then
    let old := s.zBuf.getD []
    if s.pPool ∧ ¬ (s.nUsed ≤ old.length ∧ s.nUsed ≤ newSize) then .stop .outOfBounds
    else
      let kept := (if s.pPool then old.take s.nUsed.toNat else old).take newSize.toNat
      .ok (false,{ s with zBuf := some (kept ++ List.replicate (newSize.toNat - kept.length) none), nAlloc := newSize })
  else .ok (true,s)

def xjd1StringTruncate (s : StringBuf) : Run MemFault StringBuf :=
  match s.zBuf with
  | none => .ok { s with nUsed := 0 }
  | some _ => { s with nUsed := 0 }.write 0 [some 0]

def appendText (s : StringBuf) (z : Option Bytes) (n : Int) : Run MemFault (Int × StringBuf) :=
  match z with
  | none => .ok (n,s)
  | some z =>
    if n ≤ z.length then do
      let s ← s.write s.nUsed ((z.take n.toNat).map some)
      let s := { s with nUsed := s.nUsed + n }
      let s ← s.write s.nUsed [some 0]
      .ok (n,s)
    else .stop .outOfBounds

def xjd1StringAppend (ok : Bool) (s : StringBuf) (z : Option Bytes) (n : Int) : Run MemFault (Int × StringBuf) := do
  let n := givenLength (z.getD []) n
  let need ← intValue (s.nUsed + n + 1)
  if s.nAlloc ≤ need then do
    let newSize ← intValue (s.nAlloc * 2 + n + 100)
    let (oom,s) ← resizeString ok s newSize
    if oom then .ok (0,s) else s.appendText z n
  else s.appendText z n

def xjd1StringInit (pPool : Bool) (initSize : Int) (ok : Bool) : Run MemFault StringBuf := do
  let s : StringBuf := ⟨pPool,none,0,0⟩
  if 0 < initSize then do
    let (_,s) ← resizeString ok s initSize
    .ok s
  else .ok s

def xjd1StringRemovePrefix (s : StringBuf) (N : Int) : Run MemFault StringBuf :=
  if s.nUsed ≤ N then s.xjd1StringTruncate
  else match s.zBuf with
    | none => .stop .nullPointer
    | some b => do
      let n ← intValue (s.nUsed + 1 - N)
      if 0 ≤ N ∧ N + n ≤ b.length then do
        let s ← s.write 0 ((b.drop N.toNat).take n.toNat)
        .ok { s with nUsed := s.nUsed - N }
      else .stop .outOfBounds

/-- The first loop of `renderString`: the bytes of the string and a backslash for each that needs one. -/
def countEscaped : Bytes → ℕ
  | [] => 0
  | c::z => countEscaped z + if c = ch '"' ∨ c = ch '\\' then 2 else 1

def writeBackslash (s : StringBuf) (c : UInt8) (j : Int) : Run MemFault (StringBuf × Int) :=
  if c = ch '"' ∨ c = ch '\\' then do
    let s ← s.write (s.nUsed + j) [some (ch '\\')]
    .ok (s,j+1)
  else .ok (s,j)

def writeEscaped (s : StringBuf) : Bytes → Int → Run MemFault (StringBuf × Int)
  | [], j => .ok (s,j)
  | c::z, j => do
    let (s,j) ← s.writeBackslash c j
    let s ← s.write (s.nUsed + j) [some c]
    s.writeEscaped z (j+1)

def writeLiteral (s : StringBuf) (z : Bytes) : Run MemFault StringBuf := do
  let s ← s.write s.nUsed [some (ch '"')]
  let (s,j) ← s.writeEscaped z 1
  let s ← s.write (s.nUsed + j) [some (ch '"')]
  let s ← s.write (s.nUsed + (j+1)) [some 0]
  .ok { s with nUsed := s.nUsed + (j+1) }

/-- `renderString`. It does not look at what `xjd1StringAppend` returns. -/
def renderString (ok : Bool) (s : StringBuf) (z : Bytes) : Run MemFault StringBuf := do
  let n ← intValue (countEscaped z + 3)
  let (_,s) ← xjd1StringAppend ok s none n
  match s.zBuf with
  | none => .ok s
  | some _ => s.writeLiteral z

end StringBuf

inductive StringCall
  | append (z : Option Bytes) (n : Int)
  | render (z : Bytes)
  | truncate
  | removePrefix (N : Int)
  deriving DecidableEq, Repr

def StringBuf.call (s : StringBuf) (ok : Bool) : StringCall → Run MemFault StringBuf
  | .append z n => do
    let (_,s) ← s.xjd1StringAppend ok z n
    .ok s
  | .render z => s.renderString ok z
  | .truncate => s.xjd1StringTruncate
  | .removePrefix N => s.xjd1StringRemovePrefix N

def StringBuf.run (s : StringBuf) : List (StringCall × Bool) → Run MemFault StringBuf
  | [] => .ok s
  | (c,ok)::cs => s.call ok c >>= fun t => t.run cs

namespace StringBuf

structure Sound (s : StringBuf) : Prop where
  int : s.nAlloc < 2^31
  empty : s.zBuf = none → s.nUsed = 0 ∧ s.nAlloc = 0
  buffer : ∀ b, s.zBuf = some b → b.length = s.nAlloc ∧ 0 ≤ s.nUsed ∧ s.nUsed < s.nAlloc

def content (s : StringBuf) : List (Option UInt8) := (s.zBuf.getD []).take s.nUsed.toNat

variable {s : StringBuf} {b : List (Option UInt8)} {n : Int}

theorem Sound.nonneg (h : s.Sound) : 0 ≤ s.nUsed ∧ s.nUsed ≤ s.nAlloc ∧ (s.zBuf.getD []).length = s.nAlloc := by
  cases hb : s.zBuf with
  | none =>
    obtain ⟨h1,h2⟩ := h.empty hb
    rw [h1,h2]
    exact ⟨Int.le_refl 0,Int.le_refl 0,rfl⟩
  | some b =>
    obtain ⟨h1,h2,h3⟩ := h.buffer b hb
    exact ⟨h2,h3.le,h1⟩

theorem write_ok {i : Int} {w : List (Option UInt8)} (hb : s.zBuf = some b) (hi : 0 ≤ i) (h : i + w.length ≤ b.length) :
    s.write i w = .ok { s with zBuf := some (overwrite b i.toNat w) } := by
  rw [write,hb]
  exact if_pos ⟨hi,h⟩

theorem resizeString_ok (h : s.Sound) (hn : s.nUsed < n) : ∃ b, resizeString true s n =
    .ok (false,{ s with zBuf := some b, nAlloc := n }) ∧ b.length = n ∧ b.take s.nUsed.toNat = s.content := by
  obtain ⟨h0,hle,hlen⟩ := h.nonneg
  rw [resizeString,if_pos rfl,if_neg fun h => h.2 ⟨by omega,hn.le⟩]
  have hkept : s.nUsed.toNat ≤ (if s.pPool then (s.zBuf.getD []).take s.nUsed.toNat else s.zBuf.getD []).length := by
    split
    · rw [List.length_take]
      omega
    · omega
  refine ⟨_,rfl,?_,?_⟩
  · simp only [List.length_append,List.length_take,List.length_replicate]
    omega
  · rw [List.take_append_of_le_length (by rw [List.length_take]; omega),List.take_take,Nat.min_eq_left (by omega),
      content]
    split
    · rw [List.take_take,Nat.min_self]
    · rfl

def Full (s : StringBuf) (n : Int) : Prop := s.nAlloc ≤ s.nUsed + n + 1

instance (s : StringBuf) (n : Int) : Decidable (s.Full n) := inferInstanceAs (Decidable (s.nAlloc ≤ s.nUsed + n + 1))

/-- The sizes computed when `n` bytes are appended are in the range of `int`. -/
def Fits (s : StringBuf) (n : Int) : Prop := s.nUsed + n + 1 < 2^31 ∧ (s.Full n → s.nAlloc * 2 + n + 100 < 2^31)

theorem intValue_ok {i : Int} (h1 : 0 ≤ i) (h2 : i < 2^31) : intValue i = .ok i := if_pos ⟨by omega,h2⟩

/-- The string `t` is `s` with room for `n` more bytes and a terminator. -/
structure Room (s t : StringBuf) (n : Int) : Prop where
  sound : t.Sound
  buffer : t.zBuf.isSome
  nUsed : t.nUsed = s.nUsed
  content : t.content = s.content
  room : t.nUsed + n + 1 ≤ t.nAlloc

theorem append_cases (h : s.Sound) (z : Option Bytes) (n : Int) (ok : Bool) (h0 : 0 ≤ givenLength (z.getD []) n)
    (hf : s.Fits (givenLength (z.getD []) n)) :
    (ok = false ∧ s.Full (givenLength (z.getD []) n) ∧ xjd1StringAppend ok s z n = .ok (0,s)) ∨
    ∃ t, Room s t (givenLength (z.getD []) n) ∧
      xjd1StringAppend ok s z n = t.appendText z (givenLength (z.getD []) n) := by
  obtain ⟨hu,hle,hlen⟩ := h.nonneg
  simp only [xjd1StringAppend]
  generalize givenLength (z.getD []) n = n at h0 hf
  rw [intValue_ok (by omega) hf.1,Run.ok_bind]
  by_cases hfull : s.nAlloc ≤ s.nUsed + n + 1
  · rw [if_pos hfull,intValue_ok (by omega) (hf.2 hfull),Run.ok_bind]
    cases ok with
    | false => exact .inl ⟨rfl,hfull,rfl⟩
    | true =>
      obtain ⟨b,hr,hb,hc⟩ := resizeString_ok h (n := s.nAlloc * 2 + n + 100) (by omega)
      rw [hr]
      refine .inr ⟨{ s with zBuf := some b, nAlloc := s.nAlloc * 2 + n + 100 },⟨⟨hf.2 hfull,nofun,?_⟩,rfl,rfl,hc,?_⟩,rfl⟩
      · rintro _ ⟨⟩
        exact ⟨hb,hu,by simp only; omega⟩
      · simp only
        omega
  · rw [if_neg hfull]
    refine .inr ⟨s,⟨h,?_,rfl,rfl,by omega⟩,rfl⟩
    cases hb : s.zBuf with
    | none =>
      have h2 := (h.empty hb).2
      omega
    | some b => rfl

theorem appendText_ok {z : Bytes} {b : List (Option UInt8)} (hb : s.zBuf = some b) (h : s.Sound) (h0 : 0 ≤ n)
    (hz : n ≤ z.length) (hr : s.nUsed + n + 1 ≤ s.nAlloc) : ∃ t, s.appendText (some z) n = .ok (n,t) ∧ t.Sound ∧
      t.content = s.content ++ (z.take n.toNat).map some := by
  obtain ⟨hlen,hu,_⟩ := h.buffer b hb
  have hw : ((z.take n.toNat).map some).length = n.toNat := by
    rw [List.length_map,List.length_take]
    omega
  have hk : s.nUsed.toNat + ((z.take n.toNat).map some).length ≤ b.length := by omega
  have hl := length_overwrite hk
  rw [appendText]
  simp only
  rw [if_pos hz,write_ok hb hu (by omega),Run.ok_bind]
  have hnext : (s.nUsed + n).toNat = s.nUsed.toNat + ((z.take n.toNat).map some).length := by omega
  rw [write_ok (b := overwrite b s.nUsed.toNat ((z.take n.toNat).map some)) rfl (by simp only; omega)
    (by rw [hl]; simp only [List.length_singleton]; omega),Run.ok_bind]
  refine ⟨_,rfl,⟨h.int,nofun,?_⟩,?_⟩
  · rintro _ ⟨⟩
    rw [length_overwrite (by rw [hl,List.length_singleton]; simp only; omega),hl]
    exact ⟨hlen,by simp only; omega,by simp only; omega⟩
  · simp only [content,Option.getD_some,hb,hnext]
    rw [take_overwrite_of_le (Nat.le_refl _) (by rw [hl,List.length_singleton]; omega),take_overwrite hk]

theorem countEscaped_eq (z : Bytes) : countEscaped z = (z.flatMap escape).length := by
  induction z with
  | nil => rfl
  | cons c z ih =>
    rw [countEscaped,List.flatMap_cons,List.length_append,ih,escape,Nat.add_comm]
    split <;> rfl

theorem length_renderString (z : Bytes) : ((Xjd1.renderString z).length : Int) + 1 = countEscaped z + 3 := by
  rw [Xjd1.renderString,List.length_cons,List.length_append,countEscaped_eq,List.length_singleton]
  omega

/-- The second loop makes as many steps as the first one has counted. -/
theorem writeEscaped_count {s t : StringBuf} {z : Bytes} {j j' : Int} (h : s.writeEscaped z j = .ok (t,j')) :
    j' = j + countEscaped z := by
  induction z generalizing s j with
  | nil =>
    cases h
    exact (Int.add_zero _).symm
  | cons c z ih =>
    rw [writeEscaped] at h
    obtain ⟨⟨u,k⟩,hu,h⟩ := Run.bind_eq_ok.mp h
    obtain ⟨v,_,h⟩ := Run.bind_eq_ok.mp h
    rw [ih h,countEscaped]
    rw [writeBackslash] at hu
    split at hu
    · rename_i hc
      obtain ⟨w,_,hu⟩ := Run.bind_eq_ok.mp hu
      cases hu
      rw [if_pos hc]
      omega
    · rename_i hc
      cases hu
      rw [if_neg hc]
      omega

def filled (s : StringBuf) (b : List (Option UInt8)) (w : Bytes) : StringBuf :=
  { s with zBuf := some (overwrite b s.nUsed.toNat (w.map some)) }

theorem write_filled (hu : 0 ≤ s.nUsed) {w v : Bytes} {i : Int} (hi : i = w.length)
    (h : s.nUsed + (w ++ v).length ≤ b.length) :
    (s.filled b w).write ((s.filled b w).nUsed + i) (v.map some) = .ok (s.filled b (w ++ v)) := by
  subst hi
  rw [List.length_append] at h
  have hw : (w.map some).length = w.length := List.length_map _
  have hv : (v.map some).length = v.length := List.length_map _
  have hl := length_overwrite (b := b) (w := w.map some) (i := s.nUsed.toNat) (by omega)
  have hnext : (s.nUsed + w.length).toNat = s.nUsed.toNat + (w.map some).length := by omega
  have hover : overwrite (overwrite b s.nUsed.toNat (w.map some)) (s.nUsed + w.length).toNat (v.map some) =
      overwrite b s.nUsed.toNat ((w ++ v).map some) := by
    rw [hnext,overwrite_append (by rw [List.length_append]; omega),List.map_append]
  rw [write_ok (b := overwrite b s.nUsed.toNat (w.map some)) rfl (by simp only [filled]; omega)
    (by rw [hl]; simp only [filled]; omega)]
  simp only [filled,hover]

theorem writeBackslash_filled (hu : 0 ≤ s.nUsed) {w : Bytes} {c : UInt8} {i : Int} (hi : i = w.length)
    (h : s.nUsed + (w ++ escape c).length ≤ b.length) : ∃ v, escape c = v ++ [c] ∧
      (s.filled b w).writeBackslash c i = .ok (s.filled b (w ++ v),((w ++ v).length : Int)) := by
  subst hi
  rw [List.length_append] at h
  by_cases hc : c = ch '"' ∨ c = ch '\\'
  · have he : escape c = [ch '\\'] ++ [c] := if_pos hc
    rw [he] at h
    have hw := write_filled hu (b := b) (w := w) (v := [ch '\\']) rfl (by
      rw [List.length_append]
      simp only [List.length_append,List.length_singleton] at h ⊢
      omega)
    refine ⟨_,he,?_⟩
    rw [writeBackslash,if_pos hc]
    rw [List.map_singleton] at hw
    rw [hw,Run.ok_bind,List.length_append]
    rfl
  · refine ⟨[],if_neg hc,?_⟩
    rw [writeBackslash,if_neg hc,List.append_nil]

theorem writeEscaped_filled (hu : 0 ≤ s.nUsed) {z w : Bytes} {i : Int} (hi : i = w.length)
    (h : s.nUsed + (w ++ z.flatMap escape).length ≤ b.length) : (s.filled b w).writeEscaped z i =
      .ok (s.filled b (w ++ z.flatMap escape),((w ++ z.flatMap escape).length : Int)) := by
  induction z generalizing w i with
  | nil => rw [writeEscaped,List.flatMap_nil,List.append_nil,hi]
  | cons c z ih =>
    rw [List.flatMap_cons,← List.append_assoc] at h ⊢
    have hl := h
    rw [List.length_append] at hl
    obtain ⟨v,hv,hback⟩ := writeBackslash_filled hu (b := b) (w := w) (c := c) hi (by omega)
    rw [hv,← List.append_assoc] at h hl ⊢
    have hw := write_filled hu (b := b) (w := w ++ v) (v := [c]) rfl (by omega)
    rw [List.map_singleton] at hw
    have hnext : (((w ++ v).length : Int) + 1) = ((w ++ v ++ [c]).length : Int) := by
      exact congrArg Nat.cast (@List.length_append _ (w ++ v) [c]).symm
    rw [writeEscaped,hback,Run.ok_bind]
    simp only
    rw [hw,Run.ok_bind,ih hnext h]

theorem writeLiteral_ok {z : Bytes} (hb : s.zBuf = some b) (h : s.Sound)
    (hr : s.nUsed + countEscaped z + 3 ≤ s.nAlloc) :
    ∃ t, s.writeLiteral z = .ok t ∧ t.Sound ∧ t.content = s.content ++ (Xjd1.renderString z).map some := by
  obtain ⟨hlen,hu,_⟩ := h.buffer b hb
  rw [countEscaped_eq] at hr
  have hs : s = s.filled b [] := by rw [filled,List.map_nil,overwrite_nil,← hb]
  have hsize : (Xjd1.renderString z).length = (z.flatMap escape).length + 2 := by
    rw [Xjd1.renderString,List.length_cons,List.length_append]
    rfl
  have hcat : Xjd1.renderString z = [ch '"'] ++ z.flatMap escape ++ [ch '"'] := by
    rw [Xjd1.renderString,List.append_assoc]
    rfl
  have h1 := write_filled hu (b := b) (w := []) (v := [ch '"']) (i := 0) rfl (by
    simp only [List.nil_append,List.length_singleton]; omega)
  rw [← hs,Int.add_zero] at h1
  have h2 := writeEscaped_filled hu (b := b) (z := z) (w := [ch '"']) (i := 1) rfl (by
    rw [List.length_append,List.length_singleton]; omega)
  have h3 := write_filled hu (b := b) (w := [ch '"'] ++ z.flatMap escape) (v := [ch '"']) rfl (by
    rw [← hcat]; omega)
  rw [← hcat] at h3
  have h4 := write_filled hu (b := b) (w := Xjd1.renderString z) (v := [0])
    (i := ((([ch '"'] ++ z.flatMap escape).length : Int) + 1)) (by
      rw [hsize,List.length_append,List.length_singleton]; omega) (by
      rw [List.length_append,hsize,List.length_singleton]; omega)
  rw [List.map_singleton,List.nil_append] at h1
  rw [List.map_singleton] at h3 h4
  rw [writeLiteral,h1,Run.ok_bind,h2,Run.ok_bind]
  simp only
  rw [h3,Run.ok_bind,h4,Run.ok_bind]
  have hlast : (([ch '"'] ++ z.flatMap escape).length : Int) + 1 = (Xjd1.renderString z).length := by
    rw [hsize,List.length_append,List.length_singleton]
    omega
  have hfit : s.nUsed.toNat + ((Xjd1.renderString z).map some ++ [some 0]).length ≤ b.length := by
    rw [List.length_append,List.length_map,List.length_singleton,hsize]
    omega
  rw [hlast]
  refine ⟨_,rfl,⟨h.int,nofun,?_⟩,?_⟩
  · rintro _ ⟨⟩
    rw [List.map_append,List.map_singleton,length_overwrite hfit]
    simp only [filled]
    exact ⟨hlen,by omega,by omega⟩
  · have hk : (s.nUsed + (Xjd1.renderString z).length).toNat =
        s.nUsed.toNat + ((Xjd1.renderString z).map some).length := by
      rw [List.length_map]
      omega
    simp only [content,filled,Option.getD_some,hb]
    rw [hk,List.map_append,List.map_singleton,take_overwrite_append hfit]

theorem truncate_ok (h : s.Sound) : ∃ t, s.xjd1StringTruncate = .ok t ∧ t.Sound ∧ t.content = [] := by
  obtain ⟨p,zBuf,u,a⟩ := s
  cases zBuf with
  | none => exact ⟨⟨p,none,0,a⟩,rfl,⟨h.int,fun _ => ⟨rfl,(h.empty rfl).2⟩,nofun⟩,rfl⟩
  | some b =>
    obtain ⟨h1,h2,h3⟩ := h.buffer b rfl
    have hone : 0 + [some (0 : UInt8)].length ≤ b.length := by
      rw [List.length_singleton]
      simp only at h1 h2 h3
      omega
    refine ⟨⟨p,some (overwrite b 0 [some 0]),0,a⟩,write_ok (s := ⟨p,some b,0,a⟩) rfl (Int.le_refl 0) (by omega),
      ⟨h.int,nofun,?_⟩,rfl⟩
    rintro _ ⟨⟩
    rw [length_overwrite hone]
    exact ⟨h1,Int.le_refl 0,Int.lt_of_le_of_lt h2 h3⟩

theorem removePrefix_ok (h : s.Sound) (hn : 0 ≤ n) : ∃ t, s.xjd1StringRemovePrefix n = .ok t ∧
    t.Sound ∧ t.content = s.content.drop n.toNat := by
  rw [xjd1StringRemovePrefix]
  split
  · rename_i hle
    obtain ⟨t,ht,hs,hc⟩ := truncate_ok h
    refine ⟨t,ht,hs,hc.trans (List.drop_eq_nil_of_le ?_).symm⟩
    rw [content,List.length_take]
    omega
  · rename_i hlt
    cases hb : s.zBuf with
    | none =>
      have hu := (h.empty hb).1
      omega
    | some b =>
      obtain ⟨h1,h2,h3⟩ := h.buffer b hb
      have hint := h.int
      have hm : ((b.drop n.toNat).take (s.nUsed + 1 - n).toNat).length = (s.nUsed + 1 - n).toNat := by
        rw [List.length_take,List.length_drop]
        omega
      simp only
      rw [intValue_ok (by omega) (by omega),Run.ok_bind,if_pos ⟨hn,by omega⟩,write_ok hb (Int.le_refl 0) (by omega),
        Run.ok_bind]
      refine ⟨_,rfl,⟨h.int,nofun,?_⟩,?_⟩
      · rintro _ ⟨⟩
        rw [length_overwrite (by omega)]
        exact ⟨h1,by simp only; omega,by simp only; omega⟩
      · have hk : (s.nUsed - n).toNat = s.nUsed.toNat - n.toNat := by omega
        simp only [content,hb,Option.getD_some,Int.toNat_zero]
        rw [overwrite,List.take_zero,List.nil_append,List.take_append_of_le_length (by omega),List.take_take,
          Nat.min_eq_left (by omega),List.drop_take,hk]

end StringBuf

def StringCall.Readable : StringCall → Prop
  | .append (some z) n => n ≤ z.length
  | _ => True

def StringCall.Enlarges (s : StringBuf) : StringCall → Prop
  | .append z n => s.Full (givenLength (z.getD []) n)
  | .render z => s.Full ((renderString z).length + 1)
  | _ => False

/-- The sizes are in the range of `int`, and a literal for which the buffer cannot be enlarged
fits into the one that is there, if there is one. -/
def StringCall.Safe (s : StringBuf) (ok : Bool) : StringCall → Prop
  | .append z n => s.Fits (givenLength (z.getD []) n)
  | .render z => s.Fits ((renderString z).length + 1) ∧ (s.zBuf.isSome → s.Full ((renderString z).length + 1) →
      ok = false → s.nUsed + (renderString z).length + 1 ≤ s.nAlloc)
  | .truncate => True
  | .removePrefix N => 0 ≤ N

def StringCall.text (w : Bytes) : StringCall → Bytes
  | .append z n => w ++ (z.getD []).take (givenLength (z.getD []) n).toNat
  | .render z => w ++ renderString z
  | .truncate => []
  | .removePrefix N => w.drop N.toNat

def StringBuf.Meets (s : StringBuf) : List (StringCall × Bool) → Prop
  | [] => True
  | (c,ok)::cs => c.Readable ∧ c.Safe s ok ∧ ∀ t, s.call ok c = .ok t → t.Meets cs

def StringBuf.Enlarged (s : StringBuf) : List (StringCall × Bool) → Prop
  | [] => True
  | (c,ok)::cs => ¬ (ok = false ∧ c.Enlarges s) ∧ ∀ t, s.call ok c = .ok t → t.Enlarged cs

namespace StringBuf
variable {s : StringBuf}

theorem append_ok (h : s.Sound) {z : Option Bytes} {n : Int} (ok : Bool) (hr : (StringCall.append z n).Readable)
    (hf : s.Fits (givenLength (z.getD []) n)) : ∃ r t, s.xjd1StringAppend ok z n = .ok (r,t) ∧ t.Sound ∧
      (¬ (ok = false ∧ s.Full (givenLength (z.getD []) n)) →
        t.content = s.content ++ ((z.getD []).take (givenLength (z.getD []) n).toNat).map some) := by
  have h0 : 0 ≤ givenLength (z.getD []) n := by
    rw [givenLength]
    split <;> omega
  rcases append_cases h z n ok h0 hf with ⟨hok,hfull,heq⟩ | ⟨t,ht,heq⟩
  · exact ⟨0,s,heq,h,fun hne => absurd ⟨hok,hfull⟩ hne⟩
  · cases z with
    | none =>
      refine ⟨_,t,heq,ht.sound,fun _ => ?_⟩
      rw [ht.content,Option.getD_none,List.take_nil,List.map_nil,List.append_nil]
    | some z =>
      obtain ⟨b,hb⟩ := Option.isSome_iff_exists.mp ht.buffer
      obtain ⟨u,hu,hs,hc⟩ := appendText_ok hb ht.sound h0 (givenLength_le hr).2 ht.room
      exact ⟨_,u,heq.trans hu,hs,fun _ => by rw [hc,ht.content]; rfl⟩

theorem renderString_ok (h : s.Sound) {z : Bytes} {ok : Bool} (hc : (StringCall.render z).Safe s ok) :
    ∃ t, s.renderString ok z = .ok t ∧ t.Sound ∧
      (¬ (ok = false ∧ s.Full ((Xjd1.renderString z).length + 1)) →
        t.content = s.content ++ (Xjd1.renderString z).map some) := by
  have hlen := length_renderString z
  obtain ⟨hf,hslack⟩ := hc
  rw [hlen] at hf hslack ⊢
  obtain ⟨hu,_,_⟩ := h.nonneg
  have hg : givenLength (Option.getD none []) (countEscaped z + 3) = countEscaped z + 3 := if_neg (by omega)
  have hint := hf.1
  rw [renderString,intValue_ok (by omega) (by omega),Run.ok_bind]
  rcases append_cases h none (countEscaped z + 3) ok (by rw [hg]; omega) (by rwa [hg]) with ⟨hok,hfull,heq⟩ | ⟨t,ht,heq⟩
  · rw [hg] at hfull
    rw [heq,Run.ok_bind]
    cases hb : s.zBuf with
    | none => exact ⟨s,by simp only [hb],h,fun hne => absurd ⟨hok,hfull⟩ hne⟩
    | some b =>
      have hroom := hslack (by rw [hb]; rfl) hfull hok
      obtain ⟨t,ht,hs,_⟩ := writeLiteral_ok (z := z) hb h (by omega)
      exact ⟨t,by simp only [hb,ht],hs,fun hne => absurd ⟨hok,hfull⟩ hne⟩
  · rw [hg] at ht
    obtain ⟨b,hb⟩ := Option.isSome_iff_exists.mp ht.buffer
    have hroom := ht.room
    obtain ⟨u,hw,hs,hcont⟩ := writeLiteral_ok (z := z) hb ht.sound (by omega)
    rw [heq,appendText,Run.ok_bind]
    exact ⟨u,by simp only [hb,hw],hs,fun _ => by rw [hcont,ht.content]⟩

/-- A safe call makes no fault, and adds what it is to add unless an enlargement fails. -/
theorem call_ok (h : s.Sound) {c : StringCall} {ok : Bool} (hr : c.Readable) (hc : c.Safe s ok) :
    ∃ t, s.call ok c = .ok t ∧ t.Sound ∧
      (¬ (ok = false ∧ c.Enlarges s) → ∀ w, s.content = w.map some → t.content = (c.text w).map some) := by
  cases c with
  | append z n =>
    obtain ⟨r,t,ht,hs,hcont⟩ := append_ok h ok hr hc
    refine ⟨t,by rw [call,ht]; rfl,hs,fun hne w hw => ?_⟩
    rw [hcont hne,hw,StringCall.text,List.map_append]
  | render z =>
    obtain ⟨t,ht,hs,hcont⟩ := renderString_ok h hc
    refine ⟨t,ht,hs,fun hne w hw => ?_⟩
    rw [hcont hne,hw,StringCall.text,List.map_append]
  | truncate =>
    obtain ⟨t,ht,hs,hcont⟩ := truncate_ok h
    exact ⟨t,ht,hs,fun _ w _ => hcont⟩
  | removePrefix N =>
    obtain ⟨t,ht,hs,hcont⟩ := removePrefix_ok h hc
    refine ⟨t,ht,hs,fun _ w hw => ?_⟩
    rw [hcont,hw,StringCall.text,List.map_drop]

theorem run_ok {cs : List (StringCall × Bool)} (h : s.Sound) (hm : s.Meets cs) : ∃ t, s.run cs = .ok t ∧ t.Sound ∧
    (s.Enlarged cs → ∀ w, s.content = w.map some → t.content = ((cs.map Prod.fst).foldl StringCall.text w).map some) := by
  induction cs generalizing s with
  | nil => exact ⟨s,rfl,h,fun _ w hw => hw⟩
  | cons c cs ih =>
    obtain ⟨c,ok⟩ := c
    obtain ⟨hr,hc,hm⟩ := hm
    obtain ⟨t,ht,hs,hcont⟩ := call_ok h hr hc
    obtain ⟨u,hu,hsu,hcontu⟩ := ih hs (hm t ht)
    refine ⟨u,by rw [run,ht,Run.ok_bind,hu],hsu,fun he w hw => ?_⟩
    exact hcontu (he.2 t ht) _ (hcont he.1 w hw)

theorem init_sound {pPool ok : Bool} {initSize : Int} (hi : initSize < 2^31)
    (hs : xjd1StringInit pPool initSize ok = .ok s) :
    s.Sound ∧ s.content = [] := by
  have h0 : Sound ⟨pPool,none,0,0⟩ := ⟨(by decide : (0 : Int) < 2^31),fun _ => ⟨rfl,rfl⟩,nofun⟩
  rw [xjd1StringInit] at hs
  split at hs
  · rename_i hpos
    cases ok with
    | false =>
      cases hs
      exact ⟨h0,rfl⟩
    | true =>
      obtain ⟨b,hr,hb,hc⟩ := resizeString_ok h0 hpos
      rw [hr] at hs
      cases hs
      refine ⟨⟨hi,nofun,?_⟩,hc⟩
      rintro _ ⟨⟩
      exact ⟨hb,Int.le_refl 0,hpos⟩
  · cases hs
    exact ⟨h0,rfl⟩

end StringBuf

/-- In a run of safe calls on a fresh string nothing is written outside the buffer; if no enlargement fails, the
string is what the calls make of the empty text; and the loops of `renderString` agree on the room a literal takes. -/
theorem string_run_sound {pPool ok : Bool} {initSize : Int} (hi : initSize < 2^31) {s : StringBuf}
    (hs : StringBuf.xjd1StringInit pPool initSize ok = .ok s) {cs : List (StringCall × Bool)} (hm : s.Meets cs) :
    ∃ t, s.run cs = .ok t ∧ t.Sound ∧
      (s.Enlarged cs → t.content = ((cs.map Prod.fst).foldl StringCall.text []).map some) ∧
      ∀ u v z j, StringBuf.writeEscaped u z 1 = .ok (v,j) → j + 2 = StringBuf.countEscaped z + 3 := by
  obtain ⟨h,hc⟩ := StringBuf.init_sound hi hs
  obtain ⟨t,ht,hst,hcont⟩ := StringBuf.run_ok h hm
  refine ⟨t,ht,hst,fun he => hcont he [] hc,fun u v z j hj => ?_⟩
  have h := StringBuf.writeEscaped_count hj
  omega

/-- A letter is appended, and a literal fits behind it without more memory. -/
def fittingCalls : List (StringCall × Bool) := [(.append (some [ch 'x']) 1,true),(.render [ch '"'],false)]

theorem string_run_sound_fitting : ∃ t, StringBuf.run ⟨false,none,0,0⟩ fittingCalls = .ok t ∧ t.Sound ∧
    (StringBuf.Enlarged ⟨false,none,0,0⟩ fittingCalls →
      t.content = ((fittingCalls.map Prod.fst).foldl StringCall.text []).map some) ∧
    ∀ u v z j, StringBuf.writeEscaped u z 1 = .ok (v,j) → j + 2 = StringBuf.countEscaped z + 3 := by
  refine @string_run_sound false true 0 (by decide) _ rfl _ ⟨?_,?_,fun t ht => ?_⟩
  · exact (by decide : (1 : Int) ≤ 1)
  · exact ⟨by decide,fun _ => by decide⟩
  · cases ht
    exact ⟨trivial,⟨⟨by decide +kernel,fun h => absurd h (by decide +kernel)⟩,fun _ h => absurd h (by decide +kernel)⟩,
      fun _ _ => trivial⟩

/-- A literal for which the buffer cannot be enlarged is written over its end. -/
theorem string_run_overflow : StringBuf.run ⟨false,none,0,0⟩
    [(.append (some [ch 'x']) 1,true),(.render (List.replicate 98 (ch 'a')),false)] = .stop .outOfBounds := by
  decide +kernel

def StringCall.piece (z : Bytes) : StringCall := .append (some z) z.length

theorem StringCall.text_piece (w z : Bytes) : StringCall.text w (.piece z) = w ++ z := by
  have hn : givenLength z z.length = z.length := if_neg (by omega)
  rw [piece,text,Option.getD_some,hn,Int.toNat_natCast,List.take_length]

section Render
variable {R : Type} [CDouble R]

mutual
def renderCalls : JsonNode R → List StringCall
  | .nullptr => [.piece zNull]
  | .false => [.piece zFalse]
  | .true => [.piece zTrue]
  | .null => [.piece zNull]
  | .real r => [.piece (CDouble.fmt17 r)]
  | .string z => [.render z]
  | .array [] => [.piece [ch '['],.piece [ch ']']]
  | .array (v::vs) => .piece [ch '['] :: (renderCalls v ++ elemCalls vs)
  | .struct [] => [.piece [ch '\x7b'],.piece [ch '\x7d']]
  | .struct ((k,v)::ms) => .piece [ch '\x7b'] :: .render k :: .piece [ch ':'] :: (renderCalls v ++ memberCalls ms)

def elemCalls : List (JsonNode R) → List StringCall
  | [] => [.piece [ch ']']]
  | v::vs => .piece [ch ','] :: (renderCalls v ++ elemCalls vs)

def memberCalls : List (Bytes × JsonNode R) → List StringCall
  | [] => [.piece [ch '\x7d']]
  | (k,v)::ms => .piece [ch ','] :: .render k :: .piece [ch ':'] :: (renderCalls v ++ memberCalls ms)
end

mutual
theorem renderCalls_text (w : Bytes) : (v : JsonNode R) → (renderCalls v).foldl StringCall.text w = w ++ xjd1JsonRender v
  | .nullptr | .false | .true | .null | .real _ => by
    rw [renderCalls,List.foldl_cons,StringCall.text_piece,xjd1JsonRender,List.foldl_nil]
  | .string z => by rw [renderCalls,xjd1JsonRender]; rfl
  | .array [] => by
    simp only [renderCalls,List.foldl_cons,StringCall.text_piece,List.foldl_nil,xjd1JsonRender,List.append_assoc]
    rfl
  | .array (v::vs) => by
    rw [renderCalls,List.foldl_cons,List.foldl_append,StringCall.text_piece,renderCalls_text _ v,elemCalls_text _ vs,
      xjd1JsonRender,List.append_assoc,List.append_assoc]
    rfl
  | .struct [] => by
    simp only [renderCalls,List.foldl_cons,StringCall.text_piece,List.foldl_nil,xjd1JsonRender,List.append_assoc]
    rfl
  | .struct ((k,v)::ms) => by
    rw [renderCalls,List.foldl_cons,List.foldl_cons,List.foldl_cons,List.foldl_append,StringCall.text_piece,
      StringCall.text_piece,renderCalls_text _ v,memberCalls_text _ ms,StringCall.text,xjd1JsonRender]
    simp only [List.append_assoc]
    rfl

theorem elemCalls_text (w : Bytes) : (vs : List (JsonNode R)) → (elemCalls vs).foldl StringCall.text w = w ++ renderElems vs
  | [] => by rw [elemCalls,List.foldl_cons,StringCall.text_piece,renderElems,List.foldl_nil]
  | v::vs => by
    rw [elemCalls,List.foldl_cons,List.foldl_append,StringCall.text_piece,renderCalls_text _ v,elemCalls_text _ vs,
      renderElems,List.append_assoc,List.append_assoc]
    rfl

theorem memberCalls_text (w : Bytes) : (ms : List (Bytes × JsonNode R)) →
    (memberCalls ms).foldl StringCall.text w = w ++ renderMembers ms
  | [] => by rw [memberCalls,List.foldl_cons,StringCall.text_piece,renderMembers,List.foldl_nil]
  | (k,v)::ms => by
    rw [memberCalls,List.foldl_cons,List.foldl_cons,List.foldl_cons,List.foldl_append,StringCall.text_piece,
      StringCall.text_piece,renderCalls_text _ v,memberCalls_text _ ms,StringCall.text,renderMembers]
    simp only [List.append_assoc]
    rfl
end

/-- A value is rendered behind the text that is there. -/
theorem jsonRender_run {s : StringBuf} (h : s.Sound) {w : Bytes} (hw : s.content = w.map some) (v : JsonNode R)
    {oks : List Bool} (hl : oks.length = (renderCalls v).length) (hm : s.Meets ((renderCalls v).zip oks)) :
    ∃ t, s.run ((renderCalls v).zip oks) = .ok t ∧ t.Sound ∧
      (s.Enlarged ((renderCalls v).zip oks) → t.content = (w ++ xjd1JsonRender v).map some) := by
  obtain ⟨t,ht,hs,hc⟩ := StringBuf.run_ok h hm
  refine ⟨t,ht,hs,fun he => ?_⟩
  rw [hc he w hw,List.map_fst_zip hl.ge,renderCalls_text]

end Render

end Xjd1
