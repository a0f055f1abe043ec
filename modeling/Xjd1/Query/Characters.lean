import Xjd1.Query.Operators

/-! The characters of a string: what a subscript reads of them, and what `length` counts. -/
namespace Xjd1

open Fueled

def utf8 (cs : List Char) : Bytes := cs.flatMap String.utf8EncodeChar

def isContinuation (c : UInt8) : Bool := c &&& 0xc0 = 0x80

/-- The bytes of one character: a byte below `0x80`, or a lead byte with continuation bytes. -/
def IsUtf8Char (w : Bytes) : Prop :=
  ∃ c ds, w = c::ds ∧ isContinuation c = false ∧ (∀ d ∈ ds, isContinuation d) ∧ (0xc0 ≤ c ∨ ds = [])

theorem isUtf8Char_encode (c : Char) : IsUtf8Char (String.utf8EncodeChar c) := by
  have htail (v : ℕ) : isContinuation (UInt8.ofNat (v % 64 + 0x80)) := by
    have h : ∀ m < 64, isContinuation (UInt8.ofNat (m + 0x80)) := by decide
    exact h _ (Nat.mod_lt v (by decide))
  have hlead {m : ℕ} (h : 0xc0 ≤ m ∧ m < 0x100) :
      isContinuation (UInt8.ofNat m) = false ∧ 0xc0 ≤ UInt8.ofNat m := by
    have hall : ∀ k < 64, isContinuation (UInt8.ofNat (k + 0xc0)) = false ∧ 0xc0 ≤ UInt8.ofNat (k + 0xc0) := by
      decide
    obtain ⟨k,rfl⟩ := Nat.exists_eq_add_of_le' h.1
    exact hall k (by omega)
  have hone : ∀ m < 0x80, isContinuation (UInt8.ofNat m) = false := by decide
  rw [String.utf8EncodeChar]
  split
  · rename_i h
    have hlt : c.val.toNat < 0x80 := Nat.lt_succ_of_le h
    exact ⟨_,[],rfl,hone _ hlt,by simp,Or.inr rfl⟩
  split
  · have hm : 0xc0 ≤ c.val.toNat / 64 % 0x20 + 0xc0 ∧ c.val.toNat / 64 % 0x20 + 0xc0 < 0x100 := by omega
    refine ⟨_,_,rfl,(hlead hm).1,?_,Or.inl (hlead hm).2⟩
    exact List.forall_mem_singleton.mpr (htail _)
  split
  · have hm : 0xc0 ≤ c.val.toNat / 4096 % 0x10 + 0xe0 ∧ c.val.toNat / 4096 % 0x10 + 0xe0 < 0x100 := by omega
    refine ⟨_,_,rfl,(hlead hm).1,?_,Or.inl (hlead hm).2⟩
    exact List.forall_mem_cons.mpr ⟨htail _,List.forall_mem_singleton.mpr (htail _)⟩
  · have hm : 0xc0 ≤ c.val.toNat / 262144 % 0x08 + 0xf0 ∧ c.val.toNat / 262144 % 0x08 + 0xf0 < 0x100 := by omega
    refine ⟨_,_,rfl,(hlead hm).1,?_,Or.inl (hlead hm).2⟩
    exact List.forall_mem_cons.mpr ⟨htail _,List.forall_mem_cons.mpr ⟨htail _,List.forall_mem_singleton.mpr (htail _)⟩⟩

theorem utf8_head (cs : List Char) : (utf8 cs).head?.any isContinuation = false := by
  cases cs with
  | nil => rfl
  | cons c cs =>
    obtain ⟨d,ds,hd,hc,_⟩ := isUtf8Char_encode c
    rw [utf8,List.flatMap_cons,hd]
    exact hc

/-- `XJD1_SKIP_UTF8` passes one character. -/
theorem skipUtf8_char {w s : Bytes} (hw : IsUtf8Char w) (hs : s.head?.any isContinuation = false) :
    skipUtf8 (w ++ s) = s := by
  obtain ⟨c,ds,rfl,_,hds,hlead⟩ := hw
  have hdrop : (ds ++ s).dropWhile isContinuation = s := by
    rw [List.dropWhile_append_of_pos hds]
    cases s with
    | nil => rfl
    | cons d s => exact List.dropWhile_cons_of_neg (by simpa using hs)
  rw [List.cons_append,skipUtf8]
  split
  · exact hdrop
  · rename_i h
    rw [hlead.resolve_left h,List.nil_append]

theorem skipUtf8_iterate (cs : List Char) (i : ℕ) : Nat.iterate skipUtf8 i (utf8 cs) = utf8 (cs.drop i) := by
  induction i generalizing cs with
  | zero => rfl
  | succ i ih =>
    rw [Function.iterate_succ_apply]
    cases cs with
    | nil =>
      have hskip : skipUtf8 (utf8 []) = utf8 [] := rfl
      rw [hskip,ih,List.drop_nil,List.drop_nil]
    | cons c cs =>
      have hskip : skipUtf8 (utf8 (c::cs)) = utf8 cs := skipUtf8_char (isUtf8Char_encode c) (utf8_head cs)
      rw [hskip,ih,List.drop_succ_cons]

variable {R : Type} [CDouble R]

/-- The doubles of the integers: they convert back as long as they are in the range of `int`. -/
structure Integers (R : Type) [CDouble R] : Prop where
  toInt : ∀ i : Int, CDouble.toInt (CDouble.ofInt i : R) = if -2^31 ≤ i ∧ i < 2^31 then some i else none
  eq : ∀ i : Int, CDouble.eq (CDouble.ofInt i : R) (CDouble.ofInt i) = true

section Subscript
variable (hR : Integers R)
include hR

theorem subscript_int {i : Int} (hi : -2^31 ≤ i ∧ i < 2^31) :
    subscript (.real (CDouble.ofInt i : R)) = .ok (if 0 ≤ i then some i.toNat else none) := by
  have htoInt : toInt (CDouble.ofInt i : R) = .ok i := by
    rw [toInt,hR.toInt,if_pos hi]
    rfl
  simp [subscript,xjd1JsonToReal,htoInt,hR.eq]

theorem subscript_large {i : Int} (hi : ¬ (-2^31 ≤ i ∧ i < 2^31)) :
    subscript (.real (CDouble.ofInt i : R)) = .stop .undefined := by
  have htoInt : toInt (CDouble.ofInt i : R) = .stop .undefined := by
    rw [toInt,hR.toInt,if_neg hi]
    rfl
  simp [subscript,xjd1JsonToReal,htoInt]

/-- A subscript in the range of `int` reads the character of that number, or nothing. -/
theorem subscript_char (cs : List Char) {i : ℕ} (hi : i < 2^31) :
    subscriptOperator (.string (utf8 cs)) (.real (CDouble.ofInt i : R)) =
      .ok (cs[i]?.elim .null fun c => .string (String.utf8EncodeChar c)) := by
  have hrange : -2^31 ≤ (i : Int) ∧ (i : Int) < 2^31 := by omega
  simp only [subscriptOperator,subscript_int hR hrange,Run.ok_bind,Int.natCast_nonneg,if_true,Int.toNat_natCast,
    skipUtf8_iterate]
  cases hc : cs[i]? with
  | none =>
    rw [List.drop_of_length_le (List.getElem?_eq_none_iff.mp hc)]
    rfl
  | some c =>
    obtain ⟨hlt,hget⟩ := List.getElem?_eq_some_iff.mp hc
    have hdrop : utf8 (cs.drop i) = String.utf8EncodeChar c ++ utf8 (cs.drop (i+1)) := by
      rw [List.drop_eq_getElem_cons hlt,hget,utf8,List.flatMap_cons]
      rfl
    have hne : (String.utf8EncodeChar c ++ utf8 (cs.drop (i+1))).isEmpty = false := by
      obtain ⟨d,ds,hd,_⟩ := isUtf8Char_encode c
      rw [hd]
      rfl
    rw [hdrop,skipUtf8_char (isUtf8Char_encode c) (utf8_head _),hne,List.length_append,Nat.add_sub_cancel,
      List.take_left]
    rfl

/-- A subscript gives a string for the numbers of the characters below `2^31`. -/
theorem subscript_string_iff (cs : List Char) (i : Int) :
    (∃ w, subscriptOperator (.string (utf8 cs)) (.real (CDouble.ofInt i : R)) = .ok (.string w)) ↔
      0 ≤ i ∧ i < cs.length ∧ i < 2^31 := by
  by_cases hi : -2^31 ≤ i ∧ i < 2^31
  · by_cases hpos : 0 ≤ i
    · obtain ⟨k,rfl⟩ := Int.eq_ofNat_of_zero_le hpos
      rw [subscript_char hR cs (by omega)]
      rcases Nat.lt_or_ge k cs.length with hk | hk
      · rw [List.getElem?_eq_getElem hk]
        exact iff_of_true ⟨_,rfl⟩ (by omega)
      · rw [List.getElem?_eq_none hk]
        exact iff_of_false (fun ⟨w,h⟩ => by cases h) (by omega)
    · refine iff_of_false ?_ fun h => hpos h.1
      rintro ⟨w,h⟩
      rw [subscriptOperator,subscript_int hR hi,if_neg hpos,Run.ok_bind] at h
      cases h
  · refine iff_of_false ?_ (by omega)
    rintro ⟨w,h⟩
    rw [subscriptOperator,subscript_large hR hi,Run.stop_bind] at h
    cases h

end Subscript

/-- `length` gives the number of characters that a subscript can read, and these make up
the string. -/
def LengthFits (R : Type) [CDouble R] (z : Bytes) : Prop :=
  ∃ n : ℕ, xLength (.string z : JsonNode R) = .ok (.real (CDouble.ofInt n)) ∧
    (∀ i : Int, (∃ w, subscriptOperator (.string z) (.real (CDouble.ofInt i : R)) = .ok (.string w)) ↔
      0 ≤ i ∧ i < n) ∧
    ∃ ws : List Bytes, ws.length = n ∧ ws.flatten = z ∧
      ∀ (i : ℕ) w, ws[i]? = some w → subscriptOperator (.string z) (.real (CDouble.ofInt i : R)) = .ok (.string w)

theorem length_utf8 (cs : List Char) :
    (utf8 cs).length = cs.length + (cs.map fun c => c.utf8Size - 1).sum := by
  induction cs with
  | nil => rfl
  | cons c cs ih =>
    have hpos := c.utf8Size_pos
    rw [utf8,List.flatMap_cons,List.length_append,String.length_utf8EncodeChar]
    simp only [utf8] at ih
    simp only [ih,List.length_cons,List.map_cons,List.sum_cons]
    omega

/-- `length` is the number of characters exactly when the bytes behind the first ones of
the characters come to a multiple of `2^30`, which is 0 for any shorter string. -/
theorem lengthFits_iff (hR : Integers R) (cs : List Char) : LengthFits R (utf8 cs) ↔
    cs.length < 2^30 ∧ 2^30 ∣ (cs.map fun c => c.utf8Size - 1).sum := by
  have hlen : xjd1Strlen30 (utf8 cs) = (cs.length + (cs.map fun c => c.utf8Size - 1).sum) % 2^30 := by
    rw [xjd1Strlen30,length_utf8]
  have hmod : xjd1Strlen30 (utf8 cs) < 2^30 := Nat.mod_lt _ (by decide)
  have hiff : xjd1Strlen30 (utf8 cs) = cs.length ↔
      cs.length < 2^30 ∧ 2^30 ∣ (cs.map fun c => c.utf8Size - 1).sum := by omega
  rw [← hiff]
  constructor
  · rintro ⟨n,hn,hread,_⟩
    have hn : n = xjd1Strlen30 (utf8 cs) := by
      have hof : (CDouble.ofInt (xjd1Strlen30 (utf8 cs)) : R) = CDouble.ofInt n :=
        JsonNode.real.inj (Run.ok.inj hn)
      have hto := hR.toInt n
      rw [← hof,hR.toInt,if_pos (by omega)] at hto
      split at hto
      · exact Int.ofNat.inj (Option.some.inj hto).symm
      · cases hto
    subst hn
    have hall (i : Int) : (0 ≤ i ∧ i < cs.length ∧ i < 2^31) ↔ (0 ≤ i ∧ i < xjd1Strlen30 (utf8 cs)) := by
      rw [← subscript_string_iff hR,hread]
    have h1 := hall (xjd1Strlen30 (utf8 cs))
    have h2 := hall cs.length
    have h3 := hall (2^30)
    omega
  · intro h
    refine ⟨cs.length,by rw [xLength,h],fun i => ?_,cs.map String.utf8EncodeChar,List.length_map _,rfl,?_⟩
    · rw [subscript_string_iff hR]
      omega
    · intro i w hw
      rw [List.getElem?_map] at hw
      obtain ⟨c,hc,rfl⟩ := Option.map_eq_some_iff.mp hw
      have hlt := (List.getElem?_eq_some_iff.mp hc).1
      rw [subscript_char hR cs (by omega),hc]
      rfl

theorem integers_int : Integers Int := ⟨fun _ => rfl,fun _ => decide_eq_true rfl⟩

theorem lengthFits_two : LengthFits Int (utf8 ['a','b']) :=
  (lengthFits_iff integers_int ['a','b']).mpr (by decide)

/-- One character of two bytes: `length` is 2, and there is no second character. -/
theorem lengthFits_accent : ¬ LengthFits Int [0xc3,0xa9] := by
  rintro ⟨n,hn,hread,_⟩
  have htwo : (2 : Int) = n := JsonNode.real.inj (Run.ok.inj hn)
  obtain ⟨w,hw⟩ := (hread 1).mpr (by omega)
  have hnull : subscriptOperator (.string [0xc3,0xa9]) (.real (1 : Int)) = .ok .null := rfl
  cases hnull.symm.trans hw

end Xjd1
