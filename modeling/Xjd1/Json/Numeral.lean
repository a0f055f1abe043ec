import Mathlib.Data.List.TakeWhile
import Xjd1.Json.Convert

/-! The texts that `strtol` reads to their end when it finds the base itself: white space, a
sign, and the digits of a decimal, octal or hexadecimal number. -/
namespace Xjd1

def Sign (sgn : Bytes) : Prop := sgn = [] ∨ sgn = [ch '+'] ∨ sgn = [ch '-']

def signed (sgn : Bytes) (n : ℕ) : Int := if sgn = [ch '-'] then -n else n

def digitsValue (base : ℕ) (ds : Bytes) : ℕ := ds.foldl (fun n c => base*n + digitValue c) 0

inductive IntText : Bytes → ℕ → Bytes → Prop
  | decimal {ds : Bytes} (h0 : ds.head? ≠ some (ch '0')) (hne : ds ≠ []) (h : ∀ c ∈ ds, isDigitOf 10 c) :
    IntText ds 10 ds
  | octal {ds : Bytes} (h : ∀ c ∈ ds, isDigitOf 8 c) : IntText (ch '0'::ds) 8 (ch '0'::ds)
  | hex {x : UInt8} {ds : Bytes} (hx : x = ch 'x' ∨ x = ch 'X') (hne : ds ≠ []) (h : ∀ c ∈ ds, isDigitOf 16 c) :
    IntText (ch '0'::x::ds) 16 ds

inductive Numeral : Bytes → Bytes → ℕ → Bytes → Prop
  | intro {sgn u ds : Bytes} {base : ℕ} (hs : Sign sgn) (hu : IntText u base ds) : Numeral (sgn ++ u) sgn base ds

def held (v : Int) : Int := max (min v (2^63-1)) (-2^63)

theorem digitValue_of_space {c : UInt8} (h : xjd1Isspace c) : digitValue c = 36 := by
  have hc : (9 ≤ c.toNat ∧ c.toNat ≤ 13) ∨ c.toNat = 32 := by
    simpa [xjd1Isspace,UInt8.le_iff_toNat_le,← UInt8.toNat_inj] using h
  have hd : xjd1Isdigit c = false := by
    simp only [xjd1Isdigit,Bool.and_eq_false_iff,decide_eq_false_iff_not,UInt8.le_iff_toNat_le,UInt8.toNat_ofNat]
    omega
  have h1 : ¬ (97 ≤ c ∧ c ≤ 122) := by simp only [UInt8.le_iff_toNat_le,UInt8.toNat_ofNat]; omega
  have h2 : ¬ (65 ≤ c ∧ c ≤ 90) := by simp only [UInt8.le_iff_toNat_le,UInt8.toNat_ofNat]; omega
  rw [digitValue,hd,if_neg Bool.false_ne_true,if_neg h1,if_neg h2]

def Leading (c : UInt8) : Prop := xjd1Isspace c = false ∧ c ≠ ch '-' ∧ c ≠ ch '+'

theorem leading_of_digit {base : ℕ} {c : UInt8} (hb : base ≤ 36) (h : isDigitOf base c) : Leading c := by
  have hlt : digitValue c < 36 := Nat.lt_of_lt_of_le (of_decide_eq_true h) hb
  refine ⟨?_,?_,?_⟩
  · cases hs : xjd1Isspace c with
    | false => rfl
    | true => exact absurd (digitValue_of_space hs) (Nat.ne_of_lt hlt)
  · rintro rfl
    exact absurd hlt (by decide)
  · rintro rfl
    exact absurd hlt (by decide)

theorem IntText.digits {u ds : Bytes} {base : ℕ} (h : IntText u base ds) :
    ds ≠ [] ∧ ∀ c ∈ ds, isDigitOf base c := by
  cases h with
  | decimal _ hne h => exact ⟨hne,h⟩
  | octal h => exact ⟨List.cons_ne_nil _ _,List.forall_mem_cons.mpr ⟨by decide,h⟩⟩
  | hex _ hne h => exact ⟨hne,h⟩

theorem IntText.head {u ds : Bytes} {base : ℕ} (h : IntText u base ds) : ∃ c t, u = c::t ∧ Leading c := by
  cases h with
  | decimal _ hne h =>
    obtain ⟨c,t,rfl⟩ := List.exists_cons_of_ne_nil hne
    exact ⟨c,t,rfl,leading_of_digit (by decide) (h c List.mem_cons_self)⟩
  | octal => exact ⟨_,_,rfl,by refine ⟨?_,?_,?_⟩ <;> decide⟩
  | hex => exact ⟨_,_,rfl,by refine ⟨?_,?_,?_⟩ <;> decide⟩

theorem strtolBase_intText {u ds : Bytes} {base : ℕ} (h : IntText u base ds) : strtolBase u = (base,ds) := by
  cases h with
  | decimal h0 hne h =>
    have hhead : ∀ {c : UInt8} {t : Bytes}, u = c::t → c ≠ ch '0' := by
      rintro c t rfl rfl
      exact h0 rfl
    rcases u with - | ⟨c,- | ⟨d,- | ⟨e,t⟩⟩⟩
    · exact absurd rfl hne
    · rw [strtolBase,if_neg h0]
      simp
    · rw [strtolBase,if_neg h0]
      simp
    · rw [strtolBase,if_neg fun h => hhead rfl h.1,if_neg (hhead rfl)]
  | @octal ds h =>
    rcases ds with - | ⟨d,- | ⟨e,t⟩⟩
    · rfl
    · rfl
    · have hd : isDigitOf 8 d := h d List.mem_cons_self
      have hx : ¬ (d = ch 'x' ∨ d = ch 'X') := by
        rintro (rfl | rfl) <;> exact absurd hd (by decide)
      rw [strtolBase,if_neg fun h => hx h.2.1,if_pos rfl]
  | @hex x ds hx hne h =>
    obtain ⟨e,t,rfl⟩ := List.exists_cons_of_ne_nil hne
    rw [strtolBase,if_pos ⟨rfl,hx,h e List.mem_cons_self⟩]

theorem intText_strtolBase {u ds : Bytes} {base : ℕ} (h : strtolBase u = (base,ds)) (hne : ds ≠ [])
    (hds : ∀ c ∈ ds, isDigitOf base c) : IntText u base ds := by
  have hplain {s : Bytes} (h : (if s.head? = some (ch '0') then (8,s) else (10,s)) = (base,ds)) :
      IntText s base ds := by
    split at h
    · rename_i h0
      cases h
      obtain ⟨t,rfl⟩ := List.head?_eq_some_iff.mp h0
      exact .octal fun c hc => hds c (List.mem_cons_of_mem _ hc)
    · rename_i h0
      cases h
      exact .decimal h0 hne hds
  rcases u with - | ⟨c,- | ⟨d,- | ⟨e,t⟩⟩⟩
  · exact hplain h
  · exact hplain h
  · exact hplain h
  · rw [strtolBase] at h
    split at h
    · rename_i hx
      cases h
      obtain ⟨rfl,hx,_⟩ := hx
      exact .hex hx hne hds
    · refine hplain ?_
      rw [List.head?_cons,← h]
      simp only [Option.some.injEq]

def strtolAt (z : Bytes) (neg : Prop) [Decidable neg] (u : Bytes) : Int × Bytes :=
  let base := (strtolBase u).1
  let s := (strtolBase u).2
  let digits := s.takeWhile (isDigitOf base)
  if digits.isEmpty then (0,z)
  else (if neg then max (-(digitsValue base digits : Int)) (-2^63) else min (digitsValue base digits : Int) (2^63-1),
    s.drop digits.length)

def unsigned (s : Bytes) : Bytes :=
  if s.head? = some (ch '-') ∨ s.head? = some (ch '+') then s.drop 1 else s

theorem unsigned_sign {sgn u : Bytes} (hs : Sign sgn) (hu : ∀ c ∈ u.head?, c ≠ ch '-' ∧ c ≠ ch '+') :
    unsigned (sgn ++ u) = u := by
  rcases hs with rfl | rfl | rfl
  · refine if_neg ?_
    rintro (h | h)
    · exact (hu _ h).1 rfl
    · exact (hu _ h).2 rfl
  · rfl
  · rfl

theorem unsigned_split (s : Bytes) : ∃ sgn, Sign sgn ∧ s = sgn ++ unsigned s := by
  rw [unsigned]
  split
  · rename_i h
    cases s with
    | nil => simp at h
    | cons c t =>
      rcases h with h | h
      · exact ⟨[ch '-'],Or.inr (Or.inr rfl),by rw [← Option.some.inj h]; rfl⟩
      · exact ⟨[ch '+'],Or.inr (Or.inl rfl),by rw [← Option.some.inj h]; rfl⟩
  · exact ⟨[],Or.inl rfl,rfl⟩

theorem strtol_eq (z : Bytes) : strtol z =
    strtolAt z ((z.dropWhile xjd1Isspace).head? = some (ch '-')) (unsigned (z.dropWhile xjd1Isspace)) := rfl

theorem held_signed (sgn : Bytes) (n : ℕ) : held (signed sgn n) =
    if sgn = [ch '-'] then max (-(n : Int)) (-2^63) else min (n : Int) (2^63-1) := by
  rw [held,signed]
  split <;> omega

theorem dropWhile_spaces {ws s : Bytes} (hws : ∀ c ∈ ws, xjd1Isspace c) (hs : ∀ c ∈ s.head?, xjd1Isspace c = false) :
    (ws ++ s).dropWhile xjd1Isspace = s := by
  rw [List.dropWhile_append_of_pos hws]
  cases s with
  | nil => rfl
  | cons c s => exact List.dropWhile_cons_of_neg (Bool.eq_false_iff.mp (hs c rfl))

/-- White space and a sign are taken off the front. -/
theorem strtol_signed {ws sgn t : Bytes} {c : UInt8} (hws : ∀ c ∈ ws, xjd1Isspace c) (hs : Sign sgn)
    (hc : Leading c) :
    strtol (ws ++ (sgn ++ c::t)) = strtolAt (ws ++ (sgn ++ c::t)) (sgn = [ch '-']) (c::t) := by
  obtain ⟨hspace,hminus,hplus⟩ := hc
  have hdrop : (ws ++ (sgn ++ c::t)).dropWhile xjd1Isspace = sgn ++ c::t := by
    refine dropWhile_spaces hws fun d hd => ?_
    rcases hs with rfl | rfl | rfl <;> cases hd
    · exact hspace
    · rfl
    · rfl
  have hun : unsigned (sgn ++ c::t) = c::t := unsigned_sign hs fun d hd => by cases hd; exact ⟨hminus,hplus⟩
  have hneg : (sgn ++ c::t).head? = some (ch '-') ↔ sgn = [ch '-'] := by
    rcases hs with rfl | rfl | rfl
    · exact iff_of_false (fun h => hminus (Option.some.inj h)) (by decide)
    · exact iff_of_false (by simp) (by decide)
    · exact iff_of_true rfl rfl
  rw [strtol_eq,hdrop,hun]
  simp only [strtolAt,hneg]

/-- `strtol` reads a numeral behind white space to its end. -/
theorem strtol_numeral {ws z sgn ds : Bytes} {base : ℕ} (hws : ∀ c ∈ ws, xjd1Isspace c)
    (h : Numeral z sgn base ds) : strtol (ws ++ z) = (held (signed sgn (digitsValue base ds)),[]) := by
  cases h with
  | intro hs hu =>
    obtain ⟨c,t,rfl,hc⟩ := hu.head
    obtain ⟨hne,hds⟩ := hu.digits
    have htake : ds.takeWhile (isDigitOf base) = ds := List.takeWhile_eq_self_iff.mpr hds
    rw [strtol_signed hws hs hc,strtolAt,strtolBase_intText hu,htake,held_signed,List.drop_length]
    simp only [List.isEmpty_iff,if_neg hne]

/-- `strtol` stops behind a digit other than `0` that a byte other than a digit follows. -/
theorem strtol_stops {sgn t : Bytes} {c d : UInt8} (hs : Sign sgn) (hc : isDigitOf 10 c) (h0 : c ≠ ch '0')
    (hd : isDigitOf 10 d = false) : (strtol (sgn ++ c::d::t)).2 = d::t := by
  have hbase : strtolBase (c::d::t) = (10,c::d::t) := by
    cases t with
    | nil => exact if_neg fun h => h0 (Option.some.inj h)
    | cons e t => rw [strtolBase,if_neg fun h => h0 h.1,if_neg h0]
  have h := strtol_signed (t := d::t) (List.forall_mem_nil _) hs (leading_of_digit (by decide) hc)
  rw [List.nil_append] at h
  rw [h,strtolAt,hbase]
  simp [hc,hd]

/-- What `strtol` reads to its end is a numeral behind white space, or nothing at all. -/
theorem strtol_whole {z : Bytes} (h : (strtol z).2 = []) : z = [] ∨ ∃ ws z' sgn base ds, z = ws ++ z' ∧
    (∀ c ∈ ws, xjd1Isspace c) ∧ Numeral z' sgn base ds := by
  rw [strtol_eq,strtolAt] at h
  split at h
  · exact Or.inl h
  · rename_i hne
    have hz : z = z.takeWhile xjd1Isspace ++ z.dropWhile xjd1Isspace := (List.takeWhile_append_dropWhile ..).symm
    generalize z.dropWhile xjd1Isspace = s at h hne hz
    rcases hb : strtolBase (unsigned s) with ⟨base,ds⟩
    rw [hb] at h hne
    have hall : ds.takeWhile (isDigitOf base) = ds :=
      (List.takeWhile_prefix _).eq_of_length_le (List.drop_eq_nil_iff.mp h)
    rw [hall,List.isEmpty_iff] at hne
    have hu := intText_strtolBase hb hne (List.takeWhile_eq_self_iff.mp hall)
    obtain ⟨sgn,hs,hsplit⟩ := unsigned_split s
    exact Or.inr ⟨_,s,sgn,base,ds,hz,fun c hc => List.mem_takeWhile_imp hc,by rw [hsplit]; exact .intro hs hu⟩

def digitText (n : ℕ) : Bytes := (Nat.toDigits 10 n).map ch

theorem digitText_digit : ∀ d < 10, isDigitOf 10 (ch (Nat.digitChar d)) ∧ digitValue (ch (Nat.digitChar d)) = d := by
  decide

theorem digitText_of_le {n : ℕ} (h : 10 ≤ n) : digitText n = digitText (n/10) ++ [ch (Nat.digitChar (n%10))] := by
  rw [digitText,Nat.toDigits_of_base_le (by decide) h,List.map_append]
  rfl

theorem digitText_ne_nil (n : ℕ) : digitText n ≠ [] := by
  rw [digitText,Ne,List.map_eq_nil_iff]
  exact Nat.toDigits_ne_nil

theorem digitText_digits (n : ℕ) : ∀ c ∈ digitText n, isDigitOf 10 c := by
  induction n using Nat.strong_induction_on with
  | h n ih =>
    rcases Nat.lt_or_ge n 10 with h | h
    · rw [digitText,Nat.toDigits_of_lt_base h]
      exact List.forall_mem_singleton.mpr (digitText_digit n h).1
    · rw [digitText_of_le h]
      exact List.forall_mem_append.mpr ⟨ih (n/10) (by omega),
        List.forall_mem_singleton.mpr (digitText_digit (n%10) (by omega)).1⟩

theorem digitsValue_digitText (n : ℕ) : digitsValue 10 (digitText n) = n := by
  induction n using Nat.strong_induction_on with
  | h n ih =>
    rcases Nat.lt_or_ge n 10 with h | h
    · rw [digitText,Nat.toDigits_of_lt_base h]
      show 10*0 + digitValue (ch (Nat.digitChar n)) = n
      rw [(digitText_digit n h).2,Nat.mul_zero,Nat.zero_add]
    · rw [digitText_of_le h,digitsValue,List.foldl_append,← digitsValue,ih (n/10) (by omega)]
      show 10*(n/10) + digitValue (ch (Nat.digitChar (n%10))) = n
      rw [(digitText_digit (n%10) (by omega)).2]
      omega

theorem digitText_head {n : ℕ} (hn : 0 < n) : (digitText n).head? ≠ some (ch '0') := by
  induction n using Nat.strong_induction_on with
  | h n ih =>
    rcases Nat.lt_or_ge n 10 with h | h
    · rw [digitText,Nat.toDigits_of_lt_base h]
      intro hc
      have hd := (digitText_digit n h).2
      rw [Option.some.inj hc] at hd
      exact absurd hd.symm (by rw [show digitValue (ch '0') = 0 by decide]; omega)
    · rw [digitText_of_le h,List.head?_append_of_ne_nil _ (digitText_ne_nil _)]
      exact ih (n/10) (by omega) (by omega)

end Xjd1
