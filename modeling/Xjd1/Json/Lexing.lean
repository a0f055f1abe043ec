import Xjd1.Json.Text
import Mathlib.Tactic.SplitIfs
import Mathlib.Tactic.Push

/-! What the tokenizer makes of rendered text: every literal, string and number
is one token before any text the renderer can put after it. -/
namespace Xjd1

variable {R : Type}

def Delimited (s : Bytes) : Prop :=
  s = [] ∨ ∃ c t, s = c::t ∧ (c = ch ',' ∨ c = ch ']' ∨ c = ch '\x7d')

theorem Delimited.left {s b : Bytes} (h : Delimited (s ++ b)) : Delimited s := by
  cases s with
  | nil => exact .inl rfl
  | cons c t =>
    rcases h with h | ⟨d,u,h,hd⟩
    · cases h
    · cases h
      exact .inr ⟨c,t,rfl,hd⟩

theorem Delimited.not_ident {s : Bytes} (h : Delimited s) : s.head?.any xjd1Isident = false := by
  rcases h with rfl | ⟨c,t,rfl,rfl | rfl | rfl⟩ <;> rfl

theorem isWord_append (w : Bytes) {s : Bytes} (h : s.head?.any xjd1Isident = false) : isWord w (w ++ s) = true := by
  simp [isWord,h,List.isPrefixOf_iff_prefix]

theorem lexToken_true {s : Bytes} (h : s.head?.any xjd1Isident = false) : lexToken (zTrue ++ s) = (.true,4) := by
  have hw := isWord_append zTrue h
  simp only [zTrue,List.cons_append,List.nil_append] at hw ⊢
  simp only [lexToken,zTrue,hw]
  rfl

theorem lexToken_false {s : Bytes} (h : s.head?.any xjd1Isident = false) : lexToken (zFalse ++ s) = (.false,5) := by
  have hw := isWord_append zFalse h
  simp only [zFalse,List.cons_append,List.nil_append] at hw ⊢
  simp only [lexToken,zFalse,hw]
  rfl

theorem lexToken_null {s : Bytes} (h : s.head?.any xjd1Isident = false) : lexToken (zNull ++ s) = (.null,4) := by
  have hw := isWord_append zNull h
  simp only [zNull,List.cons_append,List.nil_append] at hw ⊢
  simp only [lexToken,zNull,hw]
  rfl

/-- The scan of an escaped body stops at the quote the renderer put after it. -/
theorem scanString_escape (z s : Bytes) (hz : 0 ∉ z) :
    scanString (z.flatMap escape ++ ch '"' :: s) = ((z.flatMap escape).length,true) := by
  induction z with
  | nil => rw [List.flatMap_nil,List.nil_append,scanString.eq_def]; simp
  | cons c z ih =>
    have hc : c ≠ 0 := fun h => hz (by simp [h])
    have hz' : 0 ∉ z := fun h => hz (List.mem_cons_of_mem _ h)
    by_cases he : c = ch '"' ∨ c = ch '\\'
    · have hes : escape c = [ch '\\',c] := by simp only [escape,if_pos he]
      rw [List.flatMap_cons,hes,List.append_assoc,List.cons_append,List.cons_append,
        List.nil_append,scanString.eq_def]
      simp only [ih hz',List.length_append,List.length_cons,List.length_nil]
      rw [if_neg (by decide),if_neg (by decide),if_pos trivial,Nat.add_comm]
    · have hes : escape c = [c] := by simp only [escape,if_neg he]
      push Not at he
      rw [List.flatMap_cons,hes,List.append_assoc,List.cons_append,List.nil_append,scanString.eq_def]
      simp only [if_neg hc,if_neg he.1,if_neg he.2,ih hz',List.length_append,List.length_cons,
        List.length_nil]
      rw [Nat.add_comm]

theorem lexToken_string (z s : Bytes) (hz : 0 ∉ z) :
    lexToken (renderString z ++ s) = (.string,(renderString z).length) := by
  have hs := scanString_escape z s hz
  rw [renderString,List.cons_append,List.append_assoc,List.cons_append,List.nil_append]
  simp only [lexToken,hs,List.length_cons,List.length_append,List.length_nil]
  rfl

/-- Dequoting an escaped body gives the string back. -/
theorem dequote_escape (z : Bytes) : dequote (z.flatMap escape ++ [ch '"']) = z := by
  induction z with
  | nil => rfl
  | cons c z ih =>
    by_cases he : c = ch '"' ∨ c = ch '\\'
    · have hes : escape c = [ch '\\',c] := by simp only [escape,if_pos he]
      rw [List.flatMap_cons,hes,List.append_assoc,List.cons_append,List.cons_append,
        List.nil_append,dequote,ih]
      rcases he with rfl | rfl <;> simp
    · have hes : escape c = [c] := by simp only [escape,if_neg he]
      push Not at he
      rw [List.flatMap_cons,hes,List.append_assoc,List.cons_append,List.nil_append]
      cases h : z.flatMap escape ++ [ch '"'] with
      | nil => simp at h
      | cons d t => rw [dequote,if_neg he.2,← h,ih]

theorem Delimited.not_digit {s : Bytes} (h : Delimited s) : s.head?.any xjd1Isdigit = false := by
  rcases h with rfl | ⟨c,t,rfl,rfl | rfl | rfl⟩ <;> rfl

theorem takeWhile_append_of_head {p : UInt8 → Bool} (t s : Bytes) (h : s.head?.any p = false) :
    (t ++ s).takeWhile p = t.takeWhile p := by
  induction t with
  | nil => cases s <;> simp_all
  | cons c t ih => simp only [List.cons_append,List.takeWhile_cons,ih]

theorem digits_append (t s : Bytes) (h : Delimited s) : digits (t ++ s) = digits t := by
  rw [digits,digits,takeWhile_append_of_head t s h.not_digit]

theorem digits_le (t : Bytes) : digits t ≤ t.length :=
  (List.takeWhile_prefix _).length_le

theorem scanFraction_le (t : Bytes) : scanFraction t ≤ t.length := by
  match t with
  | [] => simp [scanFraction]
  | [_] => simp [scanFraction]
  | c::d::t =>
    have h := digits_le (d::t)
    simp only [scanFraction,List.length_cons] at h ⊢
    split_ifs <;> omega

theorem scanFraction_append (t s : Bytes) (h : Delimited s) : scanFraction (t ++ s) = scanFraction t := by
  have hd := h.not_digit
  match t with
  | [] =>
    rcases h with rfl | ⟨c,u,rfl,hc⟩
    · rfl
    · cases u with
      | nil => rfl
      | cons d u => rcases hc with rfl | rfl | rfl <;> simp [scanFraction]
  | [c] =>
    cases s with
    | nil => rfl
    | cons d u =>
      have hd' : xjd1Isdigit d = false := by simpa using hd
      simp [scanFraction,hd']
  | c::d::t =>
    have hh := digits_append (d::t) s h
    simp only [List.cons_append] at hh
    simp only [List.cons_append,scanFraction,hh]

theorem isExp_append (t s : Bytes) (h : Delimited s) : isExp (t ++ s) = isExp t := by
  have hd := h.not_digit
  match t with
  | [] =>
    rcases h with rfl | ⟨c,u,rfl,hc⟩
    · rfl
    · cases u with
      | nil => rfl
      | cons d u => rcases hc with rfl | rfl | rfl <;> simp [isExp]
  | [c] =>
    rcases h with rfl | ⟨d,u,rfl,hc⟩
    · rfl
    · rcases hc with rfl | rfl | rfl <;> simp [isExp,xjd1Isdigit]
  | [c,d] =>
    cases s with
    | nil => rfl
    | cons e u => simp only [List.cons_append,List.nil_append,isExp,hd,List.head?_nil,Option.any_none]
  | c::d::e::t => simp [isExp]

theorem isExp_length {t : Bytes} (h : isExp t = true) : 2 ≤ t.length := by
  match t, h with
  | c::d::t, _ => simp

theorem scanExponent_append (t s : Bytes) (h : Delimited s) :
    scanExponent (t ++ s) = scanExponent t := by
  unfold scanExponent
  rw [isExp_append t s h]
  split
  · rename_i he
    rw [List.drop_append_of_le_length (isExp_length he),digits_append _ _ h]
  · rfl

theorem scanUnsigned_append (t s : Bytes) (ht : t ≠ []) (h : Delimited s) :
    scanUnsigned (t ++ s) = scanUnsigned t := by
  have hh : (t ++ s).head? = t.head? := by cases t <;> simp_all
  have hn : (if t.head? = some (ch '0') then 1 else digits t) ≤ t.length := by
    have := digits_le t
    have : 0 < t.length := List.length_pos_of_ne_nil ht
    split_ifs <;> omega
  simp only [scanUnsigned,hh,digits_append t s h]
  generalize (if t.head? = some (ch '0') then 1 else digits t) = n at hn ⊢
  have hf := scanFraction_le (t.drop n)
  rw [List.length_drop] at hf
  rw [List.drop_append_of_le_length hn,scanFraction_append _ _ h,
    List.drop_append_of_le_length (by omega),scanExponent_append _ _ h]

theorem lexToken_minus (t : Bytes) (h : t.head?.any xjd1Isdigit = true) :
    lexToken (ch '-' :: t) = (.real,1 + scanUnsigned t) := by
  simp only [lexToken,h]
  rfl

theorem lexToken_digit (c : UInt8) (t : Bytes) (h : xjd1Isdigit c = true) :
    lexToken (c::t) = (.real,scanUnsigned (c::t)) := by
  have hlo : 48 ≤ c := by simp only [xjd1Isdigit,Bool.and_eq_true,decide_eq_true_eq] at h; exact h.1
  have hhi : c ≤ 57 := by simp only [xjd1Isdigit,Bool.and_eq_true,decide_eq_true_eq] at h; exact h.2
  have hne : ∀ d : UInt8, d < 48 ∨ 57 < d → c ≠ d := by
    rintro d hd rfl
    rcases hd with hd | hd
    · exact absurd hlo (UInt8.not_le.mpr hd)
    · exact absurd hhi (UInt8.not_le.mpr hd)
  show (if c = 0 then _ else _) = _
  rw [if_neg (hne _ (by decide)),if_neg (hne _ (by decide)),if_neg (hne _ (by decide)),
    if_neg (hne _ (by decide)),if_neg (hne _ (by decide)),if_neg (hne _ (by decide)),
    if_neg (hne _ (by decide)),if_neg (hne _ (by decide)),if_neg (hne _ (by decide)),
    if_neg (hne _ (by decide)),if_neg (hne _ (by decide)),if_neg (hne _ (by decide)),if_pos h]

theorem eq_of_ite_eq {α : Type} {p : Prop} [Decidable p] {a b x : α} (ha : a ≠ x)
    (h : (if p then a else b) = x) : b = x := by
  split at h
  · exact absurd h ha
  · exact h

/-- Only a digit, or a minus sign before a digit, starts a number token. -/
theorem lexToken_eq_real {c : UInt8} {t : Bytes} {k : ℕ} (h : lexToken (c::t) = (.real,k)) :
    (c = ch '-' ∧ t.head?.any xjd1Isdigit = true) ∨ xjd1Isdigit c = true := by
  change (if c = 0 then _ else _) = _ at h
  iterate 11 replace h := eq_of_ite_eq (by (try split) <;> simp) h
  by_cases hm : c = ch '-'
  · rw [if_pos hm] at h
    split at h
    · exact Or.inl ⟨hm,by assumption⟩
    · cases h
  · rw [if_neg hm] at h
    split at h
    · exact Or.inr (by assumption)
    · cases h

/-- A number token is the same token before whatever the renderer puts after it. -/
theorem lexToken_real (t s : Bytes) (ht : lexToken t = (.real,t.length)) (h : Delimited s) :
    lexToken (t ++ s) = (.real,t.length) := by
  match t with
  | [] => cases ht
  | c::t =>
    rcases lexToken_eq_real ht with ⟨rfl,hd⟩ | hd
    · have hne : t ≠ [] := by rintro rfl; cases hd
      have hd' : (t ++ s).head?.any xjd1Isdigit = true := by cases t <;> simp_all
      rw [lexToken_minus t hd] at ht
      rw [List.cons_append,lexToken_minus _ hd',scanUnsigned_append t s hne h,ht]
    · rw [lexToken_digit c t hd] at ht
      have hu := scanUnsigned_append (c::t) s (by simp) h
      rw [List.cons_append] at hu ⊢
      rw [lexToken_digit _ _ hd,hu,ht]

theorem scanString_extent (s : Bytes) : (scanString s).1 ≤ s.length ∧
    ((scanString s).2 = true → s[(scanString s).1]? = some (ch '"')) := by
  induction s using scanString.induct with
  | case1 =>
    rw [scanString.eq_def]
    exact ⟨Nat.zero_le _,nofun⟩
  | case2 t =>
    rw [scanString.eq_def]
    exact ⟨Nat.zero_le _,nofun⟩
  | case3 t =>
    rw [scanString.eq_def]
    exact ⟨Nat.zero_le _,fun _ => rfl⟩
  | case4 =>
    rw [scanString.eq_def]
    exact ⟨Nat.le_refl _,nofun⟩
  | case5 _ _ d t ih =>
    rw [scanString.eq_def]
    exact ⟨Nat.add_le_add_right ih.1 2,fun h => ih.2 h⟩
  | case6 c t h0 hq hb ih =>
    rw [scanString.eq_def]
    simp only [if_neg h0,if_neg hq,if_neg hb]
    exact ⟨Nat.add_le_add_right ih.1 1,fun h => ih.2 h⟩

theorem scanExponent_le (s : Bytes) : scanExponent s ≤ s.length := by
  rw [scanExponent]
  split
  · have h2 := isExp_length ‹_›
    have hd := digits_le (s.drop 2)
    rw [List.length_drop] at hd
    omega
  · exact Nat.zero_le _

theorem scanUnsigned_le (c : UInt8) (t : Bytes) : scanUnsigned (c::t) ≤ t.length + 1 := by
  have hn : (if (c::t).head? = some (ch '0') then 1 else digits (c::t)) ≤ t.length + 1 := by
    have hd := digits_le (c::t)
    rw [List.length_cons] at hd
    split <;> omega
  simp only [scanUnsigned]
  generalize (if (c::t).head? = some (ch '0') then 1 else digits (c::t)) = n at hn ⊢
  have hf := scanFraction_le ((c::t).drop n)
  have he := scanExponent_le ((c::t).drop (n + scanFraction ((c::t).drop n)))
  rw [List.length_drop,List.length_cons] at hf he
  omega

theorem isWord_le {word s : Bytes} (h : isWord word s = true) : word.length ≤ s.length := by
  rw [isWord,Bool.and_eq_true,List.isPrefixOf_iff_prefix] at h
  exact h.1.length_le

/-- A token of type and length `r` is in the text `s`; a string is between quotes. -/
structure Extent (s : Bytes) (r : JsonTok × ℕ) : Prop where
  le : r.2 ≤ s.length
  quoted : r.1 = .string → 2 ≤ r.2 ∧ s[0]? = some (ch '"') ∧ s[r.2-1]? = some (ch '"')

theorem lexToken_extent (c : UInt8) (t : Bytes) : Extent (c::t) (lexToken (c::t)) := by
  have hone (ty : JsonTok) (h : ty ≠ .string) : Extent (c::t) (ty,1) :=
    ⟨Nat.succ_le_succ (Nat.zero_le _),fun h' => absurd h' h⟩
  have hword (word : Bytes) (ty : JsonTok) (h : ty ≠ .string) :
      Extent (c::t) (if isWord word (c::t) then (ty,word.length) else (.error,1)) :=
    iteInduction (fun hw => ⟨isWord_le hw,fun h' => absurd h' h⟩) fun _ => hone _ nofun
  change Extent _ (if c = 0 then _ else _)
  refine iteInduction (fun _ => ⟨Nat.zero_le _,nofun⟩) fun _ => ?_
  refine iteInduction (fun hq => ?_) fun _ => ?_
  · obtain ⟨hle,hclose⟩ := scanString_extent t
    refine iteInduction (fun hs => ?_) fun _ => ⟨Nat.succ_le_succ hle,nofun⟩
    have hlt := (List.getElem?_eq_some_iff.mp (hclose hs)).1
    exact ⟨Nat.succ_le_succ hlt,fun _ => ⟨Nat.le_add_left 2 _,congrArg some hq,hclose hs⟩⟩
  iterate 6 refine iteInduction (fun _ => hone _ nofun) fun _ => ?_
  refine iteInduction (fun _ => hword zTrue .true nofun) fun _ => ?_
  refine iteInduction (fun _ => hword zFalse .false nofun) fun _ => ?_
  refine iteInduction (fun _ => hword zNull .null nofun) fun _ => ?_
  refine iteInduction (fun _ => iteInduction (fun hd => ?_) fun _ => hone _ nofun) fun _ => ?_
  · refine ⟨?_,nofun⟩
    cases t with
    | nil => cases hd
    | cons d t =>
      have h := scanUnsigned_le d t
      rw [List.length_cons,List.length_cons]
      show 1 + scanUnsigned (d::t) ≤ _
      omega
  · exact iteInduction (fun _ => ⟨scanUnsigned_le c t,nofun⟩) fun _ => hone _ nofun

/-- The text after the current token of `p` is `s`, and `b` is what the limit `mxIn` hides behind it. -/
structure Ready (p : JsonStr) (s b : Bytes) : Prop where
  unread : p.unread = s
  text : p.zIn.drop (p.iCur + p.n) = s ++ b

structure OnToken (p : JsonStr) (ty : JsonTok) (tok rest b : Bytes) : Prop where
  eType : p.eType = ty
  n : p.n = tok.length
  str : tokenString p = tok ++ (rest ++ b)
  ready : Ready p rest b

theorem ready_jsonStr (z : Bytes) (m : ℕ) : Ready (jsonStr z m) (z.take m) (z.drop m) :=
  ⟨rfl,(List.take_append_drop m z).symm⟩

theorem tokenNext_on {p : JsonStr} {ty : JsonTok} {c : UInt8} {t rest b : Bytes}
    (hp : Ready p (c::t ++ rest) b) (hc : xjd1Isspace c = false)
    (hl : lexToken (c::t ++ rest) = (ty,(c::t).length)) :
    OnToken (tokenNext p) ty (c::t) rest b := by
  obtain ⟨hu,hz⟩ := hp
  have hw : p.unread.takeWhile xjd1Isspace = [] := by rw [hu]; simp [hc]
  have hdr : p.unread.dropWhile xjd1Isspace = c::t ++ rest := by rw [hu]; simp [hc]
  have hq : tokenNext p = { p with iCur := p.iCur + p.n, n := (c::t).length, eType := ty } := by
    simp only [tokenNext,hw,hdr,hl,List.length_nil,Nat.add_zero]
    rfl
  rw [hq]
  rw [List.append_assoc] at hz
  refine ⟨rfl,rfl,hz,?_,?_⟩
  · rw [JsonStr.unread,← List.drop_drop]
    exact (congrArg (List.drop _) hu).trans List.drop_left
  · simp only
    rw [← List.drop_drop,hz]
    exact List.drop_left

theorem tokenNext_punct {p : JsonStr} {ty : JsonTok} {c : UInt8} {rest b : Bytes}
    (hp : Ready p (c::rest) b) (hc : xjd1Isspace c = false) (hl : lexToken (c::rest) = (ty,1)) :
    OnToken (tokenNext p) ty [c] rest b :=
  tokenNext_on hp hc hl

theorem tokenNext_string {p : JsonStr} {z rest b : Bytes} (hz : 0 ∉ z)
    (hp : Ready p (renderString z ++ rest) b) :
    OnToken (tokenNext p) .string (renderString z) rest b :=
  tokenNext_on hp rfl (lexToken_string z rest hz)

theorem tokenDequoteString_on {p : JsonStr} {z rest b : Bytes}
    (hp : OnToken p .string (renderString z) rest b) : tokenDequoteString p = z := by
  rw [tokenDequoteString,hp.str,hp.n,List.take_left]
  exact dequote_escape z

end Xjd1
