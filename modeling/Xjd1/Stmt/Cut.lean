import Xjd1.Query.Operators
import Xjd1.Stmt.Literal

/-! How the tokenizer cuts a statement text: the length of a token, and the loop of
`xjd1RunParser` over the tokens. -/
namespace Xjd1

theorem keywordWalk_isSome (z : Bytes) {m k : ℕ} (hm : k ≤ m) (hk : k ≤ 51) : (keywordWalk z m k).isSome := by
  induction m generalizing k with
  | zero =>
    obtain rfl : k = 0 := by omega
    rfl
  | succ m ih =>
    cases k with
    | zero => rfl
    | succ i =>
      have hnext : ∀ i < 51, (aNext[i]?).getD 0 ≤ i := by decide
      have hlen : i < aLen.length := hk
      have hoff : i < aOffset.length := hk
      have hcode : i < aCode.length := hk
      have hi : i < aNext.length := hk
      have hle := hnext i hk
      rw [List.getElem?_eq_getElem hi,Option.getD_some] at hle
      simp only [keywordWalk,List.getElem?_eq_getElem hlen,List.getElem?_eq_getElem hoff,
        List.getElem?_eq_getElem hcode,List.getElem?_eq_getElem hi,Option.bind_eq_bind,Option.bind_some]
      split
      · rfl
      · exact ih (by omega) (by omega)

/-- `keywordCode` has a result exactly when the hash of the identifier is no negative index. -/
theorem keywordCode_isSome (z : Bytes) : (keywordCode z).isSome ↔ z.length < 2 ∨ 0 ≤ keywordHash z := by
  rw [keywordCode]
  split
  · rename_i h
    exact iff_of_true rfl (Or.inl h)
  · rename_i h
    split
    · rename_i hneg
      exact iff_of_false (fun hs => by cases hs) (by omega)
    · rename_i hneg
      have hlt : keywordHash z < 97 := Int.tmod_lt_of_pos _ (by decide)
      have hi : (keywordHash z).toNat < aHash.length := by
        rw [show aHash.length = 97 from rfl]
        omega
      have hmem : ∀ x ∈ aHash, x ≤ 51 := by decide
      rw [List.getElem?_eq_getElem hi,Option.bind_eq_bind,Option.bind_some]
      exact iff_of_true (keywordWalk_isSome z (hmem _ (List.getElem_mem hi)) (hmem _ (List.getElem_mem hi)))
        (Or.inr (by omega))

/-- What can stand between the quotes of a string literal: a quote only in pairs. -/
inductive QuotedBody : Bytes → Prop
  | nil : QuotedBody []
  | char {c : UInt8} {s : Bytes} (hc : c ≠ ch '"') (h : QuotedBody s) : QuotedBody (c::s)
  | pair {s : Bytes} (h : QuotedBody s) : QuotedBody (ch '"' :: ch '"' :: s)

def Closed (t : Bytes) : Prop :=
  ∃ body rest, QuotedBody body ∧ t = body ++ ch '"' :: rest ∧ rest.head? ≠ some (ch '"')

theorem scanQuoted_char {c : UInt8} (h0 : c ≠ 0) (hq : c ≠ ch '"') (t : Bytes) :
    scanQuoted (c::t) = scanQuoted t + 1 := by
  rw [scanQuoted.eq_def]
  simp only [if_neg h0,if_neg hq]

theorem scanQuoted_pair (t : Bytes) : scanQuoted (ch '"' :: ch '"' :: t) = scanQuoted t + 2 := rfl

theorem QuotedBody.scanQuoted_append {s : Bytes} (h : QuotedBody s) (h0 : 0 ∉ s) (t : Bytes) :
    scanQuoted (s ++ t) = s.length + scanQuoted t := by
  induction h with
  | nil => simp
  | char hc _ ih =>
    rw [List.cons_append,scanQuoted_char (Ne.symm (List.ne_of_not_mem_cons h0)) hc,
      ih (List.not_mem_of_not_mem_cons h0),List.length_cons]
    omega
  | pair _ ih =>
    have hs := List.not_mem_of_not_mem_cons (List.not_mem_of_not_mem_cons h0)
    rw [List.cons_append,List.cons_append,scanQuoted_pair,ih hs]
    simp only [List.length_cons]
    omega

theorem scanQuoted_cases (t : Bytes) (h0 : 0 ∉ t) : (∃ rest, t = t.take (scanQuoted t) ++ ch '"' :: rest ∧
      rest.head? ≠ some (ch '"') ∧ QuotedBody (t.take (scanQuoted t))) ∨
    (scanQuoted t = t.length ∧ QuotedBody t) := by
  induction hn : t.length using Nat.strong_induction_on generalizing t with
  | _ n ih =>
    subst hn
    cases t with
    | nil => exact Or.inr ⟨rfl,.nil⟩
    | cons c t =>
      have hc0 := List.ne_of_not_mem_cons h0
      have ht0 := List.not_mem_of_not_mem_cons h0
      by_cases hc : c = ch '"'
      · subst hc
        by_cases hd : t.head? = some (ch '"')
        · obtain ⟨t,rfl⟩ := List.head?_eq_some_iff.mp hd
          rw [scanQuoted_pair]
          rcases ih t.length (by simp only [List.length_cons]; omega) t (List.not_mem_of_not_mem_cons ht0) rfl with
            ⟨rest,h1,h2,h3⟩ | ⟨h1,h2⟩
          · refine Or.inl ⟨rest,?_,h2,.pair h3⟩
            rw [List.take_succ_cons,List.take_succ_cons,List.cons_append,List.cons_append,← h1]
          · exact Or.inr ⟨by rw [h1]; rfl,.pair h2⟩
        · rw [scanQuoted_quote hd]
          exact Or.inl ⟨t,rfl,hd,.nil⟩
      · rw [scanQuoted_char (Ne.symm hc0) hc]
        rcases ih t.length (Nat.lt_succ_self _) t ht0 rfl with ⟨rest,h1,h2,h3⟩ | ⟨h1,h2⟩
        · refine Or.inl ⟨rest,?_,h2,.char hc h3⟩
          rw [List.take_succ_cons,List.cons_append,← h1]
        · exact Or.inr ⟨by rw [h1]; rfl,.char hc h2⟩

theorem scanQuoted_lt_iff {t : Bytes} (h0 : 0 ∉ t) : scanQuoted t < t.length ↔ Closed t := by
  constructor
  · intro h
    rcases scanQuoted_cases t h0 with ⟨rest,h1,h2,h3⟩ | ⟨h1,_⟩
    · exact ⟨_,rest,h3,h1,h2⟩
    · omega
  · rintro ⟨body,rest,hb,rfl,hr⟩
    rw [hb.scanQuoted_append fun h => h0 (List.mem_append_left _ h),scanQuoted_quote hr]
    simp

theorem peek_lt {z : Bytes} {i : ℕ} (h : peek z i ≠ 0) : i < z.length := by
  by_contra hle
  rw [peek,List.getElem?_eq_none (by omega)] at h
  exact h rfl

theorem scanComment_le (c : UInt8) (z : Bytes) :
    (scanComment c z).1 + (if (scanComment c z).2 then 1 else 0) ≤ z.length := by
  induction z generalizing c with
  | nil =>
    rw [scanComment]
    split
    · rename_i h
      exact absurd h.2 (fun h => by cases h)
    · exact Nat.le_refl _
  | cons d t ih =>
    rw [scanComment]
    split
    · simp
    · split
      · simp
      · have h := ih d
        simp only [List.length_cons]
        omega

theorem expLength_le (z : Bytes) : expLength z ≤ z.length := by
  rw [expLength]
  split
  · rename_i h
    have h1 : peek z 1 ≠ 0 := by
      rcases h.2 with h | ⟨h | h,_⟩
      · intro h0
        rw [h0] at h
        exact absurd h (by decide)
      all_goals
        rw [h]
        decide
    have hlt := peek_lt h1
    have hd := digits_le (z.drop 2)
    rw [List.length_drop] at hd
    omega
  · exact Nat.zero_le _

theorem fraction_le (z : Bytes) :
    (if peek z (digits z) = ch '.' then 1 + digits (z.drop (digits z + 1)) else 0) + digits z ≤ z.length := by
  have hn := digits_le z
  split
  · rename_i h
    have hlt := peek_lt (z := z) (i := digits z) (by rw [h]; decide)
    have hd := digits_le (z.drop (digits z + 1))
    rw [List.length_drop] at hd
    omega
  · omega

theorem getNumber_le (z : Bytes) : (getNumber z).2 ≤ z.length := by
  have h2 := fraction_le z
  rw [getNumber]
  generalize (if peek z (digits z) = ch '.' then 1 + digits (z.drop (digits z + 1)) else 0) = nFrac at h2 ⊢
  have h3 := expLength_le (z.drop (digits z + nFrac))
  rw [List.length_drop] at h3
  generalize expLength (z.drop (digits z + nFrac)) = nExp at h3 ⊢
  have h4 := (List.takeWhile_prefix xjd1Isident (l := z.drop (digits z + nFrac + nExp))).length_le
  rw [List.length_drop] at h4
  omega

theorem getNumber_pos {c : UInt8} {t : Bytes} (h : c = ch '.' ∨ xjd1Isdigit c) : 1 ≤ (getNumber (c::t)).2 := by
  rw [getNumber]
  rcases h with rfl | h
  · have hd : digits (ch '.' :: t) = 0 := rfl
    rw [hd]
    simp only [show peek (ch '.' :: t) 0 = ch '.' from rfl,if_true]
    omega
  · have hd : digits (c::t) = digits t + 1 := by rw [digits,List.takeWhile_cons_of_pos h]; rfl
    rw [hd]
    simp only
    omega

theorem operatorToken_length {c d e : UInt8} {tk : Tk} {n : ℕ} (h : operatorToken c d e = some (tk,n)) :
    1 ≤ n ∧ n ≤ 3 ∧ (2 ≤ n → d ≠ 0) ∧ (3 ≤ n → e ≠ 0) := by
  have h0 : ch '=' ≠ 0 ∧ ch '<' ≠ 0 ∧ ch '>' ≠ 0 ∧ ch '|' ≠ 0 ∧ ch '&' ≠ 0 := by decide
  simp only [operatorToken] at h
  split_ifs at h <;> cases h <;> refine ⟨by decide,by decide,?_,?_⟩ <;> intro hn <;>
    first | (exact absurd hn (by decide)) | simp_all

theorem ne_of_ident {c : UInt8} (h : xjd1Isident c) (d : UInt8) (hd : xjd1Isident d = false) : c ≠ d := by
  rintro rfl
  exact Bool.false_ne_true (hd.symm.trans h)

theorem startsSpace_ident {c : UInt8} (h : xjd1Isident c) : startsSpace c = false := by
  simp only [startsSpace,Bool.or_eq_false_iff,decide_eq_false_iff_not]
  exact ⟨⟨⟨⟨ne_of_ident h _ rfl,ne_of_ident h _ rfl⟩,ne_of_ident h _ rfl⟩,ne_of_ident h _ rfl⟩,ne_of_ident h _ rfl⟩

theorem charToken_ident {c : UInt8} (h : xjd1Isident c) : charToken c = none := by
  have hne (d : UInt8) (hd : xjd1Isident d = false) : ¬ c = d := ne_of_ident h d hd
  simp only [charToken,if_neg (hne (ch '?') rfl),if_neg (hne (ch '(') rfl),if_neg (hne (ch ')') rfl),
    if_neg (hne (ch '[') rfl),if_neg (hne (ch ']') rfl),if_neg (hne (ch '\x7b') rfl),if_neg (hne (ch '\x7d') rfl),
    if_neg (hne (ch ';') rfl),if_neg (hne (ch '+') rfl),if_neg (hne (ch '*') rfl),if_neg (hne (ch '%') rfl),
    if_neg (hne (ch ',') rfl),if_neg (hne (ch ':') rfl),if_neg (hne (ch '~') rfl)]

theorem operatorToken_ident {c : UInt8} (h : xjd1Isident c) (d e : UInt8) : operatorToken c d e = none := by
  have hne (d : UInt8) (hd : xjd1Isident d = false) : ¬ c = d := ne_of_ident h d hd
  simp only [operatorToken,if_neg (hne (ch '=') rfl),if_neg (hne (ch '<') rfl),if_neg (hne (ch '>') rfl),
    if_neg (hne (ch '!') rfl),if_neg (hne (ch '|') rfl),if_neg (hne (ch '&') rfl)]

theorem getToken_string (t : Bytes) : xjd1GetToken (ch '"' :: t) = some (.string,scanQuoted t + 2) := rfl

theorem getToken_ident {c : UInt8} (t : Bytes) (h : xjd1Isident c) (hd : ¬ xjd1Isdigit c) :
    xjd1GetToken (c::t) = (keywordCode ((c::t).takeWhile xjd1Isident)).map
      fun tk => (tk,((c::t).takeWhile xjd1Isident).length) := by
  have hlen : ((c::t).takeWhile xjd1Isident).length = 1 + (t.takeWhile xjd1Isident).length := by
    rw [List.takeWhile_cons_of_pos h,List.length_cons,Nat.add_comm]
  have htake : (c::t).take (1 + (t.takeWhile xjd1Isident).length) = (c::t).takeWhile xjd1Isident := by
    rw [← hlen]
    exact (List.prefix_iff_eq_take.mp (List.takeWhile_prefix _)).symm
  have hpeek : peek (c::t) 0 = c := rfl
  have hdrop : (c::t).drop 1 = t := rfl
  have hne (d : UInt8) (hd : xjd1Isident d = false) : ¬ c = d := ne_of_ident h d hd
  simp only [xjd1GetToken,hpeek,hdrop,startsSpace_ident h,Bool.false_eq_true,if_false,
    if_neg (hne (ch '-') rfl),if_neg (hne (ch '/') rfl),if_neg (hne (ch '"') rfl),hne (ch '.') rfl,false_and,
    false_or,hd,charToken_ident h,operatorToken_ident h,h,if_true,htake,hlen]
  cases keywordCode ((c::t).takeWhile xjd1Isident) <;> rfl

theorem getToken_other {c : UInt8} (t : Bytes) (hq : c ≠ ch '"') (hi : xjd1Isident c → xjd1Isdigit c) :
    ∃ tk n, xjd1GetToken (c::t) = some (tk,n) ∧ 1 ≤ n ∧ n ≤ (c::t).length := by
  have hpeek : peek (c::t) 0 = c := rfl
  have hdrop : (c::t).drop 1 = t := rfl
  have hone : 1 ≤ (c::t).length := Nat.succ_pos _
  simp only [xjd1GetToken,hpeek,hdrop]
  split
  · have h := (List.takeWhile_prefix xjd1Isspace (l := t)).length_le
    exact ⟨_,_,rfl,by omega,by simp only [List.length_cons]; omega⟩
  split
  · split
    · rename_i h
      have hlt := peek_lt (z := c::t) (i := 1) (by rw [h]; decide)
      have h := (List.takeWhile_prefix (fun d : UInt8 => d != 0 && d != 10) (l := (c::t).drop 2)).length_le
      rw [List.length_drop] at h
      exact ⟨_,_,rfl,by omega,by omega⟩
    · exact ⟨_,_,rfl,Nat.le_refl _,hone⟩
  split
  · split
    · exact ⟨_,_,rfl,Nat.le_refl _,hone⟩
    · rename_i h
      push Not at h
      have hlt := peek_lt h.2
      have h := scanComment_le (peek (c::t) 2) ((c::t).drop 3)
      rw [List.length_drop] at h
      exact ⟨_,_,rfl,by omega,by omega⟩
  split
  · exact ⟨_,_,rfl,Nat.le_refl _,hone⟩
  split
  · rename_i h
    exact ⟨_,_,rfl,getNumber_pos h,getNumber_le _⟩
  rename_i hdig
  cases charToken c with
  | some tk => exact ⟨_,_,rfl,Nat.le_refl _,hone⟩
  | none =>
    cases hop : operatorToken c (peek (c::t) 1) (peek (c::t) 2) with
    | none =>
      rw [if_neg fun h => hdig (Or.inr (hi h))]
      exact ⟨_,_,rfl,Nat.le_refl _,hone⟩
    | some r =>
      obtain ⟨tk,n⟩ := r
      obtain ⟨h1,h3,hd,he⟩ := operatorToken_length hop
      refine ⟨tk,n,rfl,h1,?_⟩
      by_contra hn
      rcases Nat.lt_or_ge n 2 with h2 | h2
      · omega
      · have hlt := peek_lt (hd h2)
        rcases Nat.lt_or_ge n 3 with h3' | h3'
        · omega
        · have hlt := peek_lt (he h3')
          omega

/-- The text starts with no string literal that is never closed, and with no
identifier whose hash is negative. -/
structure Fits (z : Bytes) : Prop where
  literal : ∀ t, z = ch '"' :: t → Closed t
  keyword : ∀ c t, z = c::t → xjd1Isident c → ¬ xjd1Isdigit c →
    (z.takeWhile xjd1Isident).length < 2 ∨ 0 ≤ keywordHash (z.takeWhile xjd1Isident)

/-- The token at the start of the text has a type, and a length from 1 to that of the text. -/
def Inside (z : Bytes) : Prop := ∃ tk n, xjd1GetToken z = some (tk,n) ∧ 1 ≤ n ∧ n ≤ z.length

theorem inside_iff {z : Bytes} (hz : z ≠ []) (h0 : 0 ∉ z) : Inside z ↔ Fits z := by
  obtain ⟨c,t,rfl⟩ := List.exists_cons_of_ne_nil hz
  by_cases hq : c = ch '"'
  · subst hq
    have ht := scanQuoted_lt_iff (List.not_mem_of_not_mem_cons h0)
    have hid : ¬ xjd1Isident (ch '"') := by decide
    constructor
    · rintro ⟨tk,n,h,_,hn⟩
      rw [getToken_string] at h
      cases h
      rw [List.length_cons] at hn
      refine ⟨fun t' h => ?_,fun c' t' h hc => ?_⟩
      · cases h
        exact ht.mp (by omega)
      · cases h
        exact absurd hc hid
    · intro h
      have hlt := ht.mpr (h.literal t rfl)
      exact ⟨_,_,getToken_string t,by omega,by rw [List.length_cons]; omega⟩
  · by_cases hi : xjd1Isident c ∧ ¬ xjd1Isdigit c
    · have htok := getToken_ident t hi.1 hi.2
      have hpos : 1 ≤ ((c::t).takeWhile xjd1Isident).length := by
        rw [List.takeWhile_cons_of_pos hi.1]
        exact Nat.succ_pos _
      constructor
      · rintro ⟨tk,n,h,_⟩
        refine ⟨fun t' h => absurd (List.cons.inj h).1 hq,fun c' t' _ _ _ => ?_⟩
        rw [htok] at h
        obtain ⟨tk',hk,_⟩ := Option.map_eq_some_iff.mp h
        exact (keywordCode_isSome _).mp (by rw [hk]; rfl)
      · intro h
        obtain ⟨tk,hk⟩ := Option.isSome_iff_exists.mp ((keywordCode_isSome _).mpr (h.keyword c t rfl hi.1 hi.2))
        rw [hk] at htok
        exact ⟨_,_,htok,hpos,(List.takeWhile_prefix _).length_le⟩
    · refine iff_of_true (getToken_other t hq fun h => by_contra fun hd => hi ⟨h,hd⟩) ⟨fun t' h => ?_,fun c' t' h => ?_⟩
      · exact absurd (List.cons.inj h).1 hq
      · cases h
        exact fun h1 h2 => absurd ⟨h1,h2⟩ hi

/-- A token that does not stay inside has no type, or is a literal of which the end is not there. -/
theorem outside_cases {z : Bytes} (hz : z ≠ []) (h0 : 0 ∉ z) (h : ¬ Inside z) :
    xjd1GetToken z = none ∨ xjd1GetToken z = some (.string,z.length+1) := by
  obtain ⟨c,t,rfl⟩ := List.exists_cons_of_ne_nil hz
  by_cases hq : c = ch '"'
  · subst hq
    right
    rcases scanQuoted_cases t (List.not_mem_of_not_mem_cons h0) with ⟨rest,ht,_,_⟩ | ⟨hs,_⟩
    · have hlen := congrArg List.length ht
      simp only [List.length_append,List.length_take,List.length_cons] at hlen
      exact absurd ⟨_,_,getToken_string t,by omega,by rw [List.length_cons]; omega⟩ h
    · rw [getToken_string,hs]
      rfl
  · by_cases hi : xjd1Isident c ∧ ¬ xjd1Isdigit c
    · left
      cases hk : keywordCode ((c::t).takeWhile xjd1Isident) with
      | none => rw [getToken_ident t hi.1 hi.2,hk,Option.map_none]
      | some tk =>
        refine absurd ⟨tk,_,?_,?_,(List.takeWhile_prefix xjd1Isident (l := c::t)).length_le⟩ h
        · rw [getToken_ident t hi.1 hi.2,hk,Option.map_some]
        · rw [List.takeWhile_cons_of_pos hi.1]
          exact Nat.succ_pos _
    · exact absurd (getToken_other t hq fun h => by_contra fun hd => hi ⟨h,hd⟩) h

section Terminated
variable (junk : Bytes)

theorem peek_terminated {z : Bytes} {i : ℕ} (h : i ≤ z.length) : peek (z ++ 0 :: junk) i = peek z i := by
  rw [peek,peek]
  rcases Nat.lt_or_eq_of_le h with h | rfl
  · rw [List.getElem?_append_left h]
  · rw [List.getElem?_append_right (Nat.le_refl _),Nat.sub_self,List.getElem?_eq_none (Nat.le_refl _)]
    rfl

theorem takeWhile_terminated {p : UInt8 → Bool} (hp : p 0 = false) (z : Bytes) :
    (z ++ 0 :: junk).takeWhile p = z.takeWhile p :=
  takeWhile_append_of_head z _ hp

theorem drop_terminated {z : Bytes} {i : ℕ} (h : i ≤ z.length) : (z ++ 0 :: junk).drop i = z.drop i ++ 0 :: junk :=
  List.drop_append_of_le_length h

theorem scanQuoted_terminated {t : Bytes} (h0 : 0 ∉ t) : scanQuoted (t ++ 0 :: junk) = scanQuoted t := by
  rcases scanQuoted_cases t h0 with ⟨rest,ht,hr,hb⟩ | ⟨h,hb⟩
  · have h0' : 0 ∉ t.take (scanQuoted t) := fun h => h0 (List.mem_of_mem_take h)
    have hlen : (t.take (scanQuoted t)).length = scanQuoted t := by
      have := congrArg List.length ht
      simp only [List.length_append,List.length_take,List.length_cons] at this ⊢
      omega
    have hr' : (rest ++ 0 :: junk).head? ≠ some (ch '"') := by
      cases rest with
      | nil => exact fun h => absurd (Option.some.inj h) (by decide)
      | cons d rest => exact hr
    conv_lhs => rw [ht]
    rw [List.append_assoc,hb.scanQuoted_append h0',List.cons_append,scanQuoted_quote hr',hlen,Nat.add_zero]
  · have hend : scanQuoted (0 :: junk) = 0 := by
      rw [scanQuoted.eq_def]
      exact if_pos rfl
    rw [hb.scanQuoted_append h0,h,hend,Nat.add_zero]

theorem scanComment_terminated (c : UInt8) (z : Bytes) : scanComment c (z ++ 0 :: junk) = scanComment c z := by
  induction z generalizing c with
  | nil =>
    have hslash : ¬ (c = ch '*' ∧ (0 :: junk).head? = some (ch '/')) :=
      fun h => absurd (Option.some.inj h.2) (by decide)
    have hnil : ¬ (c = ch '*' ∧ ([] : Bytes).head? = some (ch '/')) := fun h => by cases h.2
    rw [List.nil_append,scanComment,scanComment,if_neg hslash,if_neg hnil,if_pos rfl]
  | cons d t ih =>
    rw [List.cons_append,scanComment,scanComment,ih]
    rfl

theorem digits_terminated (z : Bytes) : digits (z ++ 0 :: junk) = digits z :=
  congrArg List.length (takeWhile_terminated junk (p := xjd1Isdigit) rfl z)

theorem expLength_terminated (z : Bytes) : expLength (z ++ 0 :: junk) = expLength z := by
  have hzero : xjd1Isdigit 0 = false := rfl
  match z with
  | [] | [_] => simp [expLength,peek,hzero]
  | [a,b] =>
    have hd := digits_terminated junk []
    simp only [List.nil_append] at hd
    simp [expLength,peek,hzero,hd]
  | a::b::c::t =>
    have hd : digits (c::(t ++ 0 :: junk)) = digits (c::t) := digits_terminated junk (c::t)
    simp [expLength,peek,hd]

theorem getNumber_terminated (z : Bytes) : getNumber (z ++ 0 :: junk) = getNumber z := by
  have hn := digits_le z
  have hfrac := fraction_le z
  have hfrac' : (if peek z (digits z) = ch '.' then 1 + digits ((z ++ 0 :: junk).drop (digits z + 1)) else 0) =
      if peek z (digits z) = ch '.' then 1 + digits (z.drop (digits z + 1)) else 0 := by
    split
    · rename_i h
      have hlt := peek_lt (z := z) (i := digits z) (by rw [h]; decide)
      rw [drop_terminated junk (by omega),digits_terminated]
    · rfl
  rw [getNumber,getNumber,digits_terminated,peek_terminated junk hn]
  simp only [hfrac']
  generalize (if peek z (digits z) = ch '.' then 1 + digits (z.drop (digits z + 1)) else 0) = nFrac at hfrac ⊢
  rw [drop_terminated junk (i := digits z + nFrac) (by omega),expLength_terminated]
  have hexp := expLength_le (z.drop (digits z + nFrac))
  rw [List.length_drop] at hexp
  generalize expLength (z.drop (digits z + nFrac)) = nExp at hexp ⊢
  rw [drop_terminated junk (by omega),takeWhile_terminated junk rfl]

theorem operatorToken_zero (c e e' : UInt8) : operatorToken c 0 e = operatorToken c 0 e' := by
  have hne : (0 : UInt8) ≠ ch '=' ∧ (0 : UInt8) ≠ ch '>' := by decide
  simp only [operatorToken,if_pos hne.1,if_pos hne.2,if_neg hne.1]

theorem getToken_terminated {z : Bytes} (hz : z ≠ []) (h0 : 0 ∉ z) :
    xjd1GetToken (z ++ 0 :: junk) = xjd1GetToken z := by
  obtain ⟨c,t,rfl⟩ := List.exists_cons_of_ne_nil hz
  have ht0 := List.not_mem_of_not_mem_cons h0
  have hdrop : (c::t ++ 0 :: junk).drop 1 = t ++ 0 :: junk := rfl
  have hdrop' : (c::t).drop 1 = t := rfl
  have h1 := peek_terminated junk (z := c::t) (i := 1) (by simp)
  have hid := takeWhile_terminated junk (p := xjd1Isident) rfl t
  have htake : (c::t ++ 0 :: junk).take (1 + (t.takeWhile xjd1Isident).length) =
      (c::t).take (1 + (t.takeWhile xjd1Isident).length) := by
    have hle := (List.takeWhile_prefix xjd1Isident (l := t)).length_le
    exact List.take_append_of_le_length (by rw [List.length_cons]; omega)
  have hop : operatorToken (peek (c::t) 0) (peek (c::t) 1) (peek (c::t ++ 0 :: junk) 2) =
      operatorToken (peek (c::t) 0) (peek (c::t) 1) (peek (c::t) 2) := by
    cases t with
    | nil => exact operatorToken_zero c _ _
    | cons d t => rw [peek_terminated junk (by simp)]
  simp only [xjd1GetToken,show peek (c::t ++ 0 :: junk) 0 = peek (c::t) 0 from rfl,hdrop,hdrop',h1,hop,hid,htake,
    takeWhile_terminated junk (p := xjd1Isspace) rfl t,scanQuoted_terminated junk ht0,
    getNumber_terminated junk (c::t)]
  refine if_congr Iff.rfl rfl (if_congr Iff.rfl (if_ctx_congr Iff.rfl (fun h => ?_) fun _ => rfl)
    (if_congr Iff.rfl ?_ rfl))
  · have hlt := peek_lt (z := c::t) (i := 1) (by rw [h]; decide)
    rw [drop_terminated junk (by omega),takeWhile_terminated junk (p := fun d : UInt8 => d != 0 && d != 10) rfl]
  · by_cases h : peek (c::t) 1 = ch '*'
    · have hlt := peek_lt (z := c::t) (i := 1) (by rw [h]; decide)
      rw [peek_terminated junk (z := c::t) (i := 2) (by omega)]
      refine if_ctx_congr Iff.rfl (fun _ => rfl) fun h' => ?_
      have hlt := peek_lt (z := c::t) (i := 2) fun e => h' (Or.inr e)
      rw [drop_terminated junk (by omega),scanComment_terminated]
    · rw [if_pos (Or.inl h),if_pos (Or.inl h)]

end Terminated

end Xjd1
