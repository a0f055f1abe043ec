import Mathlib.Data.List.DropRight
import Mathlib.Tactic.IntervalCases
import Xjd1.Stmt.Complete

/-! `xjd1_complete` against the tokenizer: where the two scanners stay in step, and what
they then make of the last tokens of a text. -/
namespace Xjd1

open Fueled Fueled.Run

/-- The text cut with `xjd1GetToken` into tokens, none of them illegal. -/
inductive Tokens : Bytes → List (Tk × Bytes) → Prop
  | nil : Tokens [] []
  | cons {z : Bytes} {tk : Tk} {n : ℕ} {ts : List (Tk × Bytes)} (hz : z ≠ [])
      (h : xjd1GetToken z = some (tk,n)) (hill : tk ≠ .illegal) (hs : Tokens (z.drop n) ts) :
      Tokens z ((tk,z.take n)::ts)

def Unterminated (tok : Tk × Bytes) : Prop :=
  (∃ t, tok.2 = ch '"' :: t ∧ ¬ Closed t) ∨ ∃ t, tok.2 = ch '/' :: ch '*' :: t ∧ ¬ [ch '*',ch '/'] <:+: t

/-- Every string and comment is closed, and the last token that is no white space is a
semicolon, if there is one. -/
def EndsStatement (ts : List (Tk × Bytes)) : Prop :=
  (∀ tok ∈ ts, ¬ Unterminated tok) ∧
    ∀ tok ∈ (ts.filter fun tok => tok.1 ≠ .space).getLast?, tok.1 = .semi

/-- `xjd1_complete` returns, and says what the tokenizer says. -/
def CompleteAgrees (z : Bytes) (ts : List (Tk × Bytes)) : Prop :=
  ∃ b, Returns (fun n => xjd1Complete (some z) n) b ∧ (b = true ↔ EndsStatement ts)

/-- No quote stands behind a backslash, and neither does the end of the text; a backslash
takes the byte after it along. -/
inductive Unescaped : Bytes → Prop
  | nil : Unescaped []
  | char {c : UInt8} {s : Bytes} (hb : c ≠ ch '\\') (h : Unescaped s) : Unescaped (c::s)
  | escape {c : UInt8} {s : Bytes} (hq : c ≠ ch '"') (h : Unescaped s) : Unescaped (ch '\\' :: c :: s)

theorem Unescaped.tail {c : UInt8} {s : Bytes} (h : Unescaped (c::s)) (hb : c ≠ ch '\\') : Unescaped s := by
  cases h with
  | char _ h => exact h
  | escape _ _ => exact absurd rfl hb

/-- The tokens on which the scanners stay in step: no escaped quotes in strings, and no
star right behind a comment. -/
structure InStep (ts : List (Tk × Bytes)) : Prop where
  literal : ∀ tok ∈ ts, tok.1 = .string → Unescaped tok.2
  comment : ts.IsChain fun a b => [ch '/',ch '*'] <+: a.2 → b.2.head? ≠ some (ch '*')

/-- White space, comments and the operators that leave `isComplete` as it is. -/
def weak (tok : Tk × Bytes) : Bool := tok.1 = .space ∨ tok.1 = .minus ∨ tok.1 = .slash

def tabbed (tok : Tk × Bytes) : Bool := tok.2.head?.any startsSpace && tok.2.contains 11

/-- When nothing but white space, comments and the operators `-` and `/` follows the last
semicolon, there is such an operator exactly if there is a vertical tab. -/
def Balanced (ts : List (Tk × Bytes)) : Prop :=
  (∀ tok ∈ (ts.rdropWhile weak).getLast?, tok.1 = .semi) →
    ((∃ tok ∈ ts.rtakeWhile weak, tok.1 ≠ .space) ↔ ∃ tok ∈ ts.rtakeWhile weak, tabbed tok)

/-- What the scan gives from the second state on, it gives from the first one on. -/
def Leads (s s' : Bytes × Bool) : Prop := ∀ b, Completes s' b → Completes s b

theorem Leads.refl (s : Bytes × Bool) : Leads s s := fun _ h => h

theorem Leads.trans {s s' s'' : Bytes × Bool} (h : Leads s s') (h' : Leads s' s'') : Leads s s'' :=
  fun b hb => h b (h' b hb)

theorem Leads.turn {s s' : Bytes × Bool} (h : completeTurn s = .ok (.inr s')) : Leads s s' :=
  fun b => (completes_turn h b).mpr

/-- Characters that are passed one by one, a minus only before a character that is none. -/
inductive Skims : Bytes → Prop
  | nil : Skims []
  | char {c : UInt8} {w : Bytes} (hc : Ordinary c) (h : Skims w) : Skims (c::w)
  | minus {d : UInt8} {w : Bytes} (hd : d ≠ ch '-') (h : Skims (d::w)) : Skims (ch '-' :: d :: w)

theorem Skims.leads {w : Bytes} (h : Skims w) (s : Bytes) : Leads (w ++ s,false) (s,false) := by
  induction h with
  | nil => exact .refl _
  | char hc _ ih => exact (Leads.turn (completeTurn_ordinary false hc _)).trans ih
  | @minus d w hd _ ih => exact (Leads.turn (completeTurn_minus false (t := d::w ++ s) hd)).trans ih

theorem Skims.tail {c : UInt8} {w : Bytes} (h : Skims (c::w)) (hc : c ≠ ch '-') : Skims w := by
  cases h with
  | char _ h => exact h
  | minus => exact absurd rfl hc

theorem Skims.append {v w : Bytes} (hv : ∀ c ∈ v, Ordinary c) (hw : Skims w) : Skims (v ++ w) := by
  induction v with
  | nil => exact hw
  | cons c v ih =>
    obtain ⟨hc,hv⟩ := List.forall_mem_cons.mp hv
    exact .char hc (ih hv)

theorem ordinary_ident {c : UInt8} (h : xjd1Isident c) : Ordinary c :=
  ⟨ne_of_ident h _ rfl,startsSpace_ident h,ne_of_ident h _ rfl,ne_of_ident h _ rfl,ne_of_ident h _ rfl⟩

theorem ordinary_digit {c : UInt8} (h : xjd1Isdigit c) : Ordinary c :=
  ordinary_ident (by simp [xjd1Isident,h])

theorem startsSpace_of_ne {c : UInt8} (h : xjd1Isspace c) (hc : c ≠ 11) : startsSpace c := by
  simp only [xjd1Isspace,Bool.or_eq_true,Bool.and_eq_true,decide_eq_true_eq,beq_iff_eq,UInt8.le_iff_toNat_le,
    ← UInt8.toNat_inj] at h
  simp only [startsSpace,Bool.or_eq_true,decide_eq_true_eq,← UInt8.toNat_inj]
  have hc' : c.toNat ≠ (11 : UInt8).toNat := fun e => hc (UInt8.toNat_inj.mp e)
  have hsp : (ch ' ').toNat = 32 := rfl
  simp only [UInt8.reduceToNat,hsp] at h hc' ⊢
  omega

theorem spaces_lead {w : Bytes} (hw : ∀ c ∈ w, xjd1Isspace c) (s : Bytes) (b : Bool) :
    Leads (w ++ s,b) (s,b && !w.contains 11) := by
  induction w generalizing b with
  | nil => simpa using Leads.refl (s,b)
  | cons c w ih =>
    obtain ⟨hc,hw'⟩ := List.forall_mem_cons.mp hw
    by_cases h : c = 11
    · subst h
      have hord : Ordinary 11 := by
        refine ⟨?_,?_,?_,?_,?_⟩ <;> decide
      have hlead := (Leads.turn (completeTurn_ordinary b hord (w ++ s))).trans (ih hw' false)
      simpa using hlead
    · have hlead := (Leads.turn (completeTurn_space b (startsSpace_of_ne hc h) (w ++ s))).trans (ih hw' b)
      have hcontains : (c::w).contains 11 = w.contains 11 := by
        rw [List.contains_cons,beq_false_of_ne (Ne.symm h),Bool.false_or]
      rwa [hcontains]

theorem scanComment_body {c : UInt8} {t body s : Bytes} (ht : c::t = body ++ ch '*' :: ch '/' :: s)
    (hb : CommentBody body) (h0 : 0 ∉ t) : scanComment c t = (body.length,true) := by
  induction body generalizing c t with
  | nil =>
    obtain ⟨rfl,rfl⟩ := List.cons.inj ht
    rw [scanComment.eq_def]
    exact if_pos ⟨rfl,rfl⟩
  | cons x body ih =>
    rw [List.cons_append] at ht
    obtain ⟨rfl,rfl⟩ := List.cons.inj ht
    have hne : ¬ (c = ch '*' ∧ (body ++ ch '*' :: ch '/' :: s).head? = some (ch '/')) := by
      rintro ⟨rfl,hd⟩
      cases body with
      | nil => exact absurd (Option.some.inj hd) (by decide)
      | cons d body =>
        obtain rfl : d = ch '/' := Option.some.inj hd
        exact hb ⟨[],body ++ [ch '*'],rfl⟩
    rw [scanComment.eq_def,if_neg hne]
    cases ht' : body ++ ch '*' :: ch '/' :: s with
    | nil => exact absurd ht' (by simp)
    | cons d t =>
      rw [ht'] at h0
      dsimp only
      rw [if_neg (Ne.symm (List.ne_of_not_mem_cons h0)),
        ih ht'.symm hb.tail (List.not_mem_of_not_mem_cons h0)]
      rfl

theorem scanComment_unclosed {c : UInt8} {t : Bytes} (h : ¬ [ch '*',ch '/'] <:+: c::t) (h0 : 0 ∉ t) :
    scanComment c t = (t.length,false) := by
  induction t generalizing c with
  | nil =>
    rw [scanComment.eq_def,if_neg fun h => by cases h.2]
    rfl
  | cons d t ih =>
    have hne : ¬ (c = ch '*' ∧ (d::t).head? = some (ch '/')) := by
      rintro ⟨rfl,hd⟩
      obtain rfl : d = ch '/' := Option.some.inj hd
      exact h ⟨[],t,rfl⟩
    rw [scanComment.eq_def,if_neg hne]
    simp only
    rw [if_neg (Ne.symm (List.ne_of_not_mem_cons h0)),
      ih (fun hi => h (hi.trans (List.suffix_cons c _).isInfix)) (List.not_mem_of_not_mem_cons h0)]
    rfl

theorem getToken_comment {t body s : Bytes} (ht : t = body ++ ch '*' :: ch '/' :: s) (hb : CommentBody body)
    (h0 : 0 ∉ t) : xjd1GetToken (ch '/' :: ch '*' :: t) = some (.space,body.length + 4) := by
  cases t with
  | nil => exact absurd ht.symm (by simp)
  | cons c t =>
    have hc : c ≠ 0 := Ne.symm (List.ne_of_not_mem_cons h0)
    have hscan := scanComment_body ht hb (List.not_mem_of_not_mem_cons h0)
    simp [xjd1GetToken,startsSpace,peek,hscan,hc]
    omega

theorem getToken_openComment {c : UInt8} {t : Bytes} (h : ¬ [ch '*',ch '/'] <:+: c::t) (h0 : 0 ∉ c::t) :
    xjd1GetToken (ch '/' :: ch '*' :: c :: t) = some (.space,t.length + 3) := by
  have hc : c ≠ 0 := Ne.symm (List.ne_of_not_mem_cons h0)
  have hscan := scanComment_unclosed h (List.not_mem_of_not_mem_cons h0)
  simp [xjd1GetToken,startsSpace,peek,hscan,hc]
  omega

inductive PlainBody : Bytes → Prop
  | nil : PlainBody []
  | char {c : UInt8} {s : Bytes} (hq : c ≠ ch '"') (hb : c ≠ ch '\\') (h : PlainBody s) : PlainBody (c::s)
  | escape {c : UInt8} {s : Bytes} (hq : c ≠ ch '"') (h : PlainBody s) : PlainBody (ch '\\' :: c :: s)
  | pair {s : Bytes} (h : PlainBody s) : PlainBody (ch '"' :: ch '"' :: s)

theorem EscapedBody.append {s t : Bytes} (hs : EscapedBody s) (ht : EscapedBody t) : EscapedBody (s ++ t) := by
  induction hs with
  | nil => exact ht
  | char hq hb _ ih => exact .char hq hb ih
  | escape c _ ih => exact .escape c ih

/-- The body of a literal without escaped quotes, before a quote or the end of the text. -/
theorem QuotedBody.plain {body w : Bytes} (h : QuotedBody body) (hw : w = [] ∨ w = [ch '"'])
    (hu : Unescaped (body ++ w)) : PlainBody body := by
  induction hn : body.length using Nat.strong_induction_on generalizing body with
  | _ n ih =>
    subst hn
    cases h with
    | nil => exact .nil
    | @pair s h =>
      have hu' := (hu.tail (by decide)).tail (by decide)
      exact .pair (ih s.length (by simp only [List.length_cons]; omega) h hu' rfl)
    | @char c s hc h =>
      by_cases hb : c = ch '\\'
      · subst hb
        cases hu' : s ++ w with
        | nil =>
          rw [List.cons_append,hu'] at hu
          cases hu with
          | char hb _ => exact absurd rfl hb
        | cons d u =>
          rw [List.cons_append,hu'] at hu
          have hd : d ≠ ch '"' ∧ Unescaped u := by
            cases hu with
            | char hb _ => exact absurd rfl hb
            | escape hq hu => exact ⟨hq,hu⟩
          cases h with
          | nil =>
            rcases hw with rfl | rfl
            · cases hu'
            · exact absurd (List.cons.inj hu').1.symm hd.1
          | pair => exact absurd (List.cons.inj hu').1.symm hd.1
          | @char d' s hd' h =>
            obtain ⟨rfl,rfl⟩ := List.cons.inj hu'
            exact .escape hd' (ih s.length (by simp only [List.length_cons]; omega) h hd.2 rfl)
      · exact .char hc hb (ih s.length (Nat.lt_succ_self _) h (hu.tail hb) rfl)

theorem PlainBody.leads {body : Bytes} (h : PlainBody body) (rest : Bytes) {s : Bytes} (hs : EscapedBody s)
    (b : Bool) : Leads (ch '"' :: (s ++ (body ++ ch '"' :: rest)),b) (rest,false) := by
  induction h generalizing s b with
  | nil => exact Leads.turn (completeTurn_literal b (literalEnd_closed hs rest))
  | @char c body hq hb _ ih =>
    have h := ih (hs.append (.char hq hb .nil)) b
    rwa [List.append_assoc] at h
  | @escape c body hq _ ih =>
    have h := ih (hs.append (.escape c .nil)) b
    rwa [List.append_assoc] at h
  | pair _ ih =>
    exact (Leads.turn (completeTurn_literal b (literalEnd_closed hs _))).trans (ih .nil false)

theorem PlainBody.completes {body : Bytes} (h : PlainBody body) {s : Bytes} (hs : EscapedBody s) (b : Bool) :
    Completes (ch '"' :: (s ++ body),b) false := by
  induction h generalizing s b with
  | nil => exact .exit (completeTurn_unquoted b (by rw [List.append_nil]; exact literalEnd_open hs))
  | @char c body hq hb _ ih =>
    have h := ih (hs.append (.char hq hb .nil)) b
    rwa [List.append_assoc] at h
  | @escape c body hq _ ih =>
    have h := ih (hs.append (.escape c .nil)) b
    rwa [List.append_assoc] at h
  | pair _ ih =>
    exact Leads.turn (completeTurn_literal b (literalEnd_closed hs _)) _ (ih .nil false)

/-- A token type that is a value or an operator for both scanners. -/
def Plain (tk : Tk) : Prop := tk ≠ .space ∧ tk ≠ .semi ∧ tk ≠ .minus ∧ tk ≠ .slash ∧ tk ≠ .string

instance (tk : Tk) : Decidable (Plain tk) := inferInstanceAs (Decidable (_ ∧ _))

theorem keywordWalk_plain {z : Bytes} {m k : ℕ} {tk : Tk} (h : keywordWalk z m k = some tk) : Plain tk := by
  induction m generalizing k with
  | zero =>
    cases k with
    | zero =>
      cases h
      decide
    | succ i => cases h
  | succ m ih =>
    cases k with
    | zero =>
      cases h
      decide
    | succ i =>
      rw [keywordWalk] at h
      obtain ⟨n,_,h⟩ := Option.bind_eq_some_iff.mp h
      obtain ⟨k,_,h⟩ := Option.bind_eq_some_iff.mp h
      split at h
      · have hcodes : ∀ tk ∈ aCode, Plain tk := by decide
        exact hcodes tk (List.mem_of_getElem? h)
      · obtain ⟨j,_,h⟩ := Option.bind_eq_some_iff.mp h
        exact ih h

theorem keywordCode_plain {z : Bytes} {tk : Tk} (h : keywordCode z = some tk) : Plain tk := by
  rw [keywordCode] at h
  split at h
  · cases h
    decide
  · split at h
    · cases h
    · obtain ⟨k,_,h⟩ := Option.bind_eq_some_iff.mp h
      exact keywordWalk_plain h

theorem ite_plain {p : Prop} [Decidable p] {a : Tk} {b : Option Tk} (ha : Plain a) (hb : ∀ tk ∈ b, Plain tk) :
    ∀ tk ∈ if p then some a else b, Plain tk := by
  split
  · intro tk h
    cases h
    exact ha
  · exact hb

theorem charToken_plain {c : UInt8} (hc : c ≠ ch ';') : ∀ tk ∈ charToken c, Plain tk := by
  rw [charToken]
  iterate 7 refine ite_plain (by decide) ?_
  rw [if_neg hc]
  iterate 6 refine ite_plain (by decide) ?_
  exact fun _ h => by cases h

theorem operatorToken_plain {c d e : UInt8} {tk : Tk} {n : ℕ} (h : operatorToken c d e = some (tk,n)) :
    Plain tk ∧ (2 ≤ n → Ordinary d) ∧ (3 ≤ n → Ordinary e) := by
  have heq : Ordinary (ch '=') ∧ Ordinary (ch '<') ∧ Ordinary (ch '>') ∧ Ordinary (ch '|') ∧ Ordinary (ch '&') := by
    refine ⟨?_,?_,?_,?_,?_⟩ <;> refine ⟨?_,?_,?_,?_,?_⟩ <;> decide
  obtain ⟨h1,h2,h3,h4,h5⟩ := heq
  simp only [operatorToken] at h
  split_ifs at h <;> cases h <;> refine ⟨by decide,?_,?_⟩ <;> intro hn <;>
    first | (exact absurd hn (by decide)) | simp_all

theorem skims_expLength (z : Bytes) : Skims (z.take (expLength z)) := by
  rw [expLength]
  split
  · rename_i h
    cases z with
    | nil => exact .nil
    | cons a z => cases z with
      | nil =>
        have hnone : ¬ (xjd1Isdigit 0 ∨ ((0 : UInt8) = ch '+' ∨ 0 = ch '-') ∧ xjd1Isdigit 0) := by decide
        exact absurd h.2 hnone
      | cons b t =>
        have hdig : ∀ c ∈ t.takeWhile xjd1Isdigit, Ordinary c :=
          fun c hc => ordinary_digit (List.mem_takeWhile_imp hc)
        have htake : (a::b::t).take (2 + digits t) = a::b::t.takeWhile xjd1Isdigit := by
          rw [Nat.add_comm,List.take_succ_cons,List.take_succ_cons,digits]
          exact congrArg _ (congrArg _ (List.prefix_iff_eq_take.mp (List.takeWhile_prefix _)).symm)
        have ht : Skims (t.takeWhile xjd1Isdigit) := by simpa using Skims.append hdig .nil
        have ha : Ordinary a := by
          have h1 : a = ch 'e' ∨ a = ch 'E' := h.1
          rcases h1 with rfl | rfl <;> exact ordinary_ident rfl
        have htail : Skims (b::t.takeWhile xjd1Isdigit) := by
          have h2 : xjd1Isdigit b ∨ ((b = ch '+' ∨ b = ch '-') ∧ xjd1Isdigit (peek t 0)) := h.2
          rcases h2 with hb | ⟨rfl | rfl,hd⟩
          · exact .char (ordinary_digit hb) ht
          · exact .char (by refine ⟨?_,?_,?_,?_,?_⟩ <;> decide) ht
          · cases t with
            | nil => exact absurd hd (by decide)
            | cons d t =>
              have hd : xjd1Isdigit d := hd
              rw [List.takeWhile_cons_of_pos hd] at ht ⊢
              exact .minus (ordinary_digit hd).2.2.2.1 ht
        rw [List.drop_succ_cons,List.drop_succ_cons,List.drop_zero,htake]
        exact .char ha htail
  · exact .nil

theorem skims_digits (z : Bytes) {w : Bytes} (hw : Skims w) : Skims (z.take (digits z) ++ w) := by
  rw [digits,← List.prefix_iff_eq_take.mp (List.takeWhile_prefix _)]
  exact .append (fun c hc => ordinary_digit (List.mem_takeWhile_imp hc)) hw

theorem skims_number {z : Bytes} {n : ℕ} {tk : Tk} (h : getNumber z = (tk,n)) (hill : tk ≠ .illegal) :
    Skims (z.take n) ∧ Plain tk := by
  rw [getNumber] at h
  generalize hfrac : (if peek z (digits z) = ch '.' then 1 + digits (z.drop (digits z + 1)) else 0) = nFrac at h
  obtain ⟨htk,rfl⟩ := Prod.mk.inj h
  have hident : ((z.drop (digits z + nFrac + expLength (z.drop (digits z + nFrac)))).takeWhile xjd1Isident).length = 0 := by
    by_contra hne
    rw [if_pos (Nat.pos_of_ne_zero hne)] at htk
    exact hill htk.symm
  rw [hident,Nat.add_zero,List.take_add,List.take_add,List.append_assoc]
  rw [hident,if_neg (Nat.lt_irrefl 0)] at htk
  refine ⟨skims_digits z ?_,?_⟩
  · have hexp := skims_expLength (z.drop (digits z + nFrac))
    split at hfrac
    · rename_i hdot
      have hlt := peek_lt (z := z) (i := digits z) (by rw [hdot]; decide)
      have hcons : z.drop (digits z) = ch '.' :: z.drop (digits z + 1) := by
        rw [List.drop_eq_getElem_cons hlt]
        rw [peek,List.getElem?_eq_getElem hlt] at hdot
        exact congrArg (· :: _) hdot
      obtain rfl : nFrac = digits (z.drop (digits z + 1)) + 1 := by omega
      rw [hcons,List.take_succ_cons,List.cons_append]
      exact .char (by refine ⟨?_,?_,?_,?_,?_⟩ <;> decide) (skims_digits _ hexp)
    · rw [← hfrac] at hexp ⊢
      simpa using hexp
  · rw [← htk]
    split <;> decide

theorem getToken_ordinary {c : UInt8} {t : Bytes} {tk : Tk} {n : ℕ} (hc : Ordinary c)
    (h : xjd1GetToken (c::t) = some (tk,n)) (hill : tk ≠ .illegal) :
    Plain tk ∧ ∃ w, (c::t).take n = c::w ∧ Skims w := by
  obtain ⟨h1,h2,h3,h4,h5⟩ := hc
  have hpeek : peek (c::t) 0 = c := rfl
  have hdrop : (c::t).drop 1 = t := rfl
  simp only [xjd1GetToken,hpeek,h2,Bool.false_eq_true,if_false,if_neg h4,if_neg h3,if_neg h5,hdrop] at h
  split at h
  · cases h
    exact ⟨by decide,[],rfl,.nil⟩
  split at h
  · rename_i hnum
    obtain ⟨hs,hp⟩ := skims_number (Option.some.inj h) hill
    have hpos := getNumber_pos (t := t) hnum
    rw [Option.some.inj h] at hpos
    obtain ⟨m,rfl⟩ := Nat.exists_eq_add_of_le' hpos
    rw [List.take_succ_cons] at hs
    exact ⟨hp,_,rfl,hs.tail h4⟩
  rename_i hnum
  have hone : (c::t).take 1 = [c] := rfl
  cases hch : charToken c with
  | some tk' =>
    rw [hch] at h
    cases h
    exact ⟨charToken_plain h1 _ hch,[],hone,.nil⟩
  | none =>
    cases hop : operatorToken c (peek (c::t) 1) (peek (c::t) 2) with
    | some r =>
      obtain ⟨tk',n'⟩ := r
      rw [hch,hop] at h
      cases h
      obtain ⟨hp,hd,he⟩ := operatorToken_plain hop
      obtain ⟨hpos,h3,_,_⟩ := operatorToken_length hop
      refine ⟨hp,?_⟩
      interval_cases n
      · exact ⟨[],hone,.nil⟩
      · cases t with
        | nil => exact ⟨[],rfl,.nil⟩
        | cons d t => exact ⟨[d],rfl,.char (hd (by decide)) .nil⟩
      · cases t with
        | nil => exact ⟨[],rfl,.nil⟩
        | cons d t => cases t with
          | nil => exact ⟨[d],rfl,.char (hd (by decide)) .nil⟩
          | cons e t => exact ⟨[d,e],rfl,.char (hd (by decide)) (.char (he (by decide)) .nil)⟩
    | none =>
      rw [hch,hop] at h
      dsimp only at h
      split at h
      · rename_i hid
        obtain ⟨tk',hk,h⟩ := Option.bind_eq_some_iff.mp h
        cases h
        refine ⟨keywordCode_plain hk,_,by rw [Nat.add_comm,List.take_succ_cons],?_⟩
        rw [← List.prefix_iff_eq_take.mp (List.takeWhile_prefix _)]
        have hord : ∀ c ∈ t.takeWhile xjd1Isident, Ordinary c := fun c hc => ordinary_ident (List.mem_takeWhile_imp hc)
        simpa using Skims.append hord .nil
      · cases h
        exact absurd rfl hill

/-- What a token makes of `isComplete`. -/
def completeEffect (b : Bool) (tok : Tk × Bytes) : Bool :=
  if tok.1 = .semi then true else if weak tok then b && !tabbed tok else false

def Scans (tk : Tk) (w rest : Bytes) : Prop :=
  (Unterminated (tk,w) → ∀ b, Completes (w ++ rest,b) false) ∧
    (¬ Unterminated (tk,w) → ∀ b, Leads (w ++ rest,b) (rest,completeEffect b (tk,w)))

theorem Scans.of_leads {tk : Tk} {w rest : Bytes} (hu : ¬ Unterminated (tk,w))
    (h : ∀ b, Leads (w ++ rest,b) (rest,completeEffect b (tk,w))) : Scans tk w rest :=
  ⟨fun h => absurd h hu,fun _ => h⟩

theorem not_unterminated {tk : Tk} {c : UInt8} {w : Bytes} (hq : c ≠ ch '"') (hs : c ≠ ch '/') :
    ¬ Unterminated (tk,c::w) := by
  rintro (⟨t,h,_⟩ | ⟨t,h,_⟩)
  · exact hq (List.cons.inj h).1
  · exact hs (List.cons.inj h).1

theorem scans_space {c : UInt8} {w : Bytes} (hc : startsSpace c) (hw : ∀ d ∈ w, xjd1Isspace d) (rest : Bytes) :
    Scans .space (c::w) rest := by
  have hne : c ≠ ch '"' ∧ c ≠ ch '/' ∧ c ≠ 11 := by
    refine ⟨?_,?_,?_⟩
    all_goals
      rintro rfl
      exact absurd hc (by decide)
  refine .of_leads (not_unterminated hne.1 hne.2.1) fun b => ?_
  have heffect : completeEffect b (.space,c::w) = (b && !w.contains 11) := by
    simp [completeEffect,weak,tabbed,hc,Ne.symm hne.2.2]
  rw [heffect]
  exact (Leads.turn (completeTurn_space b hc _)).trans (spaces_lead hw rest b)

theorem scans_minus {rest : Bytes} (h : peek rest 0 ≠ ch '-') : Scans .minus [ch '-'] rest := by
  refine .of_leads (not_unterminated (by decide) (by decide)) fun b => ?_
  have heffect : completeEffect b (.minus,[ch '-']) = b := by
    rw [completeEffect,if_neg (by decide),if_pos (by decide),show tabbed (.minus,[ch '-']) = false by decide]
    exact Bool.and_true b
  rw [heffect]
  exact Leads.turn (completeTurn_minus b h)

theorem scans_line {w rest : Bytes} (hw : 10 ∉ w) (hr : rest = [] ∨ ∃ s, rest = 10 :: s) :
    Scans .space (ch '-' :: ch '-' :: w) rest := by
  refine .of_leads (not_unterminated (by decide) (by decide)) fun b => ?_
  have heffect : completeEffect b (.space,ch '-' :: ch '-' :: w) = b := by
    simp [completeEffect,weak,tabbed,startsSpace]
  rw [heffect]
  rcases hr with rfl | ⟨s,rfl⟩
  · intro r hr
    obtain rfl := Returns.unique hr (Completes.exit rfl)
    rw [List.append_nil]
    exact .exit (completeTurn_lastLine _ hw)
  · exact Leads.turn (completeTurn_line b hw s)

theorem slash_effect (b : Bool) : completeEffect b (.slash,[ch '/']) = b := by
  rw [completeEffect,if_neg (by decide),if_pos (by decide),show tabbed (.slash,[ch '/']) = false by decide]
  exact Bool.and_true b

theorem slash_closed : ¬ Unterminated (.slash,[ch '/']) := by
  rintro (⟨t,h,_⟩ | ⟨t,h,_⟩)
  · exact absurd (List.cons.inj h).1 (by decide)
  · cases h

theorem scans_slash {rest : Bytes} (h : peek rest 0 ≠ ch '*') : Scans .slash [ch '/'] rest := by
  refine .of_leads slash_closed fun b => ?_
  rw [slash_effect]
  exact Leads.turn (completeTurn_slash b h)

/-- A slash and a star at the end of the text: two operators, or a comment that is not closed. -/
theorem scans_lastSlash : Scans .slash [ch '/'] [ch '*'] := by
  refine .of_leads slash_closed fun b r hr => ?_
  have hstar : Ordinary (ch '*') := by
    refine ⟨?_,?_,?_,?_,?_⟩ <;> decide
  have h := (completes_turn (completeTurn_ordinary _ hstar []) r).mp hr
  obtain rfl := Returns.unique h (Completes.exit rfl)
  exact .exit (completeTurn_unclosed b rfl)

theorem scans_comment {body rest : Bytes} (hb : CommentBody body) (hr : rest.head? ≠ some (ch '*')) :
    Scans .space (ch '/' :: ch '*' :: (body ++ [ch '*',ch '/'])) rest := by
  have hu : ¬ Unterminated (.space,ch '/' :: ch '*' :: (body ++ [ch '*',ch '/'])) := by
    rintro (⟨t,h,_⟩ | ⟨t,h,hi⟩)
    · exact absurd (List.cons.inj h).1 (by decide)
    · obtain rfl := (List.cons.inj (List.cons.inj h).2).2
      exact hi (List.suffix_append _ _).isInfix
  refine .of_leads hu fun b => ?_
  have heffect : completeEffect b (.space,ch '/' :: ch '*' :: (body ++ [ch '*',ch '/'])) = b := by
    simp [completeEffect,weak,tabbed,startsSpace]
  have hpeek : peek rest 0 ≠ ch '*' := by
    cases rest with
    | nil => decide
    | cons d rest => exact fun h => hr (congrArg some h)
  have hcat : ch '/' :: ch '*' :: (body ++ [ch '*',ch '/']) ++ rest =
      ch '/' :: ch '*' :: (body ++ ch '*' :: ch '/' :: rest) := by simp
  rw [heffect,hcat]
  exact (Leads.turn (completeTurn_comment b (commentEnd_body hb rest))).trans
    (Leads.turn (completeTurn_slash b hpeek))

theorem scans_openComment {t : Bytes} (h : ¬ [ch '*',ch '/'] <:+: t) (he : commentEnd t = []) :
    Scans .space (ch '/' :: ch '*' :: t) [] := by
  refine ⟨fun _ b => ?_,fun hu => absurd (Or.inr ⟨t,rfl,h⟩) hu⟩
  rw [List.append_nil]
  exact .exit (completeTurn_unclosed b he)

theorem scans_string {body rest : Bytes} (hb : QuotedBody body) (hu : Unescaped (body ++ [ch '"'])) :
    Scans .string (ch '"' :: (body ++ [ch '"'])) rest := by
  have hclosed : ¬ Unterminated (.string,ch '"' :: (body ++ [ch '"'])) := by
    rintro (⟨t,h,hc⟩ | ⟨t,h,_⟩)
    · obtain rfl := (List.cons.inj h).2
      exact hc ⟨body,[],hb,rfl,fun h => by cases h⟩
    · exact absurd (List.cons.inj h).1 (by decide)
  refine .of_leads hclosed fun b => ?_
  have h := (hb.plain (Or.inr rfl) hu).leads rest .nil b
  simpa [completeEffect,weak] using h

theorem scans_openString {body : Bytes} (hb : QuotedBody body) (hu : Unescaped body) (hc : ¬ Closed body) :
    Scans .string (ch '"' :: body) [] := by
  refine ⟨fun _ b => ?_,fun hu => absurd (Or.inl ⟨body,rfl,hc⟩) hu⟩
  rw [List.append_nil]
  exact (hb.plain (Or.inl rfl) (by rwa [List.append_nil])).completes .nil b

theorem scans_semi (rest : Bytes) : Scans .semi [ch ';'] rest :=
  .of_leads (not_unterminated (by decide) (by decide)) fun b => Leads.turn (completeTurn_semi b rest)

theorem scans_ordinary {tk : Tk} {c : UInt8} {w : Bytes} (hc : Ordinary c) (hw : Skims w) (htk : Plain tk)
    (rest : Bytes) : Scans tk (c::w) rest := by
  refine .of_leads (not_unterminated hc.2.2.2.2 hc.2.2.1) fun b => ?_
  have heffect : completeEffect b (tk,c::w) = false := by
    obtain ⟨h1,h2,h3,h4,_⟩ := htk
    simp [completeEffect,weak,h1,h2,h3,h4]
  rw [heffect]
  exact (Leads.turn (completeTurn_ordinary b hc _)).trans (hw.leads rest)

theorem take_takeWhile (p : UInt8 → Bool) (l : Bytes) : l.take (l.takeWhile p).length = l.takeWhile p :=
  (List.prefix_iff_eq_take.mp (List.takeWhile_prefix p)).symm

theorem drop_takeWhile (p : UInt8 → Bool) (l : Bytes) : l.drop (l.takeWhile p).length = l.dropWhile p := by
  have h : ((l.takeWhile p) ++ l.dropWhile p).drop (l.takeWhile p).length = l.dropWhile p := List.drop_left
  rwa [List.takeWhile_append_dropWhile] at h

theorem token_scans_minus {t : Bytes} {tk : Tk} {n : ℕ} (h0 : 0 ∉ t)
    (h : xjd1GetToken (ch '-' :: t) = some (tk,n)) :
    Scans tk ((ch '-' :: t).take n) ((ch '-' :: t).drop n) := by
  by_cases hp : peek t 0 = ch '-'
  · cases t with
    | nil => exact absurd hp (by decide)
    | cons d t =>
      obtain rfl : d = ch '-' := hp
      cases h
      rw [Nat.add_comm]
      simp only [List.take_succ_cons,List.drop_succ_cons,List.drop_zero,take_takeWhile,drop_takeWhile]
      refine scans_line (fun h => ?_) ?_
      · exact absurd (List.mem_takeWhile_imp h) (by decide)
      · cases hd : t.dropWhile (fun d : UInt8 => d != 0 && d != 10) with
        | nil => exact Or.inl rfl
        | cons d s =>
          have hmem : d ∈ t := (List.dropWhile_suffix _).subset (hd ▸ List.mem_cons_self)
          have hd10 := List.head_dropWhile_not (fun d : UInt8 => d != 0 && d != 10) (l := t) (by rw [hd]; simp)
          simp only [hd,List.head_cons,Bool.and_eq_false_iff,bne_eq_false_iff_eq] at hd10
          rcases hd10 with rfl | rfl
          · exact absurd (List.mem_cons_of_mem _ hmem) h0
          · exact Or.inr ⟨s,rfl⟩
  · have hone : xjd1GetToken (ch '-' :: t) = some (.minus,1) := if_neg hp
    rw [hone] at h
    cases h
    exact scans_minus hp

theorem token_scans_slash {t : Bytes} {tk : Tk} {n : ℕ} (h0 : 0 ∉ t)
    (h : xjd1GetToken (ch '/' :: t) = some (tk,n))
    (hs : [ch '/',ch '*'] <+: (ch '/' :: t).take n → ((ch '/' :: t).drop n).head? ≠ some (ch '*')) :
    Scans tk ((ch '/' :: t).take n) ((ch '/' :: t).drop n) := by
  by_cases hp : peek t 0 = ch '*'
  · cases t with
    | nil => exact absurd hp (by decide)
    | cons d t =>
      obtain rfl : d = ch '*' := hp
      have ht0 := List.not_mem_of_not_mem_cons h0
      cases t with
      | nil =>
        cases h
        exact scans_lastSlash
      | cons c t =>
        rcases commentEnd_cases (c::t) with ⟨body,s,hb,ht⟩ | ⟨he,hi⟩
        · rw [getToken_comment ht hb ht0] at h
          cases h
          have htake : (ch '/' :: ch '*' :: c :: t).take (body.length + 4) =
              ch '/' :: ch '*' :: (body ++ [ch '*',ch '/']) := by
            rw [ht,List.take_succ_cons,List.take_succ_cons,List.take_length_add_append]
            rfl
          have hdrop : (ch '/' :: ch '*' :: c :: t).drop (body.length + 4) = s := by
            rw [ht,List.drop_succ_cons,List.drop_succ_cons,List.drop_length_add_append]
            rfl
          rw [htake,hdrop] at hs ⊢
          exact scans_comment hb (hs ⟨_,rfl⟩)
        · rw [getToken_openComment hi ht0] at h
          cases h
          have hle : (ch '/' :: ch '*' :: c :: t).length ≤ t.length + 3 := Nat.le_refl _
          rw [List.take_of_length_le hle,List.drop_of_length_le hle]
          exact scans_openComment hi he
  · have hone : xjd1GetToken (ch '/' :: t) = some (.slash,1) := if_pos (Or.inl hp)
    rw [hone] at h
    cases h
    exact scans_slash hp

theorem token_scans_string {t : Bytes} {tk : Tk} {n : ℕ} (h0 : 0 ∉ t)
    (h : xjd1GetToken (ch '"' :: t) = some (tk,n)) (hu : Unescaped ((ch '"' :: t).take n)) :
    Scans tk ((ch '"' :: t).take n) ((ch '"' :: t).drop n) := by
  rw [getToken_string] at h
  cases h
  rcases scanQuoted_cases t h0 with ⟨rest,ht,_,hb⟩ | ⟨hlen,hb⟩
  · generalize hbody : t.take (scanQuoted t) = body at ht hb
    have hn : scanQuoted t = body.length := by
      rw [← hbody,List.length_take]
      have := congrArg List.length ht
      rw [← hbody,List.length_append,List.length_take] at this
      simp only [List.length_cons] at this
      omega
    rw [hn] at hu ⊢
    have htake : (ch '"' :: t).take (body.length + 2) = ch '"' :: (body ++ [ch '"']) := by
      rw [ht,List.take_succ_cons,List.take_length_add_append]
      rfl
    have hdrop : (ch '"' :: t).drop (body.length + 2) = rest := by
      rw [ht,List.drop_succ_cons,List.drop_length_add_append]
      rfl
    rw [htake] at hu ⊢
    rw [hdrop]
    exact scans_string hb (hu.tail (by decide))
  · rw [hlen] at hu ⊢
    have hle : (ch '"' :: t).length ≤ t.length + 2 := Nat.le_succ _
    rw [List.take_of_length_le hle] at hu ⊢
    rw [List.drop_of_length_le hle]
    refine scans_openString hb (hu.tail (by decide)) fun hc => ?_
    have hlt := (scanQuoted_lt_iff h0).mpr hc
    omega

theorem token_scans {z : Bytes} {tk : Tk} {n : ℕ} (hz : z ≠ []) (h0 : 0 ∉ z) (h : xjd1GetToken z = some (tk,n))
    (hill : tk ≠ .illegal) (hu : tk = .string → Unescaped (z.take n))
    (hs : [ch '/',ch '*'] <+: z.take n → (z.drop n).head? ≠ some (ch '*')) :
    Scans tk (z.take n) (z.drop n) := by
  obtain ⟨c,t,rfl⟩ := List.exists_cons_of_ne_nil hz
  have ht0 := List.not_mem_of_not_mem_cons h0
  by_cases hspace : startsSpace c
  · have hone : xjd1GetToken (c::t) = some (.space,1 + (t.takeWhile xjd1Isspace).length) := if_pos hspace
    rw [hone] at h
    cases h
    rw [Nat.add_comm,List.take_succ_cons,List.drop_succ_cons,take_takeWhile]
    exact scans_space hspace (fun d hd => List.mem_takeWhile_imp hd) _
  by_cases hminus : c = ch '-'
  · subst hminus
    exact token_scans_minus ht0 h
  by_cases hslash : c = ch '/'
  · subst hslash
    exact token_scans_slash ht0 h hs
  by_cases hquote : c = ch '"'
  · subst hquote
    refine token_scans_string ht0 h (hu ?_)
    rw [getToken_string] at h
    cases h
    rfl
  by_cases hsemi : c = ch ';'
  · subst hsemi
    have hone : xjd1GetToken (ch ';' :: t) = some (.semi,1) := rfl
    rw [hone] at h
    cases h
    exact scans_semi t
  have hc : Ordinary c := ⟨hsemi,by simpa using hspace,hslash,hminus,hquote⟩
  obtain ⟨hp,w,hw,hsk⟩ := getToken_ordinary hc h hill
  rw [hw]
  exact scans_ordinary hc hsk hp _

theorem getToken_pos {z : Bytes} {tk : Tk} {n : ℕ} (hz : z ≠ []) (h0 : 0 ∉ z) (h : xjd1GetToken z = some (tk,n)) :
    1 ≤ n := by
  by_cases hi : Inside z
  · obtain ⟨tk',n',h',hpos,_⟩ := hi
    cases h'.symm.trans h
    exact hpos
  · rcases outside_cases hz h0 hi with h' | h'
    · cases h'.symm.trans h
    · cases h'.symm.trans h
      omega

theorem Tokens.head {z : Bytes} {tok : Tk × Bytes} {ts : List (Tk × Bytes)} (h : Tokens z (tok::ts)) (h0 : 0 ∉ z) :
    tok.2.head? = z.head? := by
  cases h with
  | cons hz h _ _ =>
    obtain ⟨m,rfl⟩ := Nat.exists_eq_add_of_le' (getToken_pos hz h0 h)
    obtain ⟨c,t,rfl⟩ := List.exists_cons_of_ne_nil hz
    rfl

theorem Tokens.eq_nil {z : Bytes} (h : Tokens z []) : z = [] := by
  cases h
  rfl

theorem InStep.tail {tok : Tk × Bytes} {ts : List (Tk × Bytes)} (h : InStep (tok::ts)) : InStep ts where
  literal t ht := h.literal t (List.mem_cons_of_mem _ ht)
  comment := h.comment.of_cons

/-- The whole scan of a text in step: `false` if a token is not closed, and otherwise what
the tokens make of `isComplete` one after the other. -/
theorem Tokens.completes {z : Bytes} {ts : List (Tk × Bytes)} (h : Tokens z ts) (h0 : 0 ∉ z) (hs : InStep ts)
    (b : Bool) : ((∃ tok ∈ ts, Unterminated tok) → Completes (z,b) false) ∧
      ((∀ tok ∈ ts, ¬ Unterminated tok) → Completes (z,b) (ts.foldl completeEffect b)) := by
  induction h generalizing b with
  | nil =>
    refine ⟨?_,fun _ => .exit rfl⟩
    rintro ⟨tok,htok,_⟩
    cases htok
  | @cons z tk n ts hz h hill hts ih =>
    have h0' : 0 ∉ z.drop n := fun hm => h0 (List.mem_of_mem_drop hm)
    have hcomment : [ch '/',ch '*'] <+: z.take n → (z.drop n).head? ≠ some (ch '*') := by
      cases ts with
      | nil =>
        rw [hts.eq_nil]
        exact fun _ h => by cases h
      | cons tok ts =>
        rw [← hts.head h0']
        exact (List.isChain_cons_cons.mp hs.comment).1
    have hscan := token_scans hz h0 h hill (hs.literal _ List.mem_cons_self) hcomment
    rw [Scans,List.take_append_drop] at hscan
    by_cases hu : Unterminated (tk,z.take n)
    · exact ⟨fun _ => hscan.1 hu b,fun hall => absurd hu (hall _ List.mem_cons_self)⟩
    · have hlead := hscan.2 hu b
      obtain ⟨h1,h2⟩ := ih h0' hs.tail (completeEffect b (tk,z.take n))
      refine ⟨fun hex => hlead _ (h1 ?_),fun hall => hlead _ (h2 fun tok htok => hall tok (List.mem_cons_of_mem _ htok))⟩
      obtain ⟨tok,htok,hu'⟩ := hex
      rcases List.mem_cons.mp htok with rfl | htok
      · exact absurd hu' hu
      · exact ⟨tok,htok,hu'⟩

/-- White space, comments and the operators `-` and `/` only clear the flag, by a vertical tab. -/
theorem foldl_weak {ts : List (Tk × Bytes)} (h : ∀ tok ∈ ts, weak tok) (b : Bool) :
    ts.foldl completeEffect b = true ↔ b = true ∧ ¬ ∃ tok ∈ ts, tabbed tok := by
  induction ts generalizing b with
  | nil => simp
  | cons tok ts ih =>
    obtain ⟨hw,hts⟩ := List.forall_mem_cons.mp h
    have hsemi : tok.1 ≠ .semi := by
      intro he
      simp [weak,he] at hw
    rw [List.foldl_cons,ih hts,completeEffect,if_neg hsemi,if_pos hw]
    simp [and_assoc]

theorem foldl_strong {ts : List (Tk × Bytes)} (h : ∀ tok ∈ ts.getLast?, ¬ weak tok) :
    ts.foldl completeEffect true = true ↔ ∀ tok ∈ ts.getLast?, tok.1 = .semi := by
  rcases List.eq_nil_or_concat ts with rfl | ⟨ts,tok,rfl⟩
  · simp
  · have hw := h tok (by simp)
    simp [completeEffect,hw]

/-- The last token that is no white space, before and behind the tokens that leave the flag. -/
theorem lastToken_split {ts ws : List (Tk × Bytes)} (h : ∀ tok ∈ ts.getLast?, ¬ weak tok) (hw : ∀ tok ∈ ws, weak tok) :
    (∀ tok ∈ ((ts ++ ws).filter fun tok => tok.1 ≠ .space).getLast?, tok.1 = .semi) ↔
      (∀ tok ∈ ts.getLast?, tok.1 = .semi) ∧ ¬ ∃ tok ∈ ws, tok.1 ≠ .space := by
  rw [List.filter_append]
  rcases List.eq_nil_or_concat (ws.filter fun tok => tok.1 ≠ .space) with hnil | ⟨ws',tok,hws⟩
  · have hnone : ¬ ∃ tok ∈ ws, tok.1 ≠ .space := by
      rintro ⟨tok,htok,hne⟩
      have hmem : tok ∈ ws.filter fun tok => tok.1 ≠ .space := List.mem_filter.mpr ⟨htok,by simpa using hne⟩
      rw [hnil] at hmem
      cases hmem
    rw [hnil,List.append_nil]
    rcases List.eq_nil_or_concat ts with rfl | ⟨ts,tok,rfl⟩
    · simp [hnone]
    · have hlast := h tok (by simp)
      have hne : tok.1 ≠ .space := fun he => hlast (by simp [weak,he])
      simp [List.filter_append,hne,hnone]
  · have hmem : tok ∈ ws.filter fun tok => tok.1 ≠ .space := by
      rw [hws]
      simp
    obtain ⟨htok,hne⟩ := List.mem_filter.mp hmem
    have hsemi : tok.1 ≠ .semi := by
      intro he
      have := hw tok htok
      simp [weak,he] at this
    refine iff_of_false (fun hall => hsemi (hall tok ?_)) fun hand => hand.2 ⟨tok,htok,by simpa using hne⟩
    rw [hws]
    simp

/-- On the texts on which the scanners stay in step, `xjd1_complete` says what the tokenizer
says exactly when a string or a comment is not closed, or the last tokens are balanced. -/
theorem complete_agrees_iff {z : Bytes} {ts : List (Tk × Bytes)} (h0 : 0 ∉ z) (h : Tokens z ts) (hs : InStep ts) :
    CompleteAgrees z ts ↔ (∃ tok ∈ ts, Unterminated tok) ∨ Balanced ts := by
  obtain ⟨hopen,hclosed⟩ := h.completes h0 hs true
  by_cases hu : ∃ tok ∈ ts, Unterminated tok
  · refine iff_of_true ⟨false,hopen hu,?_⟩ (Or.inl hu)
    obtain ⟨tok,htok,hu⟩ := hu
    exact iff_of_false (fun h => by cases h) fun hends => hends.1 tok htok hu
  · have hall : ∀ tok ∈ ts, ¬ Unterminated tok := fun tok htok hu' => hu ⟨tok,htok,hu'⟩
    have hret := hclosed hall
    have hagree : CompleteAgrees z ts ↔ (ts.foldl completeEffect true = true ↔ EndsStatement ts) := by
      constructor
      · rintro ⟨b,hb,hiff⟩
        obtain rfl := Returns.unique hb hret
        exact hiff
      · exact fun hiff => ⟨_,hret,hiff⟩
    rw [hagree,or_iff_right hu,Balanced,EndsStatement,and_iff_right hall]
    have hstrong : ∀ tok ∈ (ts.rdropWhile weak).getLast?, ¬ weak tok := fun tok htok => by
      obtain ⟨hne,rfl⟩ := List.mem_getLast?_eq_getLast htok
      exact List.rdropWhile_last_not weak ts hne
    have hweak : ∀ tok ∈ ts.rtakeWhile weak, weak tok := fun tok htok => List.mem_rtakeWhile_imp htok
    have hsplit := lastToken_split hstrong hweak
    have hfold : ts.foldl completeEffect true =
        (ts.rtakeWhile weak).foldl completeEffect ((ts.rdropWhile weak).foldl completeEffect true) := by
      rw [← List.foldl_append,List.rdropWhile_append_rtakeWhile]
    rw [List.rdropWhile_append_rtakeWhile] at hsplit
    rw [hsplit,hfold,foldl_weak hweak,foldl_strong hstrong,and_congr_right_iff]
    exact forall_congr' fun _ => not_iff_not.trans iff_comm

theorem Tokens.append {w rest : Bytes} {tk : Tk} {ts : List (Tk × Bytes)} (hw : w ≠ [])
    (h : xjd1GetToken (w ++ rest) = some (tk,w.length)) (hill : tk ≠ .illegal) (hs : Tokens rest ts) :
    Tokens (w ++ rest) ((tk,w)::ts) := by
  have htokens := Tokens.cons (by simp [hw]) h hill (by rwa [List.drop_left])
  rwa [List.take_left] at htokens

/-- A string, a semicolon and a comment. -/
theorem complete_agrees_string : CompleteAgrees
    [ch '"',ch 'a',ch '"',ch ';',ch '/',ch '*',ch '*',ch '/']
    [(.string,[ch '"',ch 'a',ch '"']),(.semi,[ch ';']),(.space,[ch '/',ch '*',ch '*',ch '/'])] := by
  refine (complete_agrees_iff (by decide) ?_ ⟨?_,?_⟩).mpr (Or.inr ?_)
  · have hcomment : Tokens [ch '/',ch '*',ch '*',ch '/'] [(.space,[ch '/',ch '*',ch '*',ch '/'])] :=
      .cons (n := 4) (by decide) rfl (by decide) .nil
    have hsemi := Tokens.append (w := [ch ';']) (by decide) rfl (by decide) hcomment
    exact .append (w := [ch '"',ch 'a',ch '"']) (by decide) rfl (by decide) hsemi
  · simp only [List.mem_cons,List.not_mem_nil,or_false]
    rintro tok (rfl | rfl | rfl) h
    · exact .char (by decide) (.char (by decide) (.char (by decide) .nil))
    · cases h
    · cases h
  · decide
  · unfold Balanced
    decide

/-- A semicolon and a minus: complete for `xjd1_complete`, but the last token is no semicolon. -/
theorem complete_agrees_minus : 0 ∉ [ch ';',ch '-'] ∧
    Tokens [ch ';',ch '-'] [(.semi,[ch ';']),(.minus,[ch '-'])] ∧
    ¬ CompleteAgrees [ch ';',ch '-'] [(.semi,[ch ';']),(.minus,[ch '-'])] := by
  have hminus : Tokens [ch '-'] [(.minus,[ch '-'])] := .cons (n := 1) (by decide) rfl (by decide) .nil
  refine ⟨by decide,.append (w := [ch ';']) (by decide) rfl (by decide) hminus,?_⟩
  rintro ⟨b,hb,hiff⟩
  have htrue : Completes ([ch ';',ch '-'],true) true := (Leads.turn rfl) _ ((Leads.turn rfl) _ (.exit rfl))
  obtain rfl := Returns.unique hb htrue
  exact absurd ((hiff.mp rfl).2 (.minus,[ch '-']) rfl) (by decide)

end Xjd1
