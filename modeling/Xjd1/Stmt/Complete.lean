import Mathlib.Data.List.TakeWhile
import Xjd1.Stmt.Cut

/-! `xjd1_complete`. A pointer into the text is given by the text from it to the
terminator, so the terminator is the last byte that a pointer can reach; a step to a
place behind it is undefined. -/
namespace Xjd1

open Fueled Fueled.Run

/-- The scan of a comment to the star that ends it, or to the terminator. -/
def commentEnd : Bytes → Bytes
  | [] => []
  | c::t => if c = ch '*' ∧ peek t 0 = ch '/' then c::t else commentEnd t

/-- The scan of a string to its closing quote, or to the terminator. A backslash takes the
pointer two bytes on, which the loop then reads. -/
def literalEnd : Bytes → Exec Bytes
  | [] => .ok []
  | c::t =>
    if c = ch '"' then .ok (c::t)
    else if c = ch '\\' then
      match t with
      | [] => .stop .undefined
      | _::t => literalEnd t
    else literalEnd t

def completeTurn (s : Bytes × Bool) : Exec (Bool ⊕ (Bytes × Bool)) :=
  match s.1 with
  | [] => .ok (.inl s.2)
  | c::t =>
    if c = ch ';' then .ok (.inr (t,true))
    else if startsSpace c then .ok (.inr (t,s.2))
    else if c = ch '/' then
      if peek t 0 ≠ ch '*' then .ok (.inr (t,s.2))
      else match commentEnd (t.drop 1) with
        | [] => .ok (.inl false)
        | _::t => .ok (.inr (t,s.2)) -- only the star is passed, and the slash comes next
    else if c = ch '-' then
      if peek t 0 ≠ ch '-' then .ok (.inr (t,s.2))
      else match (c::t).dropWhile (· != 10) with
        | [] => .ok (.inl s.2)
        | d::t => .ok (.inr (d::t,s.2))
    else if c = ch '"' then do
      match ← literalEnd t with
      | [] => .ok (.inl false)
      | _::t => .ok (.inr (t,false))
    else .ok (.inr (t,false))

def xjd1Complete (zStmt : Option Bytes) (n : ℕ) : Exec Bool :=
  match zStmt with
  | none => .ok true
  | some z => Run.loop completeTurn n (z,true)

def CommentBody (body : Bytes) : Prop := ¬ [ch '*',ch '/'] <:+: body ++ [ch '*']

theorem CommentBody.tail {c : UInt8} {body : Bytes} (h : CommentBody (c::body)) : CommentBody body :=
  fun hi => h (hi.trans (List.suffix_cons c _).isInfix)

theorem commentEnd_body {body : Bytes} (h : CommentBody body) (s : Bytes) :
    commentEnd (body ++ ch '*' :: ch '/' :: s) = ch '*' :: ch '/' :: s := by
  induction body with
  | nil => exact if_pos ⟨rfl,rfl⟩
  | cons c body ih =>
    rw [List.cons_append,commentEnd,if_neg,ih h.tail]
    rintro ⟨rfl,hp⟩
    cases body with
    | nil => exact absurd hp (show ¬ ch '*' = ch '/' by decide)
    | cons d body =>
      obtain rfl : d = ch '/' := hp
      exact h ⟨[],body ++ [ch '*'],rfl⟩

theorem commentEnd_cases (t : Bytes) : (∃ body s, CommentBody body ∧ t = body ++ ch '*' :: ch '/' :: s) ∨
    (commentEnd t = [] ∧ ¬ [ch '*',ch '/'] <:+: t) := by
  induction t with
  | nil => exact Or.inr ⟨rfl,fun h => by cases List.infix_nil.mp h⟩
  | cons c t ih =>
    by_cases hc : c = ch '*' ∧ peek t 0 = ch '/'
    · obtain ⟨rfl,hp⟩ := hc
      cases t with
      | nil => exact absurd hp (by decide)
      | cons d t =>
        obtain rfl : d = ch '/' := hp
        exact Or.inl ⟨[],t,fun h => absurd h.length_le (by decide),rfl⟩
    · have hhead : ¬ [ch '*',ch '/'] <+: c::t := by
        rintro ⟨u,hu⟩
        obtain ⟨rfl,rfl⟩ := List.cons.inj hu
        exact hc ⟨rfl,rfl⟩
      rcases ih with ⟨body,s,hb,rfl⟩ | ⟨h1,h2⟩
      · refine Or.inl ⟨c::body,s,fun h => ?_,rfl⟩
        rcases List.infix_cons_iff.mp h with h | h
        · refine hhead (h.trans ?_)
          exact ⟨ch '/' :: s,by simp⟩
        · exact hb h
      · refine Or.inr ⟨by rw [commentEnd,if_neg hc,h1],fun h => ?_⟩
        rcases List.infix_cons_iff.mp h with h | h
        · exact hhead h
        · exact h2 h

/-- The body of a string in which a backslash takes the byte after it along. -/
inductive EscapedBody : Bytes → Prop
  | nil : EscapedBody []
  | char {c : UInt8} {s : Bytes} (hq : c ≠ ch '"') (hb : c ≠ ch '\\') (h : EscapedBody s) : EscapedBody (c::s)
  | escape (c : UInt8) {s : Bytes} (h : EscapedBody s) : EscapedBody (ch '\\' :: c :: s)

theorem literalEnd_append {body : Bytes} (h : EscapedBody body) (s : Bytes) :
    literalEnd (body ++ s) = literalEnd s := by
  induction h with
  | nil => rfl
  | char hq hb _ ih =>
    rw [List.cons_append,literalEnd.eq_def]
    simp only [if_neg hq,if_neg hb,ih]
  | escape c _ ih =>
    rw [← ih]
    rfl

theorem literalEnd_closed {body : Bytes} (h : EscapedBody body) (s : Bytes) :
    literalEnd (body ++ ch '"' :: s) = .ok (ch '"' :: s) := by
  rw [literalEnd_append h,literalEnd.eq_def]
  exact if_pos rfl

theorem literalEnd_open {body : Bytes} (h : EscapedBody body) : literalEnd body = .ok [] := by
  rw [← List.append_nil body,literalEnd_append h]
  rfl

/-- A string is closed, or the text is cut off in it, right behind a backslash or elsewhere. -/
theorem literalEnd_cases (t : Bytes) : (∃ body s, EscapedBody body ∧ t = body ++ ch '"' :: s) ∨
    (∃ body, EscapedBody body ∧ t = body ++ [ch '\\']) ∨ EscapedBody t := by
  induction hn : t.length using Nat.strong_induction_on generalizing t with
  | _ n ih =>
    subst hn
    match t with
    | [] => exact Or.inr (Or.inr .nil)
    | c::t =>
      by_cases hq : c = ch '"'
      · subst hq
        exact Or.inl ⟨[],t,.nil,rfl⟩
      by_cases hb : c = ch '\\'
      · subst hb
        match t with
        | [] => exact Or.inr (Or.inl ⟨[],.nil,rfl⟩)
        | d::t =>
          rcases ih t.length (by simp only [List.length_cons]; omega) t rfl with ⟨body,s,h,rfl⟩ | ⟨body,h,rfl⟩ | h
          · exact Or.inl ⟨_,s,.escape d h,rfl⟩
          · exact Or.inr (Or.inl ⟨_,.escape d h,rfl⟩)
          · exact Or.inr (Or.inr (.escape d h))
      · rcases ih t.length (Nat.lt_succ_self _) t rfl with ⟨body,s,h,rfl⟩ | ⟨body,h,rfl⟩ | h
        · exact Or.inl ⟨_,s,.char hq hb h,rfl⟩
        · exact Or.inr (Or.inl ⟨_,.char hq hb h,rfl⟩)
        · exact Or.inr (Or.inr (.char hq hb h))

section Turn
variable (b : Bool)

theorem completeTurn_semi (t : Bytes) : completeTurn (ch ';' :: t,b) = .ok (.inr (t,true)) := rfl

theorem completeTurn_space {c : UInt8} (h : startsSpace c) (t : Bytes) :
    completeTurn (c::t,b) = .ok (.inr (t,b)) := by
  have hc : c ≠ ch ';' := by
    rintro rfl
    exact absurd h (by decide)
  simp only [completeTurn,if_neg hc,h,if_true]

theorem completeTurn_slash {t : Bytes} (h : peek t 0 ≠ ch '*') :
    completeTurn (ch '/' :: t,b) = .ok (.inr (t,b)) := if_pos h

theorem completeTurn_comment {t s : Bytes} {c : UInt8} (h : commentEnd t = c::s) :
    completeTurn (ch '/' :: ch '*' :: t,b) = .ok (.inr (s,b)) := by
  simp [completeTurn,startsSpace,peek,h]

theorem completeTurn_unclosed {t : Bytes} (h : commentEnd t = []) :
    completeTurn (ch '/' :: ch '*' :: t,b) = .ok (.inl false) := by
  simp [completeTurn,startsSpace,peek,h]

theorem completeTurn_minus {t : Bytes} (h : peek t 0 ≠ ch '-') :
    completeTurn (ch '-' :: t,b) = .ok (.inr (t,b)) := if_pos h

theorem completeTurn_line {body : Bytes} (h : 10 ∉ body) (s : Bytes) :
    completeTurn (ch '-' :: ch '-' :: (body ++ 10 :: s),b) = .ok (.inr (10::s,b)) := by
  have hdrop : (body ++ 10 :: s).dropWhile (fun c : UInt8 => c != 10) = 10 :: s := by
    rw [List.dropWhile_append_of_pos]
    · rfl
    · exact fun c hc => bne_iff_ne.mpr fun e => h (e ▸ hc)
  simp [completeTurn,startsSpace,peek,hdrop]

theorem completeTurn_lastLine {body : Bytes} (h : 10 ∉ body) :
    completeTurn (ch '-' :: ch '-' :: body,b) = .ok (.inl b) := by
  have hdrop : body.dropWhile (fun c : UInt8 => c != 10) = [] :=
    List.dropWhile_eq_nil_iff.mpr fun c hc => bne_iff_ne.mpr fun e => h (e ▸ hc)
  simp [completeTurn,startsSpace,peek,hdrop]

theorem completeTurn_literal {t s : Bytes} {c : UInt8} (h : literalEnd t = .ok (c::s)) :
    completeTurn (ch '"' :: t,b) = .ok (.inr (s,false)) := by
  simp [completeTurn,startsSpace,h]

theorem completeTurn_unquoted {t : Bytes} (h : literalEnd t = .ok []) :
    completeTurn (ch '"' :: t,b) = .ok (.inl false) := by
  simp [completeTurn,startsSpace,h]

theorem completeTurn_cut {t : Bytes} (h : literalEnd t = .stop .undefined) :
    completeTurn (ch '"' :: t,b) = .stop .undefined := by
  simp [completeTurn,startsSpace,h]

def Ordinary (c : UInt8) : Prop :=
  c ≠ ch ';' ∧ startsSpace c = false ∧ c ≠ ch '/' ∧ c ≠ ch '-' ∧ c ≠ ch '"'

theorem completeTurn_ordinary {c : UInt8} (h : Ordinary c) (t : Bytes) :
    completeTurn (c::t,b) = .ok (.inr (t,false)) := by
  obtain ⟨h1,h2,h3,h4,h5⟩ := h
  simp only [completeTurn,if_neg h1,h2,if_neg h3,if_neg h4,if_neg h5,Bool.false_eq_true,if_false]

end Turn

/-- A text that ends in a string, right behind a backslash that is not itself taken along
by another one. What comes before are characters, comments and strings as
`xjd1_complete` tells them apart: the slash that ends a comment may open the next one. -/
inductive CutInEscape : Bytes → Prop
  | here {body : Bytes} (hb : EscapedBody body) : CutInEscape (ch '"' :: (body ++ [ch '\\']))
  | char {c : UInt8} {s : Bytes} (hc : c ≠ ch '/' ∧ c ≠ ch '-' ∧ c ≠ ch '"') (h : CutInEscape s) :
      CutInEscape (c::s)
  | slash {s : Bytes} (hs : peek s 0 ≠ ch '*') (h : CutInEscape s) : CutInEscape (ch '/' :: s)
  | minus {s : Bytes} (hs : peek s 0 ≠ ch '-') (h : CutInEscape s) : CutInEscape (ch '-' :: s)
  | comment {body s : Bytes} (hb : CommentBody body) (h : CutInEscape (ch '/' :: s)) :
      CutInEscape (ch '/' :: ch '*' :: (body ++ ch '*' :: ch '/' :: s))
  | line {body s : Bytes} (hb : 10 ∉ body) (h : CutInEscape s) :
      CutInEscape (ch '-' :: ch '-' :: (body ++ 10 :: s))
  | literal {body s : Bytes} (hb : EscapedBody body) (h : CutInEscape s) :
      CutInEscape (ch '"' :: (body ++ ch '"' :: s))

def Completes (s : Bytes × Bool) (b : Bool) : Prop := Returns (fun n => Run.loop completeTurn n s) b

theorem Completes.exit {s : Bytes × Bool} {b : Bool} (h : completeTurn s = .ok (.inl b)) : Completes s b :=
  Returns.loop_exit (.of_forall fun _ => h)

theorem completes_turn {s s' : Bytes × Bool} (h : completeTurn s = .ok (.inr s')) (b : Bool) :
    Completes s b ↔ Completes s' b := by
  rw [Completes,← Returns.succ_iff]
  simp only [Run.loop,h,ok_bind]
  rfl

theorem not_completes {s : Bytes × Bool} (h : completeTurn s = .stop .undefined) (b : Bool) :
    ¬ Completes s b := by
  intro hc
  obtain ⟨n,hn⟩ := (Returns.succ_iff.mpr hc).exists
  simp only [Run.loop,h,stop_bind] at hn
  cases hn

theorem completeTurn_char {c : UInt8} (h : c ≠ ch '/' ∧ c ≠ ch '-' ∧ c ≠ ch '"') (s : Bytes) (b : Bool) :
    ∃ b', completeTurn (c::s,b) = .ok (.inr (s,b')) := by
  by_cases h1 : c = ch ';'
  · subst h1
    exact ⟨_,completeTurn_semi b s⟩
  by_cases h2 : startsSpace c
  · exact ⟨_,completeTurn_space b h2 s⟩
  · exact ⟨_,completeTurn_ordinary b ⟨h1,by simpa using h2,h.1,h.2.1,h.2.2⟩ s⟩

theorem CutInEscape.not_completes {z : Bytes} (h : CutInEscape z) (b b' : Bool) : ¬ Completes (z,b) b' := by
  induction h generalizing b with
  | here hb =>
    refine Xjd1.not_completes (completeTurn_cut b ?_) b'
    rw [literalEnd_append hb]
    rfl
  | char hc _ ih =>
    obtain ⟨b1,h1⟩ := completeTurn_char hc _ b
    rw [completes_turn h1]
    exact ih b1
  | slash hs _ ih =>
    rw [completes_turn (completeTurn_slash b hs)]
    exact ih b
  | minus hs _ ih =>
    rw [completes_turn (completeTurn_minus b hs)]
    exact ih b
  | comment hb _ ih =>
    rw [completes_turn (completeTurn_comment b (commentEnd_body hb _))]
    exact ih b
  | @line body s hb _ ih =>
    have hnl : completeTurn (10::s,b) = .ok (.inr (s,b)) := completeTurn_space b rfl s
    rw [completes_turn (completeTurn_line b hb s),completes_turn hnl]
    exact ih b
  | literal hb _ ih =>
    rw [completes_turn (completeTurn_literal b (literalEnd_closed hb _))]
    exact ih false

theorem completes_of_not_cut (z : Bytes) (b : Bool) (h : ¬ CutInEscape z) : ∃ b', Completes (z,b) b' := by
  induction hn : z.length using Nat.strong_induction_on generalizing z b with
  | _ n ih =>
    subst hn
    -- a turn that leaves a shorter text, which is not cut off either
    have step {s : Bytes} {b1 : Bool} (ht : completeTurn (z,b) = .ok (.inr (s,b1))) (hs : s.length < z.length)
        (hcut : CutInEscape s → CutInEscape z) : ∃ b', Completes (z,b) b' := by
      obtain ⟨b',hb'⟩ := ih s.length hs s b1 (fun hc => h (hcut hc)) rfl
      exact ⟨b',(completes_turn ht b').mpr hb'⟩
    cases z with
    | nil => exact ⟨b,.exit rfl⟩
    | cons c t =>
      by_cases hslash : c = ch '/'
      · subst hslash
        by_cases hp : peek t 0 = ch '*'
        · cases t with
          | nil => exact absurd hp (by decide)
          | cons d t =>
            obtain rfl : d = ch '*' := hp
            rcases commentEnd_cases t with ⟨body,s,hb,rfl⟩ | ⟨he,_⟩
            · exact step (completeTurn_comment b (commentEnd_body hb s))
                (by simp only [List.length_cons,List.length_append]; omega) (.comment hb)
            · exact ⟨false,.exit (completeTurn_unclosed b he)⟩
        · exact step (completeTurn_slash b hp) (Nat.lt_succ_self _) (.slash hp)
      by_cases hminus : c = ch '-'
      · subst hminus
        by_cases hp : peek t 0 = ch '-'
        · cases t with
          | nil => exact absurd hp (by decide)
          | cons d t =>
            obtain rfl : d = ch '-' := hp
            by_cases hnl : 10 ∈ t
            · obtain ⟨body,s,rfl,hb⟩ := List.eq_append_cons_of_mem hnl
              exact step (completeTurn_line b hb s) (by simp only [List.length_cons,List.length_append]; omega)
                fun hc => .line hb (by cases hc with | char _ h => exact h)
            · exact ⟨b,.exit (completeTurn_lastLine b hnl)⟩
        · exact step (completeTurn_minus b hp) (Nat.lt_succ_self _) (.minus hp)
      by_cases hquote : c = ch '"'
      · subst hquote
        rcases literalEnd_cases t with ⟨body,s,hb,rfl⟩ | ⟨body,hb,rfl⟩ | hb
        · exact step (completeTurn_literal b (literalEnd_closed hb _))
            (by simp only [List.length_cons,List.length_append]; omega) (.literal hb)
        · exact absurd (.here hb) h
        · exact ⟨false,.exit (completeTurn_unquoted b (literalEnd_open hb))⟩
      · obtain ⟨b1,h1⟩ := completeTurn_char ⟨hslash,hminus,hquote⟩ t b
        exact step h1 (Nat.lt_succ_self _) (.char ⟨hslash,hminus,hquote⟩)

/-- `xjd1_complete` ends, having read no byte behind the terminator, exactly on the texts
that are not cut off right behind a backslash in a string. -/
theorem complete_ends_iff (z : Bytes) :
    (∃ b, Returns (fun n => xjd1Complete (some z) n) b) ↔ ¬ CutInEscape z := by
  constructor
  · rintro ⟨b,h⟩ hc
    exact hc.not_completes true b h
  · exact completes_of_not_cut z true

/-- A quote and a backslash. -/
theorem complete_ends_backslash : ¬ ∃ b, Returns (fun n => xjd1Complete (some [ch '"',ch '\\']) n) b := by
  rintro ⟨b,h⟩
  obtain ⟨n,hn⟩ := (Returns.succ_iff.mpr h).exists
  have hstop : xjd1Complete (some [ch '"',ch '\\']) (n+1) = .stop .undefined := rfl
  cases hstop.symm.trans hn

end Xjd1
