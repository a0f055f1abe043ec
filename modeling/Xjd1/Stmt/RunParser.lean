import Xjd1.Stmt.Cut

/-! `xjd1RunParser`: the loop that cuts a statement text into tokens and hands them to
the parser generated from `parse.y`, which is a parameter. -/
namespace Xjd1

open Fueled Fueled.Run

def byteAt (z : Bytes) (i : ℕ) : Exec UInt8 :=
  if i ≤ z.length then .ok (peek z i) else .stop .undefined

/-- What the loop calls. The end of the input has no token type. -/
structure Lemon (σ : Type) where
  init : σ
  xjd1Parser : σ → Option Tk → Bytes → σ
  xjd1ParseError : σ → Bytes → σ
  errCode : σ → Bool

structure RunState (σ : Type) where
  i : ℕ
  sParse : σ
  nToken : ℕ
  lastTokenParsed : Option Tk

variable {σ : Type} (L : Lemon σ)

def runParserTurn (zCode : Bytes) (s : RunState σ) : Exec (RunState σ ⊕ RunState σ) := do
  let c ← byteAt zCode s.i
  if c = 0 ∨ L.errCode s.sParse then .ok (.inl s)
  else do
    let (tokenType,n) ← Run.ofOption .undefined (xjd1GetToken (zCode.drop s.i))
    let sTok := (zCode.drop s.i).take n
    match tokenType with
    | .space => .ok (.inr { s with i := s.i + n })
    | .illegal => .ok (.inl { s with i := s.i + n, sParse := L.xjd1ParseError s.sParse sTok })
    | _ =>
      let s' : RunState σ :=
        ⟨s.i + n,L.xjd1Parser s.sParse (some tokenType) sTok,s.nToken + 1,some tokenType⟩
      .ok (if L.errCode s'.sParse ∨ tokenType = .semi then .inl s' else .inr s')

/-- What follows `abort_parse`: a semicolon if there was none, and the end of the input. -/
def abortParse (s : RunState σ) : σ :=
  if L.errCode s.sParse ∨ s.nToken = 0 then s.sParse
  else
    let sParse := if s.lastTokenParsed = some .semi then s.sParse
      else L.xjd1Parser s.sParse (some .semi) [ch ';']
    L.xjd1Parser sParse none [ch ';']

def runStart : RunState σ := ⟨0,L.init,0,none⟩

/-- `xjd1RunParser`: how much of the text was read (`*pN`), and the `Parse` object. -/
def xjd1RunParser (zCode : Bytes) (n : ℕ) : Exec (ℕ × σ) := do
  let s ← Run.loop (runParserTurn L zCode) n (runStart L)
  .ok (s.i,abortParse L s)

inductive Cut (zCode : Bytes) : ℕ → List (Tk × Bytes) → ℕ → Prop
  | nil (i : ℕ) : Cut zCode i [] i
  | cons {i j n : ℕ} {tk : Tk} {ts : List (Tk × Bytes)} (h : xjd1GetToken (zCode.drop i) = some (tk,n))
      (hpos : 1 ≤ n) (hle : i + n ≤ zCode.length) (hs : Cut zCode (i+n) ts j) :
      Cut zCode i ((tk,(zCode.drop i).take n)::ts) j

theorem Cut.le_length {zCode : Bytes} {i j : ℕ} {ts : List (Tk × Bytes)} (h : Cut zCode i ts j)
    (hi : i ≤ zCode.length) : j ≤ zCode.length := by
  induction h with
  | nil => exact hi
  | cons _ _ hle _ ih => exact ih hle

theorem Cut.cover {zCode : Bytes} {i j : ℕ} {ts : List (Tk × Bytes)} (h : Cut zCode i ts j) :
    zCode.take i ++ (ts.map Prod.snd).flatten = zCode.take j := by
  induction h with
  | nil => simp
  | cons _ _ _ _ ih =>
    rw [List.map_cons,List.flatten_cons,← List.append_assoc,← List.take_add,ih]

def feedToken (s : RunState σ) (tok : Tk × Bytes) : RunState σ :=
  match tok.1 with
  | .space => { s with i := s.i + tok.2.length }
  | .illegal => { s with i := s.i + tok.2.length, sParse := L.xjd1ParseError s.sParse tok.2 }
  | tk => ⟨s.i + tok.2.length,L.xjd1Parser s.sParse (some tk) tok.2,s.nToken + 1,some tk⟩

inductive Visited (zCode : Bytes) : RunState σ → Prop
  | start : Visited zCode (runStart L)
  | turn {s s' : RunState σ} (hs : Visited zCode s) (h : runParserTurn L zCode s = .ok (.inr s')) :
      Visited zCode s'

/-- The run ends, with what it read of the text cut into tokens that were handed to the
parser in order: all of the text, unless an error or a semicolon ends the statement. -/
def CutsText (zCode : Bytes) : Prop :=
  ∃ ts s, Returns (fun n => xjd1RunParser L zCode n) (s.i,abortParse L s) ∧ Cut zCode 0 ts s.i ∧
    (ts.map Prod.snd).flatten = zCode.take s.i ∧ s = ts.foldl (feedToken L) (runStart L) ∧
    (s.i = zCode.length ∨ L.errCode s.sParse ∨ ∃ tok ∈ ts.getLast?, tok.1 = .semi ∨ tok.1 = .illegal)

def Leaves (tok : Tk × Bytes) (s : RunState σ) : Prop :=
  tok.1 = .illegal ∨ (tok.1 ≠ .space ∧ (L.errCode s.sParse ∨ tok.1 = .semi))

section Turn
variable {L} {zCode : Bytes} {s : RunState σ}

theorem byteAt_lt {i : ℕ} (h0 : 0 ∉ zCode) (h : i < zCode.length) : ∃ c, byteAt zCode i = .ok c ∧ c ≠ 0 := by
  refine ⟨_,if_pos (Nat.le_of_lt h),?_⟩
  rw [peek,List.getElem?_eq_getElem h,Option.getD_some]
  exact fun hc => h0 (hc ▸ List.getElem_mem h)

theorem turn_end (h : s.i = zCode.length) : runParserTurn L zCode s = .ok (.inl s) := by
  have hb : byteAt zCode s.i = .ok 0 := by
    rw [byteAt,if_pos (Nat.le_of_eq h),peek,List.getElem?_eq_none (Nat.le_of_eq h.symm)]
    rfl
  rw [runParserTurn,hb,ok_bind,if_pos (Or.inl rfl)]

theorem turn_error (hi : s.i ≤ zCode.length) (h : L.errCode s.sParse) :
    runParserTurn L zCode s = .ok (.inl s) := by
  rw [runParserTurn,byteAt,if_pos hi,ok_bind,if_pos (Or.inr h)]

theorem turn_past (h : zCode.length < s.i) : runParserTurn L zCode s = .stop .undefined := by
  rw [runParserTurn,byteAt,if_neg (Nat.not_le_of_lt h)]
  rfl

theorem turn_untyped (h0 : 0 ∉ zCode) (hi : s.i < zCode.length) (he : ¬ L.errCode s.sParse)
    (h : xjd1GetToken (zCode.drop s.i) = none) : runParserTurn L zCode s = .stop .undefined := by
  obtain ⟨c,hb,hc⟩ := byteAt_lt h0 hi
  rw [runParserTurn,hb,ok_bind,if_neg (not_or.mpr ⟨hc,he⟩),h]
  rfl

theorem turn_string (h0 : 0 ∉ zCode) (hi : s.i < zCode.length) (he : ¬ L.errCode s.sParse) {n : ℕ}
    (h : xjd1GetToken (zCode.drop s.i) = some (.string,n)) :
    ∃ s', s'.i = s.i + n ∧
      (runParserTurn L zCode s = .ok (.inl s') ∨ runParserTurn L zCode s = .ok (.inr s')) := by
  obtain ⟨c,hb,hc⟩ := byteAt_lt h0 hi
  rw [runParserTurn,hb,ok_bind,if_neg (not_or.mpr ⟨hc,he⟩),h,ofOption_some,ok_bind]
  refine ⟨⟨s.i + n,L.xjd1Parser s.sParse (some .string) ((zCode.drop s.i).take n),s.nToken + 1,some .string⟩,rfl,?_⟩
  by_cases hl : L.errCode (L.xjd1Parser s.sParse (some .string) ((zCode.drop s.i).take n))
  · exact Or.inl (congrArg _ (if_pos (Or.inl hl)))
  · exact Or.inr (congrArg _ (if_neg (not_or.mpr ⟨hl,by decide⟩)))

/-- A turn at a token inside the text hands it over, and goes on unless the token ends the loop. -/
theorem turn_token (h0 : 0 ∉ zCode) (hi : s.i < zCode.length) (he : ¬ L.errCode s.sParse) {tk : Tk} {n : ℕ}
    (h : xjd1GetToken (zCode.drop s.i) = some (tk,n)) (hn : s.i + n ≤ zCode.length) :
    (Leaves L (tk,(zCode.drop s.i).take n) (feedToken L s (tk,(zCode.drop s.i).take n)) ∧
      runParserTurn L zCode s = .ok (.inl (feedToken L s (tk,(zCode.drop s.i).take n)))) ∨
    runParserTurn L zCode s = .ok (.inr (feedToken L s (tk,(zCode.drop s.i).take n))) := by
  obtain ⟨c,hb,hc⟩ := byteAt_lt h0 hi
  have hlen : ((zCode.drop s.i).take n).length = n := by
    rw [List.length_take,List.length_drop]
    omega
  rw [runParserTurn,hb,ok_bind,if_neg (not_or.mpr ⟨hc,he⟩),h,ofOption_some,ok_bind]
  simp only [feedToken,hlen]
  split
  · exact Or.inr rfl
  · exact Or.inl ⟨Or.inl rfl,rfl⟩
  · rename_i hspace hill
    by_cases hl : L.errCode (L.xjd1Parser s.sParse (some tk) ((zCode.drop s.i).take n)) ∨ tk = .semi
    · exact Or.inl ⟨Or.inr ⟨hspace,hl⟩,congrArg _ (if_pos hl)⟩
    · exact Or.inr (congrArg _ (if_neg hl))

theorem feedToken_i (s : RunState σ) (tok : Tk × Bytes) : (feedToken L s tok).i = s.i + tok.2.length := by
  rw [feedToken]
  split <;> rfl

end Turn

section Runs
variable {L} {zCode : Bytes}

def AllFit (L : Lemon σ) (zCode : Bytes) : Prop :=
  ∀ s, Visited L zCode s → s.i < zCode.length → ¬ L.errCode s.sParse → Fits (zCode.drop s.i)

theorem cut_from (h0 : 0 ∉ zCode) (hfit : AllFit L zCode) (s : RunState σ) (hs : Visited L zCode s)
    (hi : s.i ≤ zCode.length) : ∃ ts, Returns (fun n => Run.loop (runParserTurn L zCode) n s)
        (ts.foldl (feedToken L) s) ∧ Cut zCode s.i ts (ts.foldl (feedToken L) s).i ∧
      ((ts.foldl (feedToken L) s).i = zCode.length ∨ L.errCode (ts.foldl (feedToken L) s).sParse ∨
        ∃ tok ∈ ts.getLast?, tok.1 = .semi ∨ tok.1 = .illegal) := by
  induction hn : zCode.length - s.i using Nat.strong_induction_on generalizing s with
  | _ n ih =>
    subst hn
    rcases Nat.lt_or_eq_of_le hi with hlt | heq
    · by_cases he : L.errCode s.sParse
      · exact ⟨[],Returns.loop_exit (.of_forall fun _ => turn_error hi he),.nil _,Or.inr (Or.inl he)⟩
      · have hz : zCode.drop s.i ≠ [] := by
          rw [Ne,List.drop_eq_nil_iff]
          omega
        have hz0 : 0 ∉ zCode.drop s.i := fun h => h0 (List.mem_of_mem_drop h)
        obtain ⟨tk,n,htok,hpos,hle⟩ := (inside_iff hz hz0).mpr (hfit s hs hlt he)
        rw [List.length_drop] at hle
        have hle' : s.i + n ≤ zCode.length := by omega
        have hi' : (feedToken L s (tk,(zCode.drop s.i).take n)).i = s.i + n := by
          rw [feedToken_i,List.length_take,List.length_drop]
          omega
        rcases turn_token h0 hlt he htok hle' with ⟨hl,h⟩ | h
        · refine ⟨[(tk,(zCode.drop s.i).take n)],Returns.loop_exit (.of_forall fun _ => h),
            .cons htok hpos hle' (hi' ▸ .nil _),Or.inr ?_⟩
          rcases hl with hl | ⟨_,hl | hl⟩
          · exact Or.inr ⟨_,rfl,Or.inr hl⟩
          · exact Or.inl hl
          · exact Or.inr ⟨_,rfl,Or.inl hl⟩
        · obtain ⟨ts,h1,h2,h3⟩ := ih _ (by rw [hi']; omega) _ (hs.turn h) (by rw [hi']; omega) rfl
          rw [hi'] at h2
          refine ⟨_::ts,Returns.loop_turn (fun _ _ _ _ => Run.le_refl _) (.of_forall fun _ => h) h1,
            .cons htok hpos hle' h2,h3.imp_right (Or.imp_right ?_)⟩
          rintro ⟨tok,htok,hl⟩
          cases ts with
          | nil => cases htok
          | cons tok' ts => exact ⟨tok,by rwa [List.getLast?_cons_cons],hl⟩
    · exact ⟨[],Returns.loop_exit (.of_forall fun _ => turn_end heq),.nil _,Or.inl heq⟩

theorem Visited.loop_eq {s : RunState σ} (hs : Visited L zCode s) {r : RunState σ}
    (h : Returns (fun n => Run.loop (runParserTurn L zCode) n (runStart L)) r) :
    Returns (fun n => Run.loop (runParserTurn L zCode) n s) r := by
  induction hs with
  | start => exact h
  | turn _ hturn ih =>
    have ih := Returns.succ_iff.mpr ih
    simpa only [Run.loop,hturn,ok_bind] using ih

theorem not_returns_of_stop {s r : RunState σ} (hs : runParserTurn L zCode s = .stop .undefined) :
    ¬ Returns (fun n => Run.loop (runParserTurn L zCode) n s) r := by
  intro h
  obtain ⟨n,hn⟩ := (Returns.succ_iff.mpr h).exists
  simp only [Run.loop,hs,stop_bind] at hn
  cases hn

theorem allFit_of_cut (h0 : 0 ∉ zCode) {s : RunState σ}
    (h : Returns (fun n => Run.loop (runParserTurn L zCode) n (runStart L)) s) (hi : s.i ≤ zCode.length) :
    AllFit L zCode := by
  intro s' hs' hlt he
  have hz : zCode.drop s'.i ≠ [] := by
    rw [Ne,List.drop_eq_nil_iff]
    omega
  have hz0 : 0 ∉ zCode.drop s'.i := fun h => h0 (List.mem_of_mem_drop h)
  refine (inside_iff hz hz0).mp (by_contra fun hout => ?_)
  have hrun := hs'.loop_eq h
  rcases outside_cases hz hz0 hout with htok | htok
  · exact not_returns_of_stop (turn_untyped h0 hlt he htok) hrun
  · obtain ⟨s1,h1,hturn⟩ := turn_string h0 hlt he htok
    rw [List.length_drop] at h1
    rcases hturn with hturn | hturn
    · have hexit : Returns (fun n => Run.loop (runParserTurn L zCode) n s') s1 :=
        Returns.loop_exit (.of_forall fun _ => hturn)
      have heq := hexit.unique hrun
      rw [heq] at h1
      omega
    · exact not_returns_of_stop (turn_past (by omega)) ((hs'.turn hturn).loop_eq h)

theorem cutsText_iff (h0 : 0 ∉ zCode) : CutsText L zCode ↔ AllFit L zCode := by
  constructor
  · rintro ⟨ts,s,h,hcut,-⟩
    obtain ⟨s',h1,h2⟩ := Returns.of_bind (fun _ _ hnm => loop_le_loop (fun _ => Run.le_refl _) hnm _)
      (fun _ _ _ _ => Run.le_refl _) h
    obtain ⟨n,hn⟩ := h2.exists
    have hi : s'.i = s.i := congrArg Prod.fst (Run.ok.inj hn)
    exact allFit_of_cut h0 h1 (hi ▸ hcut.le_length (Nat.zero_le _))
  · intro hfit
    obtain ⟨ts,h1,h2,h3⟩ := cut_from h0 hfit _ .start (Nat.zero_le _)
    exact ⟨ts,_,h1.bind (.of_forall fun _ => rfl),h2,h2.cover,rfl,h3⟩

end Runs

/-- The token at the start of a text stays inside it exactly when it fits, whatever
follows the terminator; and a run cuts the text into tokens, without reading past
the terminator, exactly when every token it comes to fits. -/
theorem tokens_inside_iff (L : Lemon σ) (z : Bytes) (h0 : 0 ∉ z) :
    (z ≠ [] → (Inside z ↔ Fits z) ∧ ∀ junk, xjd1GetToken (z ++ 0 :: junk) = xjd1GetToken z) ∧
      (CutsText L z ↔ AllFit L z) :=
  ⟨fun hz => ⟨inside_iff hz h0,fun junk => getToken_terminated junk hz h0⟩,cutsText_iff h0⟩

/-- A parser that accepts every token and keeps their types. -/
def collect : Lemon (List Tk) where
  init := []
  xjd1Parser s tk _ := s ++ tk.toList
  xjd1ParseError s _ := s
  errCode _ := false

/-- The text `1;`. -/
theorem tokens_inside_semi :
    ([ch '1',ch ';'] ≠ [] → (Inside [ch '1',ch ';'] ↔ Fits [ch '1',ch ';']) ∧
        ∀ junk, xjd1GetToken ([ch '1',ch ';'] ++ 0 :: junk) = xjd1GetToken [ch '1',ch ';']) ∧
      (CutsText collect [ch '1',ch ';'] ↔ AllFit collect [ch '1',ch ';']) :=
  tokens_inside_iff collect [ch '1',ch ';'] (by decide)

/-- The token of a quote and an `a` is as long as the text and its terminator, and the
loop reads behind the terminator. -/
theorem tokens_inside_unclosed : ¬ Inside [ch '"',ch 'a'] ∧ ¬ CutsText collect [ch '"',ch 'a'] := by
  have htok : xjd1GetToken [ch '"',ch 'a'] = some (.string,3) := rfl
  constructor
  · rintro ⟨tk,n,h,_,hn⟩
    rw [htok] at h
    cases h
    exact absurd hn (by decide)
  · rintro ⟨ts,s,h,-⟩
    obtain ⟨n,hn⟩ := (Returns.succ_iff.mpr (Returns.succ_iff.mpr h)).exists
    have hstop : xjd1RunParser collect [ch '"',ch 'a'] (n+2) = .stop .undefined := rfl
    cases hstop.symm.trans hn

end Xjd1
