import Xjd1.Parser.Sentences
import Xjd1.Stmt.RunParser

/-! `xjd1RunParser` with the parser driver: what a text that is accepted is. -/
namespace Xjd1
namespace Lempar

open Fueled Fueled.Run Grammar ShiftReduce

/-- What `parse.y` and the caller bring along: the codes of the token types, the value of
a token, and the `Parse` object. -/
structure ParseCode (σ V : Type) extends UserCode σ V where
  tokenCode : Tk → ℕ
  token : Bytes → V
  sParse : σ
  see : σ → ℕ × V → σ
  xjd1ParseError : σ → Bytes → σ
  errCode : σ → Bool

variable {σ V : Type}

/-- An error stays, and the codes of the tokens are those of terminal symbols. -/
structure ParseCode.Lawful (C : ParseCode σ V) (nterminal : ℕ) : Prop where
  code_pos : ∀ tk, tk ≠ .space → tk ≠ .illegal → 0 < C.tokenCode tk
  code_lt : ∀ tk, tk ≠ .space → tk ≠ .illegal → C.tokenCode tk < nterminal
  syntaxError : ∀ a v s, C.errCode (C.syntaxError a v s)
  parseError : ∀ s z, C.errCode (C.xjd1ParseError s z)
  reduce : ∀ r vs s, C.errCode s → C.errCode (C.reduce r vs s).2
  see : ∀ s t, C.errCode s → C.errCode (C.see s t)

variable (T : Tables) (C : ParseCode σ V)

def feed (n : ℕ) (r : Exec (List Ended × YyParser σ V)) (t : ℕ × V) : Exec (List Ended × YyParser σ V) := do
  let (es,pParser) ← r
  let (e,pParser) ← parse T C.toUserCode n t.1 t.2 { pParser with p := C.see pParser.p t }
  .ok (es ++ [e],pParser)

def failed : Exec (List Ended × YyParser σ V) → Bool
  | .ok (_,pParser) => C.errCode pParser.p
  | _ => true

def coded (tk : Option Tk) (z : Bytes) : ℕ × V := ((tk.map C.tokenCode).getD 0,C.token z)

def lempar (n : ℕ) : Lemon (Exec (List Ended × YyParser σ V)) where
  init := .ok ([],⟨[],C.sParse⟩)
  xjd1Parser r tk z := feed T C n r (coded C tk z)
  xjd1ParseError r z := r >>= fun r => .ok (r.1,{ r.2 with p := C.xjd1ParseError r.2.p z })
  errCode := failed C

def handed (ts : List (Tk × Bytes)) : List (Tk × Bytes) := ts.filter fun t => decide (t.1 ≠ .space)

/-- The tokens that the parser is called for in all: a semicolon is added if there is none. -/
def statement (ts : List (Tk × Bytes)) : List (Tk × Bytes) :=
  if (handed ts).getLast?.map Prod.fst = some .semi then handed ts else handed ts ++ [(.semi,[ch ';'])]

def codes (ts : List (Tk × Bytes)) : List (ℕ × V) := ts.map fun t => coded C (some t.1) t.2

/-- The tables reduce a rule of the start symbol at the end of the input only. -/
def EndsInput (P : List (Production ℕ)) (nterminal start : ℕ) : Prop :=
  ∀ q < T.yyNState, ∀ a < nterminal, ∀ r p, yyFindShiftAction T q a = .ok (T.yyNState + r) → P[r]? = some p →
    p.lhs = start → a = 0

def fed (n : ℕ) (ts : List (Tk × Bytes)) : RunState (Exec (List Ended × YyParser σ V)) :=
  ts.foldl (feedToken (lempar T C n)) (runStart (lempar T C n))

section Ends
variable {T C} {P : List (Production ℕ)} {M : Automaton ℕ ℕ} {nterminal start : ℕ}

/-- What is known of a call for a token of the type `a` by its end. -/
def Marked (C : ParseCode σ V) (a : ℕ) : Ended × YyParser σ V → Prop
  | (.shifted,_) => a ≠ 0
  | (.accepted,_) => a = 0
  | (.overflowed,_) => True
  | (.rejected,pParser) => C.errCode pParser.p

theorem turn_marked (hE : Encodes T P M nterminal start) (hI : EndsInput T P nterminal start)
    (hC : C.Lawful nterminal)
    {pParser : YyParser σ V} (h : OnPath M pParser) {a : ℕ} (ha : a < nterminal) (v : V)
    {x : (Ended × YyParser σ V) ⊕ YyParser σ V} (hx : parseTurn T C.toUserCode a v pParser = .ok x) :
    (∀ r, x = .inl r → Marked C a r) ∧
      (C.errCode pParser.p → C.errCode (Sum.elim (fun r => r.2.p) (fun pParser => pParser.p) x)) := by
  obtain ⟨es,q,h⟩ := h
  rcases turn_cases (U := C.toUserCode) (s := pParser.p) hE h ha v with
    ⟨q',ha0,hn,he⟩ | ⟨r,p,q',hact,hp,hi,hd,hq',⟨rfl,hl,he⟩ | ⟨q'',hn,he⟩⟩ | he
  · cases hx.symm.trans he
    rcases yyShift_cases T pParser q' a v with he | he
    · rw [he]
      exact ⟨fun r hr => (by cases hr; trivial),id⟩
    · rw [he]
      exact ⟨fun r hr => (by cases hr; exact ha0),id⟩
  · cases hx.symm.trans he
    exact ⟨fun r' hr => (by cases hr; exact hI q (h.lt hE) a ha r p hact hp hl),hC.reduce _ _ _⟩
  · cases hx.symm.trans he
    rcases whileStack_cases T _ q'' p.lhs _ with he | he
    · rw [he]
      exact ⟨fun r hr => (by cases hr; trivial),hC.reduce _ _ _⟩
    · rw [he]
      exact ⟨fun r hr => (by cases hr),hC.reduce _ _ _⟩
  · cases hx.symm.trans he
    exact ⟨fun r hr => (by cases hr; exact hC.syntaxError _ _ _),fun _ => hC.syntaxError _ _ _⟩

theorem restart_p (U : UserCode σ V) (pParser : YyParser σ V) : (restart U pParser).p = pParser.p := by
  rw [restart]
  split <;> rfl

theorem parse_marked (hE : Encodes T P M nterminal start) (hI : EndsInput T P nterminal start)
    (hC : C.Lawful nterminal) {e : Ended} {pParser : YyParser σ V} (h : Ready M e pParser) {a : ℕ}
    (ha : a < nterminal) {v : V} {n : ℕ} {r : Ended × YyParser σ V}
    (hr : parse T C.toUserCode n a v pParser = .ok r) :
    Marked C a r ∧ (C.errCode pParser.p → C.errCode r.2.p) := by
  refine Run.loop_inv (P := fun x => OnPath M x ∧ (C.errCode pParser.p → C.errCode x.p))
    (Q := fun r => Marked C a r ∧ (C.errCode pParser.p → C.errCode r.2.p)) (fun x y hx hy => ?_)
    ⟨restart_onPath hE h,fun he => (restart_p C.toUserCode pParser).symm ▸ he⟩ hr
  obtain ⟨hmark,herr⟩ := turn_marked hE hI hC hx.1 ha v hy
  obtain ⟨y',hy',hready⟩ := turn_safe (U := C.toUserCode) hE hx.1 ha v
  cases hy.symm.trans hy'
  refine ⟨?_,?_⟩
  · rintro b rfl
    exact ⟨hmark b rfl,fun he => herr (hx.2 he)⟩
  · rintro x' rfl
    exact ⟨hready,fun he => herr (hx.2 he)⟩

/-- Where there is neither an error nor an overflow, every token is pushed up to the end
of the input, for which the parser accepts. -/
theorem parseAll_ends (hE : Encodes T P M nterminal start) (hI : EndsInput T P nterminal start)
    (hC : C.Lawful nterminal) {n : ℕ} {ts : List (ℕ × V)} (hts : ∀ t ∈ ts, t.1 < nterminal) {e : Ended}
    {pParser pParser' : YyParser σ V} (h : Ready M e pParser) {es : List Ended}
    (hr : parseAll T C.toUserCode C.see n ts pParser = .ok (es,pParser')) :
    (C.errCode pParser.p → C.errCode pParser'.p) ∧ (¬ C.errCode pParser'.p → .overflowed ∉ es →
      es = ts.map fun t => if t.1 = 0 then .accepted else .shifted) := by
  induction ts generalizing e pParser es with
  | nil =>
    cases hr
    exact ⟨id,fun _ _ => rfl⟩
  | cons t ts ih =>
    obtain ⟨⟨e',p₁⟩,hcall,hrest⟩ := bind_eq_ok.mp hr
    obtain ⟨⟨es',p₂⟩,htail,heq⟩ := bind_eq_ok.mp hrest
    cases heq
    have hnoted : Ready M e { pParser with p := C.see pParser.p t } := h
    have ht := hts t (List.mem_cons_self ..)
    obtain ⟨hmark,herr⟩ := parse_marked hE hI hC hnoted ht hcall
    have hready : Ready M e' p₁ := by
      have hsafe := parse_safe (U := C.toUserCode) hE e hnoted ht t.2 n Stop.undefined
      rw [hcall] at hsafe
      exact hsafe
    obtain ⟨herr',hends⟩ := ih (fun u hu => hts u (List.mem_cons_of_mem _ hu)) hready htail
    refine ⟨fun he => herr' (herr (hC.see _ _ he)),fun hne hover => ?_⟩
    rw [List.map_cons,← hends hne fun hmem => hover (List.mem_cons_of_mem _ hmem)]
    cases e' with
    | shifted =>
      have h0 : t.1 ≠ 0 := hmark
      rw [if_neg h0]
    | accepted =>
      have h0 : t.1 = 0 := hmark
      rw [if_pos h0]
    | overflowed => exact absurd (List.mem_cons_self ..) hover
    | rejected => exact absurd (herr' hmark) hne

theorem foldl_feed_stop (T : Tables) (C : ParseCode σ V) (n : ℕ) (ts : List (ℕ × V)) (x : Stop) :
    ts.foldl (feed T C n) (.stop x) = .stop x := by
  induction ts with
  | nil => rfl
  | cons t ts ih => exact ih

theorem foldl_feed_more (T : Tables) (C : ParseCode σ V) (n : ℕ) (ts : List (ℕ × V)) :
    ts.foldl (feed T C n) .more = .more := by
  induction ts with
  | nil => rfl
  | cons t ts ih => exact ih

theorem foldl_feed (T : Tables) (C : ParseCode σ V) (n : ℕ) (ts : List (ℕ × V)) (es : List Ended)
    (pParser : YyParser σ V) : ts.foldl (feed T C n) (.ok (es,pParser)) =
      (parseAll T C.toUserCode C.see n ts pParser >>= fun r => .ok (es ++ r.1,r.2)) := by
  induction ts generalizing es pParser with
  | nil => rw [parseAll,ok_bind,List.append_nil]; rfl
  | cons t ts ih =>
    rw [List.foldl_cons,feed,ok_bind,parseAll]
    dsimp only
    cases parse T C.toUserCode n t.1 t.2 { pParser with p := C.see pParser.p t } with
    | stop x => exact foldl_feed_stop T C n ts x
    | more => exact foldl_feed_more T C n ts
    | ok r =>
      simp only [ok_bind,ih]
      cases parseAll T C.toUserCode C.see n ts r.2 with
      | stop x => rfl
      | more => rfl
      | ok r' =>
        simp only [ok_bind,List.append_assoc,List.singleton_append]

def Sane (M : Automaton ℕ ℕ) (r : Exec (List Ended × YyParser σ V)) : Prop :=
  ∀ x, Avoids x (fun r => ∃ e, Ready M e r.2) r

theorem feed_sane (hE : Encodes T P M nterminal start) (hI : EndsInput T P nterminal start)
    (hC : C.Lawful nterminal)
    {n : ℕ} {r : Exec (List Ended × YyParser σ V)} (hr : Sane M r) {t : ℕ × V} (ht : t.1 < nterminal) :
    Sane M (feed T C n r t) ∧ (failed C r → failed C (feed T C n r t)) := by
  cases r with
  | stop x => exact ⟨hr,id⟩
  | more => exact ⟨hr,id⟩
  | ok r =>
    obtain ⟨es,pParser⟩ := r
    obtain ⟨e,h⟩ := hr Stop.undefined
    have hnoted : Ready M e { pParser with p := C.see pParser.p t } := h
    have hsafe := fun x => parse_safe (U := C.toUserCode) hE e hnoted ht t.2 n x
    rw [feed,ok_bind]
    dsimp only
    cases hp : parse T C.toUserCode n t.1 t.2 { pParser with p := C.see pParser.p t } with
    | stop x =>
      have hx := hsafe x
      rw [hp] at hx
      exact absurd rfl hx
    | more => exact ⟨fun _ => trivial,fun _ => rfl⟩
    | ok r' =>
      have hx := hsafe Stop.undefined
      rw [hp] at hx
      exact ⟨fun _ => ⟨r'.1,hx⟩,fun he => (parse_marked hE hI hC hnoted ht hp).2 (hC.see _ _ he)⟩

theorem error_sane (hC : C.Lawful nterminal) {r : Exec (List Ended × YyParser σ V)} (hr : Sane M r) (n : ℕ)
    (z : Bytes) : Sane M ((lempar T C n).xjd1ParseError r z) ∧
      failed C ((lempar T C n).xjd1ParseError r z) := by
  cases r with
  | stop x => exact ⟨hr,rfl⟩
  | more => exact ⟨hr,rfl⟩
  | ok r => exact ⟨hr,hC.parseError _ _⟩

theorem coded_lt (hC : C.Lawful nterminal) {tk : Tk} (h : tk ≠ .space) (h' : tk ≠ .illegal) (z : Bytes) :
    (coded C (some tk) z).1 < nterminal := hC.code_lt tk h h'

theorem fold_failed (hE : Encodes T P M nterminal start) (hI : EndsInput T P nterminal start)
    (hC : C.Lawful nterminal)
    {n : ℕ} (ts : List (Tk × Bytes)) (s : RunState (Exec (List Ended × YyParser σ V))) (hs : Sane M s.sParse) :
    Sane M (ts.foldl (feedToken (lempar T C n)) s).sParse ∧
      ((failed C s.sParse ∨ ∃ t ∈ ts, t.1 = .illegal) →
        failed C (ts.foldl (feedToken (lempar T C n)) s).sParse) := by
  induction ts generalizing s with
  | nil => exact ⟨hs,fun h => h.resolve_right (by rintro ⟨t,ht,-⟩; cases ht)⟩
  | cons t ts ih =>
    have hstep : Sane M (feedToken (lempar T C n) s t).sParse ∧ ((failed C s.sParse ∨ t.1 = .illegal) →
        failed C (feedToken (lempar T C n) s t).sParse) := by
      rw [feedToken]
      split
      · rename_i hsp
        exact ⟨hs,fun h => h.resolve_right (by rw [hsp]; decide)⟩
      · have herr := error_sane (T := T) hC hs n t.2
        exact ⟨herr.1,fun _ => herr.2⟩
      · rename_i hsp hill
        have hfeed := feed_sane (n := n) hE hI hC hs (coded_lt hC hsp hill t.2)
        exact ⟨hfeed.1,fun h => hfeed.2 (h.resolve_right hill)⟩
    obtain ⟨hsane,hfail⟩ := ih _ hstep.1
    refine ⟨hsane,fun h => hfail ?_⟩
    rcases h with h | ⟨u,hu,hill⟩
    · exact .inl (hstep.2 (.inl h))
    · rcases List.mem_cons.mp hu with rfl | hu
      · exact .inl (hstep.2 (.inr hill))
      · exact .inr ⟨u,hu,hill⟩

theorem fold_feedToken (T : Tables) (C : ParseCode σ V) (n : ℕ) (ts : List (Tk × Bytes))
    (s : RunState (Exec (List Ended × YyParser σ V))) (hts : ∀ t ∈ ts, t.1 ≠ .illegal) :
    (ts.foldl (feedToken (lempar T C n)) s).sParse = (codes C (handed ts)).foldl (feed T C n) s.sParse ∧
      (ts.foldl (feedToken (lempar T C n)) s).nToken = s.nToken + (handed ts).length ∧
      (ts.foldl (feedToken (lempar T C n)) s).lastTokenParsed =
        (handed ts).foldl (fun _ t => some t.1) s.lastTokenParsed := by
  induction ts generalizing s with
  | nil => exact ⟨rfl,rfl,rfl⟩
  | cons t ts ih =>
    obtain ⟨h₁,h₂,h₃⟩ := ih (feedToken (lempar T C n) s t) fun u hu => hts u (List.mem_cons_of_mem _ hu)
    rw [List.foldl_cons,h₁,h₂,h₃]
    by_cases hsp : t.1 = .space
    · have hhanded : handed (t::ts) = handed ts := List.filter_cons_of_neg (by rw [hsp]; decide)
      rw [hhanded,feedToken,hsp]
      exact ⟨rfl,rfl,rfl⟩
    · have hhanded : handed (t::ts) = t::handed ts := List.filter_cons_of_pos (decide_eq_true hsp)
      have hfeed : feedToken (lempar T C n) s t =
          ⟨s.i + t.2.length,feed T C n s.sParse (coded C (some t.1) t.2),s.nToken + 1,some t.1⟩ := by
        rw [feedToken]
        split
        · rename_i h
          exact absurd h hsp
        · rename_i h
          exact absurd h (hts t (List.mem_cons_self ..))
        · rfl
      rw [hhanded,hfeed,List.length_cons]
      exact ⟨rfl,by dsimp only; omega,rfl⟩

theorem foldl_last (ts : List (Tk × Bytes)) (h : ts ≠ []) (o : Option Tk) :
    ts.foldl (fun _ t => some t.1) o = ts.getLast?.map Prod.fst := by
  induction ts generalizing o with
  | nil => exact absurd rfl h
  | cons t ts ih =>
    rw [List.foldl_cons]
    cases ts with
    | nil => rfl
    | cons u ts => rw [ih (List.cons_ne_nil u ts),List.getLast?_cons_cons]

theorem fed_eq (T : Tables) (C : ParseCode σ V) (n : ℕ) {ts : List (Tk × Bytes)} (hts : ∀ t ∈ ts, t.1 ≠ .illegal)
    (hne : handed ts ≠ []) :
    (fed T C n ts).sParse = (codes C (handed ts)).foldl (feed T C n) (.ok ([],⟨[],C.sParse⟩)) ∧
      (fed T C n ts).nToken ≠ 0 ∧ (fed T C n ts).lastTokenParsed = (handed ts).getLast?.map Prod.fst := by
  obtain ⟨h₁,h₂,h₃⟩ := fold_feedToken T C n ts (runStart (lempar T C n)) hts
  have hlen : 0 < (handed ts).length := List.length_pos_iff.mpr hne
  refine ⟨h₁,?_,h₃.trans (foldl_last _ hne _)⟩
  rw [fed,h₂]
  omega

theorem codes_append (C : ParseCode σ V) (ts us : List (Tk × Bytes)) :
    codes C (ts ++ us) = codes C ts ++ codes C us :=
  List.map_append

/-- After a text without errors, the parser has been called for the tokens of the
statement and for the end of the input. -/
theorem abortParse_eq (hE : Encodes T P M nterminal start) (hI : EndsInput T P nterminal start)
    (hC : C.Lawful nterminal)
    {n : ℕ} {ts : List (Tk × Bytes)} (hne : handed ts ≠ [])
    (hok : failed C (abortParse (lempar T C n) (fed T C n ts)) =
      false) : (∀ t ∈ ts, t.1 ≠ .illegal) ∧
    abortParse (lempar T C n) (fed T C n ts) =
      parseAll T C.toUserCode C.see n (codes C (statement ts) ++ [coded C none [ch ';']]) ⟨[],C.sParse⟩ := by
  have hstart : Sane M (runStart (lempar T C n)).sParse := fun _ => ⟨.accepted,rfl⟩
  obtain ⟨-,hfail⟩ := fold_failed (n := n) hE hI hC ts (runStart (lempar T C n)) hstart
  have herr : ¬ (lempar T C n).errCode (fed T C n ts).sParse := by
    intro he
    rw [abortParse,if_pos (Or.inl he)] at hok
    exact absurd (hok.symm.trans he) (by decide)
  have hts : ∀ t ∈ ts, t.1 ≠ .illegal := fun t ht hill => herr (hfail (.inr ⟨t,ht,hill⟩))
  obtain ⟨h₁,hn,h₃⟩ := fed_eq T C n hts hne
  have hrun := foldl_feed T C n (codes C (statement ts) ++ [coded C none [ch ';']]) [] ⟨[],C.sParse⟩
  refine ⟨hts,?_⟩
  rw [abortParse,if_neg (not_or.mpr ⟨herr,hn⟩),h₁,h₃]
  have hcalls : ∀ r : Exec (List Ended × YyParser σ V),
      (r >>= fun r => (.ok ([] ++ r.1,r.2) : Exec (List Ended × YyParser σ V))) = r :=
    fun r => by cases r <;> rfl
  rw [hcalls] at hrun
  rw [← hrun,List.foldl_append]
  by_cases hsemi : (handed ts).getLast?.map Prod.fst = some .semi
  · rw [if_pos hsemi,statement,if_pos hsemi]
    rfl
  · rw [if_neg hsemi,statement,if_neg hsemi,codes_append,List.foldl_append]
    rfl

theorem abortParse_sane (hE : Encodes T P M nterminal start) (hI : EndsInput T P nterminal start)
    (hC : C.Lawful nterminal) {n : ℕ} {s : RunState (Exec (List Ended × YyParser σ V))} (hs : Sane M s.sParse) :
    Sane M (abortParse (lempar T C n) s) := by
  have hsemi : C.tokenCode .semi < nterminal := hC.code_lt .semi (by decide) (by decide)
  have hfeed := (feed_sane (n := n) hE hI hC hs (t := coded C (some .semi) [ch ';']) hsemi).1
  have hend : ∀ z, (coded C none z).1 < nterminal := fun _ => Nat.lt_of_le_of_lt (Nat.zero_le _) hsemi
  rw [abortParse]
  split
  · exact hs
  · dsimp only
    split
    · exact (feed_sane hE hI hC hs (hend _)).1
    · exact (feed_sane hE hI hC hfeed (hend _)).1

theorem mem_statement {ts : List (Tk × Bytes)} (hts : ∀ t ∈ ts, t.1 ≠ .illegal) {t : Tk × Bytes}
    (ht : t ∈ statement ts) : t.1 ≠ .space ∧ t.1 ≠ .illegal := by
  have hhanded : ∀ u ∈ handed ts, u.1 ≠ .space ∧ u.1 ≠ .illegal := fun u hu =>
    ⟨of_decide_eq_true (List.mem_filter.mp hu).2,hts u (List.mem_filter.mp hu).1⟩
  rw [statement] at ht
  split at ht
  · exact hhanded t ht
  · rcases List.mem_append.mp ht with ht | ht
    · exact hhanded t ht
    · rw [List.mem_singleton.mp ht]
      exact ⟨by decide,by decide⟩

theorem codes_lt (hC : C.Lawful nterminal) {ts : List (Tk × Bytes)} (hts : ∀ t ∈ ts, t.1 ≠ .illegal) :
    ∀ t ∈ codes C (statement ts) ++ [coded C none [ch ';']], t.1 < nterminal := by
  intro t ht
  rcases List.mem_append.mp ht with ht | ht
  · obtain ⟨u,hu,rfl⟩ := List.mem_map.mp ht
    obtain ⟨hsp,hill⟩ := mem_statement hts hu
    exact hC.code_lt u.1 hsp hill
  · rw [List.mem_singleton.mp ht]
    exact Nat.lt_trans (hC.code_pos .semi (by decide) (by decide)) (hC.code_lt .semi (by decide) (by decide))

theorem codes_ends (hC : C.Lawful nterminal) {ts : List (Tk × Bytes)} (hts : ∀ t ∈ ts, t.1 ≠ .illegal) :
    ((codes C (statement ts) ++ [coded C none [ch ';']]).map
        fun t => if t.1 = 0 then Ended.accepted else .shifted) =
      List.replicate (codes C (statement ts)).length .shifted ++ [.accepted] := by
  rw [List.map_append]
  congr 1
  refine List.map_eq_replicate_iff.mpr fun t ht => if_neg ?_
  obtain ⟨u,hu,rfl⟩ := List.mem_map.mp ht
  obtain ⟨hsp,hill⟩ := mem_statement hts hu
  exact Nat.pos_iff_ne_zero.mp (hC.code_pos u.1 hsp hill)

end Ends

def nestedCode : ParseCode (Bool × List ℕ) ℕ where
  yyzerominor := 0
  reduce r _ s := (r,(s.1,s.2 ++ [r]))
  syntaxError _ _ s := (true,s.2)
  tokenCode
    | .id => 2
    | .semi => 3
    | _ => 1
  token z := z.length
  sParse := (false,[])
  see s _ := s
  xjd1ParseError s _ := (true,s.2)
  errCode s := s.1

theorem nestedCode_lawful : nestedCode.Lawful 4 where
  code_pos tk _ _ := by cases tk <;> decide
  code_lt tk _ _ := by cases tk <;> decide
  syntaxError _ _ _ := rfl
  parseError _ _ := rfl
  reduce _ _ _ h := h
  see _ _ h := h

theorem nestedTables_endsInput : EndsInput nestedTables nestedRules 4 4 := by
  intro q hq a ha r p hact hr hl
  have hcheck : ∀ q < 6, ∀ a < 4, yyFindShiftAction nestedTables q a = .ok 6 → a = 0 := by decide
  match r with
  | 0 => exact hcheck q hq a ha hact
  | 1 | 2 =>
    cases hr
    cases hl
  | r+3 => cases hr

/-- The text `((X;`. -/
def nestedText : Bytes := [ch '(',ch '(',ch 'X',ch ';']

theorem nestedText_fits : AllFit (lempar nestedTables nestedCode 9) nestedText := by
  have hrun : ∃ s, Run.loop (runParserTurn (lempar nestedTables nestedCode 9) nestedText) 5
      (runStart (lempar nestedTables nestedCode 9)) = .ok s ∧ s.i = 4 := ⟨_,rfl,rfl⟩
  obtain ⟨s,hs,hi⟩ := hrun
  have hret : Returns (fun n => Run.loop (runParserTurn (lempar nestedTables nestedCode 9) nestedText) n
      (runStart (lempar nestedTables nestedCode 9))) s :=
    Returns.of_ok (fun _ _ hnm => Run.loop_le_loop (fun _ => Run.le_refl _) hnm _) hs
  exact allFit_of_cut (by decide) hret (Nat.le_of_eq hi)

end Lempar
end Xjd1
