import Xjd1.Lib.ShiftReduce
import Xjd1.Query.Operators

/-! The parser driver of `lempar.c` as `parse.y` instantiates it: without fallback tokens,
wildcard and error symbol, with `YYNOERRORRECOVERY`, a stack of fixed depth, and
destructors that do nothing. -/
namespace Xjd1
namespace Lempar

open Fueled Fueled.Run Grammar ShiftReduce

/-- What the generator writes for a grammar. A rule has its left-hand side and its length. -/
structure Tables where
  yyNoCode : ℕ
  yyNState : ℕ
  yyNRule : ℕ
  yyStackDepth : ℕ
  yyAction : List ℕ
  yyLookahead : List ℕ
  yyShiftUseDflt : ℤ
  yyShiftCount : ℤ
  yyShiftOfst : List ℤ
  yyReduceUseDflt : ℤ
  yyReduceCount : ℤ
  yyReduceOfst : List ℤ
  yyDefault : List ℕ
  yyRuleInfo : List (ℕ × ℕ)

structure UserCode (σ V : Type) where
  yyzerominor : V
  reduce : ℕ → List V → σ → V × σ
  syntaxError : ℕ → V → σ → σ

structure StackEntry (V : Type) where
  stateno : ℕ
  major : ℕ
  minor : V
  deriving DecidableEq, Repr

/-- The parser. Its stack has the top first, and `yyidx` is one less than its length. -/
structure YyParser (σ V : Type) where
  yystack : List (StackEntry V)
  p : σ
  deriving DecidableEq, Repr

inductive Ended
  | shifted | accepted | overflowed | rejected
  deriving DecidableEq, Repr

variable {σ V : Type} (T : Tables) (U : UserCode σ V)

def entry {β : Type} (l : List β) (i : ℤ) : Exec β :=
  if i < 0 then .stop .undefined else Run.ofOption .undefined l[i.toNat]?

def yyFindShiftAction (stateno iLookAhead : ℕ) : Exec ℕ :=
  if T.yyShiftCount < stateno then entry T.yyDefault stateno
  else do
    let i ← entry T.yyShiftOfst stateno
    if i = T.yyShiftUseDflt then entry T.yyDefault stateno
    else if iLookAhead = T.yyNoCode then .stop .assertFail
    else if i + iLookAhead < 0 ∨ T.yyAction.length ≤ i + iLookAhead then entry T.yyDefault stateno
    else do
      let la ← entry T.yyLookahead (i + iLookAhead)
      if la = iLookAhead then entry T.yyAction (i + iLookAhead) else entry T.yyDefault stateno

def yyFindReduceAction (stateno iLookAhead : ℕ) : Exec ℕ :=
  if T.yyReduceCount < stateno then .stop .assertFail
  else do
    let i ← entry T.yyReduceOfst stateno
    if i = T.yyReduceUseDflt ∨ iLookAhead = T.yyNoCode then .stop .assertFail
    else if i + iLookAhead < 0 ∨ T.yyAction.length ≤ i + iLookAhead then .stop .assertFail
    else do
      let la ← entry T.yyLookahead (i + iLookAhead)
      if la = iLookAhead then entry T.yyAction (i + iLookAhead) else .stop .assertFail

def yyStackOverflow (pParser : YyParser σ V) : YyParser σ V := { pParser with yystack := [] }

def yyAccept (pParser : YyParser σ V) : YyParser σ V := { pParser with yystack := [] }

def yyShift (pParser : YyParser σ V) (yyNewState yyMajor : ℕ) (yyMinor : V) : Ended × YyParser σ V :=
  if T.yyStackDepth ≤ pParser.yystack.length then (.overflowed,yyStackOverflow pParser)
  else (.shifted,{ pParser with yystack := ⟨yyNewState,yyMajor,yyMinor⟩::pParser.yystack })

/-- A reduction, and the shift that follows it. The values of the right-hand side are
given to the code of the rule with the leftmost first. -/
def yyReduce (pParser : YyParser σ V) (yyruleno : ℕ) : Exec (Ended × YyParser σ V) := do
  let (yygoto,yysize) ← Run.ofOption .undefined T.yyRuleInfo[yyruleno]?
  let (yygotominor,p) :=
    U.reduce yyruleno ((pParser.yystack.take yysize).map StackEntry.minor).reverse pParser.p
  let pParser : YyParser σ V := ⟨pParser.yystack.drop yysize,p⟩
  let yymsp ← Run.ofOption .undefined pParser.yystack.head?
  let yyact ← yyFindReduceAction T yymsp.stateno yygoto
  if yyact < T.yyNState then .ok (yyShift T pParser yyact yygoto yygotominor)
  else if yyact = T.yyNState + T.yyNRule + 1 then .ok (.accepted,yyAccept pParser)
  else .stop .assertFail

def whileStack (r : Ended × YyParser σ V) : (Ended × YyParser σ V) ⊕ YyParser σ V :=
  if r.2.yystack.isEmpty then .inl r else .inr r.2

/-- One turn of the loop of `Parse`, which ends when the token is used or the stack is empty. -/
def parseTurn (yymajor : ℕ) (yyminor : V) (pParser : YyParser σ V) :
    Exec ((Ended × YyParser σ V) ⊕ YyParser σ V) := do
  let yytos ← Run.ofOption .undefined pParser.yystack.head?
  let yyact ← yyFindShiftAction T yytos.stateno yymajor
  if yyact < T.yyNState then
    if yymajor = 0 then .stop .assertFail
    else .ok (.inl (yyShift T pParser yyact yymajor yyminor))
  else if yyact < T.yyNState + T.yyNRule then do
    let r ← yyReduce T U pParser (yyact - T.yyNState)
    .ok (whileStack r)
  else if yyact = T.yyNState + T.yyNRule then
    .ok (.inl (.rejected,{ pParser with p := U.syntaxError yymajor yyminor pParser.p }))
  else .stop .assertFail

def restart (pParser : YyParser σ V) : YyParser σ V :=
  if pParser.yystack.isEmpty then { pParser with yystack := [⟨0,0,U.yyzerominor⟩] } else pParser

def parse (n yymajor : ℕ) (yyminor : V) (pParser : YyParser σ V) : Exec (Ended × YyParser σ V) :=
  Run.loop (parseTurn T U yymajor yyminor) n (restart U pParser)

/-- The calls for tokens one after the other. The caller notes each token before its call. -/
def parseAll (see : σ → ℕ × V → σ) (n : ℕ) : List (ℕ × V) → YyParser σ V → Exec (List Ended × YyParser σ V)
  | [], pParser => .ok ([],pParser)
  | t::ts, pParser => do
    let (e,pParser) ← parse T U n t.1 t.2 { pParser with p := see pParser.p t }
    let (es,pParser) ← parseAll see n ts pParser
    .ok (e::es,pParser)

section Automaton
variable (P : List (Production ℕ)) (M : Automaton ℕ ℕ)

inductive Means (q a : ℕ) : ℕ → Prop
  | shift {q' : ℕ} (ha : a ≠ 0) (hn : M.next q a = some q') : Means q a q'
  | reduce {r : ℕ} {p : Production ℕ} (hr : P[r]? = some p) (hlt : r < T.yyNRule)
      (hi : M.items q r p.rhs.length) : Means q a (T.yyNState + r)
  | error : Means q a (T.yyNState + T.yyNRule)

/-- The tables are those of an automaton for the grammar `P`. -/
structure Encodes (nterminal start : ℕ) : Prop where
  valid : M.Valid P start
  init : M.init = 0
  pos : 0 < T.yyNState
  next_lt : ∀ q a q', M.next q a = some q' → q' < T.yyNState
  lhs_ge : ∀ p ∈ P, nterminal ≤ p.lhs
  start_ge : nterminal ≤ start
  rules : ∀ (r : ℕ) (p : Production ℕ), P[r]? = some p → T.yyRuleInfo[r]? = some (p.lhs,p.rhs.length)
  shift : ∀ q < T.yyNState, ∀ a < nterminal, ∃ act, yyFindShiftAction T q a = .ok act ∧ Means T P M q a act
  goto : ∀ q q', ∀ p ∈ P, M.next q p.lhs = some q' → yyFindReduceAction T q p.lhs = .ok q'
  accept : yyFindReduceAction T 0 start = .ok (T.yyNState + T.yyNRule + 1)

end Automaton

def key (e : StackEntry V) : ℕ × ℕ := (e.stateno,e.major)

def Stacked (M : Automaton ℕ ℕ) (st es : List (StackEntry V)) (q : ℕ) : Prop :=
  ∃ b, st = es ++ [b] ∧ b.stateno = M.init ∧ Path M (es.map key) q

namespace Stacked

variable {M : Automaton ℕ ℕ} {st es : List (StackEntry V)} {q : ℕ}

theorem head (h : Stacked M st es q) : ∃ e, st.head? = some e ∧ e.stateno = q := by
  obtain ⟨b,rfl,hb,h⟩ := h
  cases es with
  | nil =>
    cases h
    exact ⟨b,rfl,hb⟩
  | cons e es =>
    cases h
    exact ⟨e,rfl,rfl⟩

theorem push {a q' : ℕ} (v : V) (h : Stacked M st es q) (hn : M.next q a = some q') :
    Stacked M (⟨q',a,v⟩::st) (⟨q',a,v⟩::es) q' := by
  obtain ⟨b,rfl,hb,h⟩ := h
  exact ⟨b,rfl,hb,.cons h hn⟩

theorem drop {d q' : ℕ} (h : Stacked M st es q) (hd : d ≤ es.length) (hp : Path M ((es.map key).drop d) q') :
    Stacked M (st.drop d) (es.drop d) q' := by
  obtain ⟨b,rfl,hb,-⟩ := h
  exact ⟨b,List.drop_append_of_le_length hd,hb,List.map_drop ▸ hp⟩

theorem take {d : ℕ} (h : Stacked M st es q) (hd : d ≤ es.length) : st.take d = es.take d := by
  obtain ⟨b,rfl,-⟩ := h
  exact List.take_append_of_le_length hd

theorem ne_nil (h : Stacked M st es q) : st ≠ [] := by
  obtain ⟨b,rfl,-⟩ := h
  exact List.append_ne_nil_of_right_ne_nil _ (List.cons_ne_nil b [])

end Stacked

section Turns
variable {T U} {P : List (Production ℕ)} {M : Automaton ℕ ℕ} {nterminal start : ℕ}

theorem path_lt (hE : Encodes T P M nterminal start) {st : List (ℕ × ℕ)} {q : ℕ} (h : Path M st q) :
    q < T.yyNState := by
  cases h with
  | nil => exact hE.init.symm ▸ hE.pos
  | cons _ hn => exact hE.next_lt _ _ _ hn

theorem Stacked.lt {st es : List (StackEntry V)} {q : ℕ} (hE : Encodes T P M nterminal start)
    (h : Stacked M st es q) : q < T.yyNState := by
  obtain ⟨b,-,-,h⟩ := h
  exact path_lt hE h

variable {st es : List (StackEntry V)} {q : ℕ} {s : σ}

def minors (es : List (StackEntry V)) (d : ℕ) : List V := ((es.take d).map StackEntry.minor).reverse

theorem yyReduce_eq (hE : Encodes T P M nterminal start) (h : Stacked M st es q) {r : ℕ} {p : Production ℕ}
    (hr : P[r]? = some p) (hd : p.rhs.length ≤ es.length) {q' : ℕ}
    (hp : Path M ((es.map key).drop p.rhs.length) q') :
    yyReduce T U ⟨st,s⟩ r = (yyFindReduceAction T q' p.lhs >>= fun yyact =>
      if yyact < T.yyNState then
        .ok (yyShift T ⟨st.drop p.rhs.length,(U.reduce r (minors es p.rhs.length) s).2⟩ yyact p.lhs
          (U.reduce r (minors es p.rhs.length) s).1)
      else if yyact = T.yyNState + T.yyNRule + 1 then
        .ok (.accepted,⟨[],(U.reduce r (minors es p.rhs.length) s).2⟩)
      else .stop .assertFail) := by
  obtain ⟨e,he,hes⟩ := (h.drop hd hp).head
  rw [yyReduce,hE.rules r p hr,ofOption_some,ok_bind]
  simp only [he,ofOption_some,ok_bind,hes,h.take hd]
  rfl

/-- What a turn does on a stack that follows the automaton: the token is pushed, a rule
is reduced, or the token is rejected. -/
theorem turn_cases (hE : Encodes T P M nterminal start) (h : Stacked M st es q) {a : ℕ} (ha : a < nterminal)
    (v : V) :
    (∃ q', a ≠ 0 ∧ M.next q a = some q' ∧
      parseTurn T U a v ⟨st,s⟩ = .ok (.inl (yyShift T ⟨st,s⟩ q' a v))) ∨
    (∃ r p q', yyFindShiftAction T q a = .ok (T.yyNState + r) ∧ P[r]? = some p ∧ M.items q r p.rhs.length ∧
      p.rhs.length ≤ es.length ∧
      Path M ((es.map key).drop p.rhs.length) q' ∧
      ((q' = M.init ∧ p.lhs = start ∧ parseTurn T U a v ⟨st,s⟩ =
          .ok (.inl (.accepted,⟨[],(U.reduce r (minors es p.rhs.length) s).2⟩))) ∨
        ∃ q'', M.next q' p.lhs = some q'' ∧ parseTurn T U a v ⟨st,s⟩ =
          .ok (whileStack (yyShift T ⟨st.drop p.rhs.length,(U.reduce r (minors es p.rhs.length) s).2⟩ q'' p.lhs
            (U.reduce r (minors es p.rhs.length) s).1)))) ∨
    parseTurn T U a v ⟨st,s⟩ = .ok (.inl (.rejected,⟨st,U.syntaxError a v s⟩)) := by
  obtain ⟨e,he,hes⟩ := h.head
  obtain ⟨act,hact,hm⟩ := hE.shift q (h.lt hE) a ha
  simp only [parseTurn,he,ofOption_some,ok_bind,hes,hact]
  cases hm with
  | shift ha0 hn =>
    rw [if_pos (hE.next_lt _ _ _ hn),if_neg ha0]
    exact .inl ⟨_,ha0,hn,rfl⟩
  | @reduce r p hr hlt hi =>
    have hpath : Path M (es.map key) q := by
      obtain ⟨b,-,-,hpath⟩ := h
      exact hpath
    obtain ⟨hd,q',hq',h0,-⟩ := hpath.pop hE.valid hr hi
    rw [List.length_map] at hd
    rw [if_neg (Nat.not_lt.mpr (Nat.le_add_right _ _)),if_pos (Nat.add_lt_add_left hlt _),
      Nat.add_sub_cancel_left,yyReduce_eq hE h hr hd hq']
    refine .inr (.inl ⟨r,p,q',rfl,hr,hi,hd,hq',?_⟩)
    rcases hE.valid.closed q' r p h0 hr with ⟨rfl,hl⟩ | hsome
    · refine .inl ⟨rfl,hl,?_⟩
      rw [hE.init,hl,hE.accept,ok_bind,if_neg (by omega),if_pos rfl]
      rfl
    · obtain ⟨q'',hn⟩ := Option.isSome_iff_exists.mp hsome
      refine .inr ⟨q'',hn,?_⟩
      rw [hE.goto q' q'' p (List.mem_of_getElem? hr) hn,ok_bind,if_pos (hE.next_lt _ _ _ hn)]
      rfl
  | error =>
    rw [if_neg (by omega),if_neg (Nat.lt_irrefl _),if_pos rfl]
    exact .inr (.inr rfl)

theorem yyShift_cases (T : Tables) (pParser : YyParser σ V) (q a : ℕ) (v : V) :
    yyShift T pParser q a v = (.overflowed,⟨[],pParser.p⟩) ∨
      yyShift T pParser q a v = (.shifted,⟨⟨q,a,v⟩::pParser.yystack,pParser.p⟩) := by
  by_cases h : T.yyStackDepth ≤ pParser.yystack.length
  · exact .inl (if_pos h)
  · exact .inr (if_neg h)

/-- A reduction either empties the stack or goes on with its left-hand side on it. -/
theorem whileStack_cases (T : Tables) (pParser : YyParser σ V) (q a : ℕ) (v : V) :
    whileStack (yyShift T pParser q a v) = .inl (.overflowed,⟨[],pParser.p⟩) ∨
      whileStack (yyShift T pParser q a v) = .inr ⟨⟨q,a,v⟩::pParser.yystack,pParser.p⟩ := by
  rcases yyShift_cases T pParser q a v with he | he
  · rw [he]
    exact .inl rfl
  · rw [he]
    exact .inr rfl

def Ended.empties : Ended → Bool
  | .accepted | .overflowed => true
  | .shifted | .rejected => false

def OnPath (M : Automaton ℕ ℕ) (pParser : YyParser σ V) : Prop := ∃ es q, Stacked M pParser.yystack es q

def Ready (M : Automaton ℕ ℕ) (e : Ended) (pParser : YyParser σ V) : Prop :=
  if e.empties then pParser.yystack = [] else OnPath M pParser

theorem yyShift_ready (h : Stacked M st es q) {a q' : ℕ} (hn : M.next q a = some q') (v : V) (s : σ) :
    Ready M (yyShift T ⟨st,s⟩ q' a v).1 (yyShift T ⟨st,s⟩ q' a v).2 := by
  rcases yyShift_cases T ⟨st,s⟩ q' a v with he | he
  · rw [he]
    rfl
  · rw [he]
    exact ⟨_,_,h.push v hn⟩

theorem turn_safe (hE : Encodes T P M nterminal start) {pParser : YyParser σ V} (h : OnPath M pParser) {a : ℕ}
    (ha : a < nterminal) (v : V) : ∃ r, parseTurn T U a v pParser = .ok r ∧
      Sum.elim (fun r => Ready M r.1 r.2) (OnPath M) r := by
  obtain ⟨es,q,h⟩ := h
  rcases turn_cases (s := pParser.p) hE h ha v with
    ⟨q',-,hn,ht⟩ | ⟨r,p,q',-,hr,-,hd,hq',⟨-,-,ht⟩ | ⟨q'',hn,ht⟩⟩ | ht
  · exact ⟨_,ht,yyShift_ready h hn v _⟩
  · exact ⟨_,ht,rfl⟩
  · refine ⟨_,ht,?_⟩
    have hdrop := h.drop hd hq'
    rcases whileStack_cases T _ q'' p.lhs _ with he | he
    · rw [he]
      rfl
    · rw [he]
      exact ⟨_,_,hdrop.push _ hn⟩
  · exact ⟨_,ht,es,q,h⟩

theorem restart_onPath (hE : Encodes T P M nterminal start) {e : Ended} {pParser : YyParser σ V}
    (h : Ready M e pParser) : OnPath M (restart U pParser) := by
  by_cases hst : pParser.yystack = []
  · rw [restart,hst]
    exact ⟨[],M.init,_,rfl,hE.init.symm,.nil⟩
  · rw [restart,List.isEmpty_eq_false_iff.mpr hst]
    rw [Ready] at h
    split at h
    · exact absurd h hst
    · exact h

/-- A call of the parser fails no assertion and reads nothing outside of its tables and
its stack. -/
theorem parse_safe (hE : Encodes T P M nterminal start) (e : Ended) {pParser : YyParser σ V}
    (h : Ready M e pParser) {a : ℕ} (ha : a < nterminal) (v : V) (n : ℕ) (x : Stop) :
    Avoids x (fun r => Ready M r.1 r.2) (parse T U n a v pParser) := by
  refine Avoids.loop (fun pParser h => ?_) n (restart_onPath hE h)
  obtain ⟨r,hr,hpost⟩ := turn_safe (U := U) hE h ha v
  rw [hr]
  exact hpost

end Turns

end Lempar
end Xjd1
