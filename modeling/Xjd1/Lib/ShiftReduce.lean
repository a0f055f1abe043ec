import Xjd1.Lib.Grammar

/-! Shift-reduce automata: what a stack of states that follows the edges of the
automaton says about the symbols on it. -/
namespace ShiftReduce

open Grammar

/-- An automaton whose states hold items: a production and how much of it has been read. -/
structure Automaton (α Q : Type) where
  init : Q
  items : Q → ℕ → ℕ → Prop
  next : Q → α → Option Q

variable {α Q σ V : Type} {M : Automaton α Q} {P : List (Production α)} {start : α}

/-- Every item that has read something comes with the same item before the symbol that
leads to the state, and every item that has read nothing is there for its left-hand side. -/
structure Automaton.Valid (M : Automaton α Q) (P : List (Production α)) (start : α) : Prop where
  init_dot : ∀ r d, M.items M.init r d → d = 0
  back : ∀ q a q' r d, M.next q a = some q' → M.items q' r (d+1) →
    M.items q r d ∧ ∃ p as, P[r]? = some p ∧ p.rhs[d]? = some as ∧ a ∈ as
  closed : ∀ q r p, M.items q r 0 → P[r]? = some p →
    (q = M.init ∧ p.lhs = start) ∨ (M.next q p.lhs).isSome
  not_init : ∀ q a, M.next q a ≠ some M.init

/-- A stack, its top first, whose states follow the edges from the initial state to `q`. -/
inductive Path (M : Automaton α Q) : List (Q × α) → Q → Prop
  | nil : Path M [] M.init
  | cons {st : List (Q × α)} {q q' : Q} {a : α} (h : Path M st q) (hn : M.next q a = some q') :
      Path M ((q',a)::st) q'

def symbols (st : List (Q × α)) : List α := (st.map Prod.snd).reverse

theorem symbols_cons (e : Q × α) (st : List (Q × α)) : symbols (e::st) = symbols st ++ [e.2] := by
  rw [symbols,List.map_cons,List.reverse_cons]
  rfl

theorem symbols_split (st : List (Q × α)) (d : ℕ) :
    symbols st = symbols (st.drop d) ++ symbols (st.take d) := by
  rw [symbols,symbols,symbols,← List.reverse_append,← List.map_append,List.take_append_drop]

namespace Path

variable {st : List (Q × α)} {q : Q}

/-- Only the empty stack ends in the initial state. -/
theorem eq_nil (hM : M.Valid P start) (h : Path M st M.init) : st = [] := by
  generalize hq : M.init = q at h
  cases h with
  | nil => rfl
  | cons _ hn => exact absurd (hq ▸ hn) (hM.not_init _ _)

/-- Popping as many symbols as an item has read leads to a state with the item at its
start, and the symbols popped are those of its production. -/
theorem pop (hM : M.Valid P start) {r d : ℕ} {p : Production α} (hr : P[r]? = some p) (h : Path M st q)
    (hi : M.items q r d) : d ≤ st.length ∧ ∃ q', Path M (st.drop d) q' ∧ M.items q' r 0 ∧
      List.Forall₂ (· ∈ ·) (symbols (st.take d)) (p.rhs.take d) := by
  induction d generalizing st q with
  | zero => exact ⟨Nat.zero_le _,q,h,hi,.nil⟩
  | succ d ih =>
    cases h with
    | nil => exact absurd (hM.init_dot _ _ hi) (Nat.succ_ne_zero d)
    | @cons st q₀ _ a h hn =>
      obtain ⟨hi',p',as,hr',has,ha⟩ := hM.back _ _ _ _ _ hn hi
      cases hr.symm.trans hr'
      obtain ⟨hle,q',hq',h0,hall⟩ := ih h hi'
      refine ⟨Nat.succ_le_succ hle,q',hq',h0,?_⟩
      rw [List.take_succ_cons,symbols_cons,List.take_add_one,has]
      exact List.rel_append hall (.cons ha .nil)

/-- A complete item at the top: its production is read by the symbols above the state
that the stack is cut back to. -/
theorem reduce (hM : M.Valid P start) {A : Attribution α σ V} {r : ℕ} {p : Production α} (hr : P[r]? = some p)
    (h : Path M st q) (hi : M.items q r p.rhs.length) {c : Config α σ V} {vs : List V} {s : σ}
    {ts : List (α × V)} (hc : Reads P A (symbols st) c vs (s,ts)) :
    p.rhs.length ≤ st.length ∧ ∃ q' vs₁ ws, vs = vs₁ ++ ws ∧ ws.length = p.rhs.length ∧
      Path M (st.drop p.rhs.length) q' ∧ ((q' = M.init ∧ p.lhs = start) ∨ (M.next q' p.lhs).isSome) ∧
      Reads P A (symbols (st.drop p.rhs.length) ++ [p.lhs]) c (vs₁ ++ [(A.act r ws s).1])
        ((A.act r ws s).2,ts) := by
  obtain ⟨hle,q',hq',h0,hall⟩ := h.pop hM hr hi
  rw [List.take_length] at hall
  rw [symbols_split st p.rhs.length] at hc
  obtain ⟨vs₁,ws,c₁,rfl,h₁,h₂⟩ := hc.split
  exact ⟨hle,q',vs₁,ws,rfl,h₂.length_eq.trans hall.length_eq,hq',hM.closed _ _ _ h0 hr,
    .production h₁ h₂ hr hall⟩

end Path

def place (P : List (Production α)) (r d : ℕ) : List α := ((P[r]?).bind fun p => p.rhs[d]?).getD []

theorem mem_place {r d : ℕ} {a : α} (h : a ∈ place P r d) :
    ∃ p as, P[r]? = some p ∧ p.rhs[d]? = some as ∧ a ∈ as := by
  rw [place] at h
  cases hp : P[r]? with
  | none =>
    rw [hp] at h
    cases h
  | some p =>
    rw [hp,Option.bind_some] at h
    cases has : p.rhs[d]? with
    | none =>
      rw [has] at h
      cases h
    | some as =>
      rw [has] at h
      exact ⟨p,as,rfl,has,h⟩

section Lists
variable [DecidableEq α] [DecidableEq Q] (init : Q) (edges : List (Q × α × Q)) (items : List (Q × ℕ × ℕ))

def ofLists : Automaton α Q where
  init := init
  items q r d := (q,r,d) ∈ items
  next q a := (edges.find? fun e => decide (e.1 = q ∧ e.2.1 = a)).map fun e => e.2.2

variable {init edges items}

theorem mem_edges {q q' : Q} {a : α} (h : (ofLists init edges items).next q a = some q') :
    (q,a,q') ∈ edges := by
  obtain ⟨⟨q₀,a₀,q₁⟩,he,rfl⟩ := Option.map_eq_some_iff.mp h
  have hq := List.find?_some he
  obtain ⟨rfl,rfl⟩ := of_decide_eq_true hq
  exact List.mem_of_find?_eq_some he

variable (init edges items P start)

/-- The conditions of a valid automaton, on the lists. -/
structure Checked : Prop where
  init_dot : ∀ i ∈ items, i.1 = init → i.2.2 = 0
  back : ∀ e ∈ edges, ∀ i ∈ items, i.1 = e.2.2 → i.2.2 ≠ 0 →
    (e.1,i.2.1,i.2.2 - 1) ∈ items ∧ e.2.1 ∈ place P i.2.1 (i.2.2 - 1)
  closed : ∀ i ∈ items, i.2.2 = 0 → ∀ p ∈ (P[i.2.1]?).toList,
    (i.1 = init ∧ p.lhs = start) ∨ ((ofLists init edges items).next i.1 p.lhs).isSome
  not_init : ∀ e ∈ edges, e.2.2 ≠ init

variable {init edges items P start}

theorem Checked.valid (h : Checked P start init edges items) : (ofLists init edges items).Valid P start where
  init_dot r d hi := h.init_dot _ hi rfl
  back q a q' r d hn hi := by
    obtain ⟨hmem,hplace⟩ := h.back _ (mem_edges hn) _ hi rfl (Nat.succ_ne_zero d)
    exact ⟨hmem,mem_place hplace⟩
  closed q r p hi hr := h.closed _ hi rfl p (Option.mem_toList.mpr hr)
  not_init q a hn := h.not_init _ (mem_edges hn) rfl

end Lists

end ShiftReduce
