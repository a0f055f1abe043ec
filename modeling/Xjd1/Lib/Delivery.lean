import Mathlib.Data.List.Basic

/-! Machines that are stepped for their next row: which rows a run gives, from a
state up to the first report of the end. -/
namespace Delivery

/-- How a machine steps: to a row with the value it shows, or to the end. -/
structure Stepper (σ α : Type) where
  row : σ → α → σ → Prop
  done : σ → σ → Prop

variable {σ τ α β : Type}

/-- Stepped from `s`, the machine gives the rows `vs` and then the end, in the state `t`. -/
inductive Delivers (S : Stepper σ α) : σ → List α → σ → Prop
  | done {s t : σ} (h : S.done s t) : Delivers S s [] t
  | row {s s' t : σ} {v : α} {vs : List α} (h : S.row s v s') (hs : Delivers S s' vs t) :
    Delivers S s (v::vs) t

structure Stepper.Functional (S : Stepper σ α) : Prop where
  row : ∀ s v w t u, S.row s v t → S.row s w u → v = w ∧ t = u
  done : ∀ s t u, S.done s t → S.done s u → t = u
  row_done : ∀ s v t u, S.row s v t → ¬ S.done s u

theorem Delivers.unique {S : Stepper σ α} (hS : S.Functional) {s t u : σ} {vs ws : List α}
    (h : Delivers S s vs t) (h' : Delivers S s ws u) : vs = ws ∧ t = u := by
  induction h generalizing ws u with
  | done h =>
    cases h' with
    | done h' => exact ⟨rfl,hS.done _ _ _ h h'⟩
    | row h' _ => exact absurd h (hS.row_done _ _ _ _ h')
  | row h _ ih =>
    cases h' with
    | done h' => exact absurd h' (hS.row_done _ _ _ _ h)
    | row h' hs' =>
      obtain ⟨rfl,rfl⟩ := hS.row _ _ _ _ _ h h'
      obtain ⟨rfl,rfl⟩ := ih hs'
      exact ⟨rfl,rfl⟩

/-- Only the first step tells two states apart. -/
theorem Delivers.congr {S : Stepper σ α} {s s' t : σ} {vs : List α} (h : Delivers S s vs t)
    (hrow : ∀ v u, S.row s v u → S.row s' v u) (hdone : ∀ u, S.done s u → S.done s' u) :
    Delivers S s' vs t := by
  cases h with
  | done h => exact .done (hdone _ h)
  | row h hs => exact .row (hrow _ _ h) hs

/-- A machine that keeps its position in a list, and shows the element there in a step,
delivers the list from that position on. -/
theorem Delivers.positions {S : Stepper σ α} {l : List β} {f : β → α} {t : σ} (st : τ → ℕ → σ)
    (hrow : ∀ v k b, l[k]? = some b → ∃ w, S.row (st v k) (f b) (st w (k+1)))
    (hdone : ∀ v k, l[k]? = none → S.done (st v k) t) (v : τ) (k : ℕ) :
    Delivers S (st v k) ((l.drop k).map f) t := by
  generalize hl : l.drop k = m
  induction m generalizing k v with
  | nil =>
    rw [List.drop_eq_nil_iff] at hl
    exact .done (hdone v k (List.getElem?_eq_none hl))
  | cons b m ih =>
    have hb : l[k]? = some b := by rw [← Nat.add_zero k,← List.getElem?_drop,hl]; rfl
    have hm : l.drop (k+1) = m := by rw [← List.drop_drop,hl]; rfl
    obtain ⟨w,hw⟩ := hrow v k b hb
    exact .row hw (ih w (k+1) hm)

/-- How a machine turns: silently, or to a state that shows a value. -/
structure Turner (σ α : Type) where
  silent : σ → σ → Prop
  shown : σ → α → σ → Prop

inductive Walks (T : Turner σ α) : σ → List α → σ → Prop
  | refl (s : σ) : Walks T s [] s
  | silent {s s' t : σ} {vs : List α} (h : T.silent s s') (hs : Walks T s' vs t) : Walks T s vs t
  | shown {s s' t : σ} {v : α} {vs : List α} (h : T.shown s v s') (hs : Walks T s' vs t) : Walks T s (v::vs) t

theorem Walks.trans {T : Turner σ α} {s t u : σ} {vs ws : List α} (h : Walks T s vs t) (h' : Walks T t ws u) :
    Walks T s (vs ++ ws) u := by
  induction h with
  | refl s => exact h'
  | silent h _ ih => exact .silent h (ih h')
  | shown h _ ih => exact .shown h (ih h')

end Delivery
