import Mathlib.Data.List.Basic

/-! Memory for objects of one type: cells are allocated one after the other, and
may be released. Reading a released cell is a fault. -/
namespace Heap

variable {ε α : Type}

abbrev Cells (α : Type) := List (Option α)

def Live (h : Cells α) (i : ℕ) (a : α) : Prop := h[i]? = some (some a)

def Freed (h : Cells α) (i : ℕ) : Prop := h[i]? = some none

def alloc (h : Cells α) (a : α) : Cells α := h ++ [some a]
def put (h : Cells α) (i : ℕ) (a : α) : Cells α := h.set i (some a)
def free (h : Cells α) (i : ℕ) : Cells α := h.set i none

def read (e : ε) (h : Cells α) (i : ℕ) : Except ε α :=
  match h[i]? with
  | some (some a) => .ok a
  | _ => .error e

section
variable {h : Cells α} {i j : ℕ} {a b c : α}

theorem Live.read (hl : Live h i a) (e : ε) : read e h i = .ok a := by
  rw [Heap.read,hl]

theorem Live.lt (hl : Live h i a) : i < h.length := (List.getElem?_eq_some_iff.mp hl).1

theorem Live.unique (hl : Live h i a) (hl' : Live h i b) : a = b :=
  Option.some.inj (Option.some.inj (hl.symm.trans hl'))

theorem Live.not_freed (hl : Live h i a) : ¬ Freed h i := fun hf => by
  cases hl.symm.trans hf

theorem live_or_freed (hi : i < h.length) : (∃ a, Live h i a) ∨ Freed h i := by
  have hg := List.getElem?_eq_getElem hi
  cases hc : h[i] with
  | none => exact .inr (hg.trans (congrArg some hc))
  | some a => exact .inl ⟨a,hg.trans (congrArg some hc)⟩

@[simp] theorem length_put : (put h i a).length = h.length := List.length_set
@[simp] theorem length_free : (free h i).length = h.length := List.length_set
@[simp] theorem length_alloc : (alloc h a).length = h.length + 1 := List.length_append

theorem live_put (hl : Live h i a) : Live (put h i b) j c ↔ (j = i ∧ c = b) ∨ (j ≠ i ∧ Live h j c) := by
  rw [Live,put,List.getElem?_set]
  by_cases hij : i = j
  · subst hij
    rw [if_pos rfl,if_pos hl.lt,Option.some.injEq,Option.some.injEq]
    exact ⟨fun h => .inl ⟨rfl,h.symm⟩,fun h => h.elim (fun h => h.2.symm) fun h => absurd rfl h.1⟩
  · rw [if_neg hij]
    exact ⟨fun h => .inr ⟨fun e => hij e.symm,h⟩,fun h => h.elim (fun h => absurd h.1.symm hij) fun h => h.2⟩

theorem live_free : Live (free h i) j c ↔ j ≠ i ∧ Live h j c := by
  rw [Live,free,List.getElem?_set]
  by_cases hij : i = j
  · subst hij
    rw [if_pos rfl]
    refine ⟨fun h => ?_,fun h => absurd rfl h.1⟩
    split at h <;> cases h
  · rw [if_neg hij]
    exact ⟨fun h => ⟨fun e => hij e.symm,h⟩,fun h => h.2⟩

theorem live_alloc : Live (alloc h a) j c ↔ (j = h.length ∧ c = a) ∨ Live h j c := by
  rw [Live,alloc,List.getElem?_append]
  by_cases hj : j < h.length
  · rw [if_pos hj]
    exact ⟨.inr,fun h => h.elim (fun h => absurd h.1 (by omega)) id⟩
  · rw [if_neg hj]
    constructor
    · intro hg
      obtain ⟨hlt,hv⟩ := List.getElem?_eq_some_iff.mp hg
      have hz : j - h.length = 0 := by simpa using hlt
      simp only [hz,List.getElem_cons_zero,Option.some.injEq] at hv
      exact .inl ⟨by omega,hv.symm⟩
    · rintro (⟨rfl,rfl⟩ | hl)
      · simp
      · exact absurd hl.lt hj

theorem Live.put (hl : Live h i a) (b : α) : Live (put h i b) i b := (live_put hl).mpr (.inl ⟨rfl,rfl⟩)

theorem Live.put_ne (hl : Live h j c) (hij : j ≠ i) (b : α) : Live (Heap.put h i b) j c := by
  rw [Live,Heap.put,List.getElem?_set_ne hij.symm]
  exact hl

theorem exists_live_alloc : (∃ c, Live (alloc h a) j c) ↔ j = h.length ∨ ∃ c, Live h j c := by
  simp only [live_alloc,exists_or,exists_and_left,exists_eq,and_true]

theorem exists_live_free : (∃ c, Live (free h i) j c) ↔ (∃ c, Live h j c) ∧ j ≠ i := by
  simp only [live_free,exists_and_left,and_comm]

theorem exists_live_put (hl : Live h i a) : (∃ c, Live (Heap.put h i b) j c) ↔ ∃ c, Live h j c := by
  simp only [live_put hl,exists_or,exists_and_left,exists_eq,and_true]
  constructor
  · rintro (rfl | ⟨_,h⟩)
    · exact ⟨a,hl⟩
    · exact h
  · intro h
    by_cases hij : j = i
    · exact .inl hij
    · exact .inr ⟨hij,h⟩

theorem put_put : Heap.put (Heap.put h i a) i b = Heap.put h i b := List.set_set (some a)

theorem Live.put_self (hl : Live h i a) : Heap.put h i a = h := by
  obtain ⟨hi,hv⟩ := List.getElem?_eq_some_iff.mp hl
  rw [Heap.put,← hv,List.set_getElem_self]

end

end Heap
