import Mathlib.Data.List.Basic

/-! A row of cells that is written over from some place on. -/
namespace Buffer

variable {α β : Type}

def overwrite (b : List α) (i : ℕ) (w : List α) : List α := b.take i ++ (w ++ b.drop (i + w.length))

section
variable {b w v : List α} {i : ℕ}

theorem length_overwrite (h : i + w.length ≤ b.length) : (overwrite b i w).length = b.length := by
  simp only [overwrite,List.length_append,List.length_take,List.length_drop]
  omega

theorem overwrite_nil : overwrite b i [] = b := by
  rw [overwrite,List.nil_append,List.length_nil,Nat.add_zero,List.take_append_drop]

theorem take_overwrite (h : i + w.length ≤ b.length) : (overwrite b i w).take (i + w.length) = b.take i ++ w := by
  rw [overwrite,← List.append_assoc]
  refine List.take_left' ?_
  rw [List.length_append,List.length_take]
  omega

theorem take_overwrite_of_le {n : ℕ} (hn : n ≤ i) (h : i + w.length ≤ b.length) :
    (overwrite b i w).take n = b.take n := by
  rw [overwrite,List.take_append_of_le_length (by rw [List.length_take]; omega),List.take_take,Nat.min_eq_left hn]

theorem overwrite_append (h : i + (w ++ v).length ≤ b.length) :
    overwrite (overwrite b i w) (i + w.length) v = overwrite b i (w ++ v) := by
  rw [List.length_append] at h
  have htake := take_overwrite (b := b) (w := w) (i := i) (by omega)
  have hdrop : (overwrite b i w).drop (i + w.length + v.length) = b.drop (i + w.length + v.length) := by
    have hlen : (b.take i ++ w).length = i + w.length := by
      rw [List.length_append,List.length_take]
      omega
    rw [overwrite,← List.append_assoc,← hlen,List.drop_length_add_append,List.drop_drop]
  rw [overwrite,htake,hdrop,overwrite,List.length_append,List.append_assoc,List.append_assoc,Nat.add_assoc]

theorem take_overwrite_append (h : i + (w ++ v).length ≤ b.length) :
    (overwrite b i (w ++ v)).take (i + w.length) = b.take i ++ w := by
  have hl := h
  rw [List.length_append] at hl
  rw [← overwrite_append h,take_overwrite_of_le (Nat.le_refl _) (by rw [length_overwrite (by omega)]; omega),
    take_overwrite (by omega)]

/-- The cells in front of those written and the cells behind them stay as they are. -/
theorem overwrite_apart {a n : ℕ} (h : i + w.length ≤ b.length) (hd : a + n ≤ i ∨ i + w.length ≤ a) :
    ((overwrite b i w).drop a).take n = (b.drop a).take n := by
  refine List.ext_getElem? fun k => ?_
  rw [List.getElem?_take,List.getElem?_take]
  split
  · rw [overwrite,List.getElem?_drop,List.getElem?_drop]
    have hi : (b.take i).length = i := by
      rw [List.length_take]
      omega
    rcases hd with hd | hd
    · rw [List.getElem?_append_left (by omega),List.getElem?_take_of_lt (by omega)]
    · rw [List.getElem?_append_right (by omega),List.getElem?_append_right (by omega),List.getElem?_drop,hi]
      congr 1
      omega
  · rfl

end

end Buffer
