import Mathlib.Data.List.Basic

/-! Three-way comparisons whose results are integers of any size, as C code
returns them: only the sign counts. What makes one a total order is stated for
the results themselves, so that it passes through "the first difference decides". -/
namespace Comparison

def orElse (x y : Int) : Int := if x = 0 then y else x

theorem orElse_eq_zero {x y : Int} : orElse x y = 0 ↔ x = 0 ∧ y = 0 := by
  rw [orElse]
  split <;> omega

def Swap (x y : Int) : Prop := (x < 0 ↔ 0 < y) ∧ (0 < x ↔ y < 0)

structure Chain (x y z : Int) : Prop where
  le : x ≤ 0 → y ≤ 0 → z ≤ 0
  lt_le : x < 0 → y ≤ 0 → z < 0
  le_lt : x ≤ 0 → y < 0 → z < 0

theorem Swap.sign {x y : Int} (h : Swap x y) : x.sign = -y.sign := by
  rcases Int.lt_trichotomy x 0 with hx | rfl | hx
  · rw [Int.sign_eq_neg_one_of_neg hx,Int.sign_eq_one_of_pos (h.1.mp hx)]
  · have hy : y = 0 := by
      have h1 := h.1
      have h2 := h.2
      omega
    rw [hy]
    rfl
  · rw [Int.sign_eq_one_of_pos hx,Int.sign_eq_neg_one_of_neg (h.2.mp hx)]
    rfl

theorem Swap.neg (x : Int) : Swap x (-x) := ⟨by omega,by omega⟩

theorem Swap.orElse {x y x' y' : Int} (h : Swap x y) (h' : x = 0 → Swap x' y') :
    Swap (orElse x x') (orElse y y') := by
  obtain ⟨h1,h2⟩ := h
  by_cases hx : x = 0
  · have hy : y = 0 := by omega
    rw [Comparison.orElse,Comparison.orElse,if_pos hx,if_pos hy]
    exact h' hx
  · have hy : ¬ y = 0 := by omega
    rw [Comparison.orElse,Comparison.orElse,if_neg hx,if_neg hy]
    exact ⟨h1,h2⟩

theorem Chain.zero : Chain 0 0 0 := ⟨by omega,by omega,by omega⟩

theorem Chain.orElse {x y z x' y' z' : Int} (h : Chain x y z) (h' : x = 0 → y = 0 → Chain x' y' z') :
    Chain (orElse x x') (orElse y y') (orElse z z') := by
  obtain ⟨h1,h2,h3⟩ := h
  by_cases hx : x = 0
  · by_cases hy : y = 0
    · obtain ⟨h4,h5,h6⟩ := h' hx hy
      have hz := h1 (by omega) (by omega)
      simp only [Comparison.orElse,if_pos hx,if_pos hy]
      constructor <;> split <;> omega
    · simp only [Comparison.orElse,if_pos hx,if_neg hy]
      constructor <;> split <;> omega
  · simp only [Comparison.orElse,if_neg hx]
    constructor <;> split <;> split <;> omega

theorem Swap.of_measure {x y i j : Int} (hlt : i < j → x < 0 ∧ 0 < y) (hgt : j < i → y < 0 ∧ 0 < x)
    (h : i = j → Swap x y) : Swap x y := by
  rcases Int.lt_trichotomy i j with hij | hij | hij
  · obtain ⟨h1,h2⟩ := hlt hij
    exact ⟨by omega,by omega⟩
  · exact h hij
  · obtain ⟨h1,h2⟩ := hgt hij
    exact ⟨by omega,by omega⟩

/-- Results of comparisons by a measure chain whenever the measures differ somewhere. -/
theorem Chain.of_measure {x y z i j k : Int} (hx : j < i → 0 < x) (hy : k < j → 0 < y) (hz : i < k → z < 0)
    (h : i = j → j = k → Chain x y z) : Chain x y z := by
  by_cases hij : i = j
  · by_cases hjk : j = k
    · exact h hij hjk
    · constructor <;> omega
  · constructor <;> omega

end Comparison
