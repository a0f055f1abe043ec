import Mathlib.Data.List.Induction
import Mathlib.Data.List.Nodup
import Mathlib.Order.Basic
import Xjd1.Lib.Run

/-! Rows in the order of their keys, and a cursor that moves from a row to the first one behind
it, in the rows as they are then. -/
namespace KeyedRows

open Fueled

variable {κ α : Type} [LinearOrder κ]

def Sorted (l : List (κ × α)) : Prop := l.Pairwise fun r s => r.1 < s.1

def next (l : List (κ × α)) : Option κ → Option (κ × α)
  | none => l.head?
  | some k => l.find? fun r => k < r.1

def lastKey (l : List (κ × α)) : Option κ := l.getLast?.map Prod.fst

def replace (k : κ) (a : α) (l : List (κ × α)) : List (κ × α) := l.map fun r => if r.1 = k then (k,a) else r

section Rows
variable {l l' pre post : List (κ × α)} {k : κ} {a b : α}

omit [LinearOrder κ] in
theorem lastKey_concat (pre : List (κ × α)) (r : κ × α) : lastKey (pre ++ [r]) = some r.1 := by
  simp [lastKey]

theorem Sorted.of_keys (hs : Sorted l) (hk : l'.map Prod.fst = l.map Prod.fst) : Sorted l' := by
  rw [Sorted,← List.pairwise_map (f := Prod.fst) (R := (· < ·)),hk,List.pairwise_map]
  exact hs

theorem Sorted.filter (hs : Sorted l) (p : κ × α → Bool) : Sorted (l.filter p) := List.Pairwise.filter p hs

theorem Sorted.concat (hs : Sorted l) (hk : ∀ r ∈ l, r.1 < k) (a : α) : Sorted (l ++ [(k,a)]) := by
  refine List.pairwise_append.mpr ⟨hs,List.pairwise_singleton _ _,fun r hr s hs => ?_⟩
  obtain rfl := List.mem_singleton.mp hs
  exact hk r hr

theorem keys_replace (k : κ) (a : α) (l : List (κ × α)) : (replace k a l).map Prod.fst = l.map Prod.fst := by
  rw [replace,List.map_map]
  refine List.map_congr_left fun r _ => ?_
  by_cases hr : r.1 = k <;> simp [hr]

theorem Sorted.replace (hs : Sorted l) (k : κ) (a : α) : Sorted (replace k a l) := hs.of_keys (keys_replace k a l)

/-- Before and behind a row there are other keys. -/
theorem Sorted.ne_of_middle (hs : Sorted (pre ++ (k,a)::post)) : (∀ r ∈ pre, r.1 ≠ k) ∧ ∀ r ∈ post, r.1 ≠ k := by
  obtain ⟨_,hpost,hpre⟩ := List.pairwise_append.mp hs
  exact ⟨fun r hr => (hpre r hr (k,a) List.mem_cons_self).ne,fun r hr => (List.rel_of_pairwise_cons hpost hr).ne'⟩

theorem replace_of_ne (h : ∀ r ∈ l, r.1 ≠ k) : replace k b l = l := by
  rw [replace]
  refine (List.map_congr_left fun r hr => ?_).trans (List.map_id l)
  exact if_neg (h r hr)

theorem replace_middle (hs : Sorted (pre ++ (k,a)::post)) : replace k b (pre ++ (k,a)::post) = pre ++ (k,b)::post := by
  obtain ⟨hpre,hpost⟩ := hs.ne_of_middle
  have happ : replace k b (pre ++ (k,a)::post) = replace k b pre ++ (k,b)::replace k b post := by
    simp [replace]
  rw [happ,replace_of_ne hpre,replace_of_ne hpost]

theorem next_middle (hs : Sorted (pre ++ post)) : next (pre ++ post) (lastKey pre) = post.head? := by
  induction pre using List.reverseRecOn with
  | nil => rfl
  | append_singleton pre r _ =>
    obtain ⟨hpre,_,hpost⟩ := List.pairwise_append.mp hs
    have hle : ∀ s ∈ pre ++ [r], ¬ r.1 < s.1 := fun s hm => by
      rcases List.mem_append.mp hm with hm | hm
      · exact ((List.pairwise_append.mp hpre).2.2 s hm r List.mem_cons_self).not_gt
      · rw [List.mem_singleton.mp hm]
        exact lt_irrefl _
    rw [lastKey_concat,next,List.find?_append,List.find?_eq_none.mpr fun s hm => by simpa using hle s hm,Option.none_or]
    cases post with
    | nil => rfl
    | cons s post =>
      have hlt : r.1 < s.1 := hpost r (List.mem_append_right pre List.mem_cons_self) s List.mem_cons_self
      simp [hlt]

theorem Sorted.nodup_keys (hs : Sorted l) : (l.map Prod.fst).Nodup := List.pairwise_map.mpr (hs.imp fun h => h.ne)

/-- The rows with other keys than the ones that are picked are the ones that are not picked. -/
theorem filter_keys (hs : Sorted l) (p : κ × α → Bool) :
    l.filter (fun r => decide (r.1 ∉ (l.filter p).map Prod.fst)) = l.filter fun r => !p r := by
  refine List.filter_congr fun r hr => ?_
  have hkey : r.1 ∈ (l.filter p).map Prod.fst ↔ p r = true := by
    constructor
    · intro hm
      obtain ⟨s,hsm,he⟩ := List.mem_map.mp hm
      obtain ⟨hsl,hp⟩ := List.mem_filter.mp hsm
      obtain rfl := List.inj_on_of_nodup_map hs.nodup_keys hsl hr he
      exact hp
    · exact fun hp => List.mem_map_of_mem (List.mem_filter.mpr ⟨hr,hp⟩)
  simp only [hkey,Bool.not_eq_true,Bool.decide_eq_false]

end Rows

section Walk
variable {ε β σ : Type} {body : ℕ → Option κ × σ → Run ε (β ⊕ (Option κ × σ))} {Q : β → Prop}
  (I : List (κ × α) → List (κ × α) → σ → Prop)
  (hexit : ∀ pre s, I pre [] s → ∃ b, Run.Returns (fun n => body n (lastKey pre,s)) (.inl b) ∧ Q b)
  (hturn : ∀ pre r post s, I pre (r::post) s →
    ∃ a s', Run.Returns (fun n => body n (lastKey pre,s)) (.inr (some r.1,s')) ∧ I (pre ++ [(r.1,a)]) post s')
  {pre post : List (κ × α)} {s : σ}
include hexit hturn

omit [LinearOrder κ] in
/-- A loop that moves a cursor over the rows. `I pre post s` is what holds in the state `s` with
the cursor behind the rows `pre`, before the rows `post`. -/
theorem walk (hI : I pre post s) : ∃ b, Run.Loops body (lastKey pre,s) b ∧ Q b := by
  induction post generalizing pre s with
  | nil =>
    obtain ⟨b,hb,hQ⟩ := hexit pre s hI
    exact ⟨b,.exit hb,hQ⟩
  | cons r post ih =>
    obtain ⟨a,s',hr,hI'⟩ := hturn pre r post s hI
    obtain ⟨b,hb,hQ⟩ := ih hI'
    rw [lastKey_concat] at hb
    exact ⟨b,.turn hr hb,hQ⟩

end Walk

end KeyedRows
