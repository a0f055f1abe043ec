import Mathlib.Data.List.MinMax
import Xjd1.Lib.SlotSort

/-! One pass over a list for its best element, where an element replaces the best
one so far only if it is better. -/
namespace Scan

open SlotSort

variable {α β : Type}

/-- On elements with `P`, being better is a strict weak order. -/
structure Weak (better : α → α → Prop) (P : α → Prop) : Prop where
  asymm : ∀ a b, P a → P b → better a b → ¬ better b a
  trans : ∀ a b c, P a → P b → P c → better a b → ¬ better c b → better a c

theorem Weak.mono {better : α → α → Prop} {P Q : α → Prop} (h : Weak better P) (hQ : ∀ a, Q a → P a) :
    Weak better Q :=
  ⟨fun a b ha hb => h.asymm a b (hQ a ha) (hQ b hb),fun a b c ha hb hc => h.trans a b c (hQ a ha) (hQ b hb) (hQ c hc)⟩

theorem Weak.on {better : α → α → Prop} {P : α → Prop} (h : Weak better P) (f : β → α) :
    Weak (fun a b => better (f a) (f b)) fun b => P (f b) :=
  ⟨fun a b => h.asymm (f a) (f b),fun a b c => h.trans (f a) (f b) (f c)⟩

section Ordered
variable {cmp : α → α → Int} {P : α → Prop} (h : Ordered cmp P)
include h

theorem weak_lt : Weak (fun a b => cmp a b < 0) P := by
  refine ⟨fun a b ha hb hab hba => ?_,fun a b c ha hb hc hab hcb => h.lt_of_lt_of_le ha hb hc hab ?_⟩
  · have hlt := (h.swap a b ha hb).mp hab
    omega
  · have hbc := h.swap c b hc hb
    omega

theorem weak_gt : Weak (fun a b => 0 < cmp a b) P := by
  refine ⟨fun a b ha hb hab hba => ?_,fun a b c ha hb hc hab hcb => ?_⟩
  · have hlt := (h.swap b a hb ha).mpr hab
    omega
  · have hba := (h.swap b a hb ha).mpr hab
    exact (h.swap c a hc ha).mp (h.lt_of_le_of_lt hc hb ha (by omega) hba)

end Ordered

section Scan
variable (better : α → α → Prop) [DecidableRel better]

def scan (l : List α) : Option α := l.foldl (List.argAux better) none

theorem scan_concat (l : List α) (a : α) : scan better (l ++ [a]) = List.argAux better (scan better l) a := by
  rw [scan,List.foldl_concat,scan]

theorem scan_eq_none {l : List α} : scan better l = none ↔ l = [] := by
  rw [scan,List.foldl_argAux_eq_none,and_iff_left rfl]

/-- A scan of rows by a column finds the best value of the column. -/
theorem scan_map (f : β → α) (l : List β) :
    scan better (l.map f) = (scan (fun a b => better (f a) (f b)) l).map f := by
  induction l using List.reverseRecOn with
  | nil => rfl
  | append_singleton l a ih =>
    rw [List.map_append,List.map_singleton,scan_concat,scan_concat,ih]
    cases scan (fun a b => better (f a) (f b)) l with
    | none => rfl
    | some b =>
      simp only [List.argAux,Option.map_some]
      split <;> rfl

end Scan

/-- The first best element of a list: none is better, and it is better than every one before it. -/
def FirstBest (better : α → α → Prop) (l : List α) (a : α) : Prop :=
  (∀ b ∈ l, ¬ better b a) ∧ ∃ as bs, l = as ++ a::bs ∧ ∀ b ∈ as, better a b

theorem FirstBest.mem {better : α → α → Prop} {l : List α} {a : α} (h : FirstBest better l a) : a ∈ l := by
  obtain ⟨_,as,bs,rfl,_⟩ := h
  exact List.mem_append_right as List.mem_cons_self

/-- The scan of a list ends with its first best element. -/
theorem scan_firstBest {better : α → α → Prop} [DecidableRel better] {l : List α} (hw : Weak better (· ∈ l))
    (hl : l ≠ []) : ∃ a, scan better l = some a ∧ FirstBest better l a := by
  induction l using List.reverseRecOn with
  | nil => exact absurd rfl hl
  | append_singleton l x ih =>
    have hx : x ∈ l ++ [x] := List.mem_append_right l (List.mem_singleton_self x)
    have hirr : ¬ better x x := fun h => hw.asymm x x hx hx h h
    rw [scan_concat]
    cases hs : scan better l with
    | none =>
      obtain rfl := (scan_eq_none better).mp hs
      refine ⟨x,rfl,fun b hb => ?_,[],[],rfl,nofun⟩
      obtain rfl := List.mem_singleton.mp hb
      exact hirr
    | some a =>
      have hne : l ≠ [] := fun h0 => by
        rw [(scan_eq_none better).mpr h0] at hs
        cases hs
      have hmem : ∀ b ∈ l, b ∈ l ++ [x] := fun b hb => List.mem_append_left [x] hb
      obtain ⟨a',ha,hbest⟩ := ih (hw.mono hmem) hne
      obtain rfl := Option.some.inj (hs.symm.trans ha)
      have ha := hmem a hbest.mem
      by_cases hxa : better x a
      · -- the new element is better than every one before it
        have hall : ∀ b ∈ l, better x b := fun b hb => hw.trans x a b hx ha (hmem b hb) hxa (hbest.1 b hb)
        refine ⟨x,if_pos hxa,fun b hb => ?_,l,[],rfl,hall⟩
        rcases List.mem_append.mp hb with hb | hb
        · exact hw.asymm x b hx (hmem b hb) (hall b hb)
        · obtain rfl := List.mem_singleton.mp hb
          exact hirr
      · obtain ⟨as,bs,rfl,has⟩ := hbest.2
        refine ⟨a,if_neg hxa,fun b hb => ?_,as,bs ++ [x],List.append_assoc as (a::bs) [x],has⟩
        rcases List.mem_append.mp hb with hb | hb
        · exact hbest.1 b hb
        · obtain rfl := List.mem_singleton.mp hb
          exact hxa

end Scan
