import Mathlib.Algebra.BigOperators.Group.Finset.Basic
import Mathlib.Algebra.Order.BigOperators.Group.List
import Mathlib.Algebra.Order.Group.Multiset
import Mathlib.Algebra.Order.Group.Nat
import Xjd1.Lib.Heap
import Xjd1.Lib.Run

/-! Reference counting. Objects hold references to each other; each keeps the number of
references to it, and goes with the last one, after the references it holds itself. -/
namespace RefCount

open Heap Fueled

/-- An object with the number of references to it, which is taken to have no bound. -/
structure Counted (α : Type) where
  nRef : Int
  val : α
  deriving DecidableEq, Repr

/-- Objects that hold references; `cleared` is what is left of one that gave them back. -/
class Holds (α : Type) where
  ptrs : α → List ℕ
  cleared : α → α
  ptrs_cleared (a : α) : ptrs (cleared a) = []

open Holds

variable {ε α : Type}

def get (e : ε) (h : Cells (Counted α)) (p : ℕ) : Run ε (Counted α) := Run.ofOption e h[p]?.join

def retain (e : ε) (h : Cells (Counted α)) (p : ℕ) : Run ε (Cells (Counted α)) := do
  let a ← get e h p
  .ok (put h p { a with nRef := a.nRef+1 })

variable [Holds α]

def clear (e : ε) (rel : Cells (Counted α) → ℕ → Run ε (Cells (Counted α))) (h : Cells (Counted α)) (p : ℕ) :
    Run ε (Cells (Counted α)) := do
  let a ← get e h p
  let h ← (ptrs a.val).foldlM rel h
  let a ← get e h p
  .ok (put h p { a with val := cleared a.val })

def release (e : ε) : ℕ → Cells (Counted α) → ℕ → Run ε (Cells (Counted α))
  | 0, _, _ => .more
  | n+1, h, p => do
    let a ← get e h p
    let h := put h p { a with nRef := a.nRef-1 }
    if a.nRef-1 ≤ 0 then do
      let h ← clear e (release e n) h p
      .ok (free h p)
    else .ok h

omit [Holds α] in
theorem get_live {h : Cells (Counted α)} {p : ℕ} {a : Counted α} (hl : Live h p a) (e : ε) : get e h p = .ok a := by
  rw [get,show h[p]? = some (some a) from hl]
  rfl

/-- The references held in cell `j`. The cells of `Z` are being worked on, and what they hold
does not count. -/
def held (h : Cells (Counted α)) (Z : Finset ℕ) (j : ℕ) : Multiset ℕ :=
  if j ∈ Z then 0 else (h[j]?.join.elim [] fun a => ptrs a.val : List ℕ)

def refs (h : Cells (Counted α)) (Z : Finset ℕ) : Multiset ℕ := ∑ j ∈ Finset.range h.length, held h Z j

section Refs
variable {h h' : Cells (Counted α)} {Z : Finset ℕ} {i j p : ℕ} {a b : Counted α}

theorem held_live (hl : Live h j a) (hj : j ∉ Z) : held h Z j = ptrs a.val := by
  rw [held,if_neg hj,show h[j]? = some (some a) from hl]
  rfl

theorem held_dead (hj : ¬ ∃ a, Live h j a) : held h Z j = 0 := by
  rw [held]
  split
  · rfl
  · cases hc : h[j]? with
    | none => rfl
    | some o =>
      cases o with
      | none => rfl
      | some a => exact absurd ⟨a,hc⟩ hj

theorem held_of_mem (hj : j ∈ Z) : held h Z j = 0 := if_pos hj

theorem held_put_self (hl : Live h p a) (hp : p ∉ Z) : held (put h p b) Z p = ptrs b.val := held_live (hl.put b) hp

theorem held_put_ne (hj : j ≠ p) : held (put h p b) Z j = held h Z j := by
  rw [held,held,put,List.getElem?_set_ne hj.symm]

theorem held_free_ne (hj : j ≠ p) : held (free h p) Z j = held h Z j := by
  rw [held,held,free,List.getElem?_set_ne hj.symm]

theorem held_free_self : held (free h p) Z p = 0 := by
  rw [held,free,List.getElem?_set_self']
  cases h[p]? <;> simp

theorem held_alloc_ne (hj : j ≠ h.length) : held (alloc h b) Z j = held h Z j := by
  rw [held,held,alloc]
  rcases Nat.lt_or_gt_of_ne hj with hlt | hlt
  · rw [List.getElem?_append_left hlt]
  · rw [List.getElem?_append_right (Nat.le_of_lt hlt),List.getElem?_eq_none (by simp; omega),
      List.getElem?_eq_none (Nat.le_of_lt hlt)]

theorem held_insert_ne (hj : j ≠ p) : held h (insert p Z) j = held h Z j := by
  rw [held,held]
  simp only [Finset.mem_insert,hj,false_or]

theorem refs_split (hp : p < h.length) :
    refs h Z = held h Z p + ∑ j ∈ (Finset.range h.length).erase p, held h Z j :=
  (Finset.add_sum_erase _ _ (Finset.mem_range.mpr hp)).symm

theorem mem_refs : i ∈ refs h Z ↔ ∃ j, i ∈ held h Z j := by
  rw [refs,Multiset.mem_sum]
  refine ⟨fun ⟨j,_,hj⟩ => ⟨j,hj⟩,fun ⟨j,hj⟩ => ⟨j,Finset.mem_range.mpr ?_,hj⟩⟩
  by_contra hlt
  rw [held,List.getElem?_eq_none (Nat.not_lt.mp hlt)] at hj
  split at hj <;> cases hj

theorem refs_insert (hl : Live h p a) (hp : p ∉ Z) : refs h Z = ptrs a.val + refs h (insert p Z) := by
  rw [refs_split hl.lt,held_live hl hp,refs_split (Z := insert p Z) hl.lt,held_of_mem (Finset.mem_insert_self _ _),zero_add]
  exact congrArg _ (Finset.sum_congr rfl fun j hj => (held_insert_ne (Finset.ne_of_mem_erase hj)).symm)

theorem refs_put_mem (hp : p ∈ Z) : refs (put h p b) Z = refs h Z := by
  rw [refs,refs,length_put]
  refine Finset.sum_congr rfl fun j _ => ?_
  by_cases hj : j = p
  · rw [hj,held_of_mem hp,held_of_mem hp]
  · exact held_put_ne hj

theorem refs_put_count (hl : Live h p a) (hv : b.val = a.val) : refs (put h p b) Z = refs h Z := by
  rw [refs,refs,length_put]
  refine Finset.sum_congr rfl fun j _ => ?_
  by_cases hj : j = p
  · subst hj
    by_cases hp : j ∈ Z
    · rw [held_of_mem hp,held_of_mem hp]
    · rw [held_put_self hl hp,held_live hl hp,hv]
  · exact held_put_ne hj

theorem refs_free_insert : refs (free h p) Z = refs h (insert p Z) := by
  rw [refs,refs,length_free]
  refine Finset.sum_congr rfl fun j _ => ?_
  by_cases hj : j = p
  · rw [hj,held_free_self,held_of_mem (Finset.mem_insert_self _ _)]
  · rw [held_free_ne hj,held_insert_ne hj]

theorem refs_alloc_insert : refs (alloc h b) (insert h.length Z) = refs h Z := by
  rw [refs,length_alloc,Finset.sum_range_succ,held_of_mem (Finset.mem_insert_self _ _),add_zero]
  refine Finset.sum_congr rfl fun j hj => ?_
  have hlt := Finset.mem_range.mp hj
  rw [held_insert_ne (Nat.ne_of_lt hlt),held_alloc_ne (Nat.ne_of_lt hlt)]

end Refs

/-- Every object is counted, while `H` are the references from outside the heap, `Z` the cells
being worked on, and `r` a measure that falls along every reference. -/
structure Sound (r : ℕ → ℕ) (h : Cells (Counted α)) (Z : Finset ℕ) (H : Multiset ℕ) : Prop where
  counted : ∀ i a, Live h i a → i ∉ Z → a.nRef = ((refs h Z + H).count i : ℕ)
  used : ∀ i a, Live h i a → i ∉ Z → i ∈ refs h Z + H
  target : ∀ i ∈ refs h Z + H, i ∉ Z ∧ ∃ a, Live h i a
  ranked : ∀ j, ∀ q ∈ held h Z j, r q < r j
  inside : ∀ z ∈ Z, z < h.length

theorem Sound.nil (r : ℕ → ℕ) : Sound r ([] : Cells (Counted α)) ∅ 0 := by
  refine ⟨fun i a ha => absurd ha.lt (Nat.not_lt_zero i),fun i a ha => absurd ha.lt (Nat.not_lt_zero i),?_,?_,by simp⟩
  · intro i hi
    rw [refs,List.length_nil,Finset.range_zero,Finset.sum_empty,add_zero] at hi
    exact absurd hi (Multiset.notMem_zero i)
  · intro j q hq
    rw [held_dead fun ⟨a,ha⟩ => Nat.not_lt_zero j ha.lt] at hq
    exact absurd hq (Multiset.notMem_zero q)

section Rules
variable {r : ℕ → ℕ} {h h' : Cells (Counted α)} {Z : Finset ℕ} {H H' : Multiset ℕ} {i j p : ℕ} {a b c : Counted α}

omit [Holds α] in
theorem live_put_ne (hij : j ≠ i) : Live (put h i b) j c ↔ Live h j c := by
  rw [Live,Live,put,List.getElem?_set_ne hij.symm]

theorem Sound.recount (hs : Sound r h Z H) (hl : Live h p a) (hp : p ∉ Z) (hv : b.val = a.val)
    (hb : b.nRef = ((refs h Z + H').count p : ℕ)) (hu : p ∈ refs h Z + H') (hH : ∀ i ≠ p, H'.count i = H.count i) :
    Sound r (put h p b) Z H' := by
  have hmem : ∀ i, i ≠ p → (i ∈ refs h Z + H' ↔ i ∈ refs h Z + H) := fun i hi => by
    rw [← Multiset.count_pos,← Multiset.count_pos,Multiset.count_add,Multiset.count_add,hH i hi]
  refine ⟨fun i c hc hi => ?_,fun i c hc hi => ?_,fun i hi => ?_,fun j q hq => ?_,by simpa using hs.inside⟩
  · rw [refs_put_count hl hv]
    rcases (live_put hl).mp hc with ⟨rfl,rfl⟩ | ⟨hip,hc⟩
    · exact hb
    · rw [hs.counted i c hc hi,Multiset.count_add,Multiset.count_add,hH i hip]
  · rw [refs_put_count hl hv]
    rcases (live_put hl).mp hc with ⟨rfl,rfl⟩ | ⟨hip,hc⟩
    · exact hu
    · exact (hmem i hip).mpr (hs.used i c hc hi)
  · rw [refs_put_count hl hv] at hi
    by_cases hip : i = p
    · subst hip
      exact ⟨hp,_,hl.put b⟩
    · obtain ⟨hZ,d,hd⟩ := hs.target i ((hmem i hip).mp hi)
      exact ⟨hZ,d,(live_put_ne hip).mpr hd⟩
  · by_cases hj : j = p
    · subst hj
      rw [held_put_self hl hp,hv,← held_live hl hp] at hq
      exact hs.ranked j q hq
    · rw [held_put_ne hj] at hq
      exact hs.ranked j q hq

theorem Sound.write (hs : Sound r h Z H) (hp : p ∈ Z) (b : Counted α) : Sound r (put h p b) Z H := by
  have hne : ∀ {i}, i ∉ Z → i ≠ p := fun hi hip => hi (hip ▸ hp)
  refine ⟨fun i c hc hi => ?_,fun i c hc hi => ?_,fun i hi => ?_,fun j q hq => ?_,by simpa using hs.inside⟩
  · rw [refs_put_mem hp]
    exact hs.counted i c ((live_put_ne (hne hi)).mp hc) hi
  · rw [refs_put_mem hp]
    exact hs.used i c ((live_put_ne (hne hi)).mp hc) hi
  · rw [refs_put_mem hp] at hi
    obtain ⟨hZ,d,hd⟩ := hs.target i hi
    exact ⟨hZ,d,(live_put_ne (hne hZ)).mpr hd⟩
  · by_cases hj : j = p
    · rw [hj,held_of_mem hp] at hq
      cases hq
    · rw [held_put_ne hj] at hq
      exact hs.ranked j q hq

theorem Sound.free (hs : Sound r h (insert p Z) H) : Sound r (free h p) Z H := by
  have hne : ∀ {i c}, Live (Heap.free h p) i c → i ∉ Z → Live h i c ∧ i ∉ insert p Z := fun hc hi =>
    ⟨(live_free.mp hc).2,fun hm => (Finset.mem_insert.mp hm).elim (live_free.mp hc).1 hi⟩
  refine ⟨fun i c hc hi => ?_,fun i c hc hi => ?_,fun i hi => ?_,fun j q hq => ?_,fun z hz => ?_⟩
  · rw [refs_free_insert]
    exact hs.counted i c (hne hc hi).1 (hne hc hi).2
  · rw [refs_free_insert]
    exact hs.used i c (hne hc hi).1 (hne hc hi).2
  · rw [refs_free_insert] at hi
    obtain ⟨hZ,d,hd⟩ := hs.target i hi
    have hip : i ≠ p := fun hip => hZ (hip ▸ Finset.mem_insert_self p Z)
    exact ⟨fun hm => hZ (Finset.mem_insert_of_mem hm),d,live_free.mpr ⟨hip,hd⟩⟩
  · by_cases hj : j = p
    · rw [hj,held_free_self] at hq
      cases hq
    · rw [held_free_ne hj,← held_insert_ne hj] at hq
      exact hs.ranked j q hq
  · rw [length_free]
    exact hs.inside z (Finset.mem_insert_of_mem hz)

theorem Sound.alloc (hs : Sound r h Z H) (b : Counted α) : Sound r (alloc h b) (insert h.length Z) H := by
  have hne : ∀ {i c}, Live (Heap.alloc h b) i c → i ∉ insert h.length Z → Live h i c ∧ i ∉ Z := fun hc hi =>
    ⟨(live_alloc.mp hc).resolve_left fun he => hi (he.1 ▸ Finset.mem_insert_self _ _),
      fun hm => hi (Finset.mem_insert_of_mem hm)⟩
  refine ⟨fun i c hc hi => ?_,fun i c hc hi => ?_,fun i hi => ?_,fun j q hq => ?_,fun z hz => ?_⟩
  · rw [refs_alloc_insert]
    exact hs.counted i c (hne hc hi).1 (hne hc hi).2
  · rw [refs_alloc_insert]
    exact hs.used i c (hne hc hi).1 (hne hc hi).2
  · rw [refs_alloc_insert] at hi
    obtain ⟨hZ,d,hd⟩ := hs.target i hi
    exact ⟨fun hm => (Finset.mem_insert.mp hm).elim (Nat.ne_of_lt hd.lt) hZ,d,live_alloc.mpr (.inr hd)⟩
  · by_cases hj : j = h.length
    · rw [hj,held_of_mem (Finset.mem_insert_self _ _)] at hq
      cases hq
    · rw [held_insert_ne hj,held_alloc_ne hj] at hq
      exact hs.ranked j q hq
  · rw [length_alloc]
    rcases Finset.mem_insert.mp hz with rfl | hz
    · exact Nat.lt_succ_self _
    · exact Nat.lt_succ_of_lt (hs.inside z hz)

/-- Work on an object to which there is one reference, from outside: what it holds counts as
references from outside. -/
theorem Sound.enter (hs : Sound r h Z (p ::ₘ H)) (hl : Live h p a) (h1 : a.nRef = 1) :
    Sound r h (insert p Z) (ptrs a.val + H) := by
  have hp : p ∉ Z := (hs.target p (by simp)).1
  have hsplit : refs h Z = ptrs a.val + refs h (insert p Z) := refs_insert hl hp
  have hsum : refs h (insert p Z) + ((ptrs a.val : Multiset ℕ) + H) = refs h Z + H := by
    rw [hsplit,add_left_comm,add_assoc]
  have hnot : p ∉ refs h Z + H := by
    have hc := hs.counted p a hl hp
    rw [h1,Multiset.add_cons,Multiset.count_cons_self] at hc
    rw [← Multiset.count_eq_zero]
    omega
  have hcount : ∀ i, i ≠ p → (refs h Z + H).count i = (refs h Z + p ::ₘ H).count i := fun i hi => by
    rw [Multiset.add_cons,Multiset.count_cons_of_ne hi]
  refine ⟨fun i c hc hi => ?_,fun i c hc hi => ?_,fun i hi => ?_,fun j q hq => ?_,
    Finset.forall_mem_insert _ _ _ |>.mpr ⟨hl.lt,hs.inside⟩⟩
  · rw [Finset.mem_insert,not_or] at hi
    rw [hsum,hcount i hi.1]
    exact hs.counted i c hc hi.2
  · rw [Finset.mem_insert,not_or] at hi
    rw [hsum,← Multiset.count_pos,hcount i hi.1,Multiset.count_pos]
    exact hs.used i c hc hi.2
  · rw [hsum] at hi
    have hip : i ≠ p := fun hip => hnot (hip ▸ hi)
    obtain ⟨hZ,hd⟩ := hs.target i (by rw [← Multiset.count_pos,← hcount i hip,Multiset.count_pos]; exact hi)
    exact ⟨fun hm => (Finset.mem_insert.mp hm).elim hip hZ,hd⟩
  · by_cases hj : j = p
    · rw [hj,held_of_mem (Finset.mem_insert_self _ _)] at hq
      cases hq
    · rw [held_insert_ne hj] at hq
      exact hs.ranked j q hq

theorem Sound.leave (hs : Sound r h (insert p Z) (ptrs a.val + H)) (hp : p ∉ Z) (hl : Live h p a) (h1 : a.nRef = 1) :
    ∃ r', Sound r' h Z (p ::ₘ H) := by
  have hsplit : refs h Z = ptrs a.val + refs h (insert p Z) := refs_insert hl hp
  have hsum : refs h (insert p Z) + ((ptrs a.val : Multiset ℕ) + H) = refs h Z + H := by
    rw [hsplit,add_left_comm,add_assoc]
  have hnot : p ∉ refs h Z + H := fun hm => (hs.target p (hsum ▸ hm)).1 (Finset.mem_insert_self p Z)
  have hptr : ∀ q ∈ ptrs a.val, q ≠ p := fun q hq hqp => hnot (by
    rw [hsplit]
    simp [← hqp,hq])
  -- the object is above all it holds, and nothing in the heap refers to it
  refine ⟨Function.update r p (((ptrs a.val).map r).sum + 1),⟨fun i c hc hi => ?_,fun i c hc hi => ?_,
    fun i hi => ?_,fun j q hq => ?_,fun z hz => hs.inside z (Finset.mem_insert_of_mem hz)⟩⟩
  · by_cases hip : i = p
    · subst hip
      rw [hc.unique hl,h1,Multiset.add_cons,Multiset.count_cons_self,Multiset.count_eq_zero.mpr hnot]
      rfl
    · rw [Multiset.add_cons,Multiset.count_cons_of_ne hip,← hsum]
      exact hs.counted i c hc fun hm => (Finset.mem_insert.mp hm).elim hip hi
  · by_cases hip : i = p
    · rw [hip]
      simp
    · rw [Multiset.add_cons]
      refine Multiset.mem_cons_of_mem (hsum ▸ hs.used i c hc fun hm => ?_)
      exact (Finset.mem_insert.mp hm).elim hip hi
  · rw [Multiset.add_cons] at hi
    rcases Multiset.mem_cons.mp hi with rfl | hi
    · exact ⟨hp,a,hl⟩
    · obtain ⟨hZ,hd⟩ := hs.target i (hsum ▸ hi)
      exact ⟨fun hm => hZ (Finset.mem_insert_of_mem hm),hd⟩
  · by_cases hj : j = p
    · subst hj
      rw [held_live hl hp,Multiset.mem_coe] at hq
      rw [Function.update_self,Function.update_of_ne (hptr q hq)]
      exact Nat.lt_succ_of_le (List.le_sum_of_mem (List.mem_map_of_mem hq))
    · have hqp : q ≠ p := fun hqp => hnot (Multiset.mem_add.mpr (.inl (mem_refs.mpr ⟨j,hqp ▸ hq⟩)))
      rw [Function.update_of_ne hj,Function.update_of_ne hqp]
      exact hs.ranked j q (by rwa [held_insert_ne hj])

theorem Sound.retain (hs : Sound r h Z H) (hp : p ∈ refs h Z + H) (e : ε) :
    ∃ a, Live h p a ∧ RefCount.retain e h p = .ok (put h p { a with nRef := a.nRef+1 }) ∧
      Sound r (put h p { a with nRef := a.nRef+1 }) Z (p ::ₘ H) := by
  obtain ⟨hZ,a,hl⟩ := hs.target p hp
  refine ⟨a,hl,?_,hs.recount hl hZ rfl ?_ (by simp) fun i hi => Multiset.count_cons_of_ne hi H⟩
  · rw [RefCount.retain,get_live hl]
    rfl
  · rw [Multiset.add_cons,Multiset.count_cons_self,hs.counted p a hl hZ]
    rfl

theorem Sound.lose (hs : Sound r h Z (p ::ₘ H)) (hl : Live h p a) (h1 : ¬ a.nRef-1 ≤ 0) :
    Sound r (put h p { a with nRef := a.nRef-1 }) Z H := by
  have hp : p ∉ Z := (hs.target p (by simp)).1
  have hc := hs.counted p a hl hp
  rw [Multiset.add_cons,Multiset.count_cons_self] at hc
  refine hs.recount hl hp rfl ?_ ?_ fun i hi => (Multiset.count_cons_of_ne hi H).symm
  · rw [hc]
    push_cast
    omega
  · rw [← Multiset.count_pos]
    omega

end Rules

/-- The cells of `Z` are as they were, and what is left of the other ones holds what it held. -/
structure Kept (Z : Finset ℕ) (h h' : Cells (Counted α)) : Prop where
  length : h.length ≤ h'.length
  fixed : ∀ z ∈ Z, h'[z]? = h[z]?
  val : ∀ i ∉ Z, i < h.length → ∀ a', Live h' i a' → ∃ a, Live h i a ∧ a.val = a'.val

section Release
variable {r : ℕ → ℕ} {h h' h'' : Cells (Counted α)} {Z : Finset ℕ} {H : Multiset ℕ} {p : ℕ} {a b : Counted α}

omit [Holds α] in
theorem Kept.refl (Z : Finset ℕ) (h : Cells (Counted α)) : Kept Z h h :=
  ⟨Nat.le_refl _,fun _ _ => rfl,fun _ _ _ a ha => ⟨a,ha,rfl⟩⟩

omit [Holds α] in
theorem Kept.trans (h1 : Kept Z h h') (h2 : Kept Z h' h'') : Kept Z h h'' := by
  refine ⟨Nat.le_trans h1.length h2.length,fun z hz => (h2.fixed z hz).trans (h1.fixed z hz),?_⟩
  intro i hi hlt a ha
  obtain ⟨b,hb,hv⟩ := h2.val i hi (Nat.lt_of_lt_of_le hlt h1.length) a ha
  obtain ⟨c,hc,hw⟩ := h1.val i hi hlt b hb
  exact ⟨c,hc,hw.trans hv⟩

omit [Holds α] in
theorem Kept.live (hk : Kept Z h h') (hp : p ∈ Z) (hl : Live h p a) : Live h' p a := (hk.fixed p hp).trans hl

omit [Holds α] in
/-- Less may be fixed, if the cells that are not keep what they hold. -/
theorem Kept.of_insert (hk : Kept (insert p Z) h h')
    (hp : p < h.length → ∀ a', Live h' p a' → ∃ a, Live h p a ∧ a.val = a'.val) : Kept Z h h' := by
  refine ⟨hk.length,fun z hz => hk.fixed z (Finset.mem_insert_of_mem hz),fun i hi hlt a ha => ?_⟩
  by_cases hip : i = p
  · subst hip
    exact hp hlt a ha
  · exact hk.val i (fun hm => (Finset.mem_insert.mp hm).elim hip hi) hlt a ha

omit [Holds α] in
theorem Kept.of_subset {Z' : Finset ℕ} (hk : Kept Z' h h') (hZ : Z ⊆ Z') : Kept Z h h' := by
  refine ⟨hk.length,fun z hz => hk.fixed z (hZ hz),fun i _ hlt a ha => ?_⟩
  by_cases hi : i ∈ Z'
  · exact ⟨a,(hk.fixed i hi).symm.trans ha,rfl⟩
  · exact hk.val i hi hlt a ha

omit [Holds α] in
theorem Kept.put (hp : p ∉ Z) (hv : p < h.length → ∃ a, Live h p a ∧ a.val = b.val) : Kept Z h (put h p b) := by
  have hne : ∀ z ∈ Z, p ≠ z := fun z hz hpz => hp (hpz ▸ hz)
  refine ⟨by simp,fun z hz => List.getElem?_set_ne (hne z hz),fun i _ hlt a' ha' => ?_⟩
  by_cases hip : i = p
  · subst hip
    obtain ⟨a,ha,hv⟩ := hv hlt
    exact ⟨a,ha,hv.trans (congrArg _ ((ha.put b).unique ha'))⟩
  · exact ⟨a',(live_put_ne hip).mp ha',rfl⟩

omit [Holds α] in
theorem Kept.free (hp : p ∉ Z) : Kept Z h (free h p) := by
  have hne : ∀ z ∈ Z, p ≠ z := fun z hz hpz => hp (hpz ▸ hz)
  refine ⟨by simp,fun z hz => List.getElem?_set_ne (hne z hz),fun i _ _ a' ha' => ?_⟩
  exact ⟨a',(live_free.mp ha').2,rfl⟩

def Releases (r : ℕ → ℕ) (Z : Finset ℕ) (rel : ℕ → Cells (Counted α) → ℕ → Run ε (Cells (Counted α))) (p : ℕ) : Prop :=
  ∀ h H, Sound r h Z (p ::ₘ H) →
    ∃ h', Run.Returns (fun n => rel n h p) h' ∧ Sound r h' Z H ∧ Kept Z h h' ∧ h'.length = h.length

theorem foldlM_spec {rel : ℕ → Cells (Counted α) → ℕ → Run ε (Cells (Counted α))} (ps : List ℕ)
    (hrel : ∀ p ∈ ps, Releases r Z rel p) (hs : Sound r h Z (ps + H)) :
    ∃ h', Run.Returns (fun n => ps.foldlM (rel n) h) h' ∧ Sound r h' Z H ∧ Kept Z h h' ∧ h'.length = h.length := by
  induction ps generalizing h with
  | nil => exact ⟨h,.of_forall fun _ => rfl,by simpa using hs,.refl Z h,rfl⟩
  | cons p ps ih =>
    rw [← Multiset.cons_coe,Multiset.cons_add] at hs
    obtain ⟨h1,he1,hs1,hk1,hl1⟩ := hrel p List.mem_cons_self h _ hs
    obtain ⟨h2,he2,hs2,hk2,hl2⟩ := ih (fun q hq => hrel q (List.mem_cons_of_mem p hq)) hs1
    refine ⟨h2,?_,hs2,hk1.trans hk2,hl2.trans hl1⟩
    simp only [List.foldlM_cons]
    exact he1.bind he2

theorem clear_spec {rel : ℕ → Cells (Counted α) → ℕ → Run ε (Cells (Counted α))} (e : ε) (hp : p ∈ Z) (hl : Live h p a)
    (hrel : ∀ q ∈ ptrs a.val, Releases r Z rel q) (hs : Sound r h Z (ptrs a.val + H)) :
    ∃ h', Run.Returns (fun n => clear e (rel n) h p) (put h' p { a with val := cleared a.val }) ∧ Sound r h' Z H ∧
      Kept Z h h' ∧ h'.length = h.length := by
  obtain ⟨h1,he,hs1,hk,hlen⟩ := foldlM_spec (ptrs a.val) hrel hs
  refine ⟨h1,?_,hs1,hk,hlen⟩
  filter_upwards [he] with n hn
  simp only [clear,get_live hl,hn,get_live (hk.live hp hl),Run.ok_bind]

/-- Giving back a reference from outside. -/
theorem release_spec (e : ε) (Z : Finset ℕ) (p : ℕ) : Releases r Z (release (α := α) e) p := by
  induction hm : r p using Nat.strong_induction_on generalizing Z p with
  | _ m ih =>
    subst hm
    intro h H hs
    obtain ⟨hp,a,hl⟩ := hs.target p (by simp)
    by_cases h1 : a.nRef-1 ≤ 0
    · have hone : a.nRef = 1 := by
        have hc := hs.counted p a hl hp
        rw [Multiset.add_cons,Multiset.count_cons_self] at hc
        omega
      have hl' := hl.put { a with nRef := a.nRef-1 }
      have hrank : ∀ q ∈ ptrs a.val, r q < r p := fun q hq => hs.ranked p q (by rw [held_live hl hp]; exact hq)
      have hs1 := (hs.enter hl hone).write (Finset.mem_insert_self p Z) { a with nRef := a.nRef-1 }
      obtain ⟨h2,he2,hs2,hk2,hlen⟩ := clear_spec e (Finset.mem_insert_self p Z) hl'
        (fun q hq => ih (r q) (hrank q hq) (insert p Z) q rfl) hs1
      refine ⟨free h2 p,Run.Returns.succ_iff.mp ?_,hs2.free,?_,by simpa using hlen⟩
      · have hfree : free (put h2 p { a with nRef := a.nRef-1, val := cleared a.val }) p = free h2 p := List.set_set _
        filter_upwards [he2] with n hn
        simp only [release,get_live hl,Run.ok_bind,if_pos h1,hn,hfree]
      · have hput : Kept Z h (put h p { a with nRef := a.nRef-1 }) := Kept.put hp fun _ => ⟨a,hl,rfl⟩
        refine (hput.trans (hk2.of_insert fun _ a' ha' => ?_)).trans (Kept.free hp)
        exact ⟨a',(hk2.fixed p (Finset.mem_insert_self p Z)).symm.trans ha',rfl⟩
    · refine ⟨put h p { a with nRef := a.nRef-1 },Run.Returns.succ_iff.mp (.of_forall fun n => ?_),hs.lose hl h1,
        Kept.put hp fun _ => ⟨a,hl,rfl⟩,length_put⟩
      simp only [release,get_live hl,Run.ok_bind,if_neg h1]

end Release

def Refers (h : Cells (Counted α)) (i j : ℕ) : Prop := ∃ a, Live h i a ∧ j ∈ ptrs a.val

/-- A chain of references leads to the object from one of these. -/
abbrev Reached (h : Cells (Counted α)) (H : Multiset ℕ) (i : ℕ) : Prop := ∃ p ∈ H, Relation.ReflTransGen (Refers h) p i

section Reach
variable {r r' : ℕ → ℕ} {h h' : Cells (Counted α)} {Z : Finset ℕ} {H H' : Multiset ℕ} {i j : ℕ}

theorem Reached.next (hr : Reached h H i) (hi : Refers h i j) : Reached h H j := by
  obtain ⟨p,hp,hr⟩ := hr
  exact ⟨p,hp,hr.tail hi⟩

theorem Reached.mono (hr : Reached h H i) (hH : ∀ q ∈ H, q ∈ H') : Reached h H' i := by
  obtain ⟨p,hp,hr⟩ := hr
  exact ⟨p,hH p hp,hr⟩

theorem Sound.reached_mem (hs : Sound r h Z H') (hH : ∀ q ∈ H, q ∈ H') (hr : Reached h H i) : i ∈ refs h Z + H := by
  obtain ⟨p,hp,hr⟩ := hr
  induction hr with
  | refl => exact Multiset.mem_add.mpr (.inr hp)
  | @tail j _ _ hij ih =>
    obtain ⟨a,ha,hj⟩ := hij
    have hZ := (hs.target j (Multiset.mem_add.mpr ((Multiset.mem_add.mp ih).imp id (hH j)))).1
    exact Multiset.mem_add.mpr (.inl (mem_refs.mpr ⟨j,by rwa [held_live ha hZ]⟩))

/-- What is reached stays reached. -/
theorem Kept.reach (hk : Kept Z h h') (hs : Sound r' h' Z H') (hH : ∀ q ∈ H, q ∈ H') (hr : Reached h H i) : Reached h' H i := by
  obtain ⟨p,hp,hr⟩ := hr
  induction hr with
  | refl => exact ⟨p,hp,.refl⟩
  | @tail j _ _ hij ih =>
    obtain ⟨a,ha,hj⟩ := hij
    obtain ⟨hZ,a',ha'⟩ := hs.target j (Multiset.mem_add.mpr ((Multiset.mem_add.mp (hs.reached_mem hH ih)).imp id (hH j)))
    obtain ⟨b,hb,hv⟩ := hk.val _ hZ ha.lt a' ha'
    exact ih.next ⟨a',ha',by rw [← hv,hb.unique ha]; exact hj⟩

theorem mem_refs_empty : i ∈ refs h ∅ ↔ ∃ j, Refers h j i := by
  rw [mem_refs]
  refine exists_congr fun j => ⟨fun hi => ?_,fun ⟨a,ha,hi⟩ => by rwa [held_live ha (Finset.notMem_empty j)]⟩
  rw [held,if_neg (Finset.notMem_empty j)] at hi
  cases hj : h[j]? with
  | none => simp [hj] at hi
  | some o =>
    cases o with
    | none => simp [hj] at hi
    | some a => exact ⟨a,hj,by simpa [hj] using hi⟩

/-- Every object is reached from a reference from outside. -/
theorem Sound.reached (hs : Sound r h ∅ H) {a : Counted α} (hl : Live h i a) : Reached h H i := by
  -- the measure grows towards the references from outside, and the heap bounds it
  obtain ⟨B,hB⟩ : ∃ B, ∀ j < h.length, r j ≤ B :=
    ⟨((List.range h.length).map r).sum,fun j hj => List.le_sum_of_mem (List.mem_map_of_mem (List.mem_range.mpr hj))⟩
  induction hn : B - r i using Nat.strong_induction_on generalizing i a with
  | _ n ih =>
    subst hn
    rcases Multiset.mem_add.mp (hs.used i a hl (Finset.notMem_empty i)) with hi | hi
    · obtain ⟨j,b,hj,hi⟩ := mem_refs_empty.mp hi
      have hlt : r i < r j := hs.ranked j i (by rwa [held_live hj (Finset.notMem_empty j)])
      have hle := hB j hj.lt
      obtain ⟨p,hp,hreach⟩ := ih (B - r j) (by omega) hj rfl
      exact ⟨p,hp,hreach.tail ⟨b,hj,hi⟩⟩
    · exact ⟨i,hi,.refl⟩

/-- What is reached from the references from outside before is there after, as it was. -/
theorem Kept.reached (hk : Kept ∅ h h') (hs : Sound r h ∅ H) (hs' : Sound r' h' ∅ H)
    {p : ℕ} (hp : p ∈ H) (hi : Relation.ReflTransGen (Refers h) p i ∨ Relation.ReflTransGen (Refers h') p i) :
    ∃ a a', Live h i a ∧ Live h' i a' ∧ a.val = a'.val := by
  have hboth {i : ℕ} (hi : i ∈ refs h ∅ + H) (hi' : i ∈ refs h' ∅ + H) : ∃ a a', Live h i a ∧ Live h' i a' ∧ a.val = a'.val := by
    obtain ⟨_,a,ha⟩ := hs.target i hi
    obtain ⟨_,a',ha'⟩ := hs'.target i hi'
    obtain ⟨b,hb,hv⟩ := hk.val i (Finset.notMem_empty i) ha.lt a' ha'
    exact ⟨a,a',ha,ha',by rw [← hv,ha.unique hb]⟩
  have hstart := hboth (Multiset.mem_add.mpr (.inr hp)) (Multiset.mem_add.mpr (.inr hp))
  have hnext {i j : ℕ} {a a' : Counted α} (ha : Live h i a) (ha' : Live h' i a') (hv : a.val = a'.val)
      (hj : j ∈ ptrs a.val) : ∃ a a', Live h j a ∧ Live h' j a' ∧ a.val = a'.val :=
    hboth (Multiset.mem_add.mpr (.inl (mem_refs_empty.mpr ⟨i,a,ha,hj⟩)))
      (Multiset.mem_add.mpr (.inl (mem_refs_empty.mpr ⟨i,a',ha',hv ▸ hj⟩)))
  rcases hi with hi | hi
  · induction hi with
    | refl => exact hstart
    | tail _ hij ih =>
      obtain ⟨a,a',ha,ha',hv⟩ := ih
      obtain ⟨b,hb,hj⟩ := hij
      exact hnext ha ha' hv (hb.unique ha ▸ hj)
  · induction hi with
    | refl => exact hstart
    | tail _ hij ih =>
      obtain ⟨a,a',ha,ha',hv⟩ := ih
      obtain ⟨b,hb,hj⟩ := hij
      exact hnext ha ha' hv (by rw [hv,← hb.unique ha']; exact hj)

/-- With the same references from outside, a heap that keeps what it holds is the same heap. -/
theorem Sound.restored (hs : Sound r h ∅ H) (hs' : Sound r' h' ∅ H)
    (hk : Kept ∅ h h') (i : ℕ) (a : Counted α) : Live h' i a ↔ Live h i a := by
  have hvals (i : ℕ) (hi : (∃ a, Live h i a) ∨ ∃ a, Live h' i a) : ∃ a a', Live h i a ∧ Live h' i a' ∧ a.val = a'.val := by
    rcases hi with ⟨a,ha⟩ | ⟨a,ha⟩
    · obtain ⟨p,hp,hreach⟩ := hs.reached ha
      exact hk.reached hs hs' hp (.inl hreach)
    · obtain ⟨p,hp,hreach⟩ := hs'.reached ha
      exact hk.reached hs hs' hp (.inr hreach)
  have hheld (j : ℕ) : held h' ∅ j = held h ∅ j := by
    by_cases hj : (∃ a, Live h j a) ∨ ∃ a, Live h' j a
    · obtain ⟨a,a',ha,ha',hv⟩ := hvals j hj
      rw [held_live ha (Finset.notMem_empty j),held_live ha' (Finset.notMem_empty j),hv]
    · rw [not_or] at hj
      rw [held_dead hj.1,held_dead hj.2]
  have hrefs : refs h' ∅ = refs h ∅ := by
    obtain ⟨k,hk⟩ := Nat.exists_eq_add_of_le hk.length
    rw [refs,refs,hk,Finset.sum_range_add]
    simp only [hheld]
    refine add_eq_left.mpr (Finset.sum_eq_zero fun j _ => held_dead fun ⟨a,ha⟩ => ?_)
    exact absurd ha.lt (Nat.not_lt.mpr (Nat.le_add_right _ _))
  have hcount {a a' : Counted α} (ha : Live h i a) (ha' : Live h' i a') (hv : a.val = a'.val) : a = a' := by
    have hn := hs.counted i a ha (Finset.notMem_empty i)
    have hn' := hs'.counted i a' ha' (Finset.notMem_empty i)
    rw [hrefs,← hn] at hn'
    cases a
    cases a'
    simp only at hn' hv
    rw [hn',hv]
  constructor
  · intro ha
    obtain ⟨b,b',hb,hb',hv⟩ := hvals i (.inr ⟨a,ha⟩)
    rwa [ha.unique hb',← hcount hb hb' hv]
  · intro ha
    obtain ⟨b,b',hb,hb',hv⟩ := hvals i (.inl ⟨a,ha⟩)
    rwa [ha.unique hb,hcount hb hb' hv]

end Reach

end RefCount
