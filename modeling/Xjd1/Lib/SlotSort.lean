import Mathlib.Data.List.Basic
import Mathlib.Data.List.Perm.Basic
import Mathlib.Tactic.Linarith

/-! A bottom-up merge sort that keeps runs of doubling length in a fixed number
of slots, with the comparison a C program gives it: negative, zero or positive. -/
namespace SlotSort

variable {α : Type}

/-- `cmp` orders the elements of `P` by a total preorder. -/
structure Ordered (cmp : α → α → Int) (P : α → Prop) : Prop where
  swap : ∀ a b, P a → P b → (cmp a b < 0 ↔ 0 < cmp b a)
  trans : ∀ a b c, P a → P b → P c → cmp a b ≤ 0 → cmp b c ≤ 0 → cmp a c ≤ 0

namespace Ordered

variable {cmp : α → α → Int} {P : α → Prop}

theorem mono (h : Ordered cmp P) {Q : α → Prop} (hQ : ∀ a, Q a → P a) : Ordered cmp Q :=
  ⟨fun a b ha hb => h.swap a b (hQ a ha) (hQ b hb),
    fun a b c ha hb hc => h.trans a b c (hQ a ha) (hQ b hb) (hQ c hc)⟩

/-- Elements that are all equal are in order. -/
theorem of_eq (h : ∀ a b, P a → P b → cmp a b = 0) : Ordered cmp P := by
  refine ⟨fun a b ha hb => ?_,fun a b c ha _ hc _ _ => (h a c ha hc).le⟩
  have h1 := h a b ha hb
  have h2 := h b a hb ha
  omega

theorem eq_comm (h : Ordered cmp P) {a b : α} (ha : P a) (hb : P b) : cmp a b = 0 ↔ cmp b a = 0 := by
  have h1 := h.swap a b ha hb
  have h2 := h.swap b a hb ha
  omega

theorem self (h : Ordered cmp P) {a : α} (ha : P a) : cmp a a = 0 := by
  have h1 := h.swap a a ha ha
  omega

theorem eq_trans (h : Ordered cmp P) {a b c : α} (ha : P a) (hb : P b) (hc : P c)
    (hab : cmp a b = 0) (hbc : cmp b c = 0) : cmp a c = 0 := by
  have h1 := h.trans a b c ha hb hc (by omega) (by omega)
  have hba := (h.eq_comm ha hb).mp hab
  have hcb := (h.eq_comm hb hc).mp hbc
  have h2 := h.trans c b a hc hb ha (by omega) (by omega)
  have h3 := h.swap a c ha hc
  have h4 := h.swap c a hc ha
  omega

/-- Whatever lies between two equal elements is equal to them. -/
theorem between (h : Ordered cmp P) {a b c : α} (ha : P a) (hb : P b) (hc : P c)
    (hab : cmp a b ≤ 0) (hbc : cmp b c ≤ 0) (hac : cmp a c = 0) : cmp a b = 0 ∧ cmp b c = 0 := by
  have hca := (h.eq_comm ha hc).mp hac
  have h1 := h.trans c a b hc ha hb (by omega) hab
  have h2 := h.trans b c a hb hc ha hbc (by omega)
  have h3 := h.swap b c hb hc
  have h4 := h.swap a b ha hb
  have h5 := h.swap c b hc hb
  have h6 := h.swap b a hb ha
  omega

theorem lt_of_lt_of_le (h : Ordered cmp P) {a b c : α} (ha : P a) (hb : P b) (hc : P c)
    (hab : cmp a b < 0) (hbc : cmp b c ≤ 0) : cmp a c < 0 := by
  have h1 := h.trans a b c ha hb hc (by omega) hbc
  by_contra hn
  have hac : cmp a c = 0 := by omega
  have h2 := (h.between ha hb hc (by omega) hbc hac).1
  omega

theorem lt_of_le_of_lt (h : Ordered cmp P) {a b c : α} (ha : P a) (hb : P b) (hc : P c)
    (hab : cmp a b ≤ 0) (hbc : cmp b c < 0) : cmp a c < 0 := by
  have h1 := h.trans a b c ha hb hc hab (by omega)
  by_contra hn
  have hac : cmp a c = 0 := by omega
  have h2 := (h.between ha hb hc hab (by omega) hac).2
  omega

end Ordered

/-- `s` is `l` in ascending order, with elements that tie in the order of `l`. -/
structure StableSort (cmp : α → α → Int) (l s : List α) : Prop where
  perm : s.Perm l
  sorted : s.Pairwise fun a b => cmp a b ≤ 0
  stable : ∀ a ∈ l, s.filter (fun b => cmp a b = 0) = l.filter fun b => cmp a b = 0

section Merge
variable (cmp : α → α → Int)

def mergeFrom (x : α) (xs : List α) (rest : List α → List α) : List α → List α
  | [] => x::xs
  | y::ys => if cmp x y ≤ 0 then x :: rest (y::ys) else y :: mergeFrom x xs rest ys

def merge : List α → List α → List α
  | [], ys => ys
  | x::xs, ys => mergeFrom cmp x xs (merge xs) ys

@[simp] theorem nil_merge (ys : List α) : merge cmp [] ys = ys := rfl

@[simp] theorem merge_nil (xs : List α) : merge cmp xs [] = xs := by cases xs <;> rfl

theorem cons_merge_cons (x y : α) (xs ys : List α) :
    merge cmp (x::xs) (y::ys) =
      if cmp x y ≤ 0 then x :: merge cmp xs (y::ys) else y :: merge cmp (x::xs) ys := rfl

/-- Induction along a merge. -/
theorem merge_induction {motive : List α → List α → Prop} (nil_left : ∀ ys, motive [] ys)
    (nil_right : ∀ x xs, motive (x::xs) [])
    (left : ∀ x xs y ys, cmp x y ≤ 0 → motive xs (y::ys) → motive (x::xs) (y::ys))
    (right : ∀ x xs y ys, ¬ cmp x y ≤ 0 → motive (x::xs) ys → motive (x::xs) (y::ys)) :
    ∀ xs ys, motive xs ys := by
  intro xs
  induction xs with
  | nil => exact nil_left
  | cons x xs ihx =>
    intro ys
    induction ys with
    | nil => exact nil_right x xs
    | cons y ys ihy =>
      by_cases h : cmp x y ≤ 0
      · exact left x xs y ys h (ihx (y::ys))
      · exact right x xs y ys h ihy

theorem merge_perm (xs ys : List α) : (merge cmp xs ys).Perm (xs ++ ys) := by
  induction xs, ys using merge_induction cmp with
  | nil_left ys => exact List.Perm.refl _
  | nil_right x xs => simp
  | left x xs y ys h ih =>
    rw [cons_merge_cons,if_pos h]
    exact ih.cons x
  | right x xs y ys h ih =>
    rw [cons_merge_cons,if_neg h]
    exact (ih.cons y).trans List.perm_middle.symm

variable {cmp}

theorem merge_sorted {P : α → Prop} (hP : Ordered cmp P) (xs ys : List α) (hx : ∀ a ∈ xs, P a)
    (hy : ∀ a ∈ ys, P a) (sx : xs.Pairwise fun a b => cmp a b ≤ 0)
    (sy : ys.Pairwise fun a b => cmp a b ≤ 0) :
    (merge cmp xs ys).Pairwise fun a b => cmp a b ≤ 0 := by
  induction xs, ys using merge_induction cmp with
  | nil_left ys => exact sy
  | nil_right x xs => simpa using sx
  | left x xs y ys h ih =>
    rw [cons_merge_cons,if_pos h]
    rw [List.pairwise_cons] at sx
    refine List.pairwise_cons.mpr ⟨fun b hb => ?_,ih (fun a ha => hx a (by simp [ha])) hy sx.2 sy⟩
    rcases List.mem_append.mp ((merge_perm cmp _ _).mem_iff.mp hb) with hb | hb
    · exact sx.1 b hb
    · rcases List.mem_cons.mp hb with rfl | hb
      · exact h
      · exact hP.trans x y b (hx x (by simp)) (hy y (by simp)) (hy b (by simp [hb])) h
          ((List.pairwise_cons.mp sy).1 b hb)
  | right x xs y ys h ih =>
    rw [cons_merge_cons,if_neg h]
    rw [List.pairwise_cons] at sy
    have hyx : cmp y x ≤ 0 := by
      have h1 := hP.swap y x (hy y (by simp)) (hx x (by simp))
      omega
    refine List.pairwise_cons.mpr ⟨fun b hb => ?_,ih hx (fun a ha => hy a (by simp [ha])) sx sy.2⟩
    rcases List.mem_append.mp ((merge_perm cmp _ _).mem_iff.mp hb) with hb | hb
    · rcases List.mem_cons.mp hb with rfl | hb
      · exact hyx
      · exact hP.trans y x b (hy y (by simp)) (hx x (by simp)) (hx b (by simp [hb])) hyx
          ((List.pairwise_cons.mp sx).1 b hb)
    · exact sy.1 b hb

/-- A merge keeps, for each element, the order of the elements that tie with it. -/
theorem merge_filter {P : α → Prop} (hP : Ordered cmp P) (a : α) (ha : P a) (xs ys : List α)
    (hx : ∀ b ∈ xs, P b) (hy : ∀ b ∈ ys, P b) (sx : xs.Pairwise fun a b => cmp a b ≤ 0) :
    (merge cmp xs ys).filter (fun b => cmp a b = 0) =
      xs.filter (fun b => cmp a b = 0) ++ ys.filter fun b => cmp a b = 0 := by
  induction xs, ys using merge_induction cmp with
  | nil_left ys => simp
  | nil_right x xs => simp
  | left x xs y ys h ih =>
    have ih := ih (fun b hb => hx b (by simp [hb])) hy (List.pairwise_cons.mp sx).2
    rw [cons_merge_cons,if_pos h,List.filter_cons,List.filter_cons,ih]
    split <;> simp
  | right x xs y ys h ih =>
    have ih := ih hx (fun b hb => hy b (by simp [hb])) sx
    rw [cons_merge_cons,if_neg h,List.filter_cons,ih]
    by_cases hay : cmp a y = 0
    · -- an element of the first list that tied with `y` would have come before it
      have hnil : (x::xs).filter (fun b => cmp a b = 0) = [] := by
        rw [List.filter_eq_nil_iff]
        intro b hb hab
        rw [decide_eq_true_eq] at hab
        have hxb : cmp x b ≤ 0 := by
          rcases List.mem_cons.mp hb with rfl | hb'
          · exact le_of_eq (hP.self (hx b hb))
          · exact (List.pairwise_cons.mp sx).1 b hb'
        have hyP := hy y (by simp)
        have hby : cmp b y = 0 := hP.eq_trans (hx b hb) ha hyP ((hP.eq_comm ha (hx b hb)).mp hab) hay
        exact h (hP.trans x b y (hx x (by simp)) (hx b hb) hyP hxb (le_of_eq hby))
      simp [hay,hnil]
    · simp [hay]

end Merge

section Slots
variable (cmp : α → α → Int)

/-- Put a run into the first free slot, merging it with the runs on the way. A
run that finds no free slot has no result. -/
def carry : List α → List (List α) → Option (List (List α))
  | _, [] => none
  | run, []::slots => some (run::slots)
  | run, (x::xs)::slots => (carry (merge cmp run (x::xs)) slots).map fun slots => []::slots

/-- Sort with `k` slots. -/
def slotSort (k : ℕ) (l : List α) : Option (List α) :=
  (l.foldlM (fun slots x => carry cmp [x] slots) (List.replicate k [])).map fun slots =>
    slots.foldl (merge cmp) []

/-- Slot number `i` on is free or holds a run of `2^i` elements. -/
def Sized : ℕ → List (List α) → Prop
  | _, [] => True
  | i, s::slots => (s = [] ∨ s.length = 2^i) ∧ Sized (i+1) slots

theorem Sized.flatten_length {i : ℕ} {slots : List (List α)} (h : Sized i slots) :
    slots.flatten.length + 2^i ≤ 2^(i + slots.length) := by
  induction slots generalizing i with
  | nil => simp
  | cons s slots ih =>
    have ih := ih h.2
    have hs : s.length ≤ 2^i := by
      rcases h.1 with hs | hs
      · simp [hs]
      · exact hs.le
    have he : 2^(i + (s::slots).length) = 2^(i + 1 + slots.length) := by
      rw [List.length_cons]
      congr 1
      omega
    rw [he,List.flatten_cons,List.length_append]
    rw [pow_succ] at ih
    omega

/-- A run is carried exactly when the slots have room for it. -/
theorem carry_isSome {i : ℕ} {run : List α} {slots : List (List α)} (hr : run.length = 2^i)
    (h : Sized i slots) :
    (carry cmp run slots).isSome ↔ slots.flatten.length + 2^i < 2^(i + slots.length) := by
  induction slots generalizing i run with
  | nil => simp [carry]
  | cons s slots ih =>
    have he : 2^(i + (s::slots).length) = 2^(i + 1 + slots.length) := by
      rw [List.length_cons]
      congr 1
      omega
    cases s with
    | nil =>
      have hl := h.2.flatten_length
      have hp : 0 < 2^i := Nat.two_pow_pos i
      rw [pow_succ] at hl
      simp only [carry,Option.isSome_some,he,List.flatten_cons,List.nil_append,true_iff]
      omega
    | cons x xs =>
      have hx : (x::xs).length = 2^i := by
        rcases h.1 with hs | hs
        · cases hs
        · exact hs
      have hm : (merge cmp run (x::xs)).length = 2^(i+1) := by
        rw [(merge_perm cmp _ _).length_eq,List.length_append,hr,hx,pow_succ]
        omega
      have ih := ih hm h.2
      rw [carry,Option.isSome_map,ih,he,List.flatten_cons,List.length_append,hx,pow_succ]
      omega

theorem carry_sized {i : ℕ} {run : List α} {slots slots' : List (List α)} (hr : run.length = 2^i)
    (h : Sized i slots) (hc : carry cmp run slots = some slots') :
    Sized i slots' ∧ slots'.length = slots.length := by
  induction slots generalizing i run slots' with
  | nil => cases hc
  | cons s slots ih =>
    cases s with
    | nil =>
      cases hc
      exact ⟨⟨Or.inr hr,h.2⟩,rfl⟩
    | cons x xs =>
      have hx : (x::xs).length = 2^i := by
        rcases h.1 with hs | hs
        · cases hs
        · exact hs
      have hm : (merge cmp run (x::xs)).length = 2^(i+1) := by
        rw [(merge_perm cmp _ _).length_eq,List.length_append,hr,hx,pow_succ]
        omega
      rw [carry,Option.map_eq_some_iff] at hc
      obtain ⟨t,ht,rfl⟩ := hc
      have h1 := ih hm h.2 ht
      exact ⟨⟨Or.inl rfl,h1.1⟩,by simp [h1.2]⟩

theorem carry_perm {run : List α} {slots slots' : List (List α)} (hc : carry cmp run slots = some slots') :
    slots'.flatten.Perm (run ++ slots.flatten) := by
  induction slots generalizing run slots' with
  | nil => cases hc
  | cons s slots ih =>
    cases s with
    | nil =>
      cases hc
      exact List.Perm.refl _
    | cons x xs =>
      rw [carry,Option.map_eq_some_iff] at hc
      obtain ⟨t,ht,rfl⟩ := hc
      rw [List.flatten_cons,List.nil_append,List.flatten_cons,← List.append_assoc]
      exact (ih ht).trans ((merge_perm cmp _ _).append_right _)

variable {cmp}

theorem carry_sorted {P : α → Prop} (hP : Ordered cmp P) {run : List α} {slots slots' : List (List α)}
    (hr : ∀ a ∈ run, P a) (hs : ∀ s ∈ slots, ∀ a ∈ s, P a) (sr : run.Pairwise fun a b => cmp a b ≤ 0)
    (ss : ∀ s ∈ slots, s.Pairwise fun a b => cmp a b ≤ 0) (hc : carry cmp run slots = some slots') :
    ∀ s ∈ slots', s.Pairwise fun a b => cmp a b ≤ 0 := by
  induction slots generalizing run slots' with
  | nil => cases hc
  | cons s slots ih =>
    have hs' := List.forall_mem_cons.mp hs
    have ss' := List.forall_mem_cons.mp ss
    cases s with
    | nil =>
      cases hc
      exact List.forall_mem_cons.mpr ⟨sr,ss'.2⟩
    | cons x xs =>
      rw [carry,Option.map_eq_some_iff] at hc
      obtain ⟨t,ht,rfl⟩ := hc
      refine List.forall_mem_cons.mpr ⟨List.Pairwise.nil,ih ?_ hs'.2 ?_ ss'.2 ht⟩
      · intro a ha
        rcases List.mem_append.mp ((merge_perm cmp _ _).mem_iff.mp ha) with ha | ha
        · exact hr a ha
        · exact hs'.1 a ha
      · exact merge_sorted hP _ _ hr hs'.1 sr ss'.1

theorem carry_filter {P : α → Prop} (hP : Ordered cmp P) (a : α) (ha : P a) {run : List α}
    {slots slots' : List (List α)} (hr : ∀ a ∈ run, P a) (hs : ∀ s ∈ slots, ∀ a ∈ s, P a)
    (sr : run.Pairwise fun a b => cmp a b ≤ 0) (ss : ∀ s ∈ slots, s.Pairwise fun a b => cmp a b ≤ 0)
    (hc : carry cmp run slots = some slots') :
    slots'.flatten.filter (fun b => cmp a b = 0) =
      (run ++ slots.flatten).filter fun b => cmp a b = 0 := by
  induction slots generalizing run slots' with
  | nil => cases hc
  | cons s slots ih =>
    have hs' := List.forall_mem_cons.mp hs
    have ss' := List.forall_mem_cons.mp ss
    cases s with
    | nil =>
      cases hc
      rfl
    | cons x xs =>
      rw [carry,Option.map_eq_some_iff] at hc
      obtain ⟨t,ht,rfl⟩ := hc
      have hm : ∀ a ∈ merge cmp run (x::xs), P a := by
        intro a ha
        rcases List.mem_append.mp ((merge_perm cmp _ _).mem_iff.mp ha) with ha | ha
        · exact hr a ha
        · exact hs'.1 a ha
      rw [List.flatten_cons,List.nil_append,
        ih hm hs'.2 (merge_sorted hP _ _ hr hs'.1 sr ss'.1) ss'.2 ht,List.filter_append,
        merge_filter hP a ha _ _ hr hs'.1 sr,List.flatten_cons,List.filter_append,List.filter_append,
        List.append_assoc]

def fill (cmp : α → α → Int) (slots : List (List α)) (l : List α) : Option (List (List α)) :=
  l.foldlM (fun slots x => carry cmp [x] slots) slots

theorem fill_cons (slots : List (List α)) (x : α) (l : List α) :
    fill cmp slots (x::l) = (carry cmp [x] slots).bind fun slots => fill cmp slots l := by
  simp only [fill,List.foldlM_cons]
  rfl

theorem fill_isSome (cmp : α → α → Int) {slots : List (List α)} (h : Sized 0 slots) (l : List α) :
    (fill cmp slots l).isSome ↔ slots.flatten.length + l.length < 2^slots.length := by
  induction l generalizing slots with
  | nil =>
    have hl := h.flatten_length
    rw [Nat.zero_add] at hl
    simp only [fill,List.foldlM_nil,List.length_nil,Nat.add_zero]
    exact ⟨fun _ => by omega,fun _ => rfl⟩
  | cons x l ih =>
    have hc := carry_isSome cmp (i := 0) (show [x].length = 2^0 from rfl) h
    rw [Nat.zero_add,pow_zero] at hc
    rw [fill_cons]
    cases hx : carry cmp [x] slots with
    | none =>
      rw [hx] at hc
      simp only [Option.isSome_none,Bool.false_eq_true,false_iff] at hc
      simp only [Option.bind_none,Option.isSome_none,Bool.false_eq_true,false_iff,List.length_cons]
      omega
    | some slots' =>
      have hs := carry_sized cmp (i := 0) rfl h hx
      have hp := (carry_perm cmp hx).length_eq
      rw [List.length_append,List.length_singleton] at hp
      rw [Option.bind_some,ih hs.1,hs.2,hp,List.length_cons]
      omega

theorem sized_replicate (i k : ℕ) : Sized i (List.replicate k ([] : List α)) := by
  induction k generalizing i with
  | zero => exact trivial
  | succ k ih => exact ⟨Or.inl rfl,ih (i+1)⟩

/-- The sort runs out of slots exactly on lists of `2^k` elements and more. -/
theorem slotSort_isSome (cmp : α → α → Int) (k : ℕ) (l : List α) : (slotSort cmp k l).isSome ↔ l.length < 2^k := by
  have h := fill_isSome cmp (sized_replicate 0 k) l
  rw [List.length_replicate] at h
  rw [slotSort,Option.isSome_map,← fill,h]
  simp

/-- What the slots hold once the elements of `done` are in: sorted runs in which
the elements that tie stand in the reverse of the order they came in. -/
structure Filled (cmp : α → α → Int) (P : α → Prop) (done : List α) (slots : List (List α)) : Prop where
  perm : slots.flatten.Perm done.reverse
  sorted : ∀ s ∈ slots, s.Pairwise fun a b => cmp a b ≤ 0
  stable : ∀ a, P a → slots.flatten.filter (fun b => cmp a b = 0) =
    done.reverse.filter fun b => cmp a b = 0

theorem Filled.mem {P : α → Prop} {done : List α} {slots : List (List α)} (h : Filled cmp P done slots)
    (hd : ∀ a ∈ done, P a) : ∀ s ∈ slots, ∀ a ∈ s, P a := by
  intro s hs a ha
  have hm := h.perm.mem_iff.mp (List.mem_flatten.mpr ⟨s,hs,ha⟩)
  exact hd a (List.mem_reverse.mp hm)

theorem fill_filled {P : α → Prop} (hP : Ordered cmp P) {done l : List α} {slots slots' : List (List α)}
    (hd : ∀ a ∈ done, P a) (hl : ∀ a ∈ l, P a) (h : Filled cmp P done slots)
    (hf : fill cmp slots l = some slots') : Filled cmp P (done ++ l) slots' := by
  induction l generalizing done slots with
  | nil =>
    cases hf
    simpa using h
  | cons x l ih =>
    rw [fill_cons,Option.bind_eq_some_iff] at hf
    obtain ⟨t,ht,hf⟩ := hf
    have hl' := List.forall_mem_cons.mp hl
    have hx : ∀ a ∈ [x], P a := by simpa using hl'.1
    have hnext : Filled cmp P (done ++ [x]) t := by
      refine ⟨?_,carry_sorted hP hx (h.mem hd) (List.pairwise_singleton _ _) h.sorted ht,
        fun a ha => ?_⟩
      · rw [List.reverse_append,List.reverse_singleton]
        exact (carry_perm cmp ht).trans (h.perm.append_left [x])
      · rw [carry_filter hP a ha hx (h.mem hd) (List.pairwise_singleton _ _) h.sorted ht,
          List.filter_append,h.stable a ha,List.reverse_append,List.reverse_singleton,
          List.filter_append]
    have hdx : ∀ a ∈ done ++ [x], P a := by
      intro a ha
      rcases List.mem_append.mp ha with ha | ha
      · exact hd a ha
      · exact hx a ha
    have := ih hdx hl'.2 hnext hf
    rwa [List.append_assoc,List.singleton_append] at this

theorem foldl_merge {P : α → Prop} (hP : Ordered cmp P) (slots : List (List α)) (acc : List α)
    (ha : ∀ a ∈ acc, P a) (hs : ∀ s ∈ slots, ∀ a ∈ s, P a)
    (sa : acc.Pairwise fun a b => cmp a b ≤ 0) (ss : ∀ s ∈ slots, s.Pairwise fun a b => cmp a b ≤ 0) :
    (slots.foldl (merge cmp) acc).Perm (acc ++ slots.flatten) ∧
    (slots.foldl (merge cmp) acc).Pairwise (fun a b => cmp a b ≤ 0) ∧
    ∀ a, P a → (slots.foldl (merge cmp) acc).filter (fun b => cmp a b = 0) =
      (acc ++ slots.flatten).filter fun b => cmp a b = 0 := by
  induction slots generalizing acc with
  | nil => simpa using sa
  | cons s slots ih =>
    have hs' := List.forall_mem_cons.mp hs
    have ss' := List.forall_mem_cons.mp ss
    have hm : ∀ a ∈ merge cmp acc s, P a := by
      intro a h
      rcases List.mem_append.mp ((merge_perm cmp _ _).mem_iff.mp h) with h | h
      · exact ha a h
      · exact hs'.1 a h
    obtain ⟨h1,h2,h3⟩ := ih (merge cmp acc s) hm hs'.2 (merge_sorted hP _ _ ha hs'.1 sa ss'.1) ss'.2
    refine ⟨?_,h2,fun a ha' => ?_⟩
    · rw [List.flatten_cons,← List.append_assoc]
      exact h1.trans ((merge_perm cmp _ _).append_right _)
    · rw [List.foldl_cons,h3 a ha',List.filter_append,merge_filter hP a ha' _ _ ha hs'.1 sa,
        List.flatten_cons,List.filter_append,List.filter_append,List.append_assoc]

/-- Within its capacity the sort is the stable sort of the reversed list. -/
theorem slotSort_spec {P : α → Prop} (hP : Ordered cmp P) {k : ℕ} {l : List α} (hl : ∀ a ∈ l, P a)
    (hk : l.length < 2^k) : ∃ s, slotSort cmp k l = some s ∧ StableSort cmp l.reverse s := by
  have hsome := (slotSort_isSome cmp k l).mpr hk
  rw [slotSort,Option.isSome_map,← fill,Option.isSome_iff_exists] at hsome
  obtain ⟨slots,hslots⟩ := hsome
  have hnil : (List.replicate k ([] : List α)).flatten = [] := by simp
  have hempty : Filled cmp P [] (List.replicate k []) := by
    refine ⟨by simp,fun s hs => ?_,fun a _ => by simp⟩
    rw [(List.mem_replicate.mp hs).2]
    exact List.Pairwise.nil
  have hf := fill_filled hP (by simp) hl hempty hslots
  rw [List.nil_append] at hf
  obtain ⟨h1,h2,h3⟩ := foldl_merge hP slots [] (by simp) (hf.mem hl) List.Pairwise.nil hf.sorted
  refine ⟨_,by rw [slotSort,← fill,hslots,Option.map_some],h1.trans hf.perm,h2,fun a ha => ?_⟩
  have hPa := hl a (List.mem_reverse.mp ha)
  rw [h3 a hPa,List.nil_append,hf.stable a hPa]

theorem fill_perm {slots slots' : List (List α)} {l : List α} (h : fill cmp slots l = some slots') :
    slots'.flatten.Perm (l.reverse ++ slots.flatten) := by
  induction l generalizing slots with
  | nil =>
    cases h
    exact List.Perm.refl _
  | cons x l ih =>
    rw [fill_cons,Option.bind_eq_some_iff] at h
    obtain ⟨t,ht,h⟩ := h
    rw [List.reverse_cons,List.append_assoc]
    exact (ih h).trans ((carry_perm cmp ht).append_left _)

/-- Whatever the comparison, nothing is lost or made up. -/
theorem slotSort_perm {k : ℕ} {l s : List α} (h : slotSort cmp k l = some s) : s.Perm l := by
  rw [slotSort,← fill,Option.map_eq_some_iff] at h
  obtain ⟨slots,hslots,rfl⟩ := h
  have hfold : ∀ (slots : List (List α)) acc, (slots.foldl (merge cmp) acc).Perm (acc ++ slots.flatten) := by
    intro slots
    induction slots with
    | nil => intro acc; simp
    | cons s slots ih =>
      intro acc
      rw [List.foldl_cons,List.flatten_cons,← List.append_assoc]
      exact (ih _).trans ((merge_perm cmp _ _).append_right _)
  have hf := fill_perm hslots
  rw [show (List.replicate k ([] : List α)).flatten = [] by simp,List.append_nil] at hf
  exact (hfold slots []).trans (hf.trans (List.reverse_perm l))

section Map
variable {β : Type} (f : β → α)

theorem map_merge (cmp : α → α → Int) (xs ys : List β) : merge cmp (xs.map f) (ys.map f) =
    (merge (fun a b => cmp (f a) (f b)) xs ys).map f := by
  induction xs, ys using merge_induction (fun a b => cmp (f a) (f b)) with
  | nil_left ys => rfl
  | nil_right x xs => rw [merge_nil,List.map_nil,merge_nil]
  | left x xs y ys h ih =>
    rw [List.map_cons,List.map_cons,cons_merge_cons,cons_merge_cons,if_pos h,if_pos h,List.map_cons,← ih,
      List.map_cons]
  | right x xs y ys h ih =>
    rw [List.map_cons,List.map_cons,cons_merge_cons,cons_merge_cons,if_neg h,if_neg h,List.map_cons,← ih,
      List.map_cons]

theorem map_carry (cmp : α → α → Int) (run : List β) (slots : List (List β)) :
    carry cmp (run.map f) (slots.map (List.map f)) =
      (carry (fun a b => cmp (f a) (f b)) run slots).map (List.map (List.map f)) := by
  induction slots generalizing run with
  | nil => rfl
  | cons s slots ih =>
    cases s with
    | nil => rfl
    | cons x xs =>
      have h := map_merge f cmp run (x::xs)
      rw [List.map_cons] at h
      rw [List.map_cons,List.map_cons,carry,carry,h,ih,Option.map_map,Option.map_map]
      rfl

theorem map_slotSort (k : ℕ) (l : List β) : slotSort cmp k (l.map f) =
    (slotSort (fun a b => cmp (f a) (f b)) k l).map (List.map f) := by
  have hfill : ∀ slots : List (List β), fill cmp (slots.map (List.map f)) (l.map f) =
      (fill (fun a b => cmp (f a) (f b)) slots l).map (List.map (List.map f)) := by
    induction l with
    | nil => intro slots; rfl
    | cons x l ih =>
      intro slots
      have h := map_carry f cmp [x] slots
      rw [List.map_singleton] at h
      rw [List.map_cons,fill_cons,fill_cons,h]
      cases carry (fun a b => cmp (f a) (f b)) [x] slots with
      | none => rfl
      | some t => exact ih t
  have hfold : ∀ (slots : List (List β)) acc, (slots.map (List.map f)).foldl (merge cmp) (acc.map f) =
      (slots.foldl (merge fun a b => cmp (f a) (f b)) acc).map f := by
    intro slots
    induction slots with
    | nil => intro acc; rfl
    | cons s slots ih =>
      intro acc
      rw [List.map_cons,List.foldl_cons,map_merge,ih,List.foldl_cons]
  have h := hfill (List.replicate k [])
  rw [List.map_replicate,List.map_nil] at h
  rw [slotSort,slotSort,← fill,← fill,h,Option.map_map,Option.map_map]
  exact congrArg (fun g => Option.map g _) (funext fun slots => hfold slots [])

end Map

/-- The elements of `l` from `prev` on, without those that tie with the last one kept. -/
def uniqFrom (cmp : α → α → Int) (prev : α) : List α → List α
  | [] => [prev]
  | x::l => if cmp prev x = 0 then uniqFrom cmp prev l else prev :: uniqFrom cmp x l

def uniq (cmp : α → α → Int) : List α → List α
  | [] => []
  | x::l => uniqFrom cmp x l

theorem uniqFrom_spec {P : α → Prop} (hP : Ordered cmp P) (x : α) (l : List α) (hx : P x)
    (hl : ∀ a ∈ l, P a) (hs : (x::l).Pairwise fun a b => cmp a b ≤ 0) :
    (uniqFrom cmp x l).Pairwise (fun a b => cmp a b < 0) ∧ (uniqFrom cmp x l).Sublist (x::l) ∧
    (∃ t, uniqFrom cmp x l = x::t) ∧ ∀ a ∈ x::l, ∃ b ∈ uniqFrom cmp x l, cmp a b = 0 := by
  induction l generalizing x with
  | nil => exact ⟨List.pairwise_singleton _ _,List.Sublist.refl _,⟨[],rfl⟩,
      fun a ha => ⟨x,List.mem_singleton_self x,by rw [List.mem_singleton.mp ha]; exact hP.self hx⟩⟩
  | cons y l ih =>
    have hl' := List.forall_mem_cons.mp hl
    have hs' := List.pairwise_cons.mp hs
    rw [uniqFrom]
    split
    · rename_i hxy
      have hsx : (x::l).Pairwise fun a b => cmp a b ≤ 0 :=
        List.pairwise_cons.mpr ⟨fun a ha => hs'.1 a (List.mem_cons_of_mem _ ha),
          (List.pairwise_cons.mp hs'.2).2⟩
      obtain ⟨h1,h2,h3,h4⟩ := ih x hx hl'.2 hsx
      refine ⟨h1,h2.trans (List.Sublist.cons_cons x (List.sublist_cons_self y l)),h3,fun a ha => ?_⟩
      rcases List.mem_cons.mp ha with rfl | ha
      · exact h4 a (by simp)
      · rcases List.mem_cons.mp ha with rfl | ha
        · obtain ⟨t,ht⟩ := h3
          exact ⟨x,by simp [ht],(hP.eq_comm hx hl'.1).mp hxy⟩
        · exact h4 a (List.mem_cons_of_mem _ ha)
    · rename_i hxy
      obtain ⟨h1,h2,h3,h4⟩ := ih y hl'.1 hl'.2 hs'.2
      have hlt : cmp x y < 0 := by
        have := hs'.1 y (by simp)
        omega
      refine ⟨List.pairwise_cons.mpr ⟨fun a ha => ?_,h1⟩,h2.cons_cons x,⟨_,rfl⟩,fun a ha => ?_⟩
      · rcases List.mem_cons.mp (h2.subset ha) with rfl | ha
        · exact hlt
        · exact hP.lt_of_lt_of_le hx hl'.1 (hl'.2 a ha) hlt ((List.pairwise_cons.mp hs'.2).1 a ha)
      · rcases List.mem_cons.mp ha with rfl | ha
        · exact ⟨a,by simp,hP.self hx⟩
        · obtain ⟨b,hb,hab⟩ := h4 a ha
          exact ⟨b,List.mem_cons_of_mem _ hb,hab⟩

/-- On a sorted list, `uniq` keeps one element of each class of elements that tie. -/
theorem uniq_spec {P : α → Prop} (hP : Ordered cmp P) (l : List α) (hl : ∀ a ∈ l, P a)
    (hs : l.Pairwise fun a b => cmp a b ≤ 0) :
    (uniq cmp l).Pairwise (fun a b => cmp a b < 0) ∧ (uniq cmp l).Sublist l ∧
    ∀ a ∈ l, ∃ b ∈ uniq cmp l, cmp a b = 0 := by
  cases l with
  | nil => exact ⟨List.Pairwise.nil,List.Sublist.refl _,by simp⟩
  | cons x l =>
    have hl' := List.forall_mem_cons.mp hl
    have h := uniqFrom_spec hP x l hl'.1 hl'.2 hs
    exact ⟨h.1,h.2.1,h.2.2.2⟩

/-- `u` has, of each class of elements of `s` that tie, the first one, in strictly ascending order. -/
structure FirstOfEach (cmp : α → α → Int) (s u : List α) : Prop where
  ascending : u.Pairwise fun a b => cmp a b < 0
  sublist : u.Sublist s
  first : ∀ a ∈ s, u.filter (fun b => cmp a b = 0) = (s.filter fun b => cmp a b = 0).take 1

theorem uniqFrom_first {P : α → Prop} (hP : Ordered cmp P) {a : α} (ha : P a) (x : α) (l : List α) (hx : P x)
    (hl : ∀ b ∈ l, P b) (hs : (x::l).Pairwise fun a b => cmp a b ≤ 0) :
    (uniqFrom cmp x l).filter (fun b => cmp a b = 0) = ((x::l).filter fun b => cmp a b = 0).take 1 := by
  induction l generalizing x with
  | nil => rw [uniqFrom,List.take_of_length_le ((List.length_filter_le _ _).trans (Nat.le_refl 1))]
  | cons y l ih =>
    have hl' := List.forall_mem_cons.mp hl
    have hs' := List.pairwise_cons.mp hs
    rw [uniqFrom]
    split
    · rename_i hxy
      have hsx : (x::l).Pairwise fun a b => cmp a b ≤ 0 :=
        List.pairwise_cons.mpr ⟨fun b hb => hs'.1 b (List.mem_cons_of_mem _ hb),(List.pairwise_cons.mp hs'.2).2⟩
      rw [ih x hx hl'.2 hsx]
      by_cases hax : cmp a x = 0
      · rw [List.filter_cons_of_pos (by simpa using hax),List.filter_cons_of_pos (by simpa using hax)]
        rfl
      · have hay : ¬ cmp a y = 0 := fun hay =>
          hax (hP.eq_trans ha hl'.1 hx hay ((hP.eq_comm hx hl'.1).mp hxy))
        rw [List.filter_cons_of_neg (by simpa using hax),List.filter_cons_of_neg (by simpa using hax),
          List.filter_cons_of_neg (by simpa using hay)]
    · rename_i hxy
      have hlt : cmp x y < 0 := by
        have h := hs'.1 y List.mem_cons_self
        omega
      by_cases hax : cmp a x = 0
      · -- nothing behind `x` ties with `a`
        have hnil : (y::l).filter (fun b => cmp a b = 0) = [] := by
          refine List.filter_eq_nil_iff.mpr fun b hb hab => ?_
          have hxb := hP.eq_trans hx ha (hl b hb) ((hP.eq_comm ha hx).mp hax) (of_decide_eq_true hab)
          rcases List.mem_cons.mp hb with rfl | hb'
          · exact hxy hxb
          · have h := hP.lt_of_lt_of_le hx hl'.1 (hl b hb) hlt ((List.pairwise_cons.mp hs'.2).1 b hb')
            omega
        rw [List.filter_cons_of_pos (a := x) (by simpa using hax),ih y hl'.1 hl'.2 hs'.2,hnil,
          List.filter_cons_of_pos (a := x) (by simpa using hax)]
        rfl
      · rw [List.filter_cons_of_neg (a := x) (by simpa using hax),ih y hl'.1 hl'.2 hs'.2,
          List.filter_cons_of_neg (a := x) (by simpa using hax)]

/-- On a sorted list, `uniq` keeps the first element of each class of elements that tie. -/
theorem uniq_firstOfEach {P : α → Prop} (hP : Ordered cmp P) {l : List α} (hl : ∀ a ∈ l, P a)
    (hs : l.Pairwise fun a b => cmp a b ≤ 0) : FirstOfEach cmp l (uniq cmp l) := by
  obtain ⟨h1,h2,_⟩ := uniq_spec hP l hl hs
  refine ⟨h1,h2,fun a ha => ?_⟩
  cases l with
  | nil => rfl
  | cons x l =>
    have hl' := List.forall_mem_cons.mp hl
    exact uniqFrom_first hP (hl a ha) x l hl'.1 hl'.2 hs

theorem map_uniqFrom {β : Type} (f : β → α) (x : β) (l : List β) :
    uniqFrom cmp (f x) (l.map f) = (uniqFrom (fun a b => cmp (f a) (f b)) x l).map f := by
  induction l generalizing x with
  | nil => rfl
  | cons y l ih =>
    rw [List.map_cons,uniqFrom,uniqFrom]
    split
    · exact ih x
    · rw [ih y,List.map_cons]

theorem map_uniq {β : Type} (f : β → α) (l : List β) :
    uniq cmp (l.map f) = (uniq (fun a b => cmp (f a) (f b)) l).map f := by
  cases l with
  | nil => rfl
  | cons x l => exact map_uniqFrom f x l

theorem uniqFrom_ne_nil (x : α) (l : List α) : uniqFrom cmp x l ≠ [] := by
  induction l generalizing x with
  | nil => exact List.cons_ne_nil _ _
  | cons y l ih =>
    rw [uniqFrom]
    split
    · exact ih x
    · exact List.cons_ne_nil _ _

theorem uniq_ne_nil {l : List α} (h : l ≠ []) : uniq cmp l ≠ [] := by
  cases l with
  | nil => exact absurd rfl h
  | cons x l => exact uniqFrom_ne_nil x l

theorem uniq_subset (l : List α) : ∀ a ∈ uniq cmp l, a ∈ l := by
  have h : ∀ (l : List α) (x a : α), a ∈ uniqFrom cmp x l → a ∈ x::l := by
    intro l
    induction l with
    | nil => exact fun x a ha => ha
    | cons y l ih =>
      intro x a ha
      rw [uniqFrom] at ha
      split at ha
      · exact (List.mem_cons.mp (ih x a ha)).elim (fun h => h ▸ List.mem_cons_self)
          fun h => List.mem_cons_of_mem x (List.mem_cons_of_mem y h)
      · exact (List.mem_cons.mp ha).elim (fun h => h ▸ List.mem_cons_self)
          fun h => List.mem_cons_of_mem x (ih y a h)
  cases l with
  | nil => exact nofun
  | cons x l => exact h l x

theorem uniq_eq_nil {l : List α} : uniq cmp l = [] ↔ l = [] := by
  cases l with
  | nil => simp [uniq]
  | cons x l =>
    have h : ∀ l : List α, uniqFrom cmp x l ≠ [] := by
      intro l
      induction l with
      | nil => simp [uniqFrom]
      | cons y l ih =>
        rw [uniqFrom]
        split
        · exact ih
        · simp
    simp [uniq,h]

def ascends (cmp : α → α → Int) (c : Int) : List α → Bool
  | x::y::l => cmp x y ≤ c && ascends cmp c (y::l)
  | _ => true

theorem map_ascends {β : Type} (f : β → α) (c : Int) (l : List β) :
    ascends cmp c (l.map f) = ascends (fun a b => cmp (f a) (f b)) c l := by
  induction l with
  | nil => rfl
  | cons x l ih =>
    cases l with
    | nil => rfl
    | cons y l =>
      rw [List.map_cons,List.map_cons,ascends,ascends,← ih,List.map_cons]

theorem ascends_of_pairwise {c : Int} {l : List α} (h : l.Pairwise fun a b => cmp a b ≤ c) :
    ascends cmp c l = true := by
  induction l with
  | nil => rfl
  | cons x l ih =>
    cases l with
    | nil => rfl
    | cons y l =>
      have h' := List.pairwise_cons.mp h
      simp only [ascends,Bool.and_eq_true,decide_eq_true_eq]
      exact ⟨h'.1 y (by simp),ih h'.2⟩

end Slots

end SlotSort
