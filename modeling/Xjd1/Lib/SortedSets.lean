import Xjd1.Lib.SlotSort

/-! Sets kept as strictly ascending lists, compared by a function that may take
different elements for equal: union, intersection and difference by one pass
over both lists. -/
namespace SortedSets

open SlotSort

variable {α : Type} (cmp : α → α → Int)

def Ascending (l : List α) : Prop := l.Pairwise fun a b => cmp a b < 0

def union : List α → List α → List α
  | [], ys => ys
  | x::xs, [] => x::xs
  | x::xs, y::ys =>
    if cmp x y < 0 then x :: union xs (y::ys)
    else if cmp x y = 0 then y :: union xs ys
    else y :: union (x::xs) ys
termination_by xs ys => xs.length + ys.length

def inter : List α → List α → List α
  | [], _ => []
  | _::_, [] => []
  | x::xs, y::ys =>
    if cmp x y = 0 then x :: inter xs ys
    else if cmp x y < 0 then inter xs (y::ys)
    else inter (x::xs) ys
termination_by xs ys => xs.length + ys.length

def diff : List α → List α → List α
  | [], _ => []
  | x::xs, [] => x::xs
  | x::xs, y::ys =>
    if cmp x y < 0 then x :: diff xs (y::ys)
    else if cmp x y = 0 then diff xs (y::ys)
    else diff (x::xs) ys
termination_by xs ys => xs.length + ys.length

variable {cmp} {P : α → Prop}

theorem Ascending.head_lt {x : α} {xs : List α} (h : Ascending cmp (x::xs)) : ∀ a ∈ xs, cmp x a < 0 :=
  (List.pairwise_cons.mp h).1

theorem Ascending.tail {x : α} {xs : List α} (h : Ascending cmp (x::xs)) : Ascending cmp xs :=
  (List.pairwise_cons.mp h).2

theorem Ascending.head_le (hP : Ordered cmp P) {x : α} {xs : List α} (h : Ascending cmp (x::xs))
    (hx : P x) : ∀ a ∈ x::xs, cmp x a ≤ 0 := by
  intro a ha
  rcases List.mem_cons.mp ha with rfl | ha
  · exact (hP.self hx).le
  · exact (h.head_lt a ha).le

theorem mem_union {xs ys : List α} {a : α} (h : a ∈ union cmp xs ys) : a ∈ xs ∨ a ∈ ys := by
  induction xs, ys using union.induct cmp with
  | case1 ys => rw [union] at h; exact .inr h
  | case2 x xs => rw [union] at h; exact .inl h
  | case3 x xs y ys hlt ih =>
    rw [union,if_pos hlt] at h
    rcases List.mem_cons.mp h with rfl | h
    · exact .inl List.mem_cons_self
    · exact (ih h).imp_left (List.mem_cons_of_mem x)
  | case4 x xs y ys hlt heq ih =>
    rw [union,if_neg hlt,if_pos heq] at h
    rcases List.mem_cons.mp h with rfl | h
    · exact .inr List.mem_cons_self
    · exact (ih h).imp (List.mem_cons_of_mem x) (List.mem_cons_of_mem y)
  | case5 x xs y ys hlt heq ih =>
    rw [union,if_neg hlt,if_neg heq] at h
    rcases List.mem_cons.mp h with rfl | h
    · exact .inr List.mem_cons_self
    · exact (ih h).imp_right (List.mem_cons_of_mem y)

theorem union_of_mem_right {xs ys : List α} {a : α} (h : a ∈ ys) : a ∈ union cmp xs ys := by
  induction xs, ys using union.induct cmp with
  | case1 ys => rwa [union]
  | case2 x xs => cases h
  | case3 x xs y ys hlt ih =>
    rw [union,if_pos hlt]
    exact List.mem_cons_of_mem x (ih h)
  | case4 x xs y ys hlt heq ih =>
    rw [union,if_neg hlt,if_pos heq]
    exact List.mem_cons.mpr ((List.mem_cons.mp h).imp_right ih)
  | case5 x xs y ys hlt heq ih =>
    rw [union,if_neg hlt,if_neg heq]
    exact List.mem_cons.mpr ((List.mem_cons.mp h).imp_right ih)

theorem union_of_mem_left (hP : Ordered cmp P) {xs ys : List α} (hx : ∀ a ∈ xs, P a) {a : α} (h : a ∈ xs) :
    ∃ b ∈ union cmp xs ys, cmp a b = 0 := by
  induction xs, ys using union.induct cmp with
  | case1 ys => cases h
  | case2 x xs =>
    rw [union]
    exact ⟨a,h,hP.self (hx a h)⟩
  | case3 x xs y ys hlt ih =>
    rw [union,if_pos hlt]
    rcases List.mem_cons.mp h with rfl | h
    · exact ⟨a,List.mem_cons_self,hP.self (hx a List.mem_cons_self)⟩
    · obtain ⟨b,hb,hab⟩ := ih (fun a ha => hx a (List.mem_cons_of_mem x ha)) h
      exact ⟨b,List.mem_cons_of_mem x hb,hab⟩
  | case4 x xs y ys hlt heq ih =>
    rw [union,if_neg hlt,if_pos heq]
    rcases List.mem_cons.mp h with rfl | h
    · exact ⟨y,List.mem_cons_self,heq⟩
    · obtain ⟨b,hb,hab⟩ := ih (fun a ha => hx a (List.mem_cons_of_mem x ha)) h
      exact ⟨b,List.mem_cons_of_mem y hb,hab⟩
  | case5 x xs y ys hlt heq ih =>
    rw [union,if_neg hlt,if_neg heq]
    obtain ⟨b,hb,hab⟩ := ih hx h
    exact ⟨b,List.mem_cons_of_mem y hb,hab⟩

theorem union_ascending (hP : Ordered cmp P) {xs ys : List α} (hx : ∀ a ∈ xs, P a) (hy : ∀ a ∈ ys, P a)
    (hxs : Ascending cmp xs) (hys : Ascending cmp ys) : Ascending cmp (union cmp xs ys) := by
  induction xs, ys using union.induct cmp with
  | case1 ys => rwa [union]
  | case2 x xs => rwa [union]
  | case3 x xs y ys hlt ih =>
    rw [union,if_pos hlt]
    have hx' := fun a ha => hx a (List.mem_cons_of_mem x ha)
    have hPx := hx x List.mem_cons_self
    have hPy := hy y List.mem_cons_self
    refine List.pairwise_cons.mpr ⟨fun a ha => ?_,ih hx' hy hxs.tail hys⟩
    rcases mem_union ha with ha | ha
    · exact hxs.head_lt a ha
    · exact hP.lt_of_lt_of_le hPx hPy (hy a ha) hlt (hys.head_le hP hPy a ha)
  | case4 x xs y ys hlt heq ih =>
    rw [union,if_neg hlt,if_pos heq]
    have hx' := fun a ha => hx a (List.mem_cons_of_mem x ha)
    have hy' := fun a ha => hy a (List.mem_cons_of_mem y ha)
    have hPx := hx x List.mem_cons_self
    have hPy := hy y List.mem_cons_self
    refine List.pairwise_cons.mpr ⟨fun a ha => ?_,ih hx' hy' hxs.tail hys.tail⟩
    rcases mem_union ha with ha | ha
    · exact hP.lt_of_le_of_lt hPy hPx (hx' a ha) ((hP.eq_comm hPx hPy).mp heq).le (hxs.head_lt a ha)
    · exact hys.head_lt a ha
  | case5 x xs y ys hlt heq ih =>
    rw [union,if_neg hlt,if_neg heq]
    have hy' := fun a ha => hy a (List.mem_cons_of_mem y ha)
    have hPx := hx x List.mem_cons_self
    have hPy := hy y List.mem_cons_self
    have hyx : cmp y x < 0 := (hP.swap y x hPy hPx).mpr (by omega)
    refine List.pairwise_cons.mpr ⟨fun a ha => ?_,ih hx hy' hxs hys.tail⟩
    rcases mem_union ha with ha | ha
    · exact hP.lt_of_lt_of_le hPy hPx (hx a ha) hyx (hxs.head_le hP hPx a ha)
    · exact hys.head_lt a ha

theorem inter_sublist (xs ys : List α) : (inter cmp xs ys).Sublist xs := by
  induction xs, ys using inter.induct cmp with
  | case1 ys => rw [inter]
  | case2 x xs => rw [inter]; exact List.nil_sublist _
  | case3 x xs y ys heq ih => rw [inter,if_pos heq]; exact ih.cons_cons x
  | case4 x xs y ys heq hlt ih => rw [inter,if_neg heq,if_pos hlt]; exact ih.cons x
  | case5 x xs y ys heq hlt ih => rw [inter,if_neg heq,if_neg hlt]; exact ih

theorem mem_inter (hP : Ordered cmp P) {xs ys : List α} (hx : ∀ a ∈ xs, P a) (hy : ∀ a ∈ ys, P a)
    (hxs : Ascending cmp xs) (hys : Ascending cmp ys) {a : α} :
    a ∈ inter cmp xs ys ↔ a ∈ xs ∧ ∃ b ∈ ys, cmp a b = 0 := by
  induction xs, ys using inter.induct cmp with
  | case1 ys => rw [inter]; simp
  | case2 x xs => rw [inter]; simp
  | case3 x xs y ys heq ih =>
    have hx' := fun a ha => hx a (List.mem_cons_of_mem x ha)
    have hy' := fun a ha => hy a (List.mem_cons_of_mem y ha)
    have hPx := hx x List.mem_cons_self
    have hPy := hy y List.mem_cons_self
    rw [inter,if_pos heq,List.mem_cons,ih hx' hy' hxs.tail hys.tail,List.mem_cons]
    constructor
    · rintro (rfl | ⟨ha,b,hb,hab⟩)
      · exact ⟨.inl rfl,y,List.mem_cons_self,heq⟩
      · exact ⟨.inr ha,b,List.mem_cons_of_mem y hb,hab⟩
    · rintro ⟨rfl | ha,b,hb,hab⟩
      · exact .inl rfl
      · rcases List.mem_cons.mp hb with rfl | hb
        · have hlt := hP.lt_of_lt_of_le hPx (hx' a ha) hPy (hxs.head_lt a ha) hab.le
          omega
        · exact .inr ⟨ha,b,hb,hab⟩
  | case4 x xs y ys heq hlt ih =>
    have hx' := fun a ha => hx a (List.mem_cons_of_mem x ha)
    have hPx := hx x List.mem_cons_self
    have hPy := hy y List.mem_cons_self
    rw [inter,if_neg heq,if_pos hlt,ih hx' hy hxs.tail hys,List.mem_cons]
    refine ⟨fun ⟨ha,h⟩ => ⟨.inr ha,h⟩,?_⟩
    rintro ⟨rfl | ha,b,hb,hab⟩
    · have hlt' := hP.lt_of_lt_of_le hPx hPy (hy b hb) hlt (hys.head_le hP hPy b hb)
      omega
    · exact ⟨ha,b,hb,hab⟩
  | case5 x xs y ys heq hlt ih =>
    have hy' := fun a ha => hy a (List.mem_cons_of_mem y ha)
    have hPx := hx x List.mem_cons_self
    have hPy := hy y List.mem_cons_self
    have hyx : cmp y x < 0 := (hP.swap y x hPy hPx).mpr (by omega)
    rw [inter,if_neg heq,if_neg hlt,ih hx hy' hxs hys.tail]
    refine ⟨fun ⟨ha,b,hb,hab⟩ => ⟨ha,b,List.mem_cons_of_mem y hb,hab⟩,?_⟩
    rintro ⟨ha,b,hb,hab⟩
    rcases List.mem_cons.mp hb with rfl | hb
    · have hlt' := hP.lt_of_lt_of_le hPy hPx (hx a ha) hyx (hxs.head_le hP hPx a ha)
      have h0 := (hP.eq_comm (hx a ha) hPy).mp hab
      omega
    · exact ⟨ha,b,hb,hab⟩

theorem diff_sublist (xs ys : List α) : (diff cmp xs ys).Sublist xs := by
  induction xs, ys using diff.induct cmp with
  | case1 ys => rw [diff]
  | case2 x xs => rw [diff]
  | case3 x xs y ys hlt ih => rw [diff,if_pos hlt]; exact ih.cons_cons x
  | case4 x xs y ys hlt heq ih => rw [diff,if_neg hlt,if_pos heq]; exact ih.cons x
  | case5 x xs y ys hlt heq ih => rw [diff,if_neg hlt,if_neg heq]; exact ih

theorem mem_diff (hP : Ordered cmp P) {xs ys : List α} (hx : ∀ a ∈ xs, P a) (hy : ∀ a ∈ ys, P a)
    (hxs : Ascending cmp xs) (hys : Ascending cmp ys) {a : α} :
    a ∈ diff cmp xs ys ↔ a ∈ xs ∧ ∀ b ∈ ys, cmp a b ≠ 0 := by
  induction xs, ys using diff.induct cmp with
  | case1 ys => rw [diff]; simp
  | case2 x xs => rw [diff]; simp
  | case3 x xs y ys hlt ih =>
    have hx' := fun a ha => hx a (List.mem_cons_of_mem x ha)
    have hPx := hx x List.mem_cons_self
    have hPy := hy y List.mem_cons_self
    rw [diff,if_pos hlt,List.mem_cons,ih hx' hy hxs.tail hys,List.mem_cons]
    constructor
    · rintro (rfl | ⟨ha,h⟩)
      · refine ⟨.inl rfl,fun b hb h0 => ?_⟩
        have hlt' := hP.lt_of_lt_of_le hPx hPy (hy b hb) hlt (hys.head_le hP hPy b hb)
        omega
      · exact ⟨.inr ha,h⟩
    · rintro ⟨rfl | ha,h⟩
      · exact .inl rfl
      · exact .inr ⟨ha,h⟩
  | case4 x xs y ys hlt heq ih =>
    have hx' := fun a ha => hx a (List.mem_cons_of_mem x ha)
    rw [diff,if_neg hlt,if_pos heq,ih hx' hy hxs.tail hys,List.mem_cons]
    refine ⟨fun ⟨ha,h⟩ => ⟨.inr ha,h⟩,?_⟩
    rintro ⟨rfl | ha,h⟩
    · exact absurd heq (h y List.mem_cons_self)
    · exact ⟨ha,h⟩
  | case5 x xs y ys hlt heq ih =>
    have hy' := fun a ha => hy a (List.mem_cons_of_mem y ha)
    have hPx := hx x List.mem_cons_self
    have hPy := hy y List.mem_cons_self
    have hyx : cmp y x < 0 := (hP.swap y x hPy hPx).mpr (by omega)
    rw [diff,if_neg hlt,if_neg heq,ih hx hy' hxs hys.tail]
    refine ⟨fun ⟨ha,h⟩ => ⟨ha,fun b hb => ?_⟩,fun ⟨ha,h⟩ => ⟨ha,fun b hb => h b (List.mem_cons_of_mem y hb)⟩⟩
    rcases List.mem_cons.mp hb with rfl | hb
    · intro h0
      have hlt' := hP.lt_of_lt_of_le hPy hPx (hx a ha) hyx (hxs.head_le hP hPx a ha)
      have h1 := (hP.eq_comm (hx a ha) hPy).mp h0
      omega
    · exact h b hb

end SortedSets
