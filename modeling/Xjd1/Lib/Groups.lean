import Mathlib.Data.List.SplitBy
import Xjd1.Lib.SlotSort

/-! Groups of equal elements: how a list falls into classes, and the runs of a sorted list. -/
namespace SlotSort

variable {α : Type}

/-- `gs` are the classes of equal elements of `l`, in strictly ascending order. -/
structure IsGrouping (cmp : α → α → Int) (l : List α) (gs : List (List α)) : Prop where
  perm : gs.flatten.Perm l
  ne_nil : ∀ g ∈ gs, g ≠ []
  eq : ∀ g ∈ gs, ∀ a ∈ g, ∀ b ∈ g, cmp a b = 0
  lt : gs.Pairwise fun g h => ∀ a ∈ g, ∀ b ∈ h, cmp a b < 0

def runs (cmp : α → α → Int) (l : List α) : List (List α) := l.splitBy fun a b => cmp a b = 0

structure IsRun (cmp : α → α → Int) (g rest : List α) : Prop where
  ne_nil : g ≠ []
  chain : g.IsChain fun a b => cmp a b = 0
  ends : ∀ a ∈ g.getLast?, ∀ b ∈ rest.head?, cmp a b ≠ 0

variable {cmp : α → α → Int}

theorem IsRun.tail {a b : α} {g rest : List α} (h : IsRun cmp (a::b::g) rest) : IsRun cmp (b::g) rest :=
  ⟨List.cons_ne_nil _ _,h.chain.tail,by simpa using h.ends⟩

theorem runs_eq_cons {l g : List α} {gs : List (List α)} (h : runs cmp l = g::gs) :
    l = g ++ gs.flatten ∧ IsRun cmp g gs.flatten ∧ runs cmp gs.flatten = gs := by
  rw [runs,List.splitBy_eq_iff] at h
  obtain ⟨hl,hn,hc,hd⟩ := h
  have hgs : runs cmp gs.flatten = gs := by
    rw [runs,List.splitBy_eq_iff]
    exact ⟨rfl,fun hm => hn (List.mem_cons_of_mem _ hm),fun m hm => hc m (List.mem_cons_of_mem _ hm),hd.tail⟩
  refine ⟨hl,⟨fun hg => hn (hg ▸ List.mem_cons_self),?_,?_⟩,hgs⟩
  · simpa using hc g List.mem_cons_self
  · intro a ha b hb
    cases gs with
    | nil => cases hb
    | cons g' gs =>
      rw [List.isChain_cons_cons] at hd
      obtain ⟨⟨h1,h2,hr⟩,_⟩ := hd
      rw [List.getLast?_eq_some_getLast h1,Option.mem_some_iff] at ha
      rw [List.flatten_cons,List.head?_append_of_ne_nil _ h2,List.head?_eq_some_head h2,Option.mem_some_iff] at hb
      subst ha hb
      simpa using hr

theorem runs_eq_nil {l : List α} : runs cmp l = [] ↔ l = [] := List.splitBy_eq_nil

section Sorted
variable {P : α → Prop} (hP : Ordered cmp P)
include hP

theorem chain_head {a : α} {g : List α} (hg : ∀ b ∈ a::g, P b) (h : (a::g).IsChain fun a b => cmp a b = 0) :
    ∀ b ∈ a::g, cmp a b = 0 := by
  induction g generalizing a with
  | nil =>
    intro b hb
    rw [List.mem_singleton.mp hb]
    exact hP.self (hg a List.mem_cons_self)
  | cons c g ih =>
    rw [List.isChain_cons_cons] at h
    have ha := hg a List.mem_cons_self
    have hc := hg c (List.mem_cons_of_mem _ List.mem_cons_self)
    intro b hb
    rcases List.mem_cons.mp hb with rfl | hb
    · exact hP.self ha
    · exact hP.eq_trans ha hc (hg b (List.mem_cons_of_mem _ hb)) h.1
        (ih (fun b hb => hg b (List.mem_cons_of_mem _ hb)) h.2 b hb)

theorem chain_eq {g : List α} (hg : ∀ b ∈ g, P b) (h : g.IsChain fun a b => cmp a b = 0) :
    ∀ a ∈ g, ∀ b ∈ g, cmp a b = 0 := by
  cases g with
  | nil => exact nofun
  | cons c g =>
    intro a ha b hb
    have hc := hg c List.mem_cons_self
    have hca := chain_head hP hg h a ha
    exact hP.eq_trans (hg a ha) hc (hg b hb) ((hP.eq_comm hc (hg a ha)).mp hca) (chain_head hP hg h b hb)

theorem run_lt {g rest : List α} (hl : ∀ a ∈ g ++ rest, P a) (hs : (g ++ rest).Pairwise fun a b => cmp a b ≤ 0)
    (hr : IsRun cmp g rest) : ∀ a ∈ g, ∀ b ∈ rest, cmp a b < 0 := by
  intro a ha b hb
  have hg : ∀ a ∈ g, P a := fun a ha => hl a (List.mem_append_left _ ha)
  have hrest : ∀ b ∈ rest, P b := fun b hb => hl b (List.mem_append_right _ hb)
  rw [List.pairwise_append] at hs
  have hab := hs.2.2 a ha b hb
  by_contra hlt
  cases rest with
  | nil => cases hb
  | cons c rest =>
    have hlast := List.getLast_mem hr.ne_nil
    have hne := hr.ends _ (List.getLast?_eq_some_getLast hr.ne_nil) c rfl
    have hc := hrest c List.mem_cons_self
    have hac := hs.2.2 a ha c List.mem_cons_self
    have hcb : cmp c b ≤ 0 := by
      rcases List.mem_cons.mp hb with rfl | hb'
      · exact (hP.self hc).le
      · exact (List.pairwise_cons.mp hs.2.1).1 b hb'
    have hac0 := (hP.between (hg a ha) hc (hrest b hb) hac hcb (by omega)).1
    have hal := chain_eq hP hg hr.chain _ hlast a ha
    exact hne (hP.eq_trans (hg _ hlast) (hg a ha) hc hal hac0)

theorem runs_grouping {l : List α} (hl : ∀ a ∈ l, P a) (hs : l.Pairwise fun a b => cmp a b ≤ 0) :
    IsGrouping cmp l (runs cmp l) := by
  generalize hgs : runs cmp l = gs
  induction gs generalizing l with
  | nil =>
    rw [runs_eq_nil] at hgs
    subst hgs
    exact ⟨List.Perm.refl _,nofun,nofun,List.Pairwise.nil⟩
  | cons g gs ih =>
    obtain ⟨rfl,hr,hgs⟩ := runs_eq_cons hgs
    have hg : ∀ a ∈ g, P a := fun a ha => hl a (List.mem_append_left _ ha)
    have h := ih (fun a ha => hl a (List.mem_append_right _ ha)) (List.pairwise_append.mp hs).2.1 hgs
    refine ⟨by simp,fun m hm => ?_,fun m hm => ?_,List.pairwise_cons.mpr ⟨fun m hm a ha b hb => ?_,h.lt⟩⟩
    · rcases List.mem_cons.mp hm with rfl | hm
      · exact hr.ne_nil
      · exact h.ne_nil m hm
    · rcases List.mem_cons.mp hm with rfl | hm
      · exact chain_eq hP hg hr.chain
      · exact h.eq m hm
    · exact run_lt hP hl hs hr a ha b (List.mem_flatten.mpr ⟨m,hm,hb⟩)

theorem StableSort.unique {l s t : List α} (hl : ∀ a ∈ l, P a) (h : StableSort cmp l s) (h' : StableSort cmp l t) :
    s = t := by
  have hst := h.perm.trans h'.perm.symm
  have hs : ∀ a ∈ s, P a := fun a ha => hl a (h.perm.mem_iff.mp ha)
  have hf : ∀ a ∈ s, s.filter (fun b => cmp a b = 0) = t.filter fun b => cmp a b = 0 := fun a ha =>
    (h.stable a (h.perm.mem_iff.mp ha)).trans (h'.stable a (h.perm.mem_iff.mp ha)).symm
  have hs1 := h.sorted
  have ht1 := h'.sorted
  clear h h' hl
  induction s generalizing t with
  | nil => exact hst.nil_eq
  | cons a s ih =>
    cases t with
    | nil => exact absurd hst.symm.nil_eq nofun
    | cons b t =>
      have ha := hs a List.mem_cons_self
      have hbs : b ∈ a::s := hst.mem_iff.mpr List.mem_cons_self
      have hat : a ∈ b::t := hst.mem_iff.mp List.mem_cons_self
      have hb := hs b hbs
      have hab : cmp a b ≤ 0 := by
        rcases List.mem_cons.mp hbs with rfl | hbs
        · exact (hP.self ha).le
        · exact (List.pairwise_cons.mp hs1).1 b hbs
      have hba : cmp b a ≤ 0 := by
        rcases List.mem_cons.mp hat with rfl | hat
        · exact (hP.self ha).le
        · exact (List.pairwise_cons.mp ht1).1 a hat
      have h0 : cmp a b = 0 := by
        have h1 := hP.swap a b ha hb
        omega
      have hfa := hf a List.mem_cons_self
      rw [List.filter_cons_of_pos (by simpa using hP.self ha),List.filter_cons_of_pos (by simpa using h0)] at hfa
      obtain ⟨rfl,_⟩ := List.cons.inj hfa
      refine congrArg (List.cons a) (ih (List.perm_cons a |>.mp hst) (fun c hc => hs c (List.mem_cons_of_mem _ hc)) ?_
        hs1.of_cons ht1.of_cons)
      intro c hc
      have hfc := hf c (List.mem_cons_of_mem _ hc)
      rw [List.filter_cons,List.filter_cons] at hfc
      split at hfc
      · exact (List.cons.inj hfc).2
      · exact hfc

end Sorted
end SlotSort
