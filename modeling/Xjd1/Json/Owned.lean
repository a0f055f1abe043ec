import Xjd1.Json.Store

/-! Values on nodes of their own. The cells such a value is made of are taken out of the
count of references together, are edited in place, and are put back. -/
namespace Xjd1

open Heap RefCount Fueled

variable {R : Type}

/-- The value is made of the cells of `U`, with one reference to each of them. -/
inductive Owns (h : JsonHeap R) : JsonNode R → Option ℕ → Finset ℕ → Prop
  | nullptr : Owns h .nullptr none ∅
  | node {v : JsonNode R} {i : ℕ} {ps : List (Option ℕ)} {W : ℕ → Finset ℕ} {U : Finset ℕ} (hv : v ≠ .nullptr)
      (hl : Live h i ⟨1,v.content ps⟩) (hlen : ps.length = v.children.length)
      (hs : ∀ j, Owns h (v.child j) ps[j]?.join (W j)) (hd : ∀ j k x, x ∈ W j → x ∈ W k → j = k) (hi : ∀ j, i ∉ W j)
      (hU : ∀ x, x ∈ U ↔ x = i ∨ ∃ j, x ∈ W j) : Owns h v (some i) U

section Owns
variable {h h' : JsonHeap R} {v w : JsonNode R} {p : Option ℕ} {i : ℕ} {U W Z : Finset ℕ} {H : Multiset ℕ} {r : ℕ → ℕ}

theorem Owns.stored (ho : Owns h v p U) : Stored .true h v p := by
  induction ho with
  | nullptr => exact .nullptr
  | node hv hl hlen _ _ _ _ ih => exact .node hv hl (fun _ => rfl) rfl hlen ih

theorem Owns.frame (ho : Owns h v p U) (hU : ∀ x ∈ U, h'[x]? = h[x]?) : Owns h' v p U := by
  induction ho with
  | nullptr => exact .nullptr
  | @node v i ps W U hv hl hlen _ hd hi hmem ih =>
    refine .node hv ((hU i ((hmem i).mpr (.inl rfl))).trans hl) hlen (fun j => ih j fun x hx => ?_) hd hi hmem
    exact hU x ((hmem x).mpr (.inr ⟨j,hx⟩))

theorem Owns.inside (ho : Owns h v p U) : ∀ x ∈ U, x < h.length := by
  induction ho with
  | nullptr => exact fun x hx => by cases hx
  | @node v i ps W U hv hl hlen _ hd hi hmem ih =>
    intro x hx
    rcases (hmem x).mp hx with rfl | ⟨j,hj⟩
    · exact hl.lt
    · exact ih j x hj

theorem Owns.eq_empty (ho : Owns h v none U) : v = .nullptr ∧ U = ∅ := by
  cases ho
  exact ⟨rfl,rfl⟩

theorem Owns.eq_none (ho : Owns h v p U) (hv : v = .nullptr) : p = none := by
  cases ho with
  | nullptr => rfl
  | node hne => exact absurd hv hne

theorem Owns.live (ho : Owns h v (some i) U) :
    ∃ ps, Live h i ⟨1,v.content ps⟩ ∧ ps.length = v.children.length ∧ i ∈ U := by
  cases ho with
  | node hv hl hlen hs hd hi hmem => exact ⟨_,hl,hlen,(hmem i).mpr (.inl rfl)⟩

theorem Owns.leaf (hv : v ≠ .nullptr) (hc : v.children = []) (hl : Live h i ⟨1,v.content []⟩) : Owns h v (some i) {i} := by
  refine .node (W := fun _ => ∅) hv hl (by rw [hc]; rfl) (fun j => ?_) (fun j k x hx => ?_) (fun j hj => ?_) fun x => ?_
  · simpa [JsonNode.child,hc] using Owns.nullptr
  · exact absurd hx (Finset.notMem_empty x)
  · exact absurd hj (Finset.notMem_empty i)
  · simp

theorem own_slots (ps : List (Option ℕ)) {vs : ℕ → JsonNode R}
    (hps : ∀ j : ℕ, ∀ Z H, Sound r h Z (handle ps[j]?.join + H) →
      ∃ U, Owns h (vs j) ps[j]?.join U ∧ Disjoint Z U ∧ Sound r h (Z ∪ U) H)
    (hs : Sound r h Z ((ps.filterMap id : List ℕ) + H)) :
    ∃ (W : ℕ → Finset ℕ) (U : Finset ℕ), (∀ j, Owns h (vs j) ps[j]?.join (W j)) ∧
      (∀ j k x, x ∈ W j → x ∈ W k → j = k) ∧ (∀ x, x ∈ U ↔ ∃ j, x ∈ W j) ∧ Disjoint Z U ∧ Sound r h (Z ∪ U) H := by
  induction ps generalizing vs Z with
  | nil =>
    have hnone : ∀ j, Owns h (vs j) none ∅ := fun j => by
      obtain ⟨U,ho,_⟩ := hps j Z H (by simpa using hs)
      exact ho.eq_empty.2 ▸ ho
    exact ⟨fun _ => ∅,∅,hnone,fun j k x hx => absurd hx (Finset.notMem_empty x),by simp,Finset.disjoint_empty_right Z,
      by simpa using hs⟩
  | cons p ps ih =>
    have hsum : (((p::ps).filterMap id : List ℕ) : Multiset ℕ) = handle p + (ps.filterMap id : List ℕ) := by
      cases p <;> simp
    rw [hsum,add_assoc] at hs
    obtain ⟨U0,ho0,hd0,hs0⟩ := hps 0 Z _ hs
    obtain ⟨W,U,ho,hd,hU,hdis,hs1⟩ := ih (fun j => hps (j+1)) hs0
    have hsep : ∀ j x, x ∈ U0 → x ∉ W j := fun j x hx hj =>
      Finset.disjoint_left.mp hdis (Finset.mem_union_right Z hx) ((hU x).mpr ⟨j,hj⟩)
    refine ⟨fun j => Nat.casesOn j U0 W,U0 ∪ U,fun j => ?_,fun j k x hj hk => ?_,fun x => ?_,?_,?_⟩
    · cases j with
      | zero => exact ho0
      | succ j => exact ho j
    · cases j with
      | zero =>
        cases k with
        | zero => rfl
        | succ k => exact absurd hk (hsep k x hj)
      | succ j =>
        cases k with
        | zero => exact absurd hj (hsep j x hk)
        | succ k => exact congrArg _ (hd j k x hj hk)
    · rw [Finset.mem_union,hU]
      constructor
      · rintro (hx | ⟨j,hx⟩)
        · exact ⟨0,hx⟩
        · exact ⟨j+1,hx⟩
      · rintro ⟨j,hx⟩
        cases j with
        | zero => exact .inl hx
        | succ j => exact .inr ⟨j,hx⟩
    · exact Finset.disjoint_union_right.mpr ⟨hd0,Finset.disjoint_of_subset_left Finset.subset_union_left hdis⟩
    · rwa [← Finset.union_assoc]

theorem Sound.own (hv : Stored .true h v p) (hs : Sound r h Z (handle p + H)) :
    ∃ U, Owns h v p U ∧ Disjoint Z U ∧ Sound r h (Z ∪ U) H := by
  induction hv generalizing Z H with
  | nullptr => exact ⟨∅,.nullptr,Finset.disjoint_empty_right Z,by simpa using hs⟩
  | @node v i a ps hv hl h1 hc hlen _ ih =>
    have hi : i ∉ Z := (hs.target i (by simp)).1
    have hl1 : Live h i ⟨1,v.content ps⟩ := by
      rw [← hc,← h1 rfl]
      exact hl
    have hs1 := hs.enter hl1 rfl
    rw [ptrs_content hlen] at hs1
    obtain ⟨W,U,ho,hd,hU,hdis,hs2⟩ := own_slots ps ih hs1
    have hiU : i ∉ U := fun hm => Finset.disjoint_left.mp hdis (Finset.mem_insert_self i Z) hm
    have hmem : ∀ x, x ∈ insert i U ↔ x = i ∨ ∃ j, x ∈ W j := fun x => by rw [Finset.mem_insert,hU]
    refine ⟨insert i U,.node hv hl1 hlen ho hd (fun j hj => hiU ((hU i).mpr ⟨j,hj⟩)) hmem,?_,?_⟩
    · exact Finset.disjoint_insert_right.mpr ⟨hi,Finset.disjoint_of_subset_left (Finset.subset_insert i Z) hdis⟩
    · rwa [Finset.union_insert,← Finset.insert_union]

theorem disown_slots (ps : List (Option ℕ)) {vs : ℕ → JsonNode R} {W : ℕ → Finset ℕ}
    (hps : ∀ j : ℕ, ∀ r Z H, Disjoint Z (W j) → Sound r h (Z ∪ W j) H → ∃ r', Sound r' h Z (handle ps[j]?.join + H))
    (ho : ∀ j : ℕ, Owns h (vs j) ps[j]?.join (W j)) (hd : ∀ j k x, x ∈ W j → x ∈ W k → j = k)
    (hU : ∀ x, x ∈ U ↔ ∃ j, x ∈ W j) (hdis : Disjoint Z U) (hs : Sound r h (Z ∪ U) H) :
    ∃ r', Sound r' h Z ((ps.filterMap id : List ℕ) + H) := by
  induction ps generalizing vs W U H r with
  | nil =>
    have hempty : U = ∅ := Finset.eq_empty_of_forall_notMem fun x hx => by
      obtain ⟨j,hj⟩ := (hU x).mp hx
      rw [(ho j).eq_empty.2] at hj
      cases hj
    exact ⟨r,by simpa [hempty] using hs⟩
  | cons p ps ih =>
    -- the cells of the first pointer, and those of the rest
    have hrest : ∀ x, x ∈ U \ W 0 ↔ ∃ j, x ∈ W (j+1) := fun x => by
      rw [Finset.mem_sdiff,hU]
      constructor
      · rintro ⟨⟨j,hj⟩,h0⟩
        cases j with
        | zero => exact absurd hj h0
        | succ j => exact ⟨j,hj⟩
      · rintro ⟨j,hj⟩
        exact ⟨⟨j+1,hj⟩,fun h0 => Nat.succ_ne_zero j (hd _ _ x hj h0)⟩
    have h0 : W 0 ⊆ U := fun x hx => (hU x).mpr ⟨0,hx⟩
    obtain ⟨hZ0,hZr⟩ : Disjoint Z (W 0) ∧ Disjoint Z (U \ W 0) :=
      ⟨Finset.disjoint_of_subset_right h0 hdis,Finset.disjoint_of_subset_right Finset.sdiff_subset hdis⟩
    have hsplit : Z ∪ U = (Z ∪ (U \ W 0)) ∪ W 0 := by
      rw [Finset.union_assoc,Finset.sdiff_union_of_subset h0]
    rw [hsplit] at hs
    obtain ⟨r1,hs1⟩ := hps 0 r _ H (Finset.disjoint_union_left.mpr ⟨hZ0,Finset.sdiff_disjoint⟩) hs
    obtain ⟨r2,hs2⟩ := ih (fun j => hps (j+1)) (fun j => ho (j+1)) (fun j k x hj hk => Nat.succ.inj (hd _ _ x hj hk))
      hrest hZr hs1
    have hsum : (((p::ps).filterMap id : List ℕ) : Multiset ℕ) = handle p + (ps.filterMap id : List ℕ) := by
      cases p <;> simp
    rw [hsum,add_right_comm,add_comm]
    exact ⟨r2,hs2⟩

theorem Sound.disown (ho : Owns h v p U) (hd : Disjoint Z U) (hs : Sound r h (Z ∪ U) H) :
    ∃ r', Sound r' h Z (handle p + H) := by
  induction ho generalizing Z H r with
  | nullptr => exact ⟨r,by simpa using hs⟩
  | @node v i ps W U hv hl hlen ho hdj hi hmem ih =>
    have hiU : i ∈ U := (hmem i).mpr (.inl rfl)
    have hiZ : i ∉ Z := fun hm => Finset.disjoint_left.mp hd hm hiU
    have hrest : ∀ x, x ∈ U.erase i ↔ ∃ j, x ∈ W j := fun x => by
      rw [Finset.mem_erase,hmem]
      constructor
      · rintro ⟨hne,rfl | hj⟩
        · exact absurd rfl hne
        · exact hj
      · rintro ⟨j,hj⟩
        exact ⟨fun he => hi j (he ▸ hj),.inr ⟨j,hj⟩⟩
    have hsplit : Z ∪ U = insert i Z ∪ U.erase i := by
      rw [Finset.insert_union,← Finset.union_insert,Finset.insert_erase hiU]
    rw [hsplit] at hs
    obtain ⟨r1,hs1⟩ := disown_slots ps (fun j r Z H => ih j) ho hdj hrest
      (Finset.disjoint_insert_left.mpr ⟨Finset.notMem_erase i U,Finset.disjoint_of_subset_right (Finset.erase_subset i U) hd⟩) hs
    rw [← ptrs_content hlen] at hs1
    exact hs1.leave hiZ hl rfl

theorem Sound.framed (P : JsonHeap R → Prop) (H' : Multiset ℕ) (hv : Stored .true h v p) (hs : Sound r h Z (handle p + H))
    (hf : ∀ Z', Z ⊆ Z' → Sound r h Z' H → ∃ h' r', P h' ∧ Sound r' h' Z' H' ∧ Kept Z' h h') :
    ∃ h' r', P h' ∧ Sound r' h' Z (handle p + H') ∧ Kept Z h h' ∧ Stored .true h' v p := by
  obtain ⟨U,ho,hd,hs1⟩ := Sound.own hv hs
  obtain ⟨h',r1,hP,hs2,hk⟩ := hf _ Finset.subset_union_left hs1
  have ho' := ho.frame fun x hx => hk.fixed x (Finset.mem_union_right Z hx)
  obtain ⟨r',hs3⟩ := Sound.disown ho' hd hs2
  exact ⟨h',r',hP,hs3,hk.of_subset Finset.subset_union_left,ho'.stored⟩

theorem JsonNode.child_setChild_ne (v w : JsonNode R) {j k : ℕ} (hk : k ≠ j) : (v.setChild j w).child k = v.child k := by
  rw [JsonNode.child,JsonNode.children_setChild,List.getElem?_set_ne hk.symm,JsonNode.child]

theorem JsonNode.setChild_ne_nullptr {v : JsonNode R} (hv : v ≠ .nullptr) (j : ℕ) (w : JsonNode R) :
    v.setChild j w ≠ .nullptr := by
  cases v with
  | nullptr => exact absurd rfl hv
  | _ => exact fun h => by cases h

theorem Owns.setChild {V : Finset ℕ} {ps : List (Option ℕ)} {W : ℕ → Finset ℕ} {j q : ℕ} (hv : v ≠ .nullptr)
    (hl : Live h i ⟨1,v.content ps⟩) (hlen : ps.length = v.children.length) (ho : ∀ k, Owns h (v.child k) ps[k]?.join (W k))
    (hd : ∀ j k x, x ∈ W j → x ∈ W k → j = k) (hi : ∀ k, i ∉ W k) (hU : ∀ x, x ∈ U ↔ x = i ∨ ∃ k, x ∈ W k)
    (hq : ps[j]?.join = some q) (how : Owns h' w (some q) V) (hsame : ∀ x ∈ U, x ∉ W j → h'[x]? = h[x]?)
    (hV : ∀ x ∈ V, x ∈ U → x ∈ W j) : Owns h' (v.setChild j w) (some i) ((U \ W j) ∪ V) := by
  have hiU : i ∈ U := (hU i).mpr (.inl rfl)
  have hj : j < v.children.length := by
    rw [← hlen]
    by_contra hge
    simp [List.getElem?_eq_none (Nat.not_lt.mp hge)] at hq
  have hother : ∀ k, k ≠ j → ∀ x ∈ W k, x ∈ U ∧ x ∉ W j := fun k hk x hx =>
    ⟨(hU x).mpr (.inr ⟨k,hx⟩),fun hxj => hk (hd k j x hx hxj)⟩
  have hl' : Live h' i ⟨1,(v.setChild j w).content ps⟩ := by
    rw [content_setChild]
    exact (hsame i hiU (hi j)).trans hl
  refine .node (W := Function.update W j V) (JsonNode.setChild_ne_nullptr hv j w) hl' ?_ (fun k => ?_)
    (fun k l x hk hl => ?_) (fun k hk => ?_) fun x => ?_
  · rw [JsonNode.children_setChild,List.length_set]
    exact hlen
  · by_cases hkj : k = j
    · subst hkj
      rw [Function.update_self,JsonNode.child_setChild hj,hq]
      exact how
    · rw [Function.update_of_ne hkj,JsonNode.child_setChild_ne v w hkj]
      exact (ho k).frame fun x hx => hsame x (hother k hkj x hx).1 (hother k hkj x hx).2
  · by_cases hkj : k = j <;> by_cases hlj : l = j
    · rw [hkj,hlj]
    · subst hkj
      rw [Function.update_self] at hk
      rw [Function.update_of_ne hlj] at hl
      exact absurd (hV x hk (hother l hlj x hl).1) (hother l hlj x hl).2
    · subst hlj
      rw [Function.update_self] at hl
      rw [Function.update_of_ne hkj] at hk
      exact absurd (hV x hl (hother k hkj x hk).1) (hother k hkj x hk).2
    · rw [Function.update_of_ne hkj] at hk
      rw [Function.update_of_ne hlj] at hl
      exact hd k l x hk hl
  · by_cases hkj : k = j
    · subst hkj
      rw [Function.update_self] at hk
      exact hi k (hV i hk hiU)
    · rw [Function.update_of_ne hkj] at hk
      exact hi k hk
  · rw [Finset.mem_union,Finset.mem_sdiff,hU]
    constructor
    · rintro (⟨rfl | ⟨k,hk⟩,hx⟩ | hx)
      · exact .inl rfl
      · have hkj : k ≠ j := by
          rintro rfl
          exact hx hk
        exact .inr ⟨k,by rwa [Function.update_of_ne hkj]⟩
      · exact .inr ⟨j,by rwa [Function.update_self]⟩
    · rintro (rfl | ⟨k,hk⟩)
      · exact .inl ⟨.inl rfl,hi j⟩
      · by_cases hkj : k = j
        · subst hkj
          rw [Function.update_self] at hk
          exact .inr hk
        · rw [Function.update_of_ne hkj] at hk
          exact .inl ⟨.inr ⟨k,hk⟩,(hother k hkj x hk).2⟩

theorem Owns.grow {X : Finset ℕ} {ps qs : List (Option ℕ)} {cs : List (JsonNode R)} {W : ℕ → Finset ℕ} (ho : Owns h v (some i) U)
    (hps : Live h i ⟨1,v.content ps⟩) (hlen : ps.length = v.children.length) (hw : w ≠ .nullptr)
    (hc : w.children = v.children ++ cs) (hqs : qs.length = cs.length) (hl : Live h' i ⟨1,w.content (ps ++ qs)⟩)
    (hcs : ∀ j : ℕ, Owns h' (cs[j]?.getD .nullptr) qs[j]?.join (W j)) (hd : ∀ j k x, x ∈ W j → x ∈ W k → j = k)
    (hX : ∀ x, x ∈ X ↔ ∃ j, x ∈ W j) (hdis : Disjoint U X) (hsame : ∀ x ∈ U, x ≠ i → h'[x]? = h[x]?) :
    Owns h' w (some i) (U ∪ X) := by
  cases ho with
  | @node _ _ ps' W0 _ hv hl0 hlen0 hs hd0 hi hmem =>
    have hpps : ps' = ps := by
      have hval := congrArg Counted.val (hl0.unique hps)
      have hslots := congrArg JsonU.slots hval
      rwa [slots_content hlen0,slots_content hlen] at hslots
    subst hpps
    have hW0 : ∀ j, ps'.length ≤ j → W0 j = ∅ := fun j hj => by
      have hoj := hs j
      rw [List.getElem?_eq_none hj] at hoj
      exact hoj.eq_empty.2
    have hin : ∀ j x, x ∈ W0 j → x ∈ U := fun j x hx => (hmem x).mpr (.inr ⟨j,hx⟩)
    have hout : ∀ j x, x ∈ W j → x ∉ U := fun j x hx hU => Finset.disjoint_left.mp hdis hU ((hX x).mpr ⟨j,hx⟩)
    refine .node (W := fun j => if j < ps'.length then W0 j else W (j - ps'.length)) hw hl ?_ (fun j => ?_)
      (fun j k x hj hk => ?_) (fun j hj => ?_) fun x => ?_
    · rw [List.length_append,hc,List.length_append,hlen0,hqs]
    · by_cases hj : j < ps'.length
      · have hjv : j < v.children.length := hlen0 ▸ hj
        simp only [hj,if_true]
        rw [List.getElem?_append_left hj,JsonNode.child,hc,List.getElem?_append_left hjv]
        refine (hs j).frame fun x hx => hsame x (hin j x hx) ?_
        rintro rfl
        exact hi j hx
      · have hjv : v.children.length ≤ j := hlen0 ▸ Nat.not_lt.mp hj
        simp only [hj,if_false]
        rw [List.getElem?_append_right (Nat.not_lt.mp hj),JsonNode.child,hc,List.getElem?_append_right hjv,← hlen0]
        exact hcs (j - ps'.length)
    · by_cases h1 : j < ps'.length <;> by_cases h2 : k < ps'.length <;> simp only [h1,h2,if_true,if_false] at hj hk
      · exact hd0 j k x hj hk
      · exact absurd (hin j x hj) (hout _ x hk)
      · exact absurd (hin k x hk) (hout _ x hj)
      · have := hd _ _ x hj hk
        omega
    · by_cases h1 : j < ps'.length <;> simp only [h1,if_true,if_false] at hj
      · exact hi j hj
      · exact hout _ i hj ((hmem i).mpr (.inl rfl))
    · rw [Finset.mem_union,hmem,hX]
      constructor
      · rintro ((rfl | ⟨j,hj⟩) | ⟨j,hj⟩)
        · exact .inl rfl
        · by_cases h1 : j < ps'.length
          · exact .inr ⟨j,by simpa only [h1,if_true] using hj⟩
          · rw [hW0 j (Nat.not_lt.mp h1)] at hj
            exact absurd hj (Finset.notMem_empty x)
        · refine .inr ⟨j + ps'.length,?_⟩
          simpa only [Nat.not_lt.mpr (Nat.le_add_left ps'.length j),if_false,Nat.add_sub_cancel] using hj
      · rintro (rfl | ⟨j,hj⟩)
        · exact .inl (.inl rfl)
        · by_cases h1 : j < ps'.length <;> simp only [h1,if_true,if_false] at hj
          · exact .inl (.inr ⟨j,hj⟩)
          · exact .inr ⟨_,hj⟩

/-- The node `q` is the one at the end of the path, made of the cells of `V`; another value
may take its place there. -/
structure Focus (h : JsonHeap R) (v : JsonNode R) (d : Option ℕ) (U : Finset ℕ) (path : NodePath) (q : ℕ) (V : Finset ℕ) :
    Prop where
  own : Owns h (v.nodeAt path) (some q) V
  sub : V ⊆ U
  plug : ∀ h' w V', Owns h' w (some q) V' → (∀ x ∈ U, x ∉ V → h'[x]? = h[x]?) → (∀ x ∈ V', x ∈ U → x ∈ V) →
    Owns h' (v.putAt path w) d ((U \ V) ∪ V')

theorem Focus.root {q : ℕ} (ho : Owns h v (some q) U) : Focus h v (some q) U [] q U := by
  refine ⟨ho,Finset.Subset.refl U,fun h' w V' how _ _ => ?_⟩
  rw [Finset.sdiff_self,Finset.empty_union]
  exact how

theorem Focus.frame {d : Option ℕ} {path : NodePath} {q : ℕ} {V : Finset ℕ} (hf : Focus h v d U path q V)
    (hsame : ∀ x ∈ U, h'[x]? = h[x]?) : Focus h' v d U path q V :=
  ⟨hf.own.frame fun x hx => hsame x (hf.sub hx),hf.sub,fun h'' w V' how hout =>
    hf.plug h'' w V' how fun x hx hV => (hout x hx hV).trans (hsame x hx)⟩

theorem Focus.ne_nullptr {d : Option ℕ} {path : NodePath} {q : ℕ} {V : Finset ℕ} (hf : Focus h v d U path q V) :
    v.nodeAt path ≠ .nullptr := by
  have ho := hf.own
  generalize v.nodeAt path = u at ho
  cases ho
  assumption

theorem Focus.edit {d : Option ℕ} {path : NodePath} {q : ℕ} {V V' : Finset ℕ} (hf : Focus h v d U path q V)
    (how : Owns h' w (some q) V') (hsame : ∀ x ∈ U, x ∉ V → h'[x]? = h[x]?) (hV : ∀ x ∈ V', x ∈ U → x ∈ V) :
    Focus h' (v.putAt path w) d ((U \ V) ∪ V') path q V' := by
  have hnode : (v.putAt path w).nodeAt path = w := JsonNode.nodeAt_putAt hf.ne_nullptr w
  refine ⟨by rwa [hnode],Finset.subset_union_right,fun h'' w' V'' how' hsame' hV' => ?_⟩
  have hsep : ∀ x ∈ U, x ∉ V → x ∉ V' := fun x hx hxV hxV' => hxV (hV x hxV' hx)
  have hcells : ((U \ V) ∪ V') \ V' = U \ V := by
    ext x
    simp only [Finset.mem_sdiff,Finset.mem_union]
    have := hsep x
    tauto
  rw [hcells,JsonNode.putAt_putAt]
  refine hf.plug h'' w' V'' how' (fun x hx hxV => ?_) fun x hx hxU => ?_
  · exact (hsame' x (Finset.mem_union_left _ (Finset.mem_sdiff.mpr ⟨hx,hxV⟩)) (hsep x hx hxV)).trans (hsame x hx hxV)
  · by_contra hxV
    exact hsep x hxU hxV (hV' x hx (Finset.mem_union_left _ (Finset.mem_sdiff.mpr ⟨hxU,hxV⟩)))

theorem Focus.child {d : Option ℕ} {path : NodePath} {q j : ℕ} {V : Finset ℕ} {a : Counted (JsonU R)}
    (hf : Focus h v d U path q V) (hl : Live h q a) (hj : (v.nodeAt path).child j ≠ .nullptr) :
    ∃ q' V', a.val.slots[j]?.join = some q' ∧ Focus h v d U (path ++ [j]) q' V' := by
  obtain ⟨ho,hsub,hplug⟩ := hf
  generalize hu : v.nodeAt path = u at ho hj
  cases ho with
  | @node _ _ ps W _ hv hlq hlen hs hd hi hmem =>
    rw [hl.unique hlq]
    simp only [slots_content hlen]
    have hoj := hs j
    cases hq : ps[j]?.join with
    | none =>
      rw [hq] at hoj
      exact absurd hoj.eq_empty.1 hj
    | some q' =>
      rw [hq] at hoj
      have hWV : W j ⊆ V := fun x hx => (hmem x).mpr (.inr ⟨j,hx⟩)
      refine ⟨q',W j,rfl,by rw [JsonNode.nodeAt_append,hu]; exact hoj,hWV.trans hsub,fun h' w V' how hsame hV' => ?_⟩
      have hnode := Owns.setChild hv hlq hlen hs hd hi hmem hq how (fun x hx hxj => hsame x (hsub hx) hxj)
        fun x hx hxV => hV' x hx (hsub hxV)
      have hplugged := hplug h' _ _ hnode (fun x hx hxV => hsame x hx fun hxj => hxV (hWV hxj)) fun x hx hxU => ?_
      · have hcells : (U \ V) ∪ ((V \ W j) ∪ V') = (U \ W j) ∪ V' := by
          ext x
          simp only [Finset.mem_sdiff,Finset.mem_union]
          have h1 : x ∈ W j → x ∈ V := fun hx => hWV hx
          have h2 : x ∈ V → x ∈ U := fun hx => hsub hx
          tauto
        rw [hcells] at hplugged
        rw [JsonNode.putAt_append,hu]
        exact hplugged
      · rcases Finset.mem_union.mp hx with hx | hx
        · exact (Finset.mem_sdiff.mp hx).1
        · exact hWV (hV' x hx hxU)

theorem Focus.disjoint {d : Option ℕ} {path : NodePath} {q : ℕ} {V : Finset ℕ} (hf : Focus h v d U path q V) : Disjoint (U \ V) V ∧ (U \ V) ∪ V = U :=
  ⟨Finset.sdiff_disjoint,Finset.sdiff_union_of_subset hf.sub⟩

end Owns

end Xjd1
