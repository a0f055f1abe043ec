import Xjd1.Json.Order
import Xjd1.Query.Operators

/-! The result lists of `query.c`: rows are put in front of a list, sorted with
a fixed array of slots, and taken from its head. -/
namespace Xjd1

open Fueled

variable {R : Type} [CDouble R]

def addToResultList (pList : ResultList R) (apKey : List (JsonNode R)) : ResultList R :=
  { pList with pItem := ⟨apKey⟩ :: pList.pItem }

def isDescending (zAs : Option Bytes) : Bool := (zAs.getD []).head? = some (ch 'D')

def cmpKeys : List (Option Bytes) → List (JsonNode R) → List (JsonNode R) → Int
  | zAs::dirs, a::as, b::bs =>
    let c := xjd1JsonCompare a b
    if c = 0 then cmpKeys dirs as bs else if isDescending zAs then -c else c
  | _, _, _ => 0

def cmpResultItem (pEList : Option (List (ExprItem R))) (p1 p2 : ResultItem R) : Int :=
  match pEList with
  | some es => cmpKeys (es.map ExprItem.zAs) p1.apKey p2.apKey
  | none => cmpKeys [none] p1.apKey p2.apKey

def nSlot : ℕ := 40

def sortResultList (pList : ResultList R) (pEList : Option (List (ExprItem R))) (uniq : Bool) :
    Exec (ResultList R) :=
  match SlotSort.slotSort (cmpResultItem pEList) nSlot pList.pItem with
  | none => .stop .slots
  | some pHead =>
    let pHead := if uniq then SlotSort.uniq (cmpResultItem pEList) pHead else pHead
    if SlotSort.ascends (cmpResultItem pEList) (if uniq then -1 else 0) pHead then
      .ok { pList with pItem := pHead }
    else .stop .assertFail

def popResultList (pList : ResultList R) : ResultList R := { pList with pItem := pList.pItem.tail }

def saveResultList (pList : ResultList R) : ResultList R :=
  { pList with pSaved := pList.pItem.head?, pItem := pList.pItem.tail }

def restoreResultList (pList : ResultList R) : ResultList R :=
  match pList.pSaved with
  | some saved => { pList with pSaved := none, pItem := saved :: pList.pItem.tail }
  | none => pList

/-- The list set up by the code before it is filled, with a pool and `nKey` keys a row. -/
def ResultList.new (nKey : ℕ) : ResultList R := ⟨true,nKey,none,[]⟩

open SlotSort

theorem sortResultList_overflow (l : ResultList R) (es : Option (List (ExprItem R))) (u : Bool)
    (h : 2^nSlot ≤ l.pItem.length) : sortResultList l es u = .stop .slots := by
  have hs : SlotSort.slotSort (cmpResultItem es) nSlot l.pItem = none := by
    rw [← Option.not_isSome_iff_eq_none,slotSort_isSome]
    omega
  rw [sortResultList,hs]

theorem sortResultList_nil {l : ResultList R} {es : Option (List (ExprItem R))} {u : Bool} (h : l.pItem = []) :
    sortResultList l es u = .ok { l with pItem := [] } := by
  have hs := (slotSort_isSome (cmpResultItem es) nSlot l.pItem).mpr (by
    rw [h]
    exact Nat.two_pow_pos nSlot)
  obtain ⟨s,hs⟩ := Option.isSome_iff_exists.mp hs
  have hnil := slotSort_perm hs
  rw [h,List.perm_nil] at hnil
  subst hnil
  cases u <;> simp [sortResultList,hs,uniq,ascends]

theorem sortResultList_sort {P : ResultItem R → Prop} {es : Option (List (ExprItem R))}
    (hP : Ordered (cmpResultItem es) P) (l : ResultList R) (hl : ∀ i ∈ l.pItem, P i)
    (h : l.pItem.length < 2^nSlot) :
    ∃ s, StableSort (cmpResultItem es) l.pItem.reverse s ∧
      sortResultList l es false = .ok { l with pItem := s } := by
  obtain ⟨s,hs,hst⟩ := slotSort_spec hP hl h
  refine ⟨s,hst,?_⟩
  simp only [sortResultList,hs,Bool.false_eq_true,if_false,ascends_of_pairwise hst.sorted,if_true]

/-- With `uniq`, one row of each class of equal rows is left, in strictly ascending order. -/
theorem sortResultList_uniq {P : ResultItem R → Prop} {es : Option (List (ExprItem R))}
    (hP : Ordered (cmpResultItem es) P) (l : ResultList R) (hl : ∀ i ∈ l.pItem, P i)
    (h : l.pItem.length < 2^nSlot) :
    ∃ s, s.Pairwise (fun a b => cmpResultItem es a b < 0) ∧ (∀ i ∈ s, i ∈ l.pItem) ∧
      (∀ i ∈ l.pItem, ∃ j ∈ s, cmpResultItem es i j = 0) ∧
      sortResultList l es true = .ok { l with pItem := s } := by
  obtain ⟨s,hs,hst⟩ := slotSort_spec hP hl h
  have hm : ∀ i, i ∈ s ↔ i ∈ l.pItem := fun i => hst.perm.mem_iff.trans List.mem_reverse
  obtain ⟨h1,h2,h3⟩ := uniq_spec hP s (fun i hi => hl i ((hm i).mp hi)) hst.sorted
  have hlt : (uniq (cmpResultItem es) s).Pairwise fun a b => cmpResultItem es a b ≤ -1 :=
    h1.imp fun hab => by omega
  refine ⟨_,h1,fun i hi => (hm i).mp (h2.subset hi),fun i hi => h3 i ((hm i).mpr hi),?_⟩
  simp only [sortResultList,hs,if_true,ascends_of_pairwise hlt]

def ResultItem.first (p : ResultItem R) : JsonNode R := p.apKey.headD .nullptr

theorem cmpResultItem_none {a b : ResultItem R} (ha : a.apKey ≠ []) (hb : b.apKey ≠ []) :
    cmpResultItem none a b = xjd1JsonCompare a.first b.first := by
  obtain ⟨as⟩ := a
  obtain ⟨bs⟩ := b
  cases as with
  | nil => exact absurd rfl ha
  | cons a as =>
    cases bs with
    | nil => exact absurd rfl hb
    | cons b bs =>
      simp only [cmpResultItem,cmpKeys,ResultItem.first,List.headD_cons]
      split
      · symm
        assumption
      · rfl

theorem ordered_cmpResultItem_none {P : JsonNode R → Prop} (h : Ordered xjd1JsonCompare P) :
    Ordered (cmpResultItem none) fun i : ResultItem R => i.apKey ≠ [] ∧ P i.first := by
  refine ⟨fun a b ha hb => ?_,fun a b c ha hb hc => ?_⟩
  · rw [cmpResultItem_none ha.1 hb.1,cmpResultItem_none hb.1 ha.1]
    exact h.swap _ _ ha.2 hb.2
  · rw [cmpResultItem_none ha.1 hb.1,cmpResultItem_none hb.1 hc.1,cmpResultItem_none ha.1 hc.1]
    exact h.trans _ _ _ ha.2 hb.2 hc.2

theorem cmpKeys_cons (d : Option Bytes) (ds : List (Option Bytes)) (x y : JsonNode R)
    (as bs : List (JsonNode R)) : cmpKeys (d::ds) (x::as) (y::bs) =
      if xjd1JsonCompare x y = 0 then cmpKeys ds as bs
      else if isDescending d then -xjd1JsonCompare x y else xjd1JsonCompare x y := rfl

theorem ordered_cmpKeys (dirs : List (Option Bytes)) {S : List (JsonNode R) → Prop}
    (h : ∀ j < dirs.length, Ordered xjd1JsonCompare fun v => ∃ as, S as ∧ as[j]? = some v) :
    Ordered (cmpKeys dirs) fun as => S as ∧ dirs.length ≤ as.length := by
  induction dirs generalizing S with
  | nil => exact ⟨fun _ _ _ _ => by simp [cmpKeys],fun _ _ _ _ _ _ _ _ => by simp [cmpKeys]⟩
  | cons d ds ih =>
    have h0 := h 0 (Nat.succ_pos _)
    have ht : Ordered (cmpKeys ds) fun as => (∃ x, S (x::as)) ∧ ds.length ≤ as.length := by
      refine ih fun j hj => (h (j+1) (Nat.succ_lt_succ hj)).mono ?_
      rintro v ⟨as,⟨x,hx⟩,hv⟩
      exact ⟨x::as,hx,hv⟩
    have hcons : ∀ as, S as ∧ (d::ds).length ≤ as.length →
        ∃ x xs, as = x::xs ∧ (∃ bs, S bs ∧ bs[0]? = some x) ∧ (∃ y, S (y::xs)) ∧ ds.length ≤ xs.length := by
      rintro as ⟨hs,hl⟩
      cases as with
      | nil => exact absurd hl (Nat.not_succ_le_zero _)
      | cons x xs => exact ⟨x,xs,rfl,⟨_,hs,rfl⟩,⟨x,hs⟩,Nat.le_of_succ_le_succ hl⟩
    refine ⟨fun a b ha hb => ?_,fun a b c ha hb hc => ?_⟩
    · obtain ⟨x,xs,rfl,hx,hxs⟩ := hcons a ha
      obtain ⟨y,ys,rfl,hy,hys⟩ := hcons b hb
      have h1 := h0.swap x y hx hy
      have h2 := h0.swap y x hy hx
      have h3 := ht.swap xs ys hxs hys
      rw [cmpKeys_cons,cmpKeys_cons]
      split <;> split <;> omega
    · obtain ⟨x,xs,rfl,hx,hxs⟩ := hcons a ha
      obtain ⟨y,ys,rfl,hy,hys⟩ := hcons b hb
      obtain ⟨z,zs,rfl,hz,hzs⟩ := hcons c hc
      have h1 := h0.trans x y z hx hy hz
      have h2 := h0.trans z y x hz hy hx
      have h3 := ht.trans xs ys zs hxs hys hzs
      have s1 := h0.swap x y hx hy
      have s2 := h0.swap y z hy hz
      have s3 := h0.swap x z hx hz
      have t1 := h0.trans y z x hy hz hx
      have t2 := h0.trans z x y hz hx hy
      have t3 := h0.trans x z y hx hz hy
      have t4 := h0.trans y x z hy hx hz
      rw [cmpKeys_cons,cmpKeys_cons,cmpKeys_cons]
      cases isDescending d
      · simp only [Bool.false_eq_true,if_false]
        split <;> split <;> split <;> omega
      · simp only [if_true]
        split <;> split <;> split <;> omega

theorem ordered_cmpResultItem_some (es : List (ExprItem R)) {S : ResultItem R → Prop}
    (h : ∀ j < es.length, Ordered xjd1JsonCompare fun v => ∃ i, S i ∧ i.apKey[j]? = some v) :
    Ordered (cmpResultItem (some es)) fun i => S i ∧ es.length ≤ i.apKey.length := by
  have hk : Ordered (cmpKeys (es.map ExprItem.zAs)) fun as => S ⟨as⟩ ∧ (es.map ExprItem.zAs).length ≤ as.length := by
    refine ordered_cmpKeys _ fun j hj => (h j (by rwa [List.length_map] at hj)).mono ?_
    rintro v ⟨as,ha,hv⟩
    exact ⟨⟨as⟩,ha,hv⟩
  rw [List.length_map] at hk
  exact ⟨fun a b ha hb => hk.swap _ _ ha hb,fun a b c ha hb hc => hk.trans _ _ _ ha hb hc⟩

/-- Rows of keys without NaN compare in an orderly way, in whichever directions the keys are sorted. -/
theorem ordered_sortKeys {Num : R → Prop} (hN : Numbers Num) (es : List (ExprItem R)) :
    Ordered (cmpResultItem (some es)) fun i => (∀ v ∈ i.apKey, NodeOf Num v) ∧ es.length ≤ i.apKey.length := by
  refine ordered_cmpResultItem_some es fun j _ => (ordered_xjd1JsonCompare hN).mono ?_
  rintro v ⟨i,hi,hv⟩
  exact hi v (List.mem_of_getElem? hv)

/-- Sorting puts the rows in order, and rows that tie in the reverse of the order of the list;
with `uniq`, the first row of each class of rows that tie is left. -/
theorem sortResultList_spec {es : Option (List (ExprItem R))} (l : ResultList R)
    (hP : Ordered (cmpResultItem es) fun i => i ∈ l.pItem) (h : l.pItem.length < 2^40) :
    ∃ s u, sortResultList l es false = .ok { l with pItem := s } ∧
      sortResultList l es true = .ok { l with pItem := u } ∧
      StableSort (cmpResultItem es) l.pItem.reverse s ∧ FirstOfEach (cmpResultItem es) s u := by
  obtain ⟨s,hs,hst⟩ := slotSort_spec hP (fun i hi => hi) h
  have hmem : ∀ i ∈ s, i ∈ l.pItem := fun i hi => List.mem_reverse.mp (hst.perm.mem_iff.mp hi)
  have hu := uniq_firstOfEach hP hmem hst.sorted
  have hlt : (uniq (cmpResultItem es) s).Pairwise fun a b => cmpResultItem es a b ≤ -1 :=
    hu.ascending.imp fun hab => by omega
  refine ⟨s,_,?_,?_,hst,hu⟩
  · simp only [sortResultList,nSlot,hs,Bool.false_eq_true,if_false,ascends_of_pairwise hst.sorted,if_true]
  · simp only [sortResultList,nSlot,hs,if_true,ascends_of_pairwise hlt]

/-- Two sort keys, the second one descending. -/
def twoKeys : List (ExprItem Int) := [⟨none,.jvalue .nullptr⟩,⟨some [ch 'D'],.jvalue .nullptr⟩]

/-- Three rows of two keys and a document, of which two tie. -/
def tiedRows : ResultList Int :=
  ⟨true,3,none,[⟨[.real 1,.real 2,.true]⟩,⟨[.real 1,.real 3,.true]⟩,⟨[.real 1,.real 2,.false]⟩]⟩

theorem sortResultList_spec_tied : ∃ s u, sortResultList tiedRows (some twoKeys) false = .ok { tiedRows with pItem := s } ∧
    sortResultList tiedRows (some twoKeys) true = .ok { tiedRows with pItem := u } ∧
    StableSort (cmpResultItem (some twoKeys)) tiedRows.pItem.reverse s ∧
    FirstOfEach (cmpResultItem (some twoKeys)) s u := by
  refine sortResultList_spec tiedRows ((ordered_sortKeys numbers_int twoKeys).mono ?_) (by decide)
  intro i hi
  simp only [tiedRows,List.mem_cons,List.not_mem_nil,or_false] at hi
  rcases hi with rfl | rfl | rfl <;>
    exact ⟨by simp [NodeOf],by decide⟩

end Xjd1
