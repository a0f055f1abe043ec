import Mathlib.Data.List.Induction
import Mathlib.Data.List.Nodup
import Mathlib.Data.List.Perm.Subperm
import Mathlib.Data.Int.Order.Basic

/-! The packing of the action sets of `lemon.c` into one table: each set is entered at an
offset, and an entry is found by the offset of its set and its lookahead. -/
namespace Xjd1
namespace Generator

structure LookaheadAction where
  lookahead : ℤ
  action : ℤ
  deriving DecidableEq, Repr

def unused : LookaheadAction := ⟨-1,-1⟩

/-- The table under construction, with the slots that are allocated, and the transaction
set. The entry with the least lookahead is kept besides. -/
structure Acttab where
  nAction : ℕ
  aAction : List LookaheadAction
  aLookahead : List LookaheadAction
  mnLookahead : ℤ
  mnAction : ℤ
  mxLookahead : ℤ
  deriving DecidableEq, Repr

def acttabAlloc : Acttab := ⟨0,[],[],0,0,0⟩

def acttabAction (p : Acttab) (lookahead action : ℤ) : Acttab :=
  let p :=
    if p.aLookahead = [] then
      { p with mxLookahead := lookahead, mnLookahead := lookahead, mnAction := action }
    else
      let p := if p.mxLookahead < lookahead then { p with mxLookahead := lookahead } else p
      if p.mnLookahead > lookahead then { p with mnLookahead := lookahead, mnAction := action } else p
  { p with aLookahead := p.aLookahead ++ [⟨lookahead,action⟩] }

def slot (a : List LookaheadAction) (k : ℤ) : LookaheadAction := if k < 0 then unused else a.getD k.toNat unused

def grow (p : Acttab) : Acttab :=
  if p.aAction.length ≤ p.nAction + (p.mxLookahead + 1) then
    { p with aAction := p.aAction ++ List.replicate (p.nAction + (p.mxLookahead + 1).toNat + 20) unused }
  else p

def place (p : Acttab) (i : ℤ) (e : LookaheadAction) : ℤ := e.lookahead - p.mnLookahead + i

def belongs (p : Acttab) (i : ℤ) (j : ℕ) : Bool :=
  decide (0 ≤ (slot p.aAction j).lookahead ∧ (slot p.aAction j).lookahead = j + p.mnLookahead - i)

/-- The set is already there, with its least entry at `i`, and nothing else at its offset. -/
def isDuplicate (p : Acttab) (i : ℕ) : Bool :=
  decide (slot p.aAction i = ⟨p.mnLookahead,p.mnAction⟩) &&
  p.aLookahead.all (fun e => decide (
    0 ≤ place p i e ∧ place p i e < p.nAction ∧ slot p.aAction (place p i e) = e)) &&
  decide ((List.range p.nAction).countP (belongs p i) = p.aLookahead.length)

/-- The entries of the set fit into unused slots, and no slot belongs to their offset. -/
def isHole (p : Acttab) (i : ℕ) : Bool :=
  decide ((slot p.aAction i).lookahead < 0) &&
  p.aLookahead.all (fun e => decide (0 ≤ place p i e ∧ (slot p.aAction (place p i e)).lookahead < 0)) &&
  (List.range p.nAction).all fun j => decide ((slot p.aAction j).lookahead ≠ j + p.mnLookahead - i)

def findDuplicate (p : Acttab) : Option ℕ := (List.range p.nAction).reverse.find? (isDuplicate p)

def findHole (p : Acttab) : Option ℕ := (List.range (p.aAction.length - p.mxLookahead).toNat).find? (isHole p)

def putEntry (i : ℤ) (p : Acttab) (e : LookaheadAction) : Acttab :=
  { p with
    aAction := p.aAction.set (place p i e).toNat e
    nAction := max p.nAction ((place p i e).toNat + 1) }

/-- Insert the transaction set, and give its offset. A search that finds nothing leaves
the index behind the last one that it tried. -/
def acttabInsert (p : Acttab) : ℤ × Acttab :=
  let p := grow p
  let i : ℤ := match findDuplicate p with
    | some i => i
    | none => match findHole p with
      | some i => i
      | none => p.aAction.length - p.mxLookahead
  (i - p.mnLookahead,{ p.aLookahead.foldl (putEntry i) p with aLookahead := [] })

def transact (p : Acttab) (S : List LookaheadAction) : Acttab :=
  S.foldl (fun p e => acttabAction p e.lookahead e.action) p

def packAll : List (List LookaheadAction) → Acttab → List ℤ × Acttab
  | [], p => ([],p)
  | S::Ss, p =>
    let (o,p) := acttabInsert (transact p S)
    let (os,p) := packAll Ss p
    (o::os,p)

def findsAll : List (List LookaheadAction) → Acttab → Bool
  | [], _ => true
  | S::Ss, p =>
    let q := grow (transact p S)
    ((findDuplicate q).isSome || (findHole q).isSome) && findsAll Ss (acttabInsert (transact p S)).2

structure ActionSet (S : List LookaheadAction) : Prop where
  ne_nil : S ≠ []
  nonneg : ∀ e ∈ S, 0 ≤ e.lookahead
  nodup : (S.map LookaheadAction.lookahead).Nodup

structure Bounds (p : Acttab) : Prop where
  least : ⟨p.mnLookahead,p.mnAction⟩ ∈ p.aLookahead
  bounds : ∀ e ∈ p.aLookahead, p.mnLookahead ≤ e.lookahead ∧ e.lookahead ≤ p.mxLookahead

theorem action_bounds {p : Acttab} (hp : p.aLookahead = [] ∨ Bounds p) (lookahead action : ℤ) :
    Bounds (acttabAction p lookahead action) := by
  by_cases hnil : p.aLookahead = []
  · simp only [acttabAction,if_pos hnil]
    refine ⟨List.mem_append_right _ (List.mem_singleton_self _),fun e he => ?_⟩
    simp only [hnil,List.nil_append,List.mem_singleton] at he
    subst he
    exact ⟨Int.le_refl _,Int.le_refl _⟩
  · have hb := hp.resolve_left hnil
    obtain ⟨hl,hall⟩ := hb
    simp only [acttabAction,if_neg hnil]
    constructor
    · split_ifs <;> simp_all
    · intro e he
      have hmem : e ∈ p.aLookahead ∨ e = ⟨lookahead,action⟩ := by
        split_ifs at he <;> simpa using he
      rcases hmem with hmem | rfl
      · have hbe := hall e hmem
        split_ifs with h₁ h₂ h₂ <;> dsimp only at h₂ ⊢ <;> omega
      · split_ifs with h₁ h₂ h₂ <;> dsimp only at h₂ ⊢ <;> omega

theorem transact_spec {p : Acttab} (hp : p.aLookahead = []) (S : List LookaheadAction) :
    (transact p S).aLookahead = S ∧ (transact p S).aAction = p.aAction ∧ (transact p S).nAction = p.nAction ∧
      (S = [] ∨ Bounds (transact p S)) := by
  induction S using List.reverseRecOn with
  | nil => exact ⟨hp,rfl,rfl,.inl rfl⟩
  | append_singleton S e ih =>
    obtain ⟨h₁,h₂,h₃,h₄⟩ := ih
    have hstep : transact p (S ++ [e]) = acttabAction (transact p S) e.lookahead e.action := by
      rw [transact,List.foldl_append]
      rfl
    have hb : (transact p S).aLookahead = [] ∨ Bounds (transact p S) := by rwa [h₁]
    rw [hstep]
    refine ⟨?_,?_,?_,.inr (action_bounds hb _ _)⟩
    · simp only [acttabAction]
      split_ifs <;> simp [h₁]
    · simp only [acttabAction]
      split_ifs <;> exact h₂
    · simp only [acttabAction]
      split_ifs <;> exact h₃

theorem slot_append (a : List LookaheadAction) (n : ℕ) (k : ℤ) :
    slot (a ++ List.replicate n unused) k = slot a k := by
  rw [slot,slot]
  split
  · rfl
  · rw [List.getD_eq_getElem?_getD,List.getD_eq_getElem?_getD,List.getElem?_append]
    split
    · rfl
    · rename_i h
      rw [List.getElem?_replicate,List.getElem?_eq_none (by omega)]
      split <;> rfl

theorem slot_set {a : List LookaheadAction} {j : ℕ} (hj : j < a.length) (e : LookaheadAction) (k : ℤ) :
    slot (a.set j e) k = if k = j then e else slot a k := by
  rw [slot,slot]
  by_cases hk : k < 0
  · rw [if_pos hk,if_pos hk,if_neg (by omega)]
  · rw [if_neg hk,if_neg hk,List.getD_eq_getElem?_getD,List.getD_eq_getElem?_getD,List.getElem?_set]
    by_cases hkj : k = j
    · rw [if_pos hkj,if_pos (by omega),if_pos (by omega)]
      rfl
    · rw [if_neg hkj,if_neg (by omega)]

theorem slot_getElem {a : List LookaheadAction} {k : ℤ} (h : 0 ≤ (slot a k).lookahead) : 0 ≤ k := by
  by_contra hk
  rw [slot,if_pos (by omega)] at h
  exact absurd h (by decide)

theorem foldl_putEntry (i : ℤ) (S : List LookaheadAction) (p : Acttab)
    (hS : ∀ e ∈ S, 0 ≤ place p i e ∧ place p i e < p.aAction.length)
    (hnd : (S.map LookaheadAction.lookahead).Nodup) :
    (S.foldl (putEntry i) p).aAction.length = p.aAction.length ∧
    (∀ e ∈ S, slot (S.foldl (putEntry i) p).aAction (place p i e) = e ∧
      place p i e < (S.foldl (putEntry i) p).nAction) ∧
    (∀ k, (∀ e ∈ S, k ≠ place p i e) → slot (S.foldl (putEntry i) p).aAction k = slot p.aAction k) ∧
    p.nAction ≤ (S.foldl (putEntry i) p).nAction ∧
    (p.nAction ≤ p.aAction.length → (S.foldl (putEntry i) p).nAction ≤ p.aAction.length) := by
  induction S generalizing p with
  | nil => exact ⟨rfl,fun _ he => absurd he List.not_mem_nil,fun _ _ => rfl,Nat.le_refl _,id⟩
  | cons e S ih =>
    obtain ⟨hnot,hnd⟩ := List.nodup_cons.mp hnd
    obtain ⟨h0,hlt⟩ := hS e (List.mem_cons_self ..)
    have hj : (place p i e).toNat < p.aAction.length := by omega
    have hlen : (putEntry i p e).aAction.length = p.aAction.length := List.length_set
    have hplace : ∀ u, place (putEntry i p e) i u = place p i u := fun _ => rfl
    have hne : ∀ u ∈ S, place p i u ≠ place p i e := by
      intro u hu heq
      have hla : u.lookahead = e.lookahead := by
        rw [place,place] at heq
        omega
      exact hnot (hla ▸ List.mem_map_of_mem hu)
    obtain ⟨h₁,h₂,h₃,h₄,h₅⟩ := ih (putEntry i p e) (fun u hu => by
      rw [hplace,hlen]
      exact hS u (List.mem_cons_of_mem _ hu)) hnd
    have hn : (putEntry i p e).nAction = max p.nAction ((place p i e).toNat + 1) := rfl
    have hset : ∀ k, slot (putEntry i p e).aAction k = if k = place p i e then e else slot p.aAction k := by
      intro k
      have h := slot_set hj e k
      rwa [Int.toNat_of_nonneg h0] at h
    rw [List.foldl_cons]
    refine ⟨h₁.trans hlen,?_,?_,?_,?_⟩
    · intro u hu
      rcases List.mem_cons.mp hu with rfl | hu
      · rw [h₃ (place p i u) (fun v hv => (hne v hv).symm),hset,if_pos rfl]
        exact ⟨rfl,by omega⟩
      · exact h₂ u hu
    · intro k hk
      rw [h₃ k (fun u hu => hk u (List.mem_cons_of_mem _ hu)),hset,if_neg (hk e (List.mem_cons_self ..))]
    · omega
    · intro hle
      have h := h₅ (by rw [hlen,hn]; omega)
      rwa [hlen] at h

/-- The sets that are in the table, with their offsets: each entry is found at the offset
of its set, every used slot is one of these, and sets at one offset have the same entries. -/
structure Packed (p : Acttab) (placed : List (ℤ × List LookaheadAction)) : Prop where
  le : p.nAction ≤ p.aAction.length
  free : ∀ k : ℤ, p.nAction ≤ k → (slot p.aAction k).lookahead < 0
  sets : ∀ o S, (o,S) ∈ placed → ActionSet S
  found : ∀ o S, (o,S) ∈ placed → ∀ e ∈ S, slot p.aAction (o + e.lookahead) = e
  owned : ∀ k, 0 ≤ (slot p.aAction k).lookahead →
    ∃ o S, (o,S) ∈ placed ∧ slot p.aAction k ∈ S ∧ k = o + (slot p.aAction k).lookahead
  same : ∀ o S S', (o,S) ∈ placed → (o,S') ∈ placed → ∀ e ∈ S, e ∈ S'

section Insert
variable {p : Acttab} {placed : List (ℤ × List LookaheadAction)} {i : ℕ}

theorem place_eq (p : Acttab) (i : ℤ) (e : LookaheadAction) :
    place p i e = (i - p.mnLookahead) + e.lookahead := by
  rw [place]
  omega

theorem matching_mem (hp : Packed p placed) (hS : ActionSet p.aLookahead)
    (hall : ∀ e ∈ p.aLookahead, 0 ≤ place p i e ∧ place p i e < p.nAction ∧ slot p.aAction (place p i e) = e)
    (hm : (List.range p.nAction).countP (belongs p i) = p.aLookahead.length) {k : ℤ}
    (h0 : 0 ≤ (slot p.aAction k).lookahead)
    (hk : k = (i - p.mnLookahead) + (slot p.aAction k).lookahead) : slot p.aAction k ∈ p.aLookahead := by
  have hnodup : (p.aLookahead.map fun e => (place p i e).toNat).Nodup := by
    refine List.Nodup.map_on ?_ (List.Nodup.of_map _ hS.nodup)
    intro u hu v hv huv
    have hpu := hall u hu
    have hpv := hall v hv
    have heq : place p i u = place p i v := by omega
    rw [← hpu.2.2,← hpv.2.2,heq]
  have hsub : (p.aLookahead.map fun e => (place p i e).toNat) ⊆
      (List.range p.nAction).filter (belongs p i) := by
    intro j hj
    obtain ⟨e,he,rfl⟩ := List.mem_map.mp hj
    obtain ⟨h1,h2,h3⟩ := hall e he
    refine List.mem_filter.mpr ⟨List.mem_range.mpr (by omega),decide_eq_true ?_⟩
    rw [Int.toNat_of_nonneg h1,h3]
    refine ⟨hS.nonneg e he,?_⟩
    rw [place]
    omega
  have hperm := (List.subperm_of_subset hnodup hsub).perm_of_length_le (Nat.le_of_eq (by
    rw [List.length_map,← List.countP_eq_length_filter,hm]))
  have hk0 := slot_getElem h0
  have hlt : k < p.nAction := by
    by_contra hge
    exact absurd (hp.free k (by omega)) (by omega)
  have hmem : k.toNat ∈ (List.range p.nAction).filter (belongs p i) := by
    refine List.mem_filter.mpr ⟨List.mem_range.mpr (by omega),decide_eq_true ?_⟩
    rw [Int.toNat_of_nonneg hk0]
    exact ⟨h0,by omega⟩
  obtain ⟨e,he,hek⟩ := List.mem_map.mp (hperm.mem_iff.mpr hmem)
  obtain ⟨h1,h2,h3⟩ := hall e he
  have heq : place p i e = k := by omega
  rw [← heq,h3]
  exact he

/-- An index at which the set can be entered: what is in its slots already is the same,
and the used slots that belong to the offset are the entries of the set, if there are any. -/
structure Fits (p : Acttab) (i : ℤ) : Prop where
  room : ∀ e ∈ p.aLookahead, 0 ≤ place p i e ∧ place p i e < p.aAction.length
  agrees : ∀ e ∈ p.aLookahead, 0 ≤ (slot p.aAction (place p i e)).lookahead → slot p.aAction (place p i e) = e
  only : ∀ k, 0 ≤ (slot p.aAction k).lookahead → k = (i - p.mnLookahead) + (slot p.aAction k).lookahead →
    slot p.aAction k ∈ p.aLookahead ∧ ∀ e ∈ p.aLookahead, slot p.aAction (place p i e) = e

theorem findDuplicate_fits (hp : Packed p placed) (hS : ActionSet p.aLookahead)
    (h : findDuplicate p = some i) : Fits p i := by
  have hd := List.find?_some h
  simp only [isDuplicate,Bool.and_eq_true,List.all_eq_true,decide_eq_true_eq] at hd
  obtain ⟨⟨-,hall⟩,hm⟩ := hd
  have hle := hp.le
  refine ⟨fun e he => ?_,fun e he _ => (hall e he).2.2,fun k h0 hk =>
    ⟨matching_mem hp hS hall hm h0 hk,fun e he => (hall e he).2.2⟩⟩
  obtain ⟨h1,h2,-⟩ := hall e he
  exact ⟨h1,by omega⟩

theorem findHole_fits (hp : Packed p placed) (hS : ActionSet p.aLookahead) (hb : Bounds p)
    (h : findHole p = some i) : Fits p i := by
  have hd := List.find?_some h
  have hi := List.mem_range.mp (List.mem_of_find?_eq_some h)
  simp only [isHole,Bool.and_eq_true,List.all_eq_true,decide_eq_true_eq,List.mem_range] at hd
  obtain ⟨⟨-,hall⟩,hnone⟩ := hd
  have hmn := hS.nonneg _ hb.least
  refine ⟨fun e he => ?_,fun e he h0 => absurd (hall e he).2 (by omega),fun k h0 hk => ?_⟩
  · have hbe := hb.bounds e he
    refine ⟨(hall e he).1,?_⟩
    rw [place]
    dsimp only at hmn
    omega
  -- A used slot at the offset would have ended the check of this index.
  · have hk0 := slot_getElem h0
    have hlt : k < p.nAction := by
      by_contra hge
      exact absurd (hp.free k (by omega)) (by omega)
    have hne := hnone k.toNat (by omega)
    rw [Int.toNat_of_nonneg hk0] at hne
    omega

theorem grow_packed (hp : Packed p placed) : Packed (grow p) placed := by
  unfold grow
  split
  · refine ⟨?_,?_,hp.sets,?_,?_,hp.same⟩
    · exact Nat.le_trans hp.le (by simp)
    · simpa only [slot_append] using hp.free
    · simpa only [slot_append] using hp.found
    · simpa only [slot_append] using hp.owned
  · exact hp

theorem grow_set (p : Acttab) : (grow p).aLookahead = p.aLookahead ∧ (Bounds p → Bounds (grow p)) := by
  unfold grow
  split
  · exact ⟨rfl,fun hb => ⟨hb.least,hb.bounds⟩⟩
  · exact ⟨rfl,id⟩

theorem foldl_packed (hp : Packed p placed) (hS : ActionSet p.aLookahead) {i : ℤ} (hf : Fits p i) :
    Packed { p.aLookahead.foldl (putEntry i) p with aLookahead := [] }
      ((i - p.mnLookahead,p.aLookahead)::placed) := by
  obtain ⟨hlen,hin,hout,hge,hle⟩ := foldl_putEntry i p.aLookahead p hf.room hS.nodup
  -- What was used before is still there.
  have hkeeps : ∀ k, 0 ≤ (slot p.aAction k).lookahead →
      slot (p.aLookahead.foldl (putEntry i) p).aAction k = slot p.aAction k := by
    intro k h0
    by_cases hk : ∀ e ∈ p.aLookahead, k ≠ place p i e
    · exact hout k hk
    · push Not at hk
      obtain ⟨e,he,rfl⟩ := hk
      rw [(hin e he).1,hf.agrees e he h0]
  have hold : ∀ o S, (o,S) ∈ placed → ∀ e ∈ S,
      slot (p.aLookahead.foldl (putEntry i) p).aAction (o + e.lookahead) = e := by
    intro o S hoS e he
    have hfound := hp.found o S hoS e he
    rw [hkeeps _ (by rw [hfound]; exact (hp.sets o S hoS).nonneg e he),hfound]
  -- A set that has the same offset has the same entries.
  have hsame : ∀ S, (i - p.mnLookahead,S) ∈ placed → ∀ e, e ∈ S ↔ e ∈ p.aLookahead := by
    intro S hoS e
    constructor
    · intro he
      have hfound := hp.found _ S hoS e he
      have h0 := (hp.sets _ S hoS).nonneg e he
      have hmem := (hf.only (i - p.mnLookahead + e.lookahead) (by rw [hfound]; exact h0) (by rw [hfound])).1
      rwa [hfound] at hmem
    · intro he
      obtain ⟨u,hu⟩ := List.exists_mem_of_ne_nil S (hp.sets _ S hoS).ne_nil
      have hfound := hp.found _ S hoS u hu
      have h0 := (hp.sets _ S hoS).nonneg u hu
      have hslot := (hf.only (i - p.mnLookahead + u.lookahead) (by rw [hfound]; exact h0)
        (by rw [hfound])).2 e he
      obtain ⟨o,S',hoS',hmem,hk⟩ := hp.owned (place p i e) (by rw [hslot]; exact hS.nonneg e he)
      rw [hslot] at hmem hk
      have ho : o = i - p.mnLookahead := by
        rw [place_eq] at hk
        omega
      exact hp.same _ S' S (ho ▸ hoS') hoS e hmem
  refine ⟨?_,?_,?_,?_,?_,?_⟩
  · rw [hlen]
    exact hle hp.le
  · intro k hk
    dsimp only at hk ⊢
    rw [hout k (fun e he heq => absurd (hin e he).2 (by omega))]
    exact hp.free k (by omega)
  · intro o S hoS
    rcases List.mem_cons.mp hoS with heq | hoS
    · cases heq
      exact hS
    · exact hp.sets o S hoS
  · intro o S hoS e he
    rcases List.mem_cons.mp hoS with heq | hoS
    · cases heq
      rw [← place_eq]
      exact (hin e he).1
    · exact hold o S hoS e he
  · intro k h0
    by_cases hk : ∀ e ∈ p.aLookahead, k ≠ place p i e
    · dsimp only at h0 ⊢
      rw [hout k hk] at h0 ⊢
      obtain ⟨o,S,hoS,hmem,hko⟩ := hp.owned k h0
      exact ⟨o,S,List.mem_cons_of_mem _ hoS,hmem,hko⟩
    · push Not at hk
      obtain ⟨e,he,rfl⟩ := hk
      dsimp only
      rw [(hin e he).1]
      exact ⟨_,_,List.mem_cons_self ..,he,place_eq p i e⟩
  · intro o S S' hoS hoS' e he
    rcases List.mem_cons.mp hoS with heq | hoS
    · cases heq
      rcases List.mem_cons.mp hoS' with heq | hoS'
      · cases heq
        exact he
      · exact (hsame S' hoS' e).mpr he
    · rcases List.mem_cons.mp hoS' with heq | hoS'
      · cases heq
        exact (hsame S hoS e).mp he
      · exact hp.same o S S' hoS hoS' e he

theorem acttabInsert_packed (hp : Packed p placed) (hS : ActionSet p.aLookahead) (hb : Bounds p)
    (hf : (findDuplicate (grow p)).isSome ∨ (findHole (grow p)).isSome) :
    Packed (acttabInsert p).2 (((acttabInsert p).1,p.aLookahead)::placed) := by
  obtain ⟨hset,hgb⟩ := grow_set p
  have hgp := grow_packed hp
  have hgS : ActionSet (grow p).aLookahead := by rwa [hset]
  rw [← hset]
  have hmn : p.mnLookahead = (grow p).mnLookahead := by
    unfold grow
    split <;> rfl
  unfold acttabInsert
  dsimp only
  cases hd : findDuplicate (grow p) with
  | some i =>
    exact foldl_packed hgp hgS (findDuplicate_fits hgp hgS hd)
  | none =>
    cases hh : findHole (grow p) with
    | some i =>
      exact foldl_packed hgp hgS (findHole_fits hgp hgS (hgb hb) hh)
    | none =>
      rw [hd,hh] at hf
      exact absurd hf (by decide)

end Insert

theorem acttabAlloc_packed : Packed acttabAlloc [] := by
  refine ⟨Nat.le_refl _,?_,?_,?_,?_,?_⟩ <;> simp [acttabAlloc,slot,unused]

theorem acttabInsert_empties (p : Acttab) : (acttabInsert p).2.aLookahead = [] := rfl

theorem packAll_length (Ss : List (List LookaheadAction)) (p : Acttab) :
    (packAll Ss p).1.length = Ss.length := by
  induction Ss generalizing p with
  | nil => rfl
  | cons S Ss ih => exact congrArg (· + 1) (ih _)

/-- After a run, the sets of before and those of the run are in the table. -/
theorem packAll_packed (Ss : List (List LookaheadAction)) {p : Acttab}
    {placed : List (ℤ × List LookaheadAction)}
    (hp : Packed p placed) (hnil : p.aLookahead = []) (hS : ∀ S ∈ Ss, ActionSet S) (hf : findsAll Ss p = true) :
    Packed (packAll Ss p).2 (((packAll Ss p).1.zip Ss).reverse ++ placed) := by
  induction Ss generalizing p placed with
  | nil => exact hp
  | cons S Ss ih =>
    obtain ⟨hset,hact,hn,hb⟩ := transact_spec hnil S
    have hSS := hS S (List.mem_cons_self ..)
    simp only [findsAll,Bool.and_eq_true,Bool.or_eq_true] at hf
    have hpt : Packed (transact p S) placed :=
      ⟨by rw [hn,hact]; exact hp.le,by rw [hn,hact]; exact hp.free,hp.sets,by rw [hact]; exact hp.found,
        by rw [hact]; exact hp.owned,hp.same⟩
    have hstep := acttabInsert_packed hpt (by rwa [hset]) (hb.resolve_left hSS.ne_nil) hf.1
    rw [hset] at hstep
    have h := ih hstep (acttabInsert_empties _) (fun S' hS' => hS S' (List.mem_cons_of_mem _ hS')) hf.2
    simpa only [packAll,List.zip_cons_cons,List.reverse_cons,List.append_assoc,List.singleton_append] using h

/-- When every insertion finds a place, the table has at the offset of a set the actions
of the set and no other ones. -/
theorem packAll_lookup {Ss : List (List LookaheadAction)} (hS : ∀ S ∈ Ss, ActionSet S)
    (hf : findsAll Ss acttabAlloc = true) {o : ℤ} {S : List LookaheadAction}
    (hoS : (o,S) ∈ (packAll Ss acttabAlloc).1.zip Ss) {u : LookaheadAction} (h0 : 0 ≤ u.lookahead) :
    slot (packAll Ss acttabAlloc).2.aAction (o + u.lookahead) = u ↔ u ∈ S := by
  have hp := packAll_packed Ss acttabAlloc_packed rfl hS hf
  rw [List.append_nil] at hp
  have hin := List.mem_reverse.mpr hoS
  refine ⟨fun hslot => ?_,hp.found o S hin u⟩
  obtain ⟨o',S',hoS',hmem,hk⟩ := hp.owned (o + u.lookahead) (by rw [hslot]; exact h0)
  rw [hslot] at hmem hk
  have ho : o' = o := by omega
  exact hp.same o S' S (ho ▸ hoS') hin u hmem

/-- Without a place, a set is entered at the offset of another one: here the state that
has an action for 1 gets one for 5. -/
example : findsAll ((List.range 15).map (fun n => [⟨1,n⟩]) ++ [[⟨5,99⟩]]) acttabAlloc = false ∧
    (packAll ((List.range 15).map (fun n => [⟨1,n⟩]) ++ [[⟨5,99⟩]]) acttabAlloc).1.drop 13 = [12,13,12] := by
  decide

end Generator
end Xjd1
