import Xjd1.Json.Order
import Xjd1.Json.Paths
import Xjd1.Lib.RefCount
import Xjd1.Query.Operators

/-! The memory of `json.c`: nodes with reference counts that may be shared, and what is done
with them in place. -/
namespace Xjd1

open Heap RefCount Fueled

variable {R : Type}

/-- The content of a node: its type and the union `u`, with pointers to the nodes below. -/
inductive JsonU (R : Type)
  | false
  | true
  | real (r : R)
  | null
  | string (z : Bytes)
  | array (apElem : List (Option ℕ))
  | struct (pFirst : List (Bytes × Option ℕ))

def JsonU.slots : JsonU R → List (Option ℕ)
  | .array apElem => apElem
  | .struct pFirst => pFirst.map Prod.snd
  | _ => []

instance : RefCount.Holds (JsonU R) where
  ptrs u := u.slots.filterMap id
  cleared _ := .null
  ptrs_cleared _ := rfl

abbrev JsonHeap (R : Type) := Cells (Counted (JsonU R))

def getNode (h : JsonHeap R) (p : ℕ) : Exec (Counted (JsonU R)) := get .undefined h p

def xjd1JsonFree (n : ℕ) (h : JsonHeap R) : Option ℕ → Exec (JsonHeap R)
  | none => .ok h
  | some p => release .undefined n h p

def xjd1JsonToNull (n : ℕ) (h : JsonHeap R) (p : ℕ) : Exec (JsonHeap R) := clear .undefined (release .undefined n) h p

def xjd1JsonNew (h : JsonHeap R) : JsonHeap R := alloc h ⟨1,.false⟩

def xjd1JsonRef (h : JsonHeap R) : Option ℕ → Exec (JsonHeap R)
  | none => .ok h
  | some p => retain .undefined h p

def copySlots (copy : JsonHeap R → Option ℕ → Exec (Option ℕ × JsonHeap R)) :
    JsonHeap R → List (Option ℕ) → Exec (List (Option ℕ) × JsonHeap R)
  | h, [] => .ok ([],h)
  | h, p::ps => do
    let (q,h) ← copy h p
    let (qs,h) ← copySlots copy h ps
    .ok (q::qs,h)

def JsonU.withSlots (u : JsonU R) (ps : List (Option ℕ)) : JsonU R :=
  match u with
  | .array _ => .array ps
  | .struct pFirst => .struct ((pFirst.map Prod.fst).zip ps)
  | u => u

/-- `xjd1JsonDeepCopy`. The union is copied before the pointers in it are. -/
def xjd1JsonDeepCopy : ℕ → JsonHeap R → Option ℕ → Exec (Option ℕ × JsonHeap R)
  | 0, _, _ => .more
  | _+1, h, none => .ok (none,h)
  | n+1, h, some p => do
    let a ← getNode h p
    let pNew := h.length
    let h := put (xjd1JsonNew h) pNew ⟨1,a.val⟩
    let (ps,h) ← copySlots (xjd1JsonDeepCopy n) h a.val.slots
    .ok (some pNew,put h pNew ⟨1,a.val.withSlots ps⟩)

def xjd1JsonEdit (n : ℕ) (h : JsonHeap R) : Option ℕ → Exec (Option ℕ × JsonHeap R)
  | none => .ok (none,h)
  | some p => do
    let a ← getNode h p
    if a.nRef = 1 then .ok (some p,h) else xjd1JsonDeepCopy n h (some p)

def newNode (h : JsonHeap R) (u : JsonU R) : JsonHeap R := put (xjd1JsonNew h) h.length ⟨1,u⟩

/-- A node in a pool (`xjd1JsonNew` with one), whose count no program runs down to zero. -/
def poolNode (h : JsonHeap R) (u : JsonU R) : JsonHeap R := alloc h ⟨10000,u⟩

def setNode (h : JsonHeap R) (p : ℕ) (u : JsonU R) : Exec (JsonHeap R) := do
  let a ← getNode h p
  .ok (put h p { a with val := u })

mutual
def parsedNode : JsonNode R → JsonHeap R → Option ℕ × JsonHeap R
  | .nullptr, h => (none,h)
  | .array apElem, h =>
    let (ps,h') := parsedList apElem (newNode h .null)
    (some h.length,put h' h.length ⟨1,.array ps⟩)
  | .struct pFirst, h =>
    let (ps,h') := parsedMembers pFirst (newNode h .null)
    (some h.length,put h' h.length ⟨1,.struct ((pFirst.map Prod.fst).zip ps)⟩)
  | .false, h => (some h.length,newNode h .false)
  | .true, h => (some h.length,newNode h .true)
  | .real r, h => (some h.length,newNode h (.real r))
  | .null, h => (some h.length,newNode h .null)
  | .string z, h => (some h.length,newNode h (.string z))

def parsedList : List (JsonNode R) → JsonHeap R → List (Option ℕ) × JsonHeap R
  | [], h => ([],h)
  | v::vs, h =>
    let (p,h) := parsedNode v h
    let (ps,h) := parsedList vs h
    (p::ps,h)

def parsedMembers : List (Bytes × JsonNode R) → JsonHeap R → List (Option ℕ) × JsonHeap R
  | [], h => ([],h)
  | (_,v)::ms, h =>
    let (p,h) := parsedNode v h
    let (ps,h) := parsedMembers ms h
    (p::ps,h)
end

/-- The content of the node that has the value `v`, with these pointers to its children. -/
def JsonNode.content (v : JsonNode R) (ps : List (Option ℕ)) : JsonU R :=
  match v with
  | .nullptr | .null => .null
  | .false => .false
  | .true => .true
  | .real r => .real r
  | .string z => .string z
  | .array _ => .array ps
  | .struct pFirst => .struct ((pFirst.map Prod.fst).zip ps)

/-- The pointer leads to the value `v`; with `own`, nothing else refers to the nodes it is made of. -/
inductive Stored (own : Bool) (h : JsonHeap R) : JsonNode R → Option ℕ → Prop
  | nullptr : Stored own h .nullptr none
  | node {v : JsonNode R} {i : ℕ} {a : Counted (JsonU R)} {ps : List (Option ℕ)} (hv : v ≠ .nullptr) (hl : Live h i a)
      (h1 : own = true → a.nRef = 1) (hc : a.val = v.content ps) (hlen : ps.length = v.children.length)
      (hs : ∀ j, Stored own h (v.child j) ps[j]?.join) : Stored own h v (some i)

theorem slots_content {v : JsonNode R} {ps : List (Option ℕ)} (hlen : ps.length = v.children.length) :
    (v.content ps).slots = ps := by
  cases v with
  | array vs => rfl
  | struct ms =>
    have hle : ps.length ≤ (ms.map Prod.fst).length := by simpa [JsonNode.children] using hlen.le
    exact List.map_snd_zip hle
  | _ => exact (List.length_eq_zero_iff.mp hlen).symm

theorem ptrs_content {v : JsonNode R} {ps : List (Option ℕ)} (hlen : ps.length = v.children.length) :
    Holds.ptrs (v.content ps) = ps.filterMap id := congrArg (List.filterMap id) (slots_content hlen)

theorem mem_of_join {ps : List (Option ℕ)} {j q : ℕ} (hq : q ∈ ps[j]?.join) : some q ∈ ps := by
  cases hj : ps[j]? with
  | none => simp [hj] at hq
  | some o =>
    have ho : o = some q := by simpa [hj] using hq
    exact ho ▸ List.mem_of_getElem? hj

theorem content_withSlots (v : JsonNode R) (ps qs : List (Option ℕ)) (hlen : ps.length = v.children.length) :
    (v.content ps).withSlots qs = v.content qs := by
  cases v with
  | struct ms =>
    have hle : (ms.map Prod.fst).length ≤ ps.length := by simpa [JsonNode.children] using hlen.ge
    simp only [JsonNode.content,JsonU.withSlots,List.map_fst_zip hle]
  | _ => rfl

theorem content_setChild (v w : JsonNode R) (i : ℕ) (ps : List (Option ℕ)) : (v.setChild i w).content ps = v.content ps := by
  cases v with
  | struct ms =>
    have hfst : (ms.modify i fun m => (m.1,w)).map Prod.fst = ms.map Prod.fst := by
      induction ms generalizing i with
      | nil => simp
      | cons m ms ih => cases i <;> simp_all
    simp only [JsonNode.setChild,JsonNode.content,hfst]
  | _ => rfl

section Stored
variable {own own' : Bool} {h h' : JsonHeap R} {v w : JsonNode R} {p : Option ℕ} {i : ℕ} {Z : Finset ℕ}
  {H : Multiset ℕ} {r : ℕ → ℕ}

theorem mem_ptrs {u : JsonU R} {q : ℕ} : q ∈ Holds.ptrs u ↔ some q ∈ u.slots := by
  simp [Holds.ptrs]

theorem Stored.frame (S : ℕ → Prop) (ho : own' = true → own = true)
    (hS : ∀ i a, S i → Live h i a → ∃ a', Live h' i a' ∧ a'.val = a.val ∧ (own' = true → a.nRef = 1 → a'.nRef = 1))
    (hcl : ∀ i a, S i → Live h i a → ∀ q ∈ Holds.ptrs a.val, S q) (hs : Stored own h v p) (hp : ∀ q ∈ p, S q) :
    Stored own' h' v p := by
  induction hs with
  | nullptr => exact .nullptr
  | @node v i a ps hv hl h1 hc hlen hs ih =>
    obtain ⟨a',hl',hval,h1'⟩ := hS i a (hp i rfl) hl
    refine .node hv hl' (fun ho' => h1' ho' (h1 (ho ho'))) (hval.trans hc) hlen fun j => ih j fun q hq => ?_
    refine hcl i a (hp i rfl) hl q (mem_ptrs.mpr ?_)
    rw [hc,slots_content hlen]
    exact mem_of_join hq

theorem Sound.ptr_mem (hs : Sound r h Z H) {a : Counted (JsonU R)} (hi : i ∈ refs h Z + H) (hl : Live h i a) {q : ℕ}
    (hq : q ∈ Holds.ptrs a.val) : q ∈ refs h Z + H := by
  refine Multiset.mem_add.mpr (.inl (mem_refs.mpr ⟨i,?_⟩))
  rw [held_live hl (hs.target i hi).1]
  exact hq

theorem Stored.keep (hs : Stored own h v p) (hk : Kept Z h h') (hs' : Sound r h' Z H) (hp : ∀ q ∈ p, q ∈ refs h' Z + H) :
    Stored .false h' v p := by
  have hlive : ∀ i a, i ∈ refs h' Z + H → Live h i a → ∃ a', Live h' i a' ∧ a'.val = a.val := fun i a hi hl => by
    obtain ⟨hZ,a',hl'⟩ := hs'.target i hi
    obtain ⟨b,hb,hval⟩ := hk.val i hZ hl.lt a' hl'
    exact ⟨a',hl',by rw [← hval,hb.unique hl]⟩
  refine hs.frame (fun i => i ∈ refs h' Z + H) (fun h => by cases h) (fun i a hi hl => ?_) (fun i a hi hl q hq => ?_) hp
  · obtain ⟨a',hl',hval⟩ := hlive i a hi hl
    exact ⟨a',hl',hval,fun h => by cases h⟩
  · obtain ⟨a',hl',hval⟩ := hlive i a hi hl
    exact Sound.ptr_mem hs' hi hl' (hval ▸ hq)

/-- A value that is referred to does not change when nodes do that are worked on. -/
theorem Stored.off (hs : Stored own h v p) (hh : Sound r h Z H) (hp : ∀ q ∈ p, q ∈ refs h Z + H)
    (hsame : ∀ i ∉ Z, i < h.length → h'[i]? = h[i]?) : Stored own h' v p := by
  refine hs.frame (fun i => i ∈ refs h Z + H) id (fun i a hi hl => ?_) (fun i a hi hl q hq => Sound.ptr_mem hh hi hl hq) hp
  exact ⟨a,(hsame i (hh.target i hi).1 hl.lt).trans hl,rfl,fun _ => id⟩

theorem Stored.weaken (hs : Stored own h v p) : Stored .false h v p :=
  hs.frame (fun _ => True) (fun h => by cases h) (fun _ a _ hl => ⟨a,hl,rfl,fun h => by cases h⟩)
    (fun _ _ _ _ _ _ => trivial) fun _ _ => trivial

theorem Stored.relax (hs : Stored .true h v p) : Stored own h v p := by
  cases own with
  | false => exact hs.weaken
  | true => exact hs

theorem Stored.extend (hs : Stored own h v p) (hpre : h <+: h') : Stored own h' v p := by
  refine hs.frame (fun _ => True) id (fun i a _ hl => ⟨a,?_,rfl,fun _ => id⟩) (fun _ _ _ _ _ _ => trivial)
    fun _ _ => trivial
  obtain ⟨t,rfl⟩ := hpre
  exact (List.getElem?_append_left hl.lt).trans hl

end Stored

def handle (p : Option ℕ) : Multiset ℕ := (p.toList : Multiset ℕ)

@[simp] theorem handle_none : handle none = 0 := rfl
@[simp] theorem handle_some (i : ℕ) : handle (some i) = {i} := rfl
@[simp] theorem mem_handle {p : Option ℕ} {i : ℕ} : i ∈ handle p ↔ i ∈ p := by
  simp [handle]

section Nodes
variable {h h' : JsonHeap R} {v : JsonNode R} {p : Option ℕ} {i : ℕ} {own : Bool} {Z : Finset ℕ} {H H' : Multiset ℕ}
  {r r' : ℕ → ℕ}

/-- What is referred to keeps its value while nodes are only added and given back. -/
theorem stored_kept (hv : Stored own h v p) (hk : Kept Z h h') (hs : Sound r h' Z H) (hp : ∀ q ∈ p, q ∈ H) :
    Stored .false h' v p :=
  hv.keep hk hs fun q hq => Multiset.mem_add.mpr (.inr (hp q hq))

theorem xjd1JsonFree_spec (hs : Sound r h Z (handle p + H)) :
    ∃ h', Run.Returns (fun n => xjd1JsonFree n h p) h' ∧ Sound r h' Z H ∧ Kept Z h h' := by
  cases p with
  | none => exact ⟨h,.of_forall fun _ => rfl,by simpa using hs,.refl Z h⟩
  | some i =>
    obtain ⟨h',he,hs',hk,_⟩ := release_spec Stop.undefined Z i h H (by simpa using hs)
    exact ⟨h',he,hs',hk⟩

theorem xjd1JsonRef_spec (hs : Sound r h Z H) (hp : ∀ q ∈ p, q ∈ refs h Z + H) (hv : Stored own h v p) :
    ∃ h', xjd1JsonRef h p = .ok h' ∧ Sound r h' Z (handle p + H) ∧ Kept Z h h' ∧ Stored .false h' v p := by
  cases p with
  | none => exact ⟨h,rfl,by simpa using hs,.refl Z h,hv.weaken⟩
  | some i =>
    obtain ⟨a,hl,he,hs'⟩ := hs.retain (hp i rfl) Stop.undefined
    have hk : Kept Z h (put h i { a with nRef := a.nRef+1 }) := .put (hs.target i (hp i rfl)).1 fun _ => ⟨a,hl,rfl⟩
    exact ⟨_,he,by simpa using hs',hk,stored_kept hv hk hs' fun q hq => by simp [Option.mem_some_iff.mp hq]⟩

theorem newNode_live (h : JsonHeap R) (u : JsonU R) : Live (newNode h u) h.length ⟨1,u⟩ := by
  simp [Live,newNode,xjd1JsonNew,put,alloc]

theorem newNode_sound (hs : Sound r h Z H) (u : JsonU R) : Sound r (newNode h u) (insert h.length Z) H :=
  (hs.alloc _).write (Finset.mem_insert_self _ _) _

theorem newNode_old (u : JsonU R) (hi : i < h.length) : (newNode h u)[i]? = h[i]? := by
  rw [newNode,put,List.getElem?_set_ne (Nat.ne_of_gt hi),xjd1JsonNew,alloc,List.getElem?_append_left hi]

theorem newNode_kept (u : JsonU R) (hZ : ∀ z ∈ Z, z < h.length) : Kept Z h (newNode h u) := by
  refine ⟨by simp [newNode,xjd1JsonNew],fun z hz => newNode_old u (hZ z hz),fun i _ hi a ha => ⟨a,?_,rfl⟩⟩
  exact (newNode_old u hi).symm.trans ha

/-- The node of a result, made before the operands were evaluated, gets the value. -/
theorem finish_spec {u : JsonU R} (ps : List (Option ℕ)) (hs0 : Sound r h Z H)
    (hs : Sound r' h' (insert h.length Z) ((ps.filterMap id : List ℕ) + H'))
    (hk : Kept (insert h.length Z) (newNode h u) h') (hv : v ≠ .nullptr) (hlen : ps.length = v.children.length)
    (hc : ∀ j, Stored own h' (v.child j) ps[j]?.join) :
    ∃ h2 r2, setNode h' h.length (v.content ps) = .ok h2 ∧ Sound r2 h2 Z (h.length ::ₘ H') ∧ Kept Z h h2 ∧
      Stored own h2 v (some h.length) := by
  have hmem : h.length ∈ insert h.length Z := Finset.mem_insert_self _ _
  have hZ : h.length ∉ Z := fun hm => Nat.lt_irrefl _ (hs0.inside _ hm)
  have hl : Live h' h.length ⟨1,u⟩ := hk.live hmem (newNode_live h u)
  have hs1 := hs.write hmem ⟨1,v.content ps⟩
  have hl1 := hl.put ⟨1,v.content ps⟩
  have hsame : ∀ k, k ≠ h.length → (put h' h.length ⟨1,v.content ps⟩)[k]? = h'[k]? := fun k hk =>
    List.getElem?_set_ne hk.symm
  rw [← ptrs_content hlen] at hs1
  obtain ⟨r2,hs2⟩ := hs1.leave hZ hl1 rfl
  refine ⟨_,r2,by rw [setNode,getNode,get_live hl]; rfl,hs2,⟨?_,fun z hz => ?_,fun i hi hlt a ha => ?_⟩,
    .node hv hl1 (fun _ => rfl) rfl hlen fun j => (hc j).off hs (fun q hq => ?_) fun k hkZ _ => hsame k ?_⟩
  · exact Nat.le_trans (newNode_kept u hs0.inside).length (by simpa using hk.length)
  · have hlt : z < h.length := hs0.inside z hz
    rw [hsame z (Nat.ne_of_lt hlt),hk.fixed z (Finset.mem_insert_of_mem hz),newNode_old u hlt]
  · have hne : i ≠ h.length := Nat.ne_of_lt hlt
    have hi' : i ∉ insert h.length Z := fun hm => (Finset.mem_insert.mp hm).elim hne hi
    obtain ⟨b,hb,hval⟩ := hk.val i hi' (by simp [newNode,xjd1JsonNew]; omega) a ((hsame i hne).symm.trans ha)
    exact ⟨b,(newNode_old u hlt).symm.trans hb,hval⟩
  · exact Multiset.mem_add.mpr (.inr (Multiset.mem_add.mpr (.inl (by simpa using mem_of_join hq))))
  · exact fun he => hkZ (he ▸ hmem)

/-- A node without pointers is new and the only reference to it is the one that is returned. -/
theorem newLeaf_spec (hs : Sound r h Z H) (hv : v ≠ .nullptr) (hc : v.children = []) :
    ∃ r', Sound r' (newNode h (v.content [])) Z (h.length ::ₘ H) ∧ Kept Z h (newNode h (v.content [])) ∧
      Stored .true (newNode h (v.content [])) v (some h.length) := by
  have hlen : ([] : List (Option ℕ)).length = v.children.length := by rw [hc]; rfl
  have hl := newNode_live h (v.content [])
  have hs1 : Sound r (newNode h (v.content [])) (insert h.length Z) (Holds.ptrs (v.content []) + H) := by
    rw [ptrs_content hlen]
    simpa using newNode_sound hs (v.content [])
  obtain ⟨r',hs2⟩ := hs1.leave (fun hm => Nat.lt_irrefl _ (hs.inside _ hm)) hl rfl
  refine ⟨r',hs2,newNode_kept _ hs.inside,.node hv hl (fun _ => rfl) rfl hlen fun j => ?_⟩
  simpa [JsonNode.child,hc] using Stored.nullptr

theorem poolNode_spec (hs : Sound r h Z H) (hv : v ≠ .nullptr) (hc : v.children = []) :
    ∃ r', Sound r' (poolNode h (v.content [])) Z (Multiset.replicate 10000 h.length + H) ∧
      Stored .false (poolNode h (v.content [])) v (some h.length) := by
  obtain ⟨r',hs1,_,_⟩ := newLeaf_spec hs hv hc
  have hl := newNode_live h (v.content [])
  have hput : put (newNode h (v.content [])) h.length ⟨10000,v.content []⟩ = poolNode h (v.content []) := by
    simp [newNode,xjd1JsonNew,poolNode,put,alloc]
  have hZ : h.length ∉ Z := fun hm => Nat.lt_irrefl _ (hs.inside _ hm)
  have hone := hs1.counted h.length _ hl hZ
  have hzero : (refs (newNode h (v.content [])) Z + H).count h.length = 0 := by
    rw [Multiset.add_cons,Multiset.count_cons_self] at hone
    simp only at hone
    omega
  rw [Multiset.count_add] at hzero
  have hs2 : Sound r' (put (newNode h (v.content [])) h.length ⟨10000,v.content []⟩) Z
      (Multiset.replicate 10000 h.length + H) := by
    refine hs1.recount hl hZ rfl ?_ ?_ fun i hi => ?_
    · simp only [Multiset.count_add,Multiset.count_replicate_self]
      omega
    · exact Multiset.mem_add.mpr (.inr (Multiset.mem_add.mpr (.inl (Multiset.mem_replicate.mpr ⟨by omega,rfl⟩))))
    · rw [Multiset.count_add,Multiset.count_replicate,if_neg hi.symm,Multiset.count_cons_of_ne hi,zero_add]
  rw [hput] at hs2
  refine ⟨r',hs2,.node hv (hput ▸ hl.put _) (fun h => by cases h) rfl (by rw [hc]; rfl) fun j => ?_⟩
  simpa [JsonNode.child,hc] using Stored.nullptr

end Nodes

section Copy
variable {h h' : JsonHeap R} {v : JsonNode R} {p : Option ℕ} {i : ℕ} {Z : Finset ℕ} {H : Multiset ℕ} {r : ℕ → ℕ}

theorem mem_refs_extend (hpre : h <+: h') (hi : i ∈ refs h Z) : i ∈ refs h' Z := by
  obtain ⟨j,hj⟩ := mem_refs.mp hi
  obtain ⟨t,rfl⟩ := hpre
  refine mem_refs.mpr ⟨j,?_⟩
  by_cases hlt : j < h.length
  · rwa [RefCount.held,List.getElem?_append_left hlt]
  · rw [RefCount.held,List.getElem?_eq_none (Nat.not_lt.mp hlt)] at hj
    split at hj <;> cases hj

theorem Live.extend {a : Counted (JsonU R)} (hl : Live h i a) (hpre : h <+: h') : Live h' i a := by
  obtain ⟨t,rfl⟩ := hpre
  exact (List.getElem?_append_left hl.lt).trans hl

theorem extend_put {b : Counted (JsonU R)} (hpre : h <+: h') (hi : h.length ≤ i) : h <+: put h' i b := by
  obtain ⟨t,rfl⟩ := hpre
  rw [put,List.set_append_right _ _ hi]
  exact List.prefix_append h _

theorem Kept.of_prefix (hs : Sound r h Z H) (hpre : h <+: h') : Kept Z h h' := by
  obtain ⟨t,rfl⟩ := hpre
  have hold {i : ℕ} (hi : i < h.length) : (h ++ t)[i]? = h[i]? := List.getElem?_append_left hi
  exact ⟨by simp,fun z hz => hold (hs.inside z hz),fun i _ hi a ha => ⟨a,(hold hi).symm.trans ha,rfl⟩⟩

def Copies (copy : ℕ → JsonHeap R → Option ℕ → Exec (Option ℕ × JsonHeap R)) (v : JsonNode R) : Prop :=
  ∀ r h Z H p, Sound r h Z H → Stored .false h v p → (∀ i ∈ p, i ∈ refs h Z + H) →
    ∃ q h' r', Run.Returns (fun n => copy n h p) (q,h') ∧ h <+: h' ∧ Sound r' h' Z (handle q + H) ∧ Stored .true h' v q

theorem copySlots_spec {copy : ℕ → JsonHeap R → Option ℕ → Exec (Option ℕ × JsonHeap R)} (vs : List (JsonNode R))
    (hcopy : ∀ v ∈ vs, Copies copy v) (ps : List (Option ℕ)) (hlen : ps.length = vs.length) (hs : Sound r h Z H)
    (hv : ∀ j : ℕ, Stored .false h (vs[j]?.getD .nullptr) ps[j]?.join) (hp : ∀ j : ℕ, ∀ i ∈ ps[j]?.join, i ∈ refs h Z + H) :
    ∃ qs h' r', Run.Returns (fun n => copySlots (copy n) h ps) (qs,h') ∧ h <+: h' ∧ Sound r' h' Z ((qs.filterMap id : List ℕ) + H) ∧
      qs.length = vs.length ∧ ∀ j : ℕ, Stored .true h' (vs[j]?.getD .nullptr) qs[j]?.join := by
  induction vs generalizing h ps r H with
  | nil =>
    obtain rfl := List.length_eq_zero_iff.mp hlen
    exact ⟨[],h,r,.of_forall fun _ => rfl,List.prefix_refl h,by simpa using hs,rfl,fun j => by simpa using Stored.nullptr⟩
  | cons v vs ih =>
    obtain ⟨p,ps,rfl⟩ := List.exists_cons_of_length_eq_add_one hlen
    obtain ⟨q,h1,r1,he1,hpre1,hs1,hv1⟩ := hcopy v List.mem_cons_self r h Z H p hs (hv 0) (hp 0)
    have hp1 : ∀ j, ∀ i ∈ ps[j]?.join, i ∈ refs h1 Z + (handle q + H) := fun j i hi => by
      rcases Multiset.mem_add.mp (hp (j+1) i hi) with hm | hm
      · exact Multiset.mem_add.mpr (.inl (mem_refs_extend hpre1 hm))
      · exact Multiset.mem_add.mpr (.inr (Multiset.mem_add.mpr (.inr hm)))
    obtain ⟨qs,h2,r2,he2,hpre2,hs2,hlen2,hv2⟩ := ih (fun w hw => hcopy w (List.mem_cons_of_mem v hw)) ps
      (Nat.succ.inj hlen) hs1 (fun j => (hv (j+1)).extend hpre1) hp1
    refine ⟨q::qs,h2,r2,?_,hpre1.trans hpre2,?_,congrArg Nat.succ hlen2,fun j => ?_⟩
    · filter_upwards [he1,he2] with n hn1 hn2
      simp only [copySlots,hn1,hn2,Run.ok_bind]
    · have hsum : (((q::qs).filterMap id : List ℕ) : Multiset ℕ) = handle q + (qs.filterMap id : List ℕ) := by
        cases q <;> simp
      rw [hsum,add_comm (handle q),add_assoc]
      exact hs2
    · cases j with
      | zero => exact hv1.extend hpre2
      | succ j => exact hv2 j

theorem JsonNode.induction_children {P : JsonNode R → Prop} (h : ∀ v : JsonNode R, (∀ w ∈ v.children, P w) → P v)
    (v : JsonNode R) : P v := by
  induction v using JsonNode.nested with
  | real r => exact h _ fun w hw => by cases hw
  | string z => exact h _ fun w hw => by cases hw
  | array vs ih => exact h _ ih
  | struct ms ih =>
    refine h _ fun w hw => ?_
    obtain ⟨m,hm,rfl⟩ := List.mem_map.mp hw
    exact ih m hm
  | const v hr hz ha hm =>
    refine h _ fun w hw => ?_
    cases v with
    | struct ms => exact absurd rfl (hm ms)
    | array vs => exact absurd rfl (ha vs)
    | _ => cases hw

def Parses (make : JsonHeap R → Option ℕ × JsonHeap R) (v : JsonNode R) : Prop :=
  ∀ r h Z H, Sound r h Z H → ∃ p h' r', make h = (p,h') ∧ h <+: h' ∧ Sound r' h' Z (handle p + H) ∧ Stored .true h' v p

theorem parsedList_spec (vs : List (JsonNode R)) (hvs : ∀ v ∈ vs, Parses (parsedNode v) v) (hs : Sound r h Z H) :
    ∃ ps h' r', parsedList vs h = (ps,h') ∧ h <+: h' ∧ Sound r' h' Z ((ps.filterMap id : List ℕ) + H) ∧
      ps.length = vs.length ∧ ∀ j : ℕ, Stored .true h' (vs[j]?.getD .nullptr) ps[j]?.join := by
  induction vs generalizing h r H with
  | nil => exact ⟨[],h,r,rfl,List.prefix_refl h,by simpa using hs,rfl,fun j => by simpa using Stored.nullptr⟩
  | cons v vs ih =>
    obtain ⟨p,h1,r1,he1,hpre1,hs1,hv1⟩ := hvs v List.mem_cons_self r h Z H hs
    obtain ⟨ps,h2,r2,he2,hpre2,hs2,hlen2,hv2⟩ := ih (fun w hw => hvs w (List.mem_cons_of_mem v hw)) hs1
    refine ⟨p::ps,h2,r2,by simp only [parsedList,he1,he2],hpre1.trans hpre2,?_,congrArg Nat.succ hlen2,fun j => ?_⟩
    · have hsum : (((p::ps).filterMap id : List ℕ) : Multiset ℕ) = handle p + (ps.filterMap id : List ℕ) := by
        cases p <;> simp
      rw [hsum,add_comm (handle p),add_assoc]
      exact hs2
    · cases j with
      | zero => exact hv1.extend hpre2
      | succ j => exact hv2 j

theorem parsedMembers_eq (ms : List (Bytes × JsonNode R)) (h : JsonHeap R) :
    parsedMembers ms h = parsedList (ms.map Prod.snd) h := by
  induction ms generalizing h with
  | nil => rfl
  | cons m ms ih => simp only [parsedMembers,List.map_cons,parsedList,ih]

/-- The nodes of a container are made after its own, which is filled in when they are there. -/
theorem parsedContainer_spec (hne : v ≠ .nullptr) (hvs : ∀ w ∈ v.children, Parses (parsedNode w) w)
    (hnode : ∀ h, parsedNode v h = (some h.length,put (parsedList v.children (newNode h .null)).2 h.length
      ⟨1,v.content (parsedList v.children (newNode h .null)).1⟩)) : Parses (parsedNode v) v := by
  intro r h Z H hs
  have hpre : h <+: newNode h .null := extend_put (List.prefix_append h _) (Nat.le_refl _)
  obtain ⟨ps,h1,r1,he1,hpre1,hs1,hlen,hv1⟩ := parsedList_spec v.children hvs (newNode_sound hs .null)
  have hl : Live h1 h.length ⟨1,.null⟩ := Live.extend (newNode_live h .null) hpre1
  have hk : Kept (insert h.length Z) (newNode h .null) h1 := Kept.of_prefix (newNode_sound hs .null) hpre1
  obtain ⟨h2,r2,he2,hs2,_,hv2⟩ := finish_spec ps hs hs1 hk hne hlen hv1
  have hput : put h1 h.length ⟨1,v.content ps⟩ = h2 := by
    rw [setNode,getNode,get_live hl] at he2
    exact Run.ok.inj he2
  refine ⟨some h.length,h2,r2,?_,?_,by simpa using hs2,hv2⟩
  · rw [hnode,he1,← hput]
  · rw [← hput]
    exact extend_put (hpre.trans hpre1) (Nat.le_refl _)

/-- The nodes of a value that is parsed are its own. -/
theorem parsedNode_spec (v : JsonNode R) : Parses (parsedNode v) v := by
  induction v using JsonNode.induction_children with
  | h v ih =>
    have hleaf (hne : v ≠ .nullptr) (hc : v.children = [])
        (hnode : ∀ h, parsedNode v h = (some h.length,newNode h (v.content []))) : Parses (parsedNode v) v := by
      intro r h Z H hs
      obtain ⟨r',hs',_,hv'⟩ := newLeaf_spec hs hne hc
      exact ⟨_,_,r',hnode h,extend_put (List.prefix_append h _) (Nat.le_refl _),by simpa using hs',hv'⟩
    cases v with
    | nullptr => exact fun r h Z H hs => ⟨none,h,r,rfl,List.prefix_refl h,by simpa using hs,.nullptr⟩
    | array vs => exact parsedContainer_spec (fun h => by cases h) ih fun _ => rfl
    | struct ms =>
      refine parsedContainer_spec (fun h => by cases h) ih fun h => ?_
      simp only [parsedNode,parsedMembers_eq,JsonNode.children,JsonNode.content]
    | _ => exact hleaf (fun h => by cases h) rfl fun _ => rfl

/-- A deep copy has the value of the original, on nodes of its own. -/
theorem deepCopy_spec (v : JsonNode R) : Copies xjd1JsonDeepCopy v := by
  induction v using JsonNode.induction_children with
  | h v ih =>
    intro r h Z H p hs hv hp
    cases hv with
    | nullptr =>
      exact ⟨none,h,r,Run.Returns.succ_iff.mp (.of_forall fun _ => rfl),List.prefix_refl h,by simpa using hs,.nullptr⟩
    | @node _ i a ps hne hl h1 hc hlen hch =>
      have hslots : a.val.slots = ps := by rw [hc,slots_content hlen]
      -- the new node is worked on while the nodes below are copied
      have hs0 : Sound r (put (xjd1JsonNew h) h.length ⟨1,a.val⟩) (insert h.length Z) H :=
        (hs.alloc _).write (Finset.mem_insert_self _ _) _
      have hpre0 : h <+: put (xjd1JsonNew h) h.length ⟨1,a.val⟩ :=
        extend_put (List.prefix_append h _) (Nat.le_refl _)
      have hmem : ∀ j : ℕ, ∀ q ∈ ps[j]?.join, q ∈ refs h Z + H := fun j q hq =>
        Sound.ptr_mem hs (hp i rfl) hl (mem_ptrs.mpr (hslots ▸ mem_of_join hq))
      have hrefs : refs (put (xjd1JsonNew h) h.length ⟨1,a.val⟩) (insert h.length Z) = refs h Z := by
        rw [refs_put_mem (Finset.mem_insert_self _ _),xjd1JsonNew,refs_alloc_insert]
      obtain ⟨qs,h2,r2,he2,hpre2,hs2,hlen2,hv2⟩ := copySlots_spec v.children ih ps hlen hs0 (fun j => (hch j).extend hpre0)
        fun j q hq => by rw [hrefs]; exact hmem j q hq
      have hZ : h.length ∉ Z := fun hm => Nat.lt_irrefl _ (hs.inside _ hm)
      have hl2 : Live h2 h.length ⟨1,a.val⟩ := Live.extend (by simp [Live,put,xjd1JsonNew,alloc]) hpre2
      have hs3 := hs2.write (Finset.mem_insert_self h.length Z) ⟨1,v.content qs⟩
      rw [← ptrs_content hlen2] at hs3
      obtain ⟨r3,hs3⟩ := hs3.leave hZ (hl2.put ⟨1,v.content qs⟩) rfl
      refine ⟨some h.length,_,r3,Run.Returns.succ_iff.mp ?_,extend_put (hpre0.trans hpre2) (Nat.le_refl _),?_,
        .node hne (hl2.put ⟨1,v.content qs⟩) (fun _ => rfl) rfl hlen2 fun j => (hv2 j).off hs2 (fun q hq => ?_) fun k hk _ => ?_⟩
      · have hnew : a.val.withSlots qs = v.content qs := by rw [hc,content_withSlots _ _ _ hlen]
        filter_upwards [he2] with n hn
        simp only [xjd1JsonDeepCopy,getNode,get_live hl,Run.ok_bind,hslots,hn,hnew]
      · simpa using hs3
      · refine Multiset.mem_add.mpr (.inr (Multiset.mem_add.mpr (.inl ?_)))
        simpa using mem_of_join hq
      · refine List.getElem?_set_ne fun hkl => hk ?_
        rw [← hkl]
        exact Finset.mem_insert_self _ _

end Copy

end Xjd1
