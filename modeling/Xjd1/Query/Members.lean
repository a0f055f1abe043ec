import Xjd1.Query.Operators
import Xjd1.Json.Unique

/-! What lies below a value: its members, the values at its leaves, and the properties
that labels lead to. -/
namespace Xjd1

variable {R : Type}

def JsonNode.structured : JsonNode R → Bool
  | .struct _ | .array _ => Bool.true
  | _ => Bool.false

section Members
variable [CDouble R]

def JsonNode.members : JsonNode R → List (JsonNode R × JsonNode R)
  | .struct ms => ms.map fun m => (.string m.1,m.2)
  | .array vs => vs.mapIdx fun i v => (.real (CDouble.ofInt i),v)
  | _ => []

/-- The leaves that a member with the key `k` brings: itself, or those of its own leaves `es`. -/
def below (k v : JsonNode R) (es : List (List (JsonNode R) × JsonNode R)) : List (List (JsonNode R) × JsonNode R) :=
  if v.structured then es.map fun e => (k::e.1,e.2) else [([k],v)]

mutual
/-- The members at any depth that are neither struct nor array, depth first, each with the
labels and indexes that lead to it. -/
def JsonNode.leaves : JsonNode R → List (List (JsonNode R) × JsonNode R)
  | .struct ms => leavesMembers ms
  | .array vs => leavesElems 0 vs
  | _ => []

def leavesElems (i : ℕ) : List (JsonNode R) → List (List (JsonNode R) × JsonNode R)
  | [] => []
  | v::vs => below (.real (CDouble.ofInt i)) v v.leaves ++ leavesElems (i+1) vs

def leavesMembers : List (Bytes × JsonNode R) → List (List (JsonNode R) × JsonNode R)
  | [] => []
  | (z,v)::ms => below (.string z) v v.leaves ++ leavesMembers ms
end

theorem leavesElems_eq (i : ℕ) (vs : List (JsonNode R)) : leavesElems i vs =
    (vs.mapIdx fun j v => (JsonNode.real (CDouble.ofInt (j+i : ℕ)),v)).flatMap fun m => below m.1 m.2 m.2.leaves := by
  induction vs generalizing i with
  | nil => rw [leavesElems]; rfl
  | cons v vs ih =>
    rw [leavesElems,ih (i+1),List.mapIdx_cons,List.flatMap_cons,Nat.zero_add]
    simp only [Nat.add_assoc,Nat.add_comm 1 i]

theorem leavesMembers_eq (ms : List (Bytes × JsonNode R)) : leavesMembers ms =
    (ms.map fun m => (JsonNode.string m.1,m.2)).flatMap fun m => below m.1 m.2 m.2.leaves := by
  induction ms with
  | nil => rw [leavesMembers]; rfl
  | cons m ms ih => rw [leavesMembers,ih,List.map_cons,List.flatMap_cons]

theorem JsonNode.leaves_eq (v : JsonNode R) : v.leaves = v.members.flatMap fun m => below m.1 m.2 m.2.leaves := by
  cases v with
  | struct ms => rw [JsonNode.leaves,leavesMembers_eq,JsonNode.members]
  | array vs => rw [JsonNode.leaves,leavesElems_eq,JsonNode.members]; rfl
  | _ => simp [JsonNode.leaves,JsonNode.members]

theorem JsonNode.mem_members_array {vs : List (JsonNode R)} {m : JsonNode R × JsonNode R}
    (h : m ∈ (JsonNode.array vs).members) : m.2 ∈ vs := by
  obtain ⟨i,hi,rfl⟩ := List.mem_mapIdx.mp h
  exact List.getElem_mem hi

theorem JsonNode.mem_members_struct {ms : List (Bytes × JsonNode R)} {m : JsonNode R × JsonNode R}
    (h : m ∈ (JsonNode.struct ms).members) : ∃ l ∈ ms, l.2 = m.2 := by
  obtain ⟨l,hl,rfl⟩ := List.mem_map.mp h
  exact ⟨l,hl,rfl⟩

theorem JsonNode.induction_members {P : JsonNode R → Prop} (h : ∀ v : JsonNode R, (∀ m ∈ v.members, P m.2) → P v)
    (v : JsonNode R) : P v := by
  induction v using JsonNode.nested with
  | real x => exact h _ fun m hm => by cases hm
  | string z => exact h _ fun m hm => by cases hm
  | array vs ih => exact h _ fun m hm => ih _ (JsonNode.mem_members_array hm)
  | struct ms ih =>
    refine h _ fun m hm => ?_
    obtain ⟨l,hl,hv⟩ := JsonNode.mem_members_struct hm
    exact hv ▸ ih l hl
  | const v hr hz ha hm =>
    refine h _ fun m hmem => ?_
    cases v with
    | struct ms => exact absurd rfl (hm ms)
    | array vs => exact absurd rfl (ha vs)
    | _ => cases hmem

theorem JsonNode.solid_member {v : JsonNode R} (hv : v.solid) {m : JsonNode R × JsonNode R} (hm : m ∈ v.members) :
    m.2.solid := by
  cases v with
  | struct ms =>
    obtain ⟨l,hl,h⟩ := JsonNode.mem_members_struct hm
    exact h ▸ solidMembers_mem hv l hl
  | array vs => exact solidElems_mem hv _ (JsonNode.mem_members_array hm)
  | _ => cases hm

end Members

def JsonNode.property : JsonNode R → List Bytes → Option (JsonNode R)
  | v, [] => some v
  | .struct ms, z::zs => (lookup ms z).bind fun v => v.property zs
  | _, _::_ => none

theorem JsonNode.property_append (v : JsonNode R) (zs zs' : List Bytes) :
    v.property (zs ++ zs') = (v.property zs).bind fun w => w.property zs' := by
  induction zs generalizing v with
  | nil => rfl
  | cons z zs ih =>
    cases v with
    | struct ms =>
      rw [List.cons_append,JsonNode.property,JsonNode.property]
      cases lookup ms z with
      | none => rfl
      | some w => exact ih w
    | _ => rfl

theorem JsonNode.solid_property {v w : JsonNode R} {zs : List Bytes} (hv : v.solid) (h : v.property zs = some w) :
    w.solid := by
  induction zs generalizing v with
  | nil =>
    cases h
    exact hv
  | cons z zs ih =>
    cases v with
    | struct ms =>
      obtain ⟨u,hu,hw⟩ := Option.bind_eq_some_iff.mp h
      obtain ⟨pre,post,rfl,_⟩ := lookup_eq_some hu
      exact ih (solidMembers_mem hv (z,u) (List.mem_append_right _ List.mem_cons_self)) hw
    | _ => cases h

/-- `v'` is `v` with `y` in the place of the value `x` that the labels lead to. -/
inductive Replaced (x y : JsonNode R) : List Bytes → JsonNode R → JsonNode R → Prop
  | here : Replaced x y [] x y
  | member {z : Bytes} {zs : List Bytes} {pre post : List (Bytes × JsonNode R)} {v v' : JsonNode R}
    (hpre : ∀ m ∈ pre, m.1 ≠ z) (h : Replaced x y zs v v') :
    Replaced x y (z::zs) (.struct (pre ++ (z,v)::post)) (.struct (pre ++ (z,v')::post))

/-- `v'` is `v` with the property `zs` set to `w`: in the place of the old value, or as a
new last member. -/
inductive PropertySet (w : JsonNode R) : List Bytes → JsonNode R → JsonNode R → Prop
  | replaced {zs : List Bytes} {x v v' : JsonNode R} (h : Replaced x w zs v v') : PropertySet w zs v v'
  | added {z : Bytes} {ms : List (Bytes × JsonNode R)} (h : ∀ m ∈ ms, m.1 ≠ z) :
    PropertySet w [z] (.struct ms) (.struct (ms ++ [(z,w)]))

theorem Replaced.append {x y a b v v' : JsonNode R} {zs zs' : List Bytes} (h : Replaced a b zs v v')
    (h' : Replaced x y zs' a b) : Replaced x y (zs ++ zs') v v' := by
  induction h with
  | here => exact h'
  | member hpre _ ih => exact .member hpre ih

end Xjd1
