import Xjd1.Json.Text
import Xjd1.Lib.Comparison
import Xjd1.Lib.SlotSort

/-! `xjd1JsonCompare` is a total order: null pointers first, then by type, then
strings by their bytes, arrays by their elements and lengths, structs by their
labels and values. -/
namespace Xjd1

open Comparison

variable {R : Type}

/-- The numbers `Num` compare as the doubles that are not NaN do. -/
structure Numbers [CDouble R] (Num : R → Prop) : Prop where
  asymm : ∀ x y, Num x → Num y → CDouble.lt x y = true → CDouble.lt y x = false
  cotrans : ∀ x y z, Num x → Num y → Num z → CDouble.lt x z = true →
    CDouble.lt x y = true ∨ CDouble.lt y z = true
  eq_iff : ∀ x y, Num x → Num y →
    (CDouble.eq x y = true ↔ CDouble.lt x y = false ∧ CDouble.lt y x = false)

mutual
/-- The values whose numbers are in `Num`, with no NUL byte in a string or a
label. Null pointers may stand anywhere. -/
def NodeOf (Num : R → Prop) : JsonNode R → Prop
  | .real r => Num r
  | .string z => 0 ∉ z
  | .array vs => NodesOf Num vs
  | .struct ms => MembersOf Num ms
  | _ => True

def NodesOf (Num : R → Prop) : List (JsonNode R) → Prop
  | [] => True
  | v::vs => NodeOf Num v ∧ NodesOf Num vs

def MembersOf (Num : R → Prop) : List (Bytes × JsonNode R) → Prop
  | [] => True
  | (k,v)::ms => 0 ∉ k ∧ NodeOf Num v ∧ MembersOf Num ms
end

section Same
variable [CDouble R]

mutual
/-- Structural equality: the same type, equal numbers and strings, the same
elements and the same members in the same order. -/
def SameNode : JsonNode R → JsonNode R → Prop
  | .nullptr, .nullptr | .false, .false | .true, .true | .null, .null => True
  | .real x, .real y => CDouble.eq x y = Bool.true
  | .string a, .string b => a = b
  | .array as, .array bs => SameNodes as bs
  | .struct as, .struct bs => SameMembers as bs
  | _, _ => False

def SameNodes : List (JsonNode R) → List (JsonNode R) → Prop
  | [], [] => True
  | a::as, b::bs => SameNode a b ∧ SameNodes as bs
  | _, _ => False

def SameMembers : List (Bytes × JsonNode R) → List (Bytes × JsonNode R) → Prop
  | [], [] => True
  | (k,a)::as, (l,b)::bs => k = l ∧ SameNode a b ∧ SameMembers as bs
  | _, _ => False
end

end Same

/-- Induction on a value, with the elements of an array and the values of a struct below it. -/
theorem JsonNode.nested {P : JsonNode R → Prop} (real : ∀ r, P (.real r)) (string : ∀ z, P (.string z))
    (array : ∀ vs, (∀ v ∈ vs, P v) → P (.array vs))
    (struct : ∀ ms : List (Bytes × JsonNode R), (∀ m ∈ ms, P m.2) → P (.struct ms))
    (const : ∀ v, (∀ r, v ≠ .real r) → (∀ z, v ≠ .string z) → (∀ vs, v ≠ .array vs) →
      (∀ ms, v ≠ .struct ms) → P v) (v : JsonNode R) : P v := by
  refine JsonNode.rec (motive_1 := P) (motive_2 := fun vs => ∀ v ∈ vs, P v) (motive_3 := fun ms => ∀ m ∈ ms, P m.2)
    (motive_4 := fun m => P m.2) ?_ ?_ ?_ real ?_ string array struct ?_ (fun v vs hv hvs => ?_) ?_
    (fun m ms hm hms => ?_) (fun _ _ h => h) v
  case refine_5 | refine_7 => exact fun v hv => by cases hv
  case refine_6 => exact List.forall_mem_cons.mpr ⟨hv,hvs⟩
  case refine_8 => exact List.forall_mem_cons.mpr ⟨hm,hms⟩
  all_goals apply const <;> intro _ h <;> cases h

theorem NodesOf.of_mem {Num : R → Prop} {vs : List (JsonNode R)} (h : NodesOf Num vs) :
    ∀ v ∈ vs, NodeOf Num v := by
  induction vs with
  | nil => exact fun v hv => by cases hv
  | cons v vs ih => exact List.forall_mem_cons.mpr ⟨h.1,ih h.2⟩

theorem MembersOf.of_mem {Num : R → Prop} {ms : List (Bytes × JsonNode R)} (h : MembersOf Num ms) :
    ∀ m ∈ ms, 0 ∉ m.1 ∧ NodeOf Num m.2 := by
  induction ms with
  | nil => exact fun m hm => by cases hm
  | cons m ms ih => exact List.forall_mem_cons.mpr ⟨⟨h.1,h.2.1⟩,ih h.2.2⟩

theorem strcmp_cons (c d : UInt8) (a b : Bytes) :
    strcmp (c::a) (d::b) = orElse ((c.toNat : Int) - d.toNat) (strcmp a b) := by
  rw [strcmp,orElse]
  by_cases h : c = d
  · rw [if_pos h,if_pos (by rw [h]; omega)]
  · have hne : c.toNat ≠ d.toNat := fun e => h (UInt8.toNat_inj.mp e)
    rw [if_neg h,if_neg (by omega)]

theorem byte_pos {c : UInt8} {a : Bytes} (h : 0 ∉ c::a) : 0 < c.toNat := by
  have hne : c.toNat ≠ (0 : UInt8).toNat := fun e => h (UInt8.toNat_inj.mp e ▸ List.mem_cons_self)
  exact Nat.pos_of_ne_zero hne

theorem strcmp_swap (a b : Bytes) : Swap (strcmp a b) (strcmp b a) := by
  induction a generalizing b with
  | nil =>
    cases b with
    | nil => exact ⟨by simp [strcmp],by simp [strcmp]⟩
    | cons d b => exact ⟨by simp [strcmp],by simp [strcmp]⟩
  | cons c a ih =>
    cases b with
    | nil => exact ⟨by simp [strcmp],by simp [strcmp]⟩
    | cons d b =>
      rw [strcmp_cons,strcmp_cons]
      exact Swap.orElse ⟨by omega,by omega⟩ fun _ => ih b

theorem strcmp_chain {a b c : Bytes} (ha : 0 ∉ a) (hb : 0 ∉ b) (hc : 0 ∉ c) :
    Chain (strcmp a b) (strcmp b c) (strcmp a c) := by
  induction a generalizing b c with
  | nil =>
    cases c with
    | nil =>
      cases b with
      | nil => constructor <;> simp [strcmp]
      | cons y b =>
        have hy := byte_pos hb
        constructor <;> simp [strcmp]
        omega
    | cons z c =>
      have hz := byte_pos hc
      cases b with
      | nil => constructor <;> simp [strcmp]
      | cons y b =>
        constructor <;> simp [strcmp] <;> omega
  | cons x a ih =>
    have hx := byte_pos ha
    cases b with
    | nil => constructor <;> simp [strcmp] <;> omega
    | cons y b =>
      have hy := byte_pos hb
      cases c with
      | nil => constructor <;> simp [strcmp] <;> omega
      | cons z c =>
        rw [strcmp_cons,strcmp_cons,strcmp_cons]
        refine Chain.orElse ⟨by omega,by omega,by omega⟩ fun _ _ => ih ?_ ?_ ?_
        · exact fun h => ha (List.mem_cons_of_mem x h)
        · exact fun h => hb (List.mem_cons_of_mem y h)
        · exact fun h => hc (List.mem_cons_of_mem z h)

theorem strcmp_eq_zero {a b : Bytes} (ha : 0 ∉ a) (hb : 0 ∉ b) : strcmp a b = 0 ↔ a = b := by
  induction a generalizing b with
  | nil =>
    cases b with
    | nil => simp [strcmp]
    | cons y b =>
      have hy := byte_pos hb
      simp [strcmp]
      omega
  | cons x a ih =>
    cases b with
    | nil =>
      have hx := byte_pos ha
      simp [strcmp]
      omega
    | cons y b =>
      have hab := ih (b := b) (fun h => ha (List.mem_cons_of_mem x h)) (fun h => hb (List.mem_cons_of_mem y h))
      have hxy : (x.toNat : Int) - y.toNat = 0 ↔ x = y := by
        rw [← UInt8.toNat_inj]
        omega
      rw [strcmp_cons,orElse_eq_zero,hxy,hab,List.cons.injEq]

/-- The type code, with null pointers below every type. -/
def JsonNode.rank (v : JsonNode R) : Int := v.eJType.getD (-1)

theorem real_of_rank {x : R} {b : JsonNode R} (h : (JsonNode.real x).rank = b.rank) : ∃ y, b = .real y := by
  cases b <;> simp [JsonNode.rank,JsonNode.eJType] at h ⊢

theorem string_of_rank {z : Bytes} {b : JsonNode R} (h : (JsonNode.string z : JsonNode R).rank = b.rank) :
    ∃ y, b = .string y := by
  cases b <;> simp [JsonNode.rank,JsonNode.eJType] at h ⊢

theorem array_of_rank {as : List (JsonNode R)} {b : JsonNode R} (h : (JsonNode.array as).rank = b.rank) :
    ∃ bs, b = .array bs := by
  cases b <;> simp [JsonNode.rank,JsonNode.eJType] at h ⊢

theorem struct_of_rank {as : List (Bytes × JsonNode R)} {b : JsonNode R}
    (h : (JsonNode.struct as).rank = b.rank) : ∃ bs, b = .struct bs := by
  cases b <;> simp [JsonNode.rank,JsonNode.eJType] at h ⊢

variable [CDouble R]

theorem compare_rank {a b : JsonNode R} (h : a.rank < b.rank) :
    xjd1JsonCompare a b < 0 ∧ 0 < xjd1JsonCompare b a := by
  cases a <;> cases b <;> simp [JsonNode.rank,JsonNode.eJType] at h <;> simp [xjd1JsonCompare,JsonNode.eJType]

theorem SameNode.rank {a b : JsonNode R} (h : SameNode a b) : a.rank = b.rank := by
  cases a <;> cases b <;> first | rfl | simp [SameNode] at h

/-- Null pointers, `false`, `true` and `null` have no other value of their type. -/
theorem eq_of_rank {a b : JsonNode R} (hr : ∀ r, a ≠ .real r) (hs : ∀ z, a ≠ .string z) (ha : ∀ vs, a ≠ .array vs)
    (ht : ∀ ms, a ≠ .struct ms) (h : a.rank = b.rank) : a = b ∧ xjd1JsonCompare a b = 0 ∧ SameNode a b := by
  cases a <;> cases b <;> simp_all [JsonNode.rank,JsonNode.eJType,xjd1JsonCompare,SameNode]

theorem compare_chain_of_rank {a b c : JsonNode R} (h : a.rank = b.rank → b.rank = c.rank →
    Chain (xjd1JsonCompare a b) (xjd1JsonCompare b c) (xjd1JsonCompare a c)) :
    Chain (xjd1JsonCompare a b) (xjd1JsonCompare b c) (xjd1JsonCompare a c) :=
  Chain.of_measure (fun h => (compare_rank h).2) (fun h => (compare_rank h).2) (fun h => (compare_rank h).1) h

theorem compare_zero_of_rank {a b : JsonNode R}
    (h : a.rank = b.rank → (xjd1JsonCompare a b = 0 ↔ SameNode a b)) : xjd1JsonCompare a b = 0 ↔ SameNode a b := by
  rcases Int.lt_trichotomy a.rank b.rank with hr | hr | hr
  · exact iff_of_false (compare_rank hr).1.ne fun hs => hr.ne hs.rank
  · exact h hr
  · exact iff_of_false (compare_rank hr).2.ne' fun hs => hr.ne' hs.rank

def compareReal (x y : R) : Int := if CDouble.lt x y then -1 else if CDouble.lt y x then 1 else 0

theorem compare_real (x y : R) : xjd1JsonCompare (.real x) (.real y) = compareReal x y := by
  rw [xjd1JsonCompare,compareReal]

section Num
variable {Num : R → Prop} (hN : Numbers Num)
include hN

theorem compareReal_swap {x y : R} (hx : Num x) (hy : Num y) : Swap (compareReal x y) (compareReal y x) := by
  have h1 := hN.asymm x y hx hy
  rw [compareReal,compareReal]
  cases hxy : CDouble.lt x y <;> cases hyx : CDouble.lt y x <;> simp_all [Swap]

theorem compareReal_chain {x y z : R} (hx : Num x) (hy : Num y) (hz : Num z) :
    Chain (compareReal x y) (compareReal y z) (compareReal x z) := by
  have h1 := hN.cotrans z x y hz hx hy
  have h2 := hN.cotrans z y x hz hy hx
  have h3 := hN.cotrans x z y hx hz hy
  have h4 := hN.cotrans y x z hy hx hz
  have h5 := hN.cotrans y z x hy hz hx
  have h6 := hN.cotrans x y z hx hy hz
  have h7 := hN.asymm x y hx hy
  have h8 := hN.asymm y z hy hz
  have h9 := hN.asymm x z hx hz
  rw [compareReal,compareReal,compareReal]
  constructor <;> grind

theorem compareReal_eq_zero {x y : R} (hx : Num x) (hy : Num y) : compareReal x y = 0 ↔ CDouble.eq x y = true := by
  rw [hN.eq_iff x y hx hy,compareReal]
  cases CDouble.lt x y <;> cases CDouble.lt y x <;> simp

end Num

section Array
variable {as bs cs : List (JsonNode R)}

theorem compareArray_cons (a b : JsonNode R) (as bs : List (JsonNode R)) :
    compareArray (a::as) (b::bs) = orElse (xjd1JsonCompare a b) (compareArray as bs) := by
  rw [compareArray]
  rfl

theorem compareArray_swap (h : ∀ a ∈ as, ∀ b ∈ bs, Swap (xjd1JsonCompare a b) (xjd1JsonCompare b a)) :
    Swap (compareArray as bs) (compareArray bs as) := by
  induction as generalizing bs with
  | nil =>
    cases bs <;> simp only [compareArray,Swap,List.length_nil,List.length_cons] <;> omega
  | cons a as ih =>
    cases bs with
    | nil =>
      simp only [compareArray,Swap,List.length_nil,List.length_cons]
      omega
    | cons b bs =>
      rw [compareArray_cons,compareArray_cons]
      refine (h a List.mem_cons_self b List.mem_cons_self).orElse fun _ => ih fun x hx y hy => ?_
      exact h x (List.mem_cons_of_mem a hx) y (List.mem_cons_of_mem b hy)

theorem compareArray_chain (h : ∀ a ∈ as, ∀ b ∈ bs, ∀ c ∈ cs,
    Chain (xjd1JsonCompare a b) (xjd1JsonCompare b c) (xjd1JsonCompare a c)) :
    Chain (compareArray as bs) (compareArray bs cs) (compareArray as cs) := by
  induction as generalizing bs cs with
  | nil =>
    cases bs with
    | nil => cases cs <;> constructor <;> simp only [compareArray,List.length_nil,List.length_cons] <;> omega
    | cons b bs => cases cs <;> constructor <;> simp only [compareArray,List.length_nil,List.length_cons] <;> omega
  | cons a as ih =>
    cases bs with
    | nil => cases cs <;> constructor <;> simp only [compareArray,List.length_nil,List.length_cons] <;> omega
    | cons b bs =>
      cases cs with
      | nil => constructor <;> simp only [compareArray,List.length_nil,List.length_cons] <;> omega
      | cons c cs =>
        rw [compareArray_cons,compareArray_cons,compareArray_cons]
        refine (h a List.mem_cons_self b List.mem_cons_self c List.mem_cons_self).orElse fun _ _ => ih ?_
        intro x hx y hy z hz
        exact h x (List.mem_cons_of_mem a hx) y (List.mem_cons_of_mem b hy) z (List.mem_cons_of_mem c hz)

theorem compareArray_eq_zero (h : ∀ a ∈ as, ∀ b ∈ bs, (xjd1JsonCompare a b = 0 ↔ SameNode a b)) :
    compareArray as bs = 0 ↔ SameNodes as bs := by
  induction as generalizing bs with
  | nil =>
    cases bs with
    | nil => simp [compareArray,SameNodes]
    | cons b bs =>
      simp only [compareArray,SameNodes,List.length_nil,List.length_cons]
      exact iff_of_false (by omega) id
  | cons a as ih =>
    cases bs with
    | nil =>
      simp only [compareArray,SameNodes,List.length_nil,List.length_cons]
      exact iff_of_false (by omega) id
    | cons b bs =>
      rw [compareArray_cons,orElse_eq_zero,h a List.mem_cons_self b List.mem_cons_self,SameNodes]
      rw [ih fun x hx y hy => h x (List.mem_cons_of_mem a hx) y (List.mem_cons_of_mem b hy)]

end Array

section Struct
variable {as bs cs : List (Bytes × JsonNode R)}

theorem compareStruct_cons (k l : Bytes) (a b : JsonNode R) (as bs : List (Bytes × JsonNode R)) :
    compareStruct ((k,a)::as) ((l,b)::bs) =
      orElse (strcmp k l) (orElse (xjd1JsonCompare a b) (compareStruct as bs)) := by
  rw [compareStruct]
  rfl

theorem compareStruct_swap (h : ∀ a ∈ as, ∀ b ∈ bs, Swap (xjd1JsonCompare a.2 b.2) (xjd1JsonCompare b.2 a.2)) :
    Swap (compareStruct as bs) (compareStruct bs as) := by
  induction as generalizing bs with
  | nil => cases bs <;> simp [compareStruct,Swap]
  | cons a as ih =>
    obtain ⟨k,a⟩ := a
    cases bs with
    | nil => simp [compareStruct,Swap]
    | cons b bs =>
      obtain ⟨l,b⟩ := b
      rw [compareStruct_cons,compareStruct_cons]
      refine (strcmp_swap k l).orElse fun _ => ?_
      refine (h _ List.mem_cons_self _ List.mem_cons_self).orElse fun _ => ih fun x hx y hy => ?_
      exact h x (List.mem_cons_of_mem _ hx) y (List.mem_cons_of_mem _ hy)

theorem compareStruct_chain (ha : ∀ a ∈ as, 0 ∉ a.1) (hb : ∀ b ∈ bs, 0 ∉ b.1) (hc : ∀ c ∈ cs, 0 ∉ c.1)
    (h : ∀ a ∈ as, ∀ b ∈ bs, ∀ c ∈ cs,
      Chain (xjd1JsonCompare a.2 b.2) (xjd1JsonCompare b.2 c.2) (xjd1JsonCompare a.2 c.2)) :
    Chain (compareStruct as bs) (compareStruct bs cs) (compareStruct as cs) := by
  induction as generalizing bs cs with
  | nil => cases bs <;> cases cs <;> constructor <;> simp [compareStruct]
  | cons a as ih =>
    obtain ⟨k,a⟩ := a
    cases bs with
    | nil => cases cs <;> constructor <;> simp [compareStruct]
    | cons b bs =>
      obtain ⟨l,b⟩ := b
      cases cs with
      | nil => constructor <;> simp [compareStruct]
      | cons c cs =>
        obtain ⟨m,c⟩ := c
        obtain ⟨hk,ha⟩ := List.forall_mem_cons.mp ha
        obtain ⟨hl,hb⟩ := List.forall_mem_cons.mp hb
        obtain ⟨hm,hc⟩ := List.forall_mem_cons.mp hc
        rw [compareStruct_cons,compareStruct_cons,compareStruct_cons]
        refine (strcmp_chain hk hl hm).orElse fun _ _ => ?_
        refine (h _ List.mem_cons_self _ List.mem_cons_self _ List.mem_cons_self).orElse fun _ _ => ih ha hb hc ?_
        intro x hx y hy z hz
        exact h x (List.mem_cons_of_mem _ hx) y (List.mem_cons_of_mem _ hy) z (List.mem_cons_of_mem _ hz)

theorem compareStruct_eq_zero (ha : ∀ a ∈ as, 0 ∉ a.1) (hb : ∀ b ∈ bs, 0 ∉ b.1)
    (h : ∀ a ∈ as, ∀ b ∈ bs, (xjd1JsonCompare a.2 b.2 = 0 ↔ SameNode a.2 b.2)) :
    compareStruct as bs = 0 ↔ SameMembers as bs := by
  induction as generalizing bs with
  | nil => cases bs <;> simp [compareStruct,SameMembers]
  | cons a as ih =>
    obtain ⟨k,a⟩ := a
    cases bs with
    | nil => simp [compareStruct,SameMembers]
    | cons b bs =>
      obtain ⟨l,b⟩ := b
      obtain ⟨hk,ha⟩ := List.forall_mem_cons.mp ha
      obtain ⟨hl,hb⟩ := List.forall_mem_cons.mp hb
      have hv : xjd1JsonCompare a b = 0 ↔ SameNode a b := h _ List.mem_cons_self _ List.mem_cons_self
      rw [compareStruct_cons,orElse_eq_zero,orElse_eq_zero,strcmp_eq_zero hk hl,hv,SameMembers]
      rw [ih ha hb fun x hx y hy => h x (List.mem_cons_of_mem _ hx) y (List.mem_cons_of_mem _ hy)]

end Struct

section Order
variable {Num : R → Prop} (hN : Numbers Num)
include hN

theorem compare_swap {a b : JsonNode R} (ha : NodeOf Num a) (hb : NodeOf Num b) :
    Swap (xjd1JsonCompare a b) (xjd1JsonCompare b a) := by
  induction a using JsonNode.nested generalizing b with
  | const a hr hs hv ht =>
    refine Swap.of_measure compare_rank compare_rank fun h => ?_
    obtain ⟨rfl,h0,_⟩ := eq_of_rank hr hs hv ht h
    rw [h0]
    exact ⟨by omega,by omega⟩
  | real x =>
    refine Swap.of_measure compare_rank compare_rank fun h => ?_
    obtain ⟨y,rfl⟩ := real_of_rank h
    rw [compare_real,compare_real]
    exact compareReal_swap hN ha hb
  | string z =>
    refine Swap.of_measure compare_rank compare_rank fun h => ?_
    obtain ⟨y,rfl⟩ := string_of_rank h
    exact strcmp_swap z y
  | array as ih =>
    refine Swap.of_measure compare_rank compare_rank fun h => ?_
    obtain ⟨bs,rfl⟩ := array_of_rank h
    rw [xjd1JsonCompare,xjd1JsonCompare]
    exact compareArray_swap fun a hm b hm' => ih a hm (ha.of_mem a hm) (hb.of_mem b hm')
  | struct as ih =>
    refine Swap.of_measure compare_rank compare_rank fun h => ?_
    obtain ⟨bs,rfl⟩ := struct_of_rank h
    rw [xjd1JsonCompare,xjd1JsonCompare]
    exact compareStruct_swap fun a hm b hm' => ih a hm (ha.of_mem a hm).2 (hb.of_mem b hm').2

theorem compare_chain {a b c : JsonNode R} (ha : NodeOf Num a) (hb : NodeOf Num b) (hc : NodeOf Num c) :
    Chain (xjd1JsonCompare a b) (xjd1JsonCompare b c) (xjd1JsonCompare a c) := by
  induction a using JsonNode.nested generalizing b c with
  | const a hr hs hv ht =>
    refine compare_chain_of_rank fun h h' => ?_
    obtain ⟨rfl,h0,_⟩ := eq_of_rank hr hs hv ht h
    obtain ⟨rfl,_⟩ := eq_of_rank hr hs hv ht h'
    rw [h0]
    exact .zero
  | real x =>
    refine compare_chain_of_rank fun h h' => ?_
    obtain ⟨y,rfl⟩ := real_of_rank h
    obtain ⟨z,rfl⟩ := real_of_rank h'
    rw [compare_real,compare_real,compare_real]
    exact compareReal_chain hN ha hb hc
  | string x =>
    refine compare_chain_of_rank fun h h' => ?_
    obtain ⟨y,rfl⟩ := string_of_rank h
    obtain ⟨z,rfl⟩ := string_of_rank h'
    exact strcmp_chain ha hb hc
  | array as ih =>
    refine compare_chain_of_rank fun h h' => ?_
    obtain ⟨bs,rfl⟩ := array_of_rank h
    obtain ⟨cs,rfl⟩ := array_of_rank h'
    rw [xjd1JsonCompare,xjd1JsonCompare,xjd1JsonCompare]
    exact compareArray_chain fun x hx y hy z hz => ih x hx (ha.of_mem x hx) (hb.of_mem y hy) (hc.of_mem z hz)
  | struct as ih =>
    refine compare_chain_of_rank fun h h' => ?_
    obtain ⟨bs,rfl⟩ := struct_of_rank h
    obtain ⟨cs,rfl⟩ := struct_of_rank h'
    rw [xjd1JsonCompare,xjd1JsonCompare,xjd1JsonCompare]
    refine compareStruct_chain (fun x hx => (ha.of_mem x hx).1) (fun y hy => (hb.of_mem y hy).1)
      (fun z hz => (hc.of_mem z hz).1) fun x hx y hy z hz => ?_
    exact ih x hx (ha.of_mem x hx).2 (hb.of_mem y hy).2 (hc.of_mem z hz).2

theorem compare_eq_zero {a b : JsonNode R} (ha : NodeOf Num a) (hb : NodeOf Num b) :
    xjd1JsonCompare a b = 0 ↔ SameNode a b := by
  induction a using JsonNode.nested generalizing b with
  | const a hr hs hv ht =>
    refine compare_zero_of_rank fun h => ?_
    obtain ⟨_,h0,hsame⟩ := eq_of_rank hr hs hv ht h
    exact iff_of_true h0 hsame
  | real x =>
    refine compare_zero_of_rank fun h => ?_
    obtain ⟨y,rfl⟩ := real_of_rank h
    rw [compare_real,SameNode]
    exact compareReal_eq_zero hN ha hb
  | string z =>
    refine compare_zero_of_rank fun h => ?_
    obtain ⟨y,rfl⟩ := string_of_rank h
    rw [xjd1JsonCompare,SameNode]
    exact strcmp_eq_zero ha hb
  | array as ih =>
    refine compare_zero_of_rank fun h => ?_
    obtain ⟨bs,rfl⟩ := array_of_rank h
    rw [xjd1JsonCompare,SameNode]
    exact compareArray_eq_zero fun x hx y hy => ih x hx (ha.of_mem x hx) (hb.of_mem y hy)
  | struct as ih =>
    refine compare_zero_of_rank fun h => ?_
    obtain ⟨bs,rfl⟩ := struct_of_rank h
    rw [xjd1JsonCompare,SameNode]
    refine compareStruct_eq_zero (fun x hx => (ha.of_mem x hx).1) (fun y hy => (hb.of_mem y hy).1) fun x hx y hy => ?_
    exact ih x hx (ha.of_mem x hx).2 (hb.of_mem y hy).2

theorem ordered_xjd1JsonCompare : SlotSort.Ordered xjd1JsonCompare (NodeOf Num) :=
  ⟨fun _ _ ha hb => (compare_swap hN ha hb).1,fun _ _ _ ha hb hc => (compare_chain hN ha hb hc).le⟩

/-- `xjd1JsonCompare` is a total order, and its equality is structural. -/
theorem xjd1JsonCompare_total {a b c : JsonNode R} (ha : NodeOf Num a) (hb : NodeOf Num b) (hc : NodeOf Num c) :
    (xjd1JsonCompare a b).sign = -(xjd1JsonCompare b a).sign ∧
    (xjd1JsonCompare a b ≤ 0 → xjd1JsonCompare b c ≤ 0 → xjd1JsonCompare a c ≤ 0) ∧
    (xjd1JsonCompare a b = 0 ↔ SameNode a b) :=
  ⟨(compare_swap hN ha hb).sign,(compare_chain hN ha hb hc).le,compare_eq_zero hN ha hb⟩

end Order

theorem numbers_int : Numbers fun _ : Int => True := by
  refine ⟨fun x y _ _ h => ?_,fun x y z _ _ _ h => ?_,fun x y _ _ => ?_⟩
  · simp only [CDouble.lt,decide_eq_true_eq,decide_eq_false_iff_not] at h ⊢
    omega
  · simp only [CDouble.lt,decide_eq_true_eq] at h ⊢
    omega
  · simp only [CDouble.lt,CDouble.eq,decide_eq_true_eq,decide_eq_false_iff_not]
    omega

/-- A null pointer in an array, a number, and a struct. -/
theorem xjd1JsonCompare_total_mixed :
    let a : JsonNode Int := .array [.nullptr,.real 2]
    let b : JsonNode Int := .array [.real 1]
    let c : JsonNode Int := .struct [([ch 'k'],.nullptr)]
    (xjd1JsonCompare a b).sign = -(xjd1JsonCompare b a).sign ∧
    (xjd1JsonCompare a b ≤ 0 → xjd1JsonCompare b c ≤ 0 → xjd1JsonCompare a c ≤ 0) ∧
    (xjd1JsonCompare a b = 0 ↔ SameNode a b) :=
  xjd1JsonCompare_total numbers_int ⟨trivial,trivial,trivial⟩ ⟨trivial,trivial⟩ ⟨by decide,trivial,trivial⟩

end Xjd1
