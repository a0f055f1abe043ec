import Mathlib.Tactic.Abel
import Xjd1.Query.InMemory

/-! The evaluator in memory gives the values of the evaluator of values. -/
namespace Xjd1

open Heap RefCount Fueled

variable {R P : Type}

/-- An expression that gives every reference back that it takes. -/
inductive HeapExpr.Tidy : HeapExpr P → Prop
  | jvalue (p : P) : Tidy (.jvalue p)
  | dot {pLeft : HeapExpr P} (h : Tidy pLeft) (zId : Bytes) : Tidy (.dot pLeft zId)
  | bi {eType : BiOp} {pLeft : HeapExpr P} {pRight : Option (HeapExpr P)} (hop : InMemory.keepsOperands eType = false)
      (hl : Tidy pLeft) (hr : ∀ e ∈ pRight, Tidy e) : Tidy (.bi eType pLeft pRight)
  | id (zId : Bytes) : Tidy (.id zId)
  | struct {st : List (Bytes × HeapExpr P)} (h : ∀ m ∈ st, Tidy m.2) : Tidy (.struct st)
  | array {ar : List (HeapExpr P)} (h : ∀ e ∈ ar, Tidy e) : Tidy (.array ar)
  | length {pArg : HeapExpr P} (h : Tidy pArg) : Tidy (.length pArg)

namespace InMemory

/-- The nodes that a statement refers to hold the values that its expressions are about. -/
structure StmtNodes.Hold (s : StmtNodes P) (lit : P → JsonNode R) (doc : StmtDoc R) (h : JsonHeap R)
    (H : Multiset ℕ) : Prop where
  literal : ∀ k, s.literal k ∈ H ∧ Stored .false h (lit k) (some (s.literal k))
  pDoc : ∀ v, doc = .doc v → ∃ p, s.pDoc = some p ∧ Stored .false h v p ∧ ∀ q ∈ p, q ∈ H

/-- What is known of a pointer to a value, when `Z` are the cells that are worked on and `H` the
references beside it. -/
abbrev Quality (R : Type) := JsonHeap R → Finset ℕ → Multiset ℕ → JsonNode R → Option ℕ → Prop

abbrev stored (own : Bool) : Quality R := fun h _ _ v p => Stored own h v p

/-- The value is on nodes of its own, or its node is reached from elsewhere. -/
abbrev apart : Quality R := fun h _ H v p => Stored .false h v p ∧ (Stored .true h v p ∨ ∃ i ∈ p, RefCount.Reached h H i)

/-- The value is there; if `B`, it is a leaf of its own or its node is reached from elsewhere. -/
abbrev lent (B : Prop) : Quality R := fun h _ H v p =>
  Stored .false h v p ∧ (B → (v.children = [] ∧ Stored .true h v p) ∨ ∃ i ∈ p, RefCount.Reached h H i)

/-- The computation returns a pointer to the value, with one more reference to it. The
references `L` are lost beside it, none of them if the expression is tidy. -/
def Gives (Q : Quality R) (tidy : Prop) (h : JsonHeap R) (Z : Finset ℕ) (H : Multiset ℕ) (v : JsonNode R)
    (f : ℕ → Exec (Option ℕ × JsonHeap R)) : Prop :=
  ∃ p h' L r', Run.Returns f (p,h') ∧ Sound r' h' Z (handle p + (L + H)) ∧ Kept Z h h' ∧ Q h' Z (L + H) v p ∧ (tidy → L = 0)

def GivesItems (own : Bool) (tidy : Prop) (h : JsonHeap R) (Z : Finset ℕ) (H : Multiset ℕ) (vs : List (JsonNode R))
    (f : ℕ → Exec (List (Option ℕ) × JsonHeap R)) : Prop :=
  ∃ ps h' L r', Run.Returns f (ps,h') ∧ Sound r' h' Z ((ps.filterMap id : List ℕ) + (L + H)) ∧ Kept Z h h' ∧
    ps.length = vs.length ∧ (∀ j : ℕ, Stored own h' (vs[j]?.getD .nullptr) ps[j]?.join) ∧ (tidy → L = 0)

def Refines (Q : Quality R) (s : StmtNodes P) (lit : P → JsonNode R) (doc : StmtDoc R) (tidy : Prop) (v : JsonNode R)
    (eval : ℕ → JsonHeap R → Exec (Option ℕ × JsonHeap R)) : Prop :=
  ∀ r h Z H, Sound r h Z H → s.Hold lit doc h H → Gives Q tidy h Z H v fun n => eval n h

section Rules
variable {s : StmtNodes P} {lit : P → JsonNode R} {doc : StmtDoc R} {h h' : JsonHeap R} {v w : JsonNode R}
  {p : Option ℕ} {Z : Finset ℕ} {H H' : Multiset ℕ} {r r' : ℕ → ℕ} {tidy tidy' : Prop} {own : Bool} {Q : Quality R}

theorem StmtNodes.Hold.kept (hh : s.Hold lit doc h H) (hk : Kept Z h h') (hs : Sound r h' Z H') (hH : ∀ q ∈ H, q ∈ H') :
    s.Hold lit doc h' H' := by
  refine ⟨fun k => ?_,fun v hv => ?_⟩
  · obtain ⟨hm,hl⟩ := hh.literal k
    exact ⟨hH _ hm,stored_kept hl hk hs fun q hq => by
      rw [Option.mem_some_iff] at hq
      exact hH q (hq ▸ hm)⟩
  · obtain ⟨p,hp,hv,hm⟩ := hh.pDoc v hv
    exact ⟨p,hp,stored_kept hv hk hs fun q hq => hH q (hm q hq),fun q hq => hH q (hm q hq)⟩

theorem StmtNodes.Hold.after (hh : s.Hold lit doc h H) (hh' : s.Hold lit doc h' H') : s.Hold lit doc h' H := by
  refine ⟨fun k => ⟨(hh.literal k).1,(hh'.literal k).2⟩,fun v hv => ?_⟩
  obtain ⟨p,hp,_,hm⟩ := hh.pDoc v hv
  obtain ⟨q,hq,hv,_⟩ := hh'.pDoc v hv
  exact ⟨q,hq,hv,Option.some.inj (hp.symm.trans hq) ▸ hm⟩

theorem StmtNodes.Hold.others (hh : s.Hold lit doc h H) (hH : ∀ q ∈ H, q ∈ H') : s.Hold lit doc h H' := by
  refine ⟨fun k => ⟨hH _ (hh.literal k).1,(hh.literal k).2⟩,fun v hv => ?_⟩
  obtain ⟨p,hp,hv,hm⟩ := hh.pDoc v hv
  exact ⟨p,hp,hv,fun q hq => hH q (hm q hq)⟩

theorem handles_cons (p : Option ℕ) (ps : List (Option ℕ)) :
    (((p::ps).filterMap id : List ℕ) : Multiset ℕ) = handle p + (ps.filterMap id : List ℕ) := by
  cases p <;> simp

theorem Gives.mono {Q' : Quality R} {f : ℕ → Exec (Option ℕ × JsonHeap R)} (hg : Gives Q tidy h Z H v f)
    (hQ : ∀ h Z H v p, Q h Z H v p → Q' h Z H v p) (ht : tidy' → tidy) : Gives Q' tidy' h Z H v f := by
  obtain ⟨p,h',L,r',he,hs,hk,hv,hL⟩ := hg
  exact ⟨p,h',L,r',he,hs,hk,hQ _ _ _ _ _ hv,fun h => hL (ht h)⟩

theorem Gives.weaken {f : ℕ → Exec (Option ℕ × JsonHeap R)} (hg : Gives (stored own) tidy h Z H v f) (ht : tidy' → tidy) :
    Gives (stored .false) tidy' h Z H v f := hg.mono (fun _ _ _ _ _ => Stored.weaken) ht

theorem Refines.mono {Q' : Quality R} {eval : ℕ → JsonHeap R → Exec (Option ℕ × JsonHeap R)} (hr : Refines Q s lit doc tidy v eval)
    (hQ : ∀ h Z H v p, Q h Z H v p → Q' h Z H v p) : Refines Q' s lit doc tidy v eval :=
  fun r h Z H hs hh => (hr r h Z H hs hh).mono hQ id

theorem mem_others {p : Option ℕ} {L : Multiset ℕ} : ∀ q ∈ H, q ∈ handle p + (L + H) := fun _ hq =>
  Multiset.mem_add.mpr (.inr (Multiset.mem_add.mpr (.inr hq)))

theorem mem_own {p : Option ℕ} {H : Multiset ℕ} : ∀ q ∈ p, q ∈ handle p + H := fun _ hq =>
  Multiset.mem_add.mpr (.inl (mem_handle.mpr hq))

theorem newLeaf_gives (hs : Sound r h Z H) (hv : v ≠ .nullptr) (hc : v.children = []) {f : ℕ → Exec (Option ℕ × JsonHeap R)}
    (hf : Run.Returns f (some h.length,newNode h (v.content []))) : Gives (stored .true) tidy h Z H v f := by
  obtain ⟨r',hs',hk,hv'⟩ := newLeaf_spec hs hv hc
  exact ⟨_,_,0,r',hf,by simpa using hs',hk,hv',fun _ => rfl⟩

theorem ref_gives (hs : Sound r h Z H) (hv : Stored own h v p) (hp : ∀ q ∈ p, q ∈ H)
    {f : ℕ → Exec (Option ℕ × JsonHeap R)} (hf : ∀ h', xjd1JsonRef h p = .ok h' → Run.Returns f (p,h')) :
    Gives (lent True) tidy h Z H v f := by
  obtain ⟨h',he,hs',hk,hv'⟩ := xjd1JsonRef_spec hs (fun q hq => Multiset.mem_add.mpr (.inr (hp q hq))) hv
  refine ⟨p,h',0,r,hf h' he,by simpa using hs',hk,⟨hv',fun _ => ?_⟩,fun _ => rfl⟩
  cases p with
  | none =>
    cases hv'
    exact .inl ⟨rfl,.nullptr⟩
  | some q => exact .inr ⟨q,rfl,q,by simpa using hp q rfl,.refl⟩

section Truth
variable [CDouble R] {eval : ℕ → HeapExpr P → JsonHeap R → Exec (Option ℕ × JsonHeap R)} {e : HeapExpr P} {b : Bool}

/-- What `xjd1ExprTrue` makes of a value. -/
def truth : JsonNode R → Exec Bool
  | .nullptr => .ok false
  | v => isTrue v

theorem xjd1ExprTrue_spec (he : Refines (stored .false) s lit doc tidy v fun n => eval n e) (hb : truth v = .ok b) (hs : Sound r h Z H)
    (hh : s.Hold lit doc h H) : ∃ h' L r', Run.Returns (fun n => xjd1ExprTrue (eval n) n e h) (b,h') ∧
      Sound r' h' Z (L + H) ∧ Kept Z h h' ∧ (tidy → L = 0) := by
  obtain ⟨p,h1,L,r1,he1,hs1,hk1,hv1,hL⟩ := he r h Z H hs hh
  cases p with
  | none =>
    cases hv1
    cases hb
    refine ⟨h1,L,r1,?_,by simpa using hs1,hk1,hL⟩
    filter_upwards [he1] with n hn
    simp only [xjd1ExprTrue,hn,Run.ok_bind]
  | some i =>
    have hb' : isTrue v = .ok b := by
      cases hv1 with
      | node hv => cases v <;> first | exact hb | exact absurd rfl hv
    obtain ⟨h2,he2,hs2,hk2⟩ := xjd1JsonFree_spec hs1
    refine ⟨h2,L,r1,?_,hs2,hk1.trans hk2,hL⟩
    filter_upwards [he1,he2,read_stored hv1] with n hn hn2 hread
    simp only [xjd1ExprTrue,hn,Run.ok_bind,hread,hb',hn2]

end Truth

section Operators
variable {e : HeapExpr P} {u : JsonNode R}

/-- The node of a result is made, and worked on while the operands are evaluated. -/
theorem newNode_spec (hs : Sound r h Z H) (hh : s.Hold lit doc h H) :
    Sound r (newNode h .null) (insert h.length Z) H ∧ s.Hold lit doc (newNode h .null) H := by
  have hpre : h <+: newNode h .null := extend_put (List.prefix_append h _) (Nat.le_refl _)
  refine ⟨newNode_sound hs _,fun k => ⟨(hh.literal k).1,(hh.literal k).2.extend hpre⟩,fun v hv => ?_⟩
  obtain ⟨p,hp,hv,hm⟩ := hh.pDoc v hv
  exact ⟨p,hp,hv.extend hpre,hm⟩

/-- The result of an operator, in the node made for it before the operands were evaluated. -/
theorem result_spec {H1 : Multiset ℕ} {h1 : JsonHeap R} (hs : Sound r h Z H) (hs1 : Sound r' h1 (insert h.length Z) H1)
    (hk : Kept (insert h.length Z) (newNode h .null) h1) (hu : u ≠ .nullptr) (hc : u.children = []) :
    ∃ h2 r2, setNode h1 h.length (u.content []) = .ok h2 ∧ Sound r2 h2 Z (handle (some h.length) + H1) ∧ Kept Z h h2 ∧
      Stored .true h2 u (some h.length) := by
  have hlen : ([] : List (Option ℕ)).length = u.children.length := by rw [hc]; rfl
  have hchild : ∀ j, Stored .true h1 (u.child j) ([] : List (Option ℕ))[j]?.join := fun j => by
    simpa [JsonNode.child,hc] using Stored.nullptr
  obtain ⟨h2,r2,he,hs2,hk2,hv2⟩ := finish_spec [] hs (by simpa using hs1) hk hu hlen hchild
  exact ⟨h2,r2,he,by simpa using hs2,hk2,hv2⟩

variable [CDouble R] {eval : ℕ → HeapExpr P → JsonHeap R → Exec (Option ℕ × JsonHeap R)} {eType : BiOp}
  {pLeft : HeapExpr P} {pRight : Option (HeapExpr P)}

theorem biOperator_leaf (hop : eType ≠ .lb) (hu : biOperator eType v w = .ok u) : u ≠ .nullptr ∧ u.children = [] := by
  have hbool : ∀ b : Bool, (ofBool b : JsonNode R) ≠ .nullptr ∧ (ofBool b : JsonNode R).children = [] := fun b => by
    cases b <;> exact ⟨(fun h => by cases h),rfl⟩
  have hplus : plusOperator v w ≠ .nullptr ∧ (plusOperator v w).children = [] := by
    rw [plusOperator]
    split <;> exact ⟨(fun h => by cases h),rfl⟩
  cases eType with
  | lb => exact absurd rfl hop
  | eqeq | ne | lt | le | gt | ge | inOp | within =>
    cases hu
    exact hbool _
  | plus =>
    cases hu
    exact hplus
  | rem | rshift | lshift | bitand | bitor =>
    obtain ⟨i,_,hu⟩ := Run.bind_eq_ok.mp hu
    obtain ⟨j,_,hu⟩ := Run.bind_eq_ok.mp hu
    obtain ⟨k,_,hu⟩ := Run.bind_eq_ok.mp hu
    cases hu
    exact ⟨(fun h => by cases h),rfl⟩
  | _ =>
    cases hu
    exact ⟨(fun h => by cases h),rfl⟩

theorem binaryOperator_gives (hl : Refines (stored .false) s lit doc tidy v fun n => eval n pLeft)
    (hr : Refines (stored .false) s lit doc tidy' w fun n => evalOption (eval n) pRight) (hop : eType ≠ .lb)
    (hu : biOperator eType v w = .ok u) (hs : Sound r h Z H) (hh : s.Hold lit doc h H) :
    Gives (stored .true) (keepsOperands eType = false ∧ tidy ∧ tidy') h Z H u
      fun n => binaryOperator (eval n) n eType pLeft pRight h := by
  obtain ⟨hne,hc⟩ := biOperator_leaf hop hu
  obtain ⟨hs0,hh0⟩ := newNode_spec hs hh
  obtain ⟨p,h1,L1,r1,he1,hs1,hk1,hv1,hL1⟩ := hl r _ _ H hs0 hh0
  obtain ⟨q,h2,L2,r2,he2,hs2,hk2,hv2,hL2⟩ := hr r1 h1 _ _ hs1 (hh0.kept hk1 hs1 mem_others)
  have hv1' := stored_kept hv1 hk2 hs2 fun i hi => mem_others i (mem_own i hi)
  obtain ⟨h3,r3,he3,hs3,hk3,hv3⟩ := result_spec hs hs2 (hk1.trans hk2) hne hc
  by_cases hkeep : keepsOperands eType
  · refine ⟨some h.length,h3,handle q + L2 + (handle p + L1),r3,?_,?_,hk3,hv3,fun h => by simp [hkeep] at h⟩
    · filter_upwards [he1,he2,read_stored hv1',read_stored hv2] with n h1 h2 h4 h5
      simp only [binaryOperator,h1,h2,h4,h5,Run.ok_bind,hu,he3,hkeep,if_true]
    · simpa only [add_assoc] using hs3
  · obtain ⟨h4,r4,he4,hs4,hk4,hv4⟩ := Sound.framed
      (fun h4 => Run.Returns (fun n => xjd1JsonFree n h3 p >>= fun h => xjd1JsonFree n h q) h4) (L2 + L1 + H) hv3 hs3 fun Z' _ hs' => by
        have hsum : handle q + (L2 + (handle p + (L1 + H))) = handle p + (handle q + (L2 + L1 + H)) := by abel
        rw [hsum] at hs'
        obtain ⟨h4,he4,hs4,hk4⟩ := xjd1JsonFree_spec hs'
        obtain ⟨h5,he5,hs5,hk5⟩ := xjd1JsonFree_spec hs4
        exact ⟨h5,r3,he4.bind he5,hs5,hk4.trans hk5⟩
    refine ⟨some h.length,h4,L2 + L1,r4,?_,hs4,hk3.trans hk4,hv4,fun ht => by rw [hL1 ht.2.1,hL2 ht.2.2,add_zero]⟩
    filter_upwards [he1,he2,read_stored hv1',read_stored hv2,he4] with n h1 h2 h4 h5 h6
    obtain ⟨h7,h8,h9⟩ := Run.bind_eq_ok.mp h6
    simp only [binaryOperator,h1,h2,h4,h5,Run.ok_bind,hu,he3,hkeep,h8,h9]
    rfl

omit [CDouble R] in
theorem option_refines {T : HeapExpr P → Prop} (hQ : ∀ h Z H v p, Stored .true h v p → Q h Z H v p)
    (hnone : pRight = none → w = .null) (hsome : ∀ e ∈ pRight, Refines Q s lit doc (T e) w fun n => eval n e) :
    Refines Q s lit doc (∀ e ∈ pRight, T e) w fun n => evalOption (eval n) pRight := by
  intro r h Z H hs hh
  cases pRight with
  | none =>
    obtain rfl := hnone rfl
    exact (newLeaf_gives hs (fun h => by cases h) rfl (.of_forall fun _ => rfl)).mono hQ id
  | some e => exact (hsome e rfl r h Z H hs hh).mono (fun _ _ _ _ _ => id) fun ht => ht e rfl

omit [CDouble R] in
theorem release_selected {B : Prop} {c : JsonNode R} {o : Option ℕ} {h0 : JsonHeap R} {f : ℕ → Exec (JsonHeap R)}
    (hs : Sound r h Z (handle o + H')) (hk : Kept Z h0 h) (hv0 : Stored .false h0 v p) (hv : Stored .false h c o)
    (hsel : Selected h0 p h c o) (hbase : B → v.children = [] ∨ ∃ i ∈ p, RefCount.Reached h0 H i)
    (hf : ∀ Z' H1, Z ⊆ Z' → Sound r h Z' (H1 + H') → ∃ h', Run.Returns f h' ∧ Sound r h' Z' (H1 + H) ∧ Kept Z' h h') :
    ∃ h' r', Run.Returns f h' ∧ Sound r' h' Z (handle o + H) ∧ Kept Z h h' ∧ lent B h' Z H c o := by
  rcases hsel with ⟨hc,hown⟩ | ⟨i,j,rfl,rfl,hij⟩
  · obtain ⟨h',r',he,hs',hk',hv'⟩ := Sound.framed (fun h' => Run.Returns f h') H hown hs fun Z' hZ hs' => by
      obtain ⟨h',he,hs',hk'⟩ := hf Z' 0 hZ (by simpa using hs')
      exact ⟨h',r,he,by simpa using hs',hk'⟩
    exact ⟨h',r',he,hs',hk',hv'.weaken,fun _ => .inl ⟨hc,hv'⟩⟩
  · obtain ⟨h',he,hs',hk'⟩ := hf Z (handle (some j)) (Finset.Subset.refl Z) hs
    refine ⟨h',r,he,hs',hk',stored_kept hv hk' hs' mem_own,fun hB => .inr ⟨j,rfl,?_⟩⟩
    rcases hbase hB with hleaf | ⟨i',hi',hr⟩
    · obtain ⟨a,ha,hj⟩ := hij
      cases hv0 with
      | @node _ _ b ps _ hb _ hc hlen _ =>
        rw [hleaf] at hlen
        obtain rfl := List.length_eq_zero_iff.mp hlen
        rw [ha.unique hb,hc,ptrs_content (by rw [hleaf]; rfl)] at hj
        cases hj
    · obtain rfl := Option.some.inj hi'
      exact (hk.trans hk').reach hs' (fun q hq => Multiset.mem_add.mpr (.inr hq)) (hr.next hij)

omit [CDouble R] in
theorem orNull_lent {B : Prop} {c : JsonNode R} {o : Option ℕ} (hs : Sound r h Z (handle o + H)) (hv : lent B h Z H c o) :
    ∃ r', Sound r' (orNullJson h o).2 Z (handle (orNullJson h o).1 + H) ∧ Kept Z h (orNullJson h o).2 ∧
      lent B (orNullJson h o).2 Z H (orNull c) (orNullJson h o).1 := by
  obtain ⟨r1,hs1,hk1,hv1⟩ := orNullJson_spec hs hv.1
  refine ⟨r1,hs1,hk1,hv1,fun hB => ?_⟩
  rcases hv.2 hB with ⟨hc,hown⟩ | ⟨i,rfl,hr⟩
  · obtain ⟨_,_,_,hown'⟩ := orNullJson_spec hs hown
    exact .inl ⟨children_orNull hc,hown'⟩
  · exact .inr ⟨i,rfl,hr⟩

theorem lb_gives {B : Prop} (hl : Refines (lent B) s lit doc tidy v fun n => eval n pLeft)
    (hr : Refines (stored .false) s lit doc tidy' w fun n => evalOption (eval n) pRight) (hu : Xjd1.subscriptOperator v w = .ok u)
    (hs : Sound r h Z H) (hh : s.Hold lit doc h H) :
    Gives (lent B) (tidy ∧ tidy') h Z H u fun n => exprEvalBi (eval n) n .lb pLeft pRight h := by
  obtain ⟨p,h1,L1,r1,he1,hs1,hk1,hv1,hL1⟩ := hl r _ _ H hs hh
  obtain ⟨q,h2,L2,r2,he2,hs2,hk2,hv2,hL2⟩ := hr r1 h1 _ _ hs1 (hh.kept hk1 hs1 mem_others)
  have hp : ∀ i ∈ p, i ∈ handle q + (L2 + (handle p + (L1 + H))) := fun i hi => mem_others i (mem_own i hi)
  have hv1' := stored_kept hv1.1 hk2 hs2 hp
  have hbase : B → v.children = [] ∨ ∃ i ∈ p, RefCount.Reached h2 (L2 + L1 + H) i := fun hB => by
    rcases hv1.2 hB with ⟨hleaf,_⟩ | ⟨i,hi,hreach⟩
    · exact .inl hleaf
    · have hmem : ∀ q ∈ L1 + H, q ∈ L2 + L1 + H := fun q hq => by
        rw [add_assoc]
        exact Multiset.mem_add.mpr (.inr hq)
      have hreach' := hk2.reach hs2 (fun q hq => mem_others q (Multiset.mem_add.mpr (.inr hq))) hreach
      exact .inr ⟨i,hi,RefCount.Reached.mono hreach' hmem⟩
  obtain ⟨o,h3,r3,he3,hs3,hk3,c,rfl,hc,hsel⟩ := subscriptOperator_spec hs2 hv1' hv2
    (fun i hi => Multiset.mem_add.mpr (.inr (hp i hi))) hu
  obtain ⟨h5,r5,he5,hs5,hk5,hv5⟩ := release_selected (f := fun n => xjd1JsonFree n h3 p >>= fun h => xjd1JsonFree n h q)
    hs3 hk3 hv1' hc hsel hbase fun Z' H1 _ hs' => by
      have hsum : H1 + (handle q + (L2 + (handle p + (L1 + H)))) = handle p + (handle q + (H1 + (L2 + L1 + H))) := by abel
      rw [hsum] at hs'
      obtain ⟨h4,he4,hs4,hk4⟩ := xjd1JsonFree_spec hs'
      obtain ⟨h5,he5,hs5,hk5⟩ := xjd1JsonFree_spec hs4
      exact ⟨h5,he4.bind he5,hs5,hk4.trans hk5⟩
  obtain ⟨r6,hs6,hk6,hv6⟩ := orNull_lent hs5 hv5
  refine ⟨_,_,L2 + L1,r6,?_,hs6,hk1.trans (hk2.trans (hk3.trans (hk5.trans hk6))),hv6,
    fun ht => by rw [hL1 ht.1,hL2 ht.2,add_zero]⟩
  filter_upwards [he1,he2,he3,he5] with n h1 h2 h3 h5
  obtain ⟨h4,h6,h7⟩ := Run.bind_eq_ok.mp h5
  simp only [exprEvalBi,h1,h2,h3,h6,h7,Run.ok_bind]

theorem logicalOperator_gives {b : Bool} (hQ : ∀ h Z H v p, Q h Z H v p → Stored .false h v p)
    (hl : Refines Q s lit doc tidy v fun n => eval n pLeft) (hb : isTrue v = .ok b)
    (hleft : b = (eType = .or) → u = v)
    (hright : ¬ b = (eType = .or) → Refines Q s lit doc tidy' u fun n => evalOption (eval n) pRight)
    (hs : Sound r h Z H) (hh : s.Hold lit doc h H) :
    Gives Q (tidy ∧ tidy') h Z H u fun n => logicalOperator (eval n) n eType pLeft pRight h := by
  obtain ⟨p,h1,L1,r1,he1,hs1,hk1,hv1,hL1⟩ := hl r _ _ H hs hh
  have hread := read_stored (hQ _ _ _ _ _ hv1)
  by_cases hc : (b = true) = (eType = .or)
  · obtain rfl := hleft hc
    refine ⟨p,h1,L1,r1,?_,hs1,hk1,hv1,fun ht => hL1 ht.1⟩
    filter_upwards [he1,hread] with n h1 h2
    simp only [logicalOperator,h1,h2,hb,Run.ok_bind,if_pos hc]
  · obtain ⟨h2,he2,hs2,hk2⟩ := xjd1JsonFree_spec hs1
    have hH : ∀ q ∈ H, q ∈ L1 + H := fun q hq => Multiset.mem_add.mpr (.inr hq)
    obtain ⟨q,h3,L3,r3,he3,hs3,hk3,hv3,hL3⟩ := hright hc r1 h2 _ _ hs2 (hh.kept (hk1.trans hk2) hs2 hH)
    have hsum : L3 + (L1 + H) = L3 + L1 + H := (add_assoc L3 L1 H).symm
    rw [hsum] at hs3 hv3
    refine ⟨q,h3,L3 + L1,r3,?_,hs3,hk1.trans (hk2.trans hk3),hv3,fun ht => by rw [hL1 ht.1,hL3 ht.2,add_zero]⟩
    filter_upwards [he1,hread,he2,he3] with n h1 h2 h3 h4
    simp only [logicalOperator,h1,h2,hb,Run.ok_bind,if_neg hc,h3,h4]

theorem bang_gives {b : Bool} (hl : Refines (stored .false) s lit doc tidy v fun n => eval n pLeft) (hb : truth v = .ok b)
    (hs : Sound r h Z H) (hh : s.Hold lit doc h H) :
    Gives (stored .true) tidy h Z H (ofBool !b) fun n => exprEvalBi (eval n) n .bang pLeft pRight h := by
  obtain ⟨hs0,hh0⟩ := newNode_spec hs hh
  obtain ⟨h1,L,r1,he1,hs1,hk1,hL⟩ := xjd1ExprTrue_spec hl hb hs0 hh0
  obtain ⟨h2,r2,he2,hs2,hk2,hv2⟩ := result_spec (u := ofBool !b) hs hs1 hk1 (by cases b <;> exact fun h => by cases h)
    (by cases b <;> rfl)
  refine ⟨some h.length,h2,L,r2,?_,hs2,hk2,hv2,hL⟩
  have hcontent : (ofBool !b : JsonNode R).content [] = if b then .false else .true := by cases b <;> rfl
  rw [hcontent] at he2
  filter_upwards [he1] with n h1
  simp only [exprEvalBi,h1,Run.ok_bind,he2]

theorem bitnot_gives {i : Int} (hl : Refines (stored .false) s lit doc tidy v fun n => eval n pLeft)
    (hi : toInt (xjd1JsonToReal v).1 = .ok i) (hs : Sound r h Z H) (hh : s.Hold lit doc h H) :
    Gives (stored .true) False h Z H (.real (CDouble.ofInt (-i-1))) fun n => exprEvalBi (eval n) n .bitnot pLeft pRight h := by
  obtain ⟨hs0,hh0⟩ := newNode_spec hs hh
  obtain ⟨p,h1,L,r1,he1,hs1,hk1,hv1,_⟩ := hl r _ _ H hs0 hh0
  obtain ⟨h2,r2,he2,hs2,hk2,hv2⟩ := result_spec (u := .real (CDouble.ofInt (-i-1))) hs hs1 hk1 (fun h => by cases h) rfl
  refine ⟨some h.length,h2,handle p + L,r2,?_,by rwa [add_assoc],hk2,hv2,False.elim⟩
  have he2' : setNode h1 h.length (.real (CDouble.ofInt (-i-1))) = .ok h2 := he2
  filter_upwards [he1,read_stored hv1] with n h1 h3
  simp only [exprEvalBi,h1,h3,hi,Run.ok_bind,he2']

theorem minus_gives (hl : Refines (stored .false) s lit doc tidy v fun n => eval n pLeft) (hs : Sound r h Z H) (hh : s.Hold lit doc h H) :
    Gives (stored .true) tidy h Z H (.real (CDouble.mul (CDouble.ofInt (-1)) (xjd1JsonToReal v).1))
      fun n => exprEvalBi (eval n) n .minus pLeft none h := by
  obtain ⟨hs0,hh0⟩ := newNode_spec hs hh
  obtain ⟨p,h1,L,r1,he1,hs1,hk1,hv1,hL⟩ := hl r _ _ H hs0 hh0
  obtain ⟨h2,r2,he2,hs2,hk2,hv2⟩ := result_spec (u := .real (CDouble.mul (CDouble.ofInt (-1)) (xjd1JsonToReal v).1)) hs hs1
    hk1 (fun h => by cases h) rfl
  obtain ⟨h3,r3,he3,hs3,hk3,hv3⟩ := Sound.framed
      (fun h3 => Run.Returns (fun n => xjd1JsonFree n h2 p) h3) (L + H) hv2 hs2 fun Z' _ hs' => by
      obtain ⟨h3,he3,hs3,hk3⟩ := xjd1JsonFree_spec hs'
      exact ⟨h3,r2,he3,hs3,hk3⟩
  refine ⟨some h.length,h3,L,r3,?_,hs3,hk2.trans hk3,hv3,hL⟩
  have he2' : setNode h1 h.length (.real (CDouble.mul (CDouble.ofInt (-1)) (xjd1JsonToReal v).1)) = .ok h2 := he2
  filter_upwards [he1,read_stored hv1,he3] with n h1 h4 h5
  simp only [exprEvalBi,h1,h4,Run.ok_bind,he2',h5]

theorem tri_gives {b : Bool} {pIfTrue pIfFalse : HeapExpr P} (hl : Refines (stored .false) s lit doc tidy v fun n => eval n e)
    (hb : truth v = .ok b) (hr : Refines Q s lit doc tidy' u fun n => eval n (if b then pIfTrue else pIfFalse))
    (hs : Sound r h Z H) (hh : s.Hold lit doc h H) :
    Gives Q False h Z H u fun n => exprEval (eval n) n s (.tri e pIfTrue pIfFalse) h := by
  obtain ⟨r0,hs0,hk0,_⟩ := newLeaf_spec (v := .null) hs (fun h => by cases h) rfl
  have hH0 : ∀ q ∈ H, q ∈ h.length ::ₘ H := fun q hq => Multiset.mem_cons_of_mem hq
  obtain ⟨h1,L1,r1,he1,hs1,hk1,_⟩ := xjd1ExprTrue_spec hl hb hs0 (hh.kept hk0 hs0 hH0)
  have hH1 : ∀ q ∈ H, q ∈ L1 + (h.length ::ₘ H) := fun q hq => Multiset.mem_add.mpr (.inr (hH0 q hq))
  obtain ⟨p,h2,L2,r2,he2,hs2,hk2,hv2,_⟩ := hr r1 h1 _ _ hs1 (hh.kept (hk0.trans hk1) hs1 hH1)
  have hsum : L2 + (L1 + (h.length ::ₘ H)) = L2 + L1 + {h.length} + H := by
    rw [← Multiset.singleton_add]
    abel
  rw [hsum] at hs2 hv2
  refine ⟨p,h2,L2 + L1 + {h.length},r2,?_,hs2,hk0.trans (hk1.trans hk2),hv2,False.elim⟩
  have he1' : Run.Returns (fun n => xjd1ExprTrue (eval n) n e (newNode h .null)) (b,h1) := he1
  filter_upwards [he1',he2] with n h1 h2
  cases b <;> (simp only [exprEval,h1,Run.ok_bind]; exact h2)

theorem dot_gives {B : Prop} {zId : Bytes} (hl : Refines (lent B) s lit doc tidy v fun n => eval n pLeft) (hs : Sound r h Z H)
    (hh : s.Hold lit doc h H) :
    Gives (lent B) tidy h Z H (Xjd1.getProperty v zId) fun n => exprEval (eval n) n s (.dot pLeft zId) h := by
  obtain ⟨p,h1,L1,r1,he1,hs1,hk1,hv1,hL1⟩ := hl r _ _ H hs hh
  obtain ⟨q,h2,r2,he2,hs2,hk2,hv2,hsel⟩ :=
    getProperty_spec hs1 hv1.1 (fun i hi => Multiset.mem_add.mpr (.inr (mem_own i hi))) zId
  obtain ⟨h3,r3,he3,hs3,hk3,hv3⟩ := release_selected (f := fun n => xjd1JsonFree n h2 p) hs2 hk2 hv1.1 hv2 hsel
    (fun hB => (hv1.2 hB).imp And.left id) fun Z' H1 _ hs' => by
      rw [add_left_comm] at hs'
      exact xjd1JsonFree_spec hs'
  refine ⟨q,h3,L1,r3,?_,hs3,hk1.trans (hk2.trans hk3),hv3,hL1⟩
  filter_upwards [he1,he3] with n h1 h3
  simp only [exprEval,h1,he2,h3,Run.ok_bind]

theorem length_gives (hl : Refines (stored .false) s lit doc tidy v fun n => eval n e) (hu : xLength v = .ok u) (hs : Sound r h Z H)
    (hh : s.Hold lit doc h H) : Gives (stored .true) tidy h Z H u fun n => exprEval (eval n) n s (.length e) h := by
  obtain ⟨hne,hc⟩ : u ≠ .nullptr ∧ u.children = [] := by
    cases v with
    | nullptr => cases hu
    | _ =>
      cases hu
      exact ⟨(fun h => by cases h),rfl⟩
  obtain ⟨p,h1,L,r1,he1,hs1,hk1,hv1,hL⟩ := hl r _ _ H hs hh
  obtain ⟨r2,hs2,hk2,hv2⟩ := newLeaf_spec hs1 hne hc
  rw [← Multiset.singleton_add] at hs2
  obtain ⟨h3,r3,he3,hs3,hk3,hv3⟩ := Sound.framed
      (fun h3 => Run.Returns (fun n => xjd1JsonFree n (newNode h1 (u.content [])) p) h3) (L + H) hv2 hs2 fun Z' _ hs' => by
      obtain ⟨h3,he3,hs3,hk3⟩ := xjd1JsonFree_spec hs'
      exact ⟨h3,r2,he3,hs3,hk3⟩
  refine ⟨some h1.length,h3,L,r3,?_,hs3,hk1.trans (hk2.trans hk3),hv3,hL⟩
  filter_upwards [he1,read_stored hv1,he3] with n h1 h2 h3
  simp only [exprEval,h1,h2,hu,h3,Run.ok_bind]

omit [CDouble R] in
theorem evalItems_gives {es : List (HeapExpr P)} {vs : List (JsonNode R)}
    (hes : List.Forall₂ (fun e v => Refines (stored .false) s lit doc e.Tidy v fun n => eval n e) es vs) (hs : Sound r h Z H)
    (hh : s.Hold lit doc h H) : GivesItems .false (∀ e ∈ es, e.Tidy) h Z H vs fun n => evalItems (eval n) es h := by
  induction hes generalizing r h H with
  | nil =>
    exact ⟨[],h,0,r,.of_forall fun _ => rfl,by simpa using hs,.refl Z h,rfl,fun j => by simpa using Stored.nullptr,fun _ => rfl⟩
  | @cons e v es vs he _ ih =>
    obtain ⟨p,h1,L1,r1,he1,hs1,hk1,hv1,hL1⟩ := he r h Z H hs hh
    obtain ⟨ps,h2,L2,r2,he2,hs2,hk2,hlen,hv2,hL2⟩ := ih hs1 (hh.kept hk1 hs1 mem_others)
    refine ⟨p::ps,h2,L2 + L1,r2,?_,?_,hk1.trans hk2,congrArg Nat.succ hlen,fun j => ?_,fun ht => ?_⟩
    · filter_upwards [he1,he2] with n h1 h2
      simp only [evalItems,h1,h2,Run.ok_bind]
    · have hall : (((p::ps).filterMap id : List ℕ) : Multiset ℕ) + (L2 + L1 + H) =
          (ps.filterMap id : List ℕ) + (L2 + (handle p + (L1 + H))) := by
        rw [handles_cons]
        abel
      rwa [hall]
    · cases j with
      | zero =>
        refine stored_kept hv1 hk2 hs2 fun q hq => Multiset.mem_add.mpr (.inr (Multiset.mem_add.mpr (.inr ?_)))
        exact mem_own q hq
      | succ j => exact hv2 j
    · rw [hL1 (ht e List.mem_cons_self),hL2 fun e' he' => ht e' (List.mem_cons_of_mem e he'),add_zero]

omit [CDouble R] in
theorem evalItems_fresh {es : List (HeapExpr P)} {vs : List (JsonNode R)}
    (hes : List.Forall₂ (fun e v => Refines (stored .true) s lit doc False v fun n => eval n e) es vs) (hs : Sound r h Z H)
    (hh : s.Hold lit doc h H) : GivesItems .true False h Z H vs fun n => evalItems (eval n) es h := by
  induction hes generalizing r h Z H with
  | nil =>
    exact ⟨[],h,0,r,.of_forall fun _ => rfl,by simpa using hs,.refl Z h,rfl,fun j => by simpa using Stored.nullptr,fun _ => rfl⟩
  | @cons e v es vs he _ ih =>
    obtain ⟨p,h1,L1,r1,he1,hs1,hk1,hv1,_⟩ := he r h Z H hs hh
    have hh1 : s.Hold lit doc h1 (L1 + H) := (hh.after (hh.kept hk1 hs1 mem_others)).others
      fun q hq => Multiset.mem_add.mpr (.inr hq)
    obtain ⟨U,ho,hd,hs1'⟩ := Sound.own hv1 hs1
    obtain ⟨ps,h2,L2,r2,he2,hs2,hk2,hlen,hv2,_⟩ := ih hs1' hh1
    have ho2 := ho.frame fun x hx => hk2.fixed x (Finset.mem_union_right Z hx)
    obtain ⟨r3,hs3⟩ := Sound.disown ho2 hd hs2
    refine ⟨p::ps,h2,L2 + L1,r3,?_,?_,hk1.trans (hk2.of_subset Finset.subset_union_left),congrArg Nat.succ hlen,fun j => ?_,
      False.elim⟩
    · filter_upwards [he1,he2] with n h1 h2
      simp only [evalItems,h1,h2,Run.ok_bind]
    · have hall : (((p::ps).filterMap id : List ℕ) : Multiset ℕ) + (L2 + L1 + H) =
          handle p + ((ps.filterMap id : List ℕ) + (L2 + (L1 + H))) := by
        rw [handles_cons]
        abel
      rwa [hall]
    · cases j with
      | zero => exact ho2.stored
      | succ j => exact hv2 j

omit [CDouble R] in
/-- A struct or an array with the values of the items, whose node is made before them. -/
theorem container_spec {es : List (HeapExpr P)} {vs : List (JsonNode R)}
    (hes : ∀ r h Z H, Sound r h Z H → s.Hold lit doc h H → GivesItems own tidy h Z H vs fun n => evalItems (eval n) es h)
    (hu : u ≠ .nullptr) (hc : u.children = vs) (hs : Sound r h Z H) (hh : s.Hold lit doc h H) :
    ∃ ps h1 h' L r', Run.Returns (fun n => evalItems (eval n) es (newNode h .null)) (ps,h1) ∧
      setNode h1 h.length (u.content ps) = .ok h' ∧ Sound r' h' Z (handle (some h.length) + (L + H)) ∧ Kept Z h h' ∧
      Stored own h' u (some h.length) ∧ (tidy → L = 0) := by
  obtain ⟨hs0,hh0⟩ := newNode_spec hs hh
  obtain ⟨ps,h1,L,r1,he1,hs1,hk1,hlen,hv1,hL⟩ := hes _ _ _ _ hs0 hh0
  obtain ⟨h2,r2,he2,hs2,hk2,hv2⟩ := finish_spec ps hs hs1 hk1 hu (hc ▸ hlen) fun j => by
    rw [JsonNode.child,hc]
    exact hv1 j
  exact ⟨ps,h1,h2,L,r2,he1,he2,by simpa using hs2,hk2,hv2,hL⟩

theorem struct_gives {st : List (Bytes × HeapExpr P)} {ws : List (JsonNode R)} (hws : ws.length = st.length)
    (hes : ∀ r h Z H, Sound r h Z H → s.Hold lit doc h H →
      GivesItems own tidy h Z H ws fun n => evalItems (eval n) (st.map Prod.snd) h)
    (hs : Sound r h Z H) (hh : s.Hold lit doc h H) :
    Gives (stored own) tidy h Z H (.struct ((st.map Prod.fst).zip ws)) fun n => exprEval (eval n) n s (.struct st) h := by
  have hfst : ((st.map Prod.fst).zip ws).map Prod.fst = st.map Prod.fst := List.map_fst_zip (by simp [hws])
  have hsnd : ((st.map Prod.fst).zip ws).map Prod.snd = ws := List.map_snd_zip (by simp [hws])
  obtain ⟨ps,h2,h3,L,r3,he2,he3,hs3,hk3,hv3,hL⟩ := container_spec (u := .struct ((st.map Prod.fst).zip ws)) hes
    (fun h => by cases h) hsnd hs hh
  refine ⟨_,h3,L,r3,?_,hs3,hk3,hv3,hL⟩
  have he3' : setNode h2 h.length (.struct ((st.map Prod.fst).zip ps)) = .ok h3 := by
    rw [JsonNode.content,hfst] at he3
    exact he3
  filter_upwards [he2] with m h2
  simp only [exprEval,h2,he3',Run.ok_bind]

theorem array_gives {ar : List (HeapExpr P)} {ws : List (JsonNode R)}
    (hes : ∀ r h Z H, Sound r h Z H → s.Hold lit doc h H → GivesItems own tidy h Z H ws fun n => evalItems (eval n) ar h)
    (hs : Sound r h Z H) (hh : s.Hold lit doc h H) :
    Gives (stored own) tidy h Z H (.array ws) fun n => exprEval (eval n) n s (.array ar) h := by
  obtain ⟨ps,h2,h3,L,r3,he2,he3,hs3,hk3,hv3,hL⟩ := container_spec (u := .array ws) hes (fun h => by cases h) rfl hs hh
  refine ⟨_,h3,L,r3,?_,hs3,hk3,hv3,hL⟩
  have he3' : setNode h2 h.length (.array ps) = .ok h3 := he3
  filter_upwards [he2] with m h2
  simp only [exprEval,h2,he3',Run.ok_bind]

end Operators

section Values
variable [CDouble R] {ctx : Ctx R} {n : ℕ} {e : HeapExpr P} {E : Expr R}

omit [CDouble R] in
theorem members_split (st : List (Bytes × HeapExpr P)) :
    (memberItems lit st).map ExprItem.pExpr = (st.map Prod.snd).map (HeapExpr.expr lit) ∧
      (memberItems lit st).map (fun i => i.zAs.getD []) = st.map Prod.fst := by
  induction st with
  | nil => exact ⟨rfl,rfl⟩
  | cons m st ih => exact ⟨congrArg (m.2.expr lit :: ·) ih.1,congrArg (m.1 :: ·) ih.2⟩

omit [CDouble R] in
theorem elements_split (ar : List (HeapExpr P)) :
    (elementItems lit ar).map ExprItem.pExpr = ar.map (HeapExpr.expr lit) := by
  induction ar with
  | nil => rfl
  | cons e ar ih => exact congrArg (e.expr lit :: ·) ih

omit [CDouble R] in
theorem evalItems_values {I : Interp R} {items items' : List (ExprItem R)} {es : List (HeapExpr P)}
    {vs : List (JsonNode R)} (hes : items.map ExprItem.pExpr = es.map (HeapExpr.expr lit))
    (hi : Xjd1.evalItems I ctx items = .ok (vs,items')) :
    List.Forall₂ (fun e v => ∃ E, I.xjd1ExprEval ctx (e.expr lit) = .ok (v,E)) es vs ∧
      items'.map (fun i => i.zAs.getD []) = items.map fun i => i.zAs.getD [] := by
  induction items generalizing es vs items' with
  | nil =>
    obtain rfl := List.map_eq_nil_iff.mp hes.symm
    cases hi
    exact ⟨.nil,rfl⟩
  | cons i items ih =>
    cases es with
    | nil => cases hes
    | cons e es =>
      obtain ⟨⟨v,E⟩,hv,hi⟩ := Run.bind_eq_ok.mp hi
      obtain ⟨⟨ws,is⟩,hw,hi⟩ := Run.bind_eq_ok.mp hi
      cases hi
      obtain ⟨he,hes⟩ := List.cons.inj hes
      obtain ⟨hall,hlabels⟩ := ih hes hw
      exact ⟨.cons ⟨E,he ▸ hv⟩ hall,congrArg ((i.zAs.getD []) :: ·) hlabels⟩

theorem truth_of_true {I : Interp R} {b : Bool} {E E' : Expr R} (h : Xjd1.xjd1ExprTrue I ctx E = .ok (b,E')) :
    ∃ v E'', I.xjd1ExprEval ctx E = .ok (v,E'') ∧ truth v = .ok b := by
  obtain ⟨⟨v,E''⟩,hv,h⟩ := Run.bind_eq_ok.mp h
  refine ⟨v,E'',hv,?_⟩
  cases v with
  | nullptr =>
    cases h
    rfl
  | _ =>
    obtain ⟨c,hc,h⟩ := Run.bind_eq_ok.mp h
    cases h
    exact hc

/-! What a value of an expression says about the values of its parts. -/

section Parts
variable {I : Interp R} {eType : BiOp} {pLeft : HeapExpr P} {pRight : Option (HeapExpr P)}

theorem dot_ok {zId : Bytes} (hv : Xjd1.exprEval I ctx ((HeapExpr.dot pLeft zId).expr lit) = .ok (v,E)) :
    ∃ w E1, I.xjd1ExprEval ctx (pLeft.expr lit) = .ok (w,E1) ∧ v = Xjd1.getProperty w zId := by
  obtain ⟨⟨w,E1⟩,h1,hv⟩ := Run.bind_eq_ok.mp hv
  cases hv
  exact ⟨w,E1,h1,rfl⟩

theorem lb_ok (hv : Xjd1.exprEvalBi I ctx .lb (pLeft.expr lit) (pRight.map (HeapExpr.expr lit)) = .ok (v,E)) :
    ∃ w1 E1 w2 E2, I.xjd1ExprEval ctx (pLeft.expr lit) = .ok (w1,E1) ∧
      Xjd1.evalOption I ctx (pRight.map (HeapExpr.expr lit)) = .ok (w2,E2) ∧ Xjd1.subscriptOperator w1 w2 = .ok v := by
  obtain ⟨⟨w1,E1⟩,h1,hv⟩ := Run.bind_eq_ok.mp hv
  obtain ⟨⟨w2,E2⟩,h2,hv⟩ := Run.bind_eq_ok.mp hv
  obtain ⟨u,h3,hv⟩ := Run.bind_eq_ok.mp hv
  cases hv
  exact ⟨w1,E1,w2,E2,h1,h2,h3⟩

theorem tri_ok {pTest pIfTrue pIfFalse : HeapExpr P}
    (hv : Xjd1.exprEval I ctx ((HeapExpr.tri pTest pIfTrue pIfFalse).expr lit) = .ok (v,E)) :
    ∃ w E1 b E2, I.xjd1ExprEval ctx (pTest.expr lit) = .ok (w,E1) ∧ truth w = .ok b ∧
      I.xjd1ExprEval ctx ((if b then pIfTrue else pIfFalse).expr lit) = .ok (v,E2) := by
  obtain ⟨⟨b,E1⟩,h1,hv⟩ := Run.bind_eq_ok.mp hv
  obtain ⟨w,E2,hw,hb⟩ := truth_of_true h1
  cases b with
  | true | false =>
    obtain ⟨⟨u,E3⟩,h2,hv⟩ := Run.bind_eq_ok.mp hv
    cases hv
    exact ⟨w,E2,_,E3,hw,hb,h2⟩

theorem struct_ok {st : List (Bytes × HeapExpr P)} (hv : Xjd1.exprEval I ctx ((HeapExpr.struct st).expr lit) = .ok (v,E)) :
    ∃ ws, List.Forall₂ (fun e w => ∃ E, I.xjd1ExprEval ctx (e.expr lit) = .ok (w,E)) (st.map Prod.snd) ws ∧
      ws.length = st.length ∧ v = .struct ((st.map Prod.fst).zip ws) := by
  obtain ⟨⟨ws,is⟩,h1,hv⟩ := Run.bind_eq_ok.mp hv
  cases hv
  obtain ⟨hall,hlabels⟩ := evalItems_values (members_split st).1 h1
  refine ⟨ws,hall,by simpa using hall.length_eq.symm,?_⟩
  rw [structValue,hlabels,(members_split st).2]

theorem array_ok {ar : List (HeapExpr P)} (hv : Xjd1.exprEval I ctx ((HeapExpr.array ar).expr lit) = .ok (v,E)) :
    ∃ ws, List.Forall₂ (fun e w => ∃ E, I.xjd1ExprEval ctx (e.expr lit) = .ok (w,E)) ar ws ∧ v = .array ws := by
  obtain ⟨⟨ws,is⟩,h1,hv⟩ := Run.bind_eq_ok.mp hv
  cases hv
  exact ⟨ws,(evalItems_values (elements_split ar) h1).1,rfl⟩

theorem length_ok {pArg : HeapExpr P} (hv : Xjd1.exprEval I ctx ((HeapExpr.length pArg).expr lit) = .ok (v,E)) :
    ∃ w E1, I.xjd1ExprEval ctx (pArg.expr lit) = .ok (w,E1) ∧ xLength w = .ok v := by
  obtain ⟨⟨ws,is⟩,h1,hv⟩ := Run.bind_eq_ok.mp hv
  obtain ⟨⟨w,E1⟩,h2,h1⟩ := Run.bind_eq_ok.mp h1
  cases h1
  obtain ⟨u,hu,hv⟩ := Run.bind_eq_ok.mp hv
  cases hv
  exact ⟨w,E1,h2,hu⟩

end Parts

section Bi
variable {I : Interp R} {eval : ℕ → HeapExpr P → JsonHeap R → Exec (Option ℕ × JsonHeap R)} {eType : BiOp}
  {pLeft : HeapExpr P} {pRight : Option (HeapExpr P)} {T : HeapExpr P → Prop}

omit [CDouble R] in
theorem evalOption_refines (hQ : ∀ h Z H v p, Stored .true h v p → Q h Z H v p)
    (ih : ∀ e ∈ pRight, ∀ v E, I.xjd1ExprEval ctx (e.expr lit) = .ok (v,E) → Refines Q s lit doc (T e) v fun m => eval m e)
    {O : Option (Expr R)} (hw : Xjd1.evalOption I ctx (pRight.map (HeapExpr.expr lit)) = .ok (w,O)) :
    Refines Q s lit doc (∀ e ∈ pRight, T e) w fun m => evalOption (eval m) pRight := by
  refine option_refines hQ (fun hnone => ?_) fun e he => ?_
  · rw [hnone] at hw
    cases hw
    rfl
  · rw [Option.mem_def.mp he] at hw
    obtain ⟨⟨w1,E1⟩,hw1,heq⟩ := Run.bind_eq_ok.mp hw
    cases heq
    exact ih e he _ E1 hw1

theorem logical_gives (hop : eType = .and ∨ eType = .or) (hQ : ∀ h Z H v p, Stored .true h v p → Q h Z H v p)
    (hQ' : ∀ h Z H v p, Q h Z H v p → Stored .false h v p)
    (hl : ∀ v E, I.xjd1ExprEval ctx (pLeft.expr lit) = .ok (v,E) → Refines Q s lit doc (T pLeft) v fun m => eval m pLeft)
    (hr : ∀ e ∈ pRight, ∀ v E, I.xjd1ExprEval ctx (e.expr lit) = .ok (v,E) → Refines Q s lit doc (T e) v fun m => eval m e)
    (hv : Xjd1.exprEvalBi I ctx eType (pLeft.expr lit) (pRight.map (HeapExpr.expr lit)) = .ok (v,E)) (hs : Sound r h Z H)
    (hh : s.Hold lit doc h H) :
    Gives Q (T pLeft ∧ ∀ e ∈ pRight, T e) h Z H v fun m => exprEvalBi (eval m) m eType pLeft pRight h := by
  have hcode : ∀ m, exprEvalBi (eval m) m eType pLeft pRight h = logicalOperator (eval m) m eType pLeft pRight h := by
    rcases hop with rfl | rfl <;> exact fun _ => rfl
  have hv' : (I.xjd1ExprEval ctx (pLeft.expr lit) >>= fun x => isTrue x.1 >>= fun b =>
      if b = (eType = .or) then Run.ok (x.1,Expr.bi eType x.2 (pRight.map (HeapExpr.expr lit)))
      else Xjd1.evalOption I ctx (pRight.map (HeapExpr.expr lit)) >>= fun y => Run.ok (y.1,Expr.bi eType x.2 y.2)) =
        .ok (v,E) := by
    rcases hop with rfl | rfl <;> exact hv
  obtain ⟨⟨w1,E1⟩,h1,hv'⟩ := Run.bind_eq_ok.mp hv'
  obtain ⟨b,hb,hv'⟩ := Run.bind_eq_ok.mp hv'
  simp only [hcode]
  refine logicalOperator_gives hQ' (hl _ _ h1) hb (fun hc => ?_) (fun hc => ?_) hs hh
  · rw [if_pos hc] at hv'
    cases hv'
    rfl
  · rw [if_neg hc] at hv'
    obtain ⟨⟨w2,E2⟩,h2,hv'⟩ := Run.bind_eq_ok.mp hv'
    cases hv'
    exact evalOption_refines hQ hr h2

variable (ih : ∀ e v E, I.xjd1ExprEval ctx (e.expr lit) = .ok (v,E) →
  Refines (stored .false) s lit doc e.Tidy v fun m => eval m e)
include ih

/-- The other operators but a subscript give a value on a node that was made for it. -/
theorem exprEvalBi_fresh (hop : eType ≠ .lb ∧ eType ≠ .and ∧ eType ≠ .or)
    (hv : Xjd1.exprEvalBi I ctx eType (pLeft.expr lit) (pRight.map (HeapExpr.expr lit)) = .ok (v,E)) (hs : Sound r h Z H)
    (hh : s.Hold lit doc h H) :
    Gives (stored .true) (keepsOperands eType = false ∧ pLeft.Tidy ∧ ∀ e ∈ pRight, e.Tidy) h Z H v
      fun m => exprEvalBi (eval m) m eType pLeft pRight h := by
  have hbinary (hcode : ∀ m, exprEvalBi (eval m) m eType pLeft pRight h = binaryOperator (eval m) m eType pLeft pRight h)
      (hv : (I.xjd1ExprEval ctx (pLeft.expr lit) >>= fun x =>
        Xjd1.evalOption I ctx (pRight.map (HeapExpr.expr lit)) >>= fun y =>
          biOperator eType x.1 y.1 >>= fun u => Run.ok (u,Expr.bi eType x.2 y.2)) = .ok (v,E)) :
      Gives (stored .true) (keepsOperands eType = false ∧ pLeft.Tidy ∧ ∀ e ∈ pRight, e.Tidy) h Z H v
        fun m => exprEvalBi (eval m) m eType pLeft pRight h := by
    obtain ⟨⟨w1,E1⟩,h1,hv⟩ := Run.bind_eq_ok.mp hv
    obtain ⟨⟨w2,E2⟩,h2,hv⟩ := Run.bind_eq_ok.mp hv
    obtain ⟨u,h3,hv⟩ := Run.bind_eq_ok.mp hv
    cases hv
    simp only [hcode]
    have hr := evalOption_refines (fun _ _ _ _ _ => Stored.weaken) (fun e _ => ih e) h2
    exact binaryOperator_gives (ih _ _ _ h1) hr hop.1 h3 hs hh
  cases eType with
  | lb => exact absurd rfl hop.1
  | and => exact absurd rfl hop.2.1
  | or => exact absurd rfl hop.2.2
  | bang =>
    obtain ⟨⟨b,E1⟩,h1,hv⟩ := Run.bind_eq_ok.mp hv
    cases hv
    obtain ⟨w,E2,h1,hb⟩ := truth_of_true h1
    exact (bang_gives (ih _ _ _ h1) hb hs hh).mono (fun _ _ _ _ _ => id) fun ht => ht.2.1
  | bitnot =>
    obtain ⟨⟨w,E1⟩,h1,hv⟩ := Run.bind_eq_ok.mp hv
    obtain ⟨i,hi,hv⟩ := Run.bind_eq_ok.mp hv
    cases hv
    exact (bitnot_gives (ih _ _ _ h1) hi hs hh).mono (fun _ _ _ _ _ => id) fun ht => by cases ht.1
  | minus =>
    cases pRight with
    | none =>
      obtain ⟨⟨w,E1⟩,h1,hv⟩ := Run.bind_eq_ok.mp hv
      cases hv
      exact (minus_gives (ih _ _ _ h1) hs hh).mono (fun _ _ _ _ _ => id) fun ht => ht.2.1
    | some e => exact hbinary (fun _ => rfl) hv
  | star | slash =>
    cases pRight with
    | none => cases hv
    | some e => exact hbinary (fun _ => rfl) hv
  | eq3 | ne3 | like | urshift | bitxor =>
    cases hv
    exact newLeaf_gives hs (fun h => by cases h) rfl (.of_forall fun _ => rfl)
  | _ => exact hbinary (fun _ => rfl) hv

theorem exprEvalBi_gives
    (hv : Xjd1.exprEvalBi I ctx eType (pLeft.expr lit) (pRight.map (HeapExpr.expr lit)) = .ok (v,E)) (hs : Sound r h Z H)
    (hh : s.Hold lit doc h H) :
    Gives (stored .false) (keepsOperands eType = false ∧ pLeft.Tidy ∧ ∀ e ∈ pRight, e.Tidy) h Z H v
      fun m => exprEvalBi (eval m) m eType pLeft pRight h := by
  have hweak : ∀ h (Z : Finset ℕ) (H : Multiset ℕ) v p, Stored .true h v p → Stored .false h v p :=
    fun (h : JsonHeap R) _ _ _ _ => Stored.weaken
  by_cases hop : eType ≠ .lb ∧ eType ≠ .and ∧ eType ≠ .or
  · exact (exprEvalBi_fresh ih hop hv hs hh).weaken id
  · by_cases hlb : eType = .lb
    · subst hlb
      obtain ⟨w1,E1,w2,E2,h1,h2,h3⟩ := lb_ok hv
      have hr := evalOption_refines hweak (fun e _ => ih e) h2
      have hl : Refines (lent False) s lit doc pLeft.Tidy w1 fun m => eval m pLeft :=
        (ih _ _ _ h1).mono fun _ _ _ _ _ hv => ⟨hv,False.elim⟩
      exact (lb_gives hl hr h3 hs hh).mono (fun _ _ _ _ _ => And.left) And.right
    · have hlogical : eType = .and ∨ eType = .or := by tauto
      have hg := logical_gives hlogical hweak (fun _ _ _ _ _ => id) (ih pLeft) (fun e _ => ih e) hv hs hh
      exact hg.weaken And.right

end Bi

theorem Gives.unfolded {s : StmtNodes P} (hg : Gives Q tidy h Z H v fun m => exprEval (xjd1ExprEval s m) m s e h) :
    Gives Q tidy h Z H v fun m => xjd1ExprEval s m e h := by
  obtain ⟨p,h',L,r',he,hs,hk,hv,hL⟩ := hg
  exact ⟨p,h',L,r',Run.Returns.succ_iff.mp he,hs,hk,hv,hL⟩

theorem literal_gives (hs : Sound r h Z H) (hh : s.Hold lit doc h H) (k : P) :
    Gives (lent True) tidy h Z H (lit k) fun m => exprEval (xjd1ExprEval s m) m s (.jvalue k) h := by
  refine ref_gives hs (hh.literal k).2 (fun q hq => ?_) fun h' hr => .of_forall fun m => ?_
  · rw [Option.mem_some_iff] at hq
    exact hq ▸ (hh.literal k).1
  · simp only [exprEval,hr,Run.ok_bind]

theorem document_gives (hs : Sound r h Z H) (hh : s.Hold lit (.doc v) h H) (zId : Bytes) :
    Gives (lent True) tidy h Z H v fun m => exprEval (xjd1ExprEval s m) m s (.id zId) h := by
  obtain ⟨p,hp,hst,hm⟩ := hh.pDoc v rfl
  refine ref_gives hs hst hm fun h' hr => .of_forall fun m => ?_
  simp only [exprEval,hp,hr,Run.ok_bind]

theorem id_ok {I : Interp R} {zId : Bytes} (hv : Xjd1.exprEval I ctx (.id zId none 0) = .ok (v,E)) : ctx.pDoc = .doc v := by
  cases hdoc : ctx.pDoc with
  | select | insert =>
    simp only [Xjd1.exprEval,hdoc] at hv
    cases hv
  | doc w =>
    simp only [Xjd1.exprEval,hdoc] at hv
    cases hv
    rfl

/-- Where the evaluator of values gives a value, the evaluator in memory gives a pointer to it. -/
theorem xjd1ExprEval_refines (s : StmtNodes P) (lit : P → JsonNode R)
    (hv : (interp n).xjd1ExprEval ctx (e.expr lit) = .ok (v,E)) :
    Refines (stored .false) s lit ctx.pDoc e.Tidy v fun m => xjd1ExprEval s m e := by
  induction n generalizing e v E with
  | zero => cases hv
  | succ n ih =>
    intro r h Z H hs hh
    have hv' : Xjd1.exprEval (interp n) ctx (e.expr lit) = .ok (v,E) := hv
    have hitems {es : List (HeapExpr P)} {ws : List (JsonNode R)}
        (hall : List.Forall₂ (fun e w => ∃ E, (interp n).xjd1ExprEval ctx (e.expr lit) = .ok (w,E)) es ws) {r h Z H}
        (hs : Sound r h Z H) (hh : s.Hold lit ctx.pDoc h H) :
        GivesItems .false (∀ e ∈ es, e.Tidy) h Z H ws fun m => evalItems (xjd1ExprEval s m) es h :=
      evalItems_gives (hall.imp fun e w hev => hev.elim fun E hE => ih hE) hs hh
    refine Gives.unfolded ?_
    cases e with
    | jvalue k =>
      cases hv'
      exact (literal_gives hs hh k).mono (fun _ _ _ _ _ => And.left) id
    | dot pLeft zId =>
      obtain ⟨w,E1,h1,rfl⟩ := dot_ok hv'
      have hl : Refines (lent False) s lit ctx.pDoc pLeft.Tidy w fun m => xjd1ExprEval s m pLeft :=
        (ih h1).mono fun _ _ _ _ _ hv => ⟨hv,False.elim⟩
      refine (dot_gives hl hs hh).mono (fun _ _ _ _ _ => And.left) fun ht => ?_
      cases ht
      assumption
    | bi eType pLeft pRight =>
      rw [HeapExpr.expr_bi] at hv'
      refine (exprEvalBi_gives (fun e v E => ih) hv' hs hh).weaken fun ht => ?_
      cases ht with
      | bi hop hl hr => exact ⟨hop,hl,hr⟩
    | tri pTest pIfTrue pIfFalse =>
      obtain ⟨w,E1,b,E2,h1,hb,h2⟩ := tri_ok hv'
      exact (tri_gives (ih h1) hb (ih h2) hs hh).weaken fun ht => by cases ht
    | id zId =>
      rw [id_ok hv'] at hh
      exact (document_gives hs hh zId).mono (fun _ _ _ _ _ => And.left) id
    | struct st =>
      obtain ⟨ws,hall,hws,rfl⟩ := struct_ok hv'
      refine (struct_gives hws (fun r h Z H hs hh => hitems hall hs hh) hs hh).weaken fun ht e he => ?_
      cases ht with
      | struct hst =>
        obtain ⟨m,hm,rfl⟩ := List.mem_map.mp he
        exact hst m hm
    | array ar =>
      obtain ⟨ws,hall,rfl⟩ := array_ok hv'
      refine (array_gives (fun r h Z H hs hh => hitems hall hs hh) hs hh).weaken fun ht => ?_
      cases ht with
      | array har => exact har
    | length pArg =>
      obtain ⟨w,E1,h1,hu⟩ := length_ok hv'
      refine (length_gives (ih h1) hu hs hh).weaken fun ht => ?_
      cases ht
      assumption

end Values

end Rules

section Whole
variable [CDouble R] {s : StmtNodes P} {lit : P → JsonNode R} {ctx : Ctx R} {h : JsonHeap R} {H : Multiset ℕ}
  {r : ℕ → ℕ} {e : HeapExpr P} {E : Expr R} {v : JsonNode R} {n : ℕ}

/-- An expression that has a value is evaluated without a use of a node that was freed, and
gives a new reference to a node with this value. The references there were still lead to the
values they led to. The counts stay right, but for references that are lost, which are none
if the expression is tidy. -/
theorem xjd1ExprEval_inMemory (hs : Sound r h ∅ H) (hh : s.Hold lit ctx.pDoc h H)
    (hv : (interp n).xjd1ExprEval ctx (e.expr lit) = .ok (v,E)) :
    ∃ p h' L r', Run.Returns (fun m => xjd1ExprEval s m e h) (p,h') ∧ Stored .false h' v p ∧
      Sound r' h' ∅ (handle p + (L + H)) ∧ (∀ w, ∀ q ∈ H, Stored .false h w (some q) → Stored .false h' w (some q)) ∧
      (e.Tidy → L = 0) := by
  obtain ⟨p,h',L,r',he,hs',hk,hv',hL⟩ := xjd1ExprEval_refines s lit hv r h ∅ H hs hh
  refine ⟨p,h',L,r',he,hv',hs',fun w q hq hw => stored_kept hw hk hs' fun i hi => ?_,hL⟩
  rw [Option.mem_some_iff] at hi
  exact hi ▸ mem_others q hq

/-- The test of a tidy expression leaves the memory as it was, cell by cell. -/
theorem xjd1ExprTrue_inMemory {b : Bool} (ht : e.Tidy) (hs : Sound r h ∅ H) (hh : s.Hold lit ctx.pDoc h H)
    (hb : Xjd1.xjd1ExprTrue (interp n) ctx (e.expr lit) = .ok (b,E)) :
    ∃ h', Run.Returns (fun m => xjd1ExprTrue (xjd1ExprEval s m) m e h) (b,h') ∧ ∀ i a, Live h' i a ↔ Live h i a := by
  obtain ⟨v,E',hv,hb⟩ := truth_of_true hb
  obtain ⟨h',L,r',he,hs',hk,hL⟩ := xjd1ExprTrue_spec (xjd1ExprEval_refines s lit hv) hb hs hh
  rw [hL ht,zero_add] at hs'
  exact ⟨h',he,hs.restored hs' hk⟩

omit [CDouble R] in
/-- A statement with one literal is run on a document that has been parsed. -/
theorem hold_parsed (x doc : JsonNode R) (hx : x ≠ .nullptr) (hc : x.children = []) :
    let h := poolNode [] (x.content [])
    ∃ r, Sound r (parsedNode doc h).2 ∅ (handle (parsedNode doc h).1 + Multiset.replicate 10000 0) ∧
      StmtNodes.Hold ⟨fun _ : Unit => 0,some (parsedNode doc h).1⟩ (fun _ => x) (.doc doc) (parsedNode doc h).2
        (handle (parsedNode doc h).1 + Multiset.replicate 10000 0) := by
  intro h
  obtain ⟨r1,hs1,hv1⟩ := poolNode_spec (Sound.nil fun _ => 0) hx hc
  rw [add_zero] at hs1
  obtain ⟨p,h2,r2,he,hpre,hs2,hv2⟩ := parsedNode_spec doc r1 h ∅ _ hs1
  have hpool : 0 ∈ Multiset.replicate 10000 0 := Multiset.mem_replicate.mpr ⟨by omega,rfl⟩
  rw [he]
  refine ⟨r2,hs2,fun _ => ⟨Multiset.mem_add.mpr (.inr hpool),hv1.extend hpre⟩,fun v hv => ?_⟩
  cases hv
  exact ⟨p,rfl,hv2.weaken,mem_own⟩

/-- `c.a + 1` on a document with a number. -/
theorem xjd1ExprEval_inMemory_sum :
    let doc : JsonNode Int := .struct [([ch 'a'],.real 5)]
    let (pDoc,h) := parsedNode doc (poolNode [] (.real 1))
    let s : StmtNodes Unit := ⟨fun _ => 0,some pDoc⟩
    let e : HeapExpr Unit := .bi .plus (.dot (.id [ch 'c']) [ch 'a']) (some (.jvalue ()))
    let H := handle pDoc + Multiset.replicate 10000 0
    ∃ p h' L r', Run.Returns (fun m => xjd1ExprEval s m e h) (p,h') ∧ Stored .false h' (.real 6) p ∧
      Sound r' h' ∅ (handle p + (L + H)) ∧ (∀ w, ∀ q ∈ H, Stored .false h w (some q) → Stored .false h' w (some q)) ∧
      (e.Tidy → L = 0) := by
  intro doc
  obtain ⟨r,hs,hh⟩ := hold_parsed (.real 1) doc (fun h => by cases h) rfl
  let ctx : Ctx Int := ⟨[],.doc doc,fun _ => []⟩
  let e : HeapExpr Unit := .bi .plus (.dot (.id [ch 'c']) [ch 'a']) (some (.jvalue ()))
  obtain ⟨E,hv⟩ : ∃ E, (interp 3).xjd1ExprEval ctx (e.expr fun _ => .real 1) = .ok (.real 6,E) := ⟨_,rfl⟩
  have hh' : StmtNodes.Hold _ _ ctx.pDoc _ _ := hh
  exact xjd1ExprEval_inMemory hs hh' hv

/-- `c.a` is true of a document where `a` is a number but zero. -/
theorem xjd1ExprTrue_inMemory_member :
    let doc : JsonNode Int := .struct [([ch 'a'],.real 5)]
    let (pDoc,h) := parsedNode doc (poolNode [] (.real 1))
    let s : StmtNodes Unit := ⟨fun _ => 0,some pDoc⟩
    let e : HeapExpr Unit := .dot (.id [ch 'c']) [ch 'a']
    ∃ h', Run.Returns (fun m => xjd1ExprTrue (xjd1ExprEval s m) m e h) (true,h') ∧ ∀ i a, Live h' i a ↔ Live h i a := by
  intro doc
  obtain ⟨r,hs,hh⟩ := hold_parsed (.real 1) doc (fun h => by cases h) rfl
  let ctx : Ctx Int := ⟨[],.doc doc,fun _ => []⟩
  let e : HeapExpr Unit := .dot (.id [ch 'c']) [ch 'a']
  obtain ⟨E,hb⟩ : ∃ E, Xjd1.xjd1ExprTrue (interp 3) ctx (e.expr fun _ => .real 1) = .ok (true,E) := ⟨_,rfl⟩
  have hh' : StmtNodes.Hold _ _ ctx.pDoc _ _ := hh
  exact xjd1ExprTrue_inMemory (.dot (.id _) _) hs hh' hb

end Whole

end InMemory
end Xjd1
