import Xjd1.Query.Unshared
import Xjd1.Update.Revise

/-! The assignments of an UPDATE statement in memory. The new document is a copy on nodes of
its own, and is changed in place; the expressions see the nodes of the document before. -/
namespace Xjd1

open Heap RefCount Fueled

variable {R P : Type}

section RightSides
variable {lit : P → JsonNode R} {e : HeapExpr P}

theorem mem_memberItems {st : List (Bytes × HeapExpr P)} {m : ExprItem R} (h : m ∈ memberItems lit st) :
    ∃ x ∈ st, m.pExpr = x.2.expr lit := by
  induction st with
  | nil => cases h
  | cons x st ih =>
    rcases List.mem_cons.mp h with rfl | h
    · exact ⟨x,List.mem_cons_self,rfl⟩
    · obtain ⟨y,hy,he⟩ := ih h
      exact ⟨y,List.mem_cons_of_mem x hy,he⟩

theorem mem_elementItems {ar : List (HeapExpr P)} {m : ExprItem R} (h : m ∈ elementItems lit ar) :
    ∃ x ∈ ar, m.pExpr = x.expr lit := by
  induction ar with
  | nil => cases h
  | cons x ar ih =>
    rcases List.mem_cons.mp h with rfl | h
    · exact ⟨x,List.mem_cons_self,rfl⟩
    · obtain ⟨y,hy,he⟩ := ih h
      exact ⟨y,List.mem_cons_of_mem x hy,he⟩

theorem mem_map_expr {o : Option (HeapExpr P)} {Q : Expr R → Prop} (h : ∀ e ∈ o, Q (e.expr lit)) :
    ∀ e ∈ o.map (HeapExpr.expr lit), Q e := by
  intro e he
  obtain ⟨x,hx,rfl⟩ := Option.mem_map.mp he
  exact h x hx

theorem HeapExpr.Fresh.expr (h : e.Fresh) : (e.expr lit).Fresh := by
  induction h with
  | bi hop pLeft pRight =>
    rw [HeapExpr.expr_bi]
    exact .bi hop _ _
  | logical hop _ _ ihl ihr =>
    rw [HeapExpr.expr_bi]
    exact .logical hop ihl (mem_map_expr ihr)
  | tri pTest _ _ iht ihf => exact .tri _ iht ihf
  | struct _ ih =>
    refine .struct fun m hm => ?_
    obtain ⟨x,hx,he⟩ := mem_memberItems hm
    exact he ▸ ih x hx
  | array _ ih =>
    refine .array fun m hm => ?_
    obtain ⟨x,hx,he⟩ := mem_elementItems hm
    exact he ▸ ih x hx
  | length pArg => exact .length _ 0

theorem HeapExpr.Borrowed.expr (h : e.Borrowed) : (e.expr lit).Borrowed := by
  induction h with
  | jvalue p => exact .jvalue _
  | id zId => exact .id zId 0
  | dot _ zId ih => exact .dot ih zId
  | lb _ pRight ih =>
    rw [HeapExpr.expr_bi]
    exact .lb ih _

/-- What can be assigned in memory as a value is what the assignments on values are about. -/
theorem HeapExpr.Unshared.expr (h : e.Unshared) : (e.expr lit).Unshared := by
  induction h with
  | fresh h => exact .fresh h.expr
  | borrowed h => exact .borrowed h.expr
  | logical hop _ _ ihl ihr =>
    rw [HeapExpr.expr_bi]
    exact .logical hop ihl (mem_map_expr ihr)
  | tri pTest _ _ iht ihf => exact .tri _ iht ihf

end RightSides

namespace InMemory

def members : JsonU R → List (Bytes × Option ℕ)
  | .struct pFirst => pFirst
  | _ => []

def toStruct (n : ℕ) (h : JsonHeap R) (p : ℕ) : Exec (JsonHeap R) := do
  let a ← getNode h p
  match a.val with
  | .struct _ => .ok h
  | _ => do
    let h ← xjd1JsonToNull n h p
    setNode h p (.struct [])

def findOrAddMember (h : JsonHeap R) (p : ℕ) (zField : Bytes) : Exec (Option ℕ × JsonHeap R) := do
  let a ← getNode h p
  match (members a.val).find? fun m => m.1 = zField with
  | some pElem => .ok (pElem.2,h)
  | none => do
    let pValue := h.length
    let h ← setNode (xjd1JsonNew h) p (.struct (members a.val ++ [(zField,some pValue)]))
    .ok (some pValue,h)

def findStructElement (n : ℕ) (h : JsonHeap R) (pBase : Option ℕ) (zField : Bytes) : Exec (Option ℕ × JsonHeap R) :=
  match pBase with
  | none => .ok (none,h)
  | some p => do
    let h ← toStruct n h p
    findOrAddMember h p zField

section Code
variable [CDouble R]

def findArrayElement (h : JsonHeap R) (p : ℕ) (apElem : List (Option ℕ)) (pIndex : JsonNode R) :
    Exec (Option ℕ × JsonHeap R) := do
  match ← subscript pIndex with
  | none => .ok (none,h)
  | some iIdx =>
    if iIdx < apElem.length then .ok (apElem[iIdx]?.join,h)
    else if iIdx < 1024 then do
      let (pNew,h) := parsedList (List.replicate (iIdx + 1 - apElem.length) .null) h
      let h ← setNode h p (.array (apElem ++ pNew))
      .ok ((apElem ++ pNew)[iIdx]?.join,h)
    else .stop .assertFail

section Statement
variable (s : StmtNodes P) (n : ℕ)

def findOrCreateJsonNode (pRoot : Option ℕ) : HeapExpr P → JsonHeap R → Exec (Option ℕ × JsonHeap R)
  | .dot pLeft zId, h => do
    let (pBase,h) ← findOrCreateJsonNode pRoot pLeft h
    findStructElement n h pBase zId
  | .bi .lb pLeft pRight, h => do
    let (pBase,h) ← findOrCreateJsonNode pRoot pLeft h
    match pBase with
    | none => .stop .nullNode
    | some p => do
      let a ← getNode h p
      match a.val with
      | .struct _ => do
        let (pIndex,h) ← evalOption (xjd1ExprEval s n) pRight h
        let w ← readNode n h pIndex
        findStructElement n h (some p) (xjd1JsonToString w)
      | .array apElem => do
        let (pIndex,h) ← evalOption (xjd1ExprEval s n) pRight h
        let w ← readNode n h pIndex
        findArrayElement h p apElem w
      | _ => .ok (none,h)
  | .id _, h => .ok (pRoot,h)
  | _, h => .ok (none,h)

omit [CDouble R] in
def assign (h : JsonHeap R) (p : ℕ) (pX : Option ℕ) : Exec (JsonHeap R) := do
  let h ← xjd1JsonToNull n h p
  match pX with
  | none => .stop .nullNode
  | some x => do
    let b ← getNode h x
    .ok (free (put h p b) x)

def reviseOneField (pDoc : Option ℕ) (h : JsonHeap R) (pChng : HeapExpr P × HeapExpr P) : Exec (JsonHeap R) := do
  let (pNode,h) ← findOrCreateJsonNode s n pDoc pChng.1 h
  match pNode with
  | none => .ok h
  | some p => do
    let (pX,h) ← xjd1ExprEval s n pChng.2 h
    let (pX,h) ← xjd1JsonEdit n h pX
    assign n h p pX

end Statement
end Code

def KeepsValues (H : Multiset ℕ) (h h' : JsonHeap R) : Prop :=
  ∀ w p, (∀ q ∈ p, q ∈ H) → Stored .false h w p → Stored .false h' w p

section Rules
variable {h h' h0 : JsonHeap R} {v w u : JsonNode R} {d p : Option ℕ} {q i : ℕ} {path : NodePath} {U V Z X : Finset ℕ}
  {H H' H0 : Multiset ℕ} {r r' : ℕ → ℕ}

theorem KeepsValues.trans {h'' : JsonHeap R} (h1 : KeepsValues H h h') (h2 : KeepsValues H' h' h'') (hH : ∀ q ∈ H, q ∈ H') :
    KeepsValues H h h'' :=
  fun w p hp hw => h2 w p (fun q hq => hH q (hp q hq)) (h1 w p hp hw)

theorem KeepsValues.of_kept (hk : Kept Z h h') (hs : Sound r h' Z H') (hH : ∀ q ∈ H, q ∈ H') : KeepsValues H h h' :=
  fun _ _ hp hw => stored_kept hw hk hs fun q hq => hH q (hp q hq)

theorem KeepsValues.of_same (hs : Sound r h Z H) (hsame : ∀ i ∉ Z, i < h.length → h'[i]? = h[i]?) : KeepsValues H h h' :=
  fun _ _ hp hw => hw.off hs (fun q hq => Multiset.mem_add.mpr (.inr (hp q hq))) hsame

theorem StmtNodes.Hold.keeps {s : StmtNodes P} {lit : P → JsonNode R} {doc : StmtDoc R} (hh : s.Hold lit doc h H)
    (hk : KeepsValues H h h') (hH : ∀ q ∈ H, q ∈ H') : s.Hold lit doc h' H' := by
  refine ⟨fun k => ?_,fun v hv => ?_⟩
  · obtain ⟨hm,hl⟩ := hh.literal k
    refine ⟨hH _ hm,hk _ _ (fun q hq => ?_) hl⟩
    rw [Option.mem_some_iff] at hq
    exact hq ▸ hm
  · obtain ⟨p,hp,hv,hm⟩ := hh.pDoc v hv
    exact ⟨p,hp,hk _ _ hm hv,fun q hq => hH q (hm q hq)⟩

theorem xjd1JsonToNull_spec (ho : Owns h u (some q) V) (hd : Disjoint Z V) (hs : Sound r h (Z ∪ V) H) :
    ∃ h' r', Run.Returns (fun n => xjd1JsonToNull n h q) h' ∧ Live h' q ⟨1,.null⟩ ∧ Sound r' h' (insert q Z) H ∧
      (∀ z ∈ Z, h'[z]? = h[z]?) ∧ KeepsValues H h h' := by
  cases ho with
  | @node _ _ ps W _ hv hl hlen hch hdj hi hmem =>
    have hq : q ∈ V := (hmem q).mpr (.inl rfl)
    have hqZ : q ∉ Z := fun hm => Finset.disjoint_left.mp hd hm hq
    have hrest : ∀ x, x ∈ V.erase q ↔ ∃ j, x ∈ W j := fun x => by
      rw [Finset.mem_erase,hmem]
      constructor
      · rintro ⟨hne,rfl | hj⟩
        · exact absurd rfl hne
        · exact hj
      · rintro ⟨j,hj⟩
        exact ⟨fun he => hi j (he ▸ hj),.inr ⟨j,hj⟩⟩
    have hsplit : Z ∪ V = insert q Z ∪ V.erase q := by
      rw [Finset.insert_union,← Finset.union_insert,Finset.insert_erase hq]
    have hdis : Disjoint (insert q Z) (V.erase q) :=
      Finset.disjoint_insert_left.mpr ⟨Finset.notMem_erase q V,Finset.disjoint_of_subset_right (Finset.erase_subset q V) hd⟩
    rw [hsplit] at hs
    obtain ⟨r1,hs1⟩ := disown_slots ps (fun j r Z H hd hs => Sound.disown (hch j) hd hs) hch hdj hrest hdis hs
    rw [← ptrs_content hlen] at hs1
    have hmemq : q ∈ insert q Z := Finset.mem_insert_self q Z
    obtain ⟨h1,he,hs2,hk,_⟩ := clear_spec Stop.undefined hmemq hl
      (fun c _ => release_spec Stop.undefined (insert q Z) c) hs1
    have hl1 := (hk.live hmemq hl).put ⟨1,.null⟩
    refine ⟨_,r1,he,hl1,hs2.write hmemq _,fun z hz => ?_,?_⟩
    · have hne : q ≠ z := fun he => hqZ (he ▸ hz)
      exact (List.getElem?_set_ne hne).trans (hk.fixed z (Finset.mem_insert_of_mem hz))
    · refine (KeepsValues.of_kept hk hs2 fun _ => id).trans (KeepsValues.of_same hs2 fun k hk _ => ?_) fun _ => id
      refine List.getElem?_set_ne ?_
      rintro rfl
      exact hk hmemq

/-- A document is edited: it is on the cells of `U`, which are out of the count, and the
references that were there at first still lead to their values. -/
structure Editing (h0 : JsonHeap R) (H0 : Multiset ℕ) (v : JsonNode R) (d : Option ℕ) (U : Finset ℕ) (h : JsonHeap R)
    (H : Multiset ℕ) : Prop where
  own : Owns h v d U
  sound : ∃ r, Sound r h U H
  still : ∀ q ∈ H0, q ∈ H
  keeps : KeepsValues H0 h0 h

/-- A pointer into the document and the path to its node; both may be missing. -/
inductive Found (h : JsonHeap R) (v : JsonNode R) (d : Option ℕ) (U : Finset ℕ) : Option NodePath → Option ℕ → Prop
  | missing : Found h v d U none none
  | node {path : NodePath} {q : ℕ} {V : Finset ℕ} (hf : Focus h v d U path q V) : Found h v d U (some path) (some q)

theorem Found.frame {o : Option NodePath} (hf : Found h v d U o p) (hsame : ∀ x ∈ U, h'[x]? = h[x]?) : Found h' v d U o p := by
  cases hf with
  | missing => exact .missing
  | node hf => exact .node (hf.frame hsame)

theorem Found.child {a : Counted (JsonU R)} (hf : Focus h v d U path q V) (hl : Live h q a) (j : ℕ) :
    Found h v d U (nodePointer v (path ++ [j])) a.val.slots[j]?.join := by
  have hnode : v.nodeAt (path ++ [j]) = (v.nodeAt path).child j := JsonNode.nodeAt_append v path [j]
  by_cases hj : (v.nodeAt path).child j = .nullptr
  · have hslot : a.val.slots[j]?.join = none := by
      have ho := hf.own
      generalize v.nodeAt path = u at ho hj
      cases ho with
      | node hv hlq hlen hs hd hi hmem =>
        rw [hl.unique hlq]
        simp only [slots_content hlen]
        exact (hs j).eq_none hj
    rw [hslot,nodePointer,hnode,hj]
    exact .missing
  · obtain ⟨q',V',hslot,hf'⟩ := hf.child hl hj
    have hp : nodePointer v (path ++ [j]) = some (path ++ [j]) := nodePointer_eq_some.mpr ⟨rfl,by rwa [hnode]⟩
    rw [hslot,hp]
    exact .node hf'

theorem Editing.rewrite (he : Editing h0 H0 v d U h H) (hf : Focus h v d U path q V) (how : Owns h' w (some q) X)
    (hsame : ∀ x ∈ U, x ∉ V → h'[x]? = h[x]?) (hX : ∀ x ∈ X, x ∈ U → x ∈ V) (hs : Sound r h' ((U \ V) ∪ X) H)
    (hk : KeepsValues H h h') :
    Editing h0 H0 (v.putAt path w) d ((U \ V) ∪ X) h' H ∧ Focus h' (v.putAt path w) d ((U \ V) ∪ X) path q X :=
  ⟨⟨hf.plug h' w X how hsame hX,⟨r,hs⟩,he.still,he.keeps.trans hk he.still⟩,hf.edit how hsame hX⟩

theorem Editing.beside (he : Editing h0 H0 v d U h H) (hs : Sound r h' U H') (hH : ∀ q ∈ H0, q ∈ H')
    (hk : KeepsValues H0 h h') (hsame : ∀ x ∈ U, h'[x]? = h[x]?) : Editing h0 H0 v d U h' H' :=
  ⟨he.own.frame hsame,⟨r,hs⟩,hH,fun w p hp hw => hk w p hp (he.keeps w p hp hw)⟩

theorem setNode_live {a : Counted (JsonU R)} (hl : Live h q a) (x : JsonU R) : setNode h q x = .ok (put h q { a with val := x }) := by
  rw [setNode,getNode,get_live hl]
  rfl

theorem put_other {x : ℕ} {b : Counted (JsonU R)} (hx : x ≠ q) : (put h q b)[x]? = h[x]? := List.getElem?_set_ne hx.symm

theorem toStruct_spec (he : Editing h0 H0 v d U h H) (hf : Focus h v d U path q V) :
    ∃ h' U' V', Run.Returns (fun n => toStruct n h q) h' ∧
      Editing h0 H0 (v.putAt path (.struct (structMembers (v.nodeAt path)))) d U' h' H ∧
      Focus h' (v.putAt path (.struct (structMembers (v.nodeAt path)))) d U' path q V' := by
  obtain ⟨ps,hl,_,hqV⟩ := hf.own.live
  have ha : (∃ ms ps', v.nodeAt path = .struct ms ∧ (v.nodeAt path).content ps = .struct ps') ∨
      ((∀ ms, v.nodeAt path ≠ .struct ms) ∧ ∀ ps', (v.nodeAt path).content ps ≠ .struct ps') := by
    cases v.nodeAt path with
    | struct ms => exact .inl ⟨ms,_,rfl,rfl⟩
    | _ => exact .inr ⟨(fun ms h => by cases h),fun ps h => by cases h⟩
  rcases ha with ⟨ms,ps',hu,hval⟩ | ⟨hu,hval⟩
  · refine ⟨h,U,V,.of_forall fun n => ?_,?_⟩
    · simp only [toStruct,getNode,get_live hl,Run.ok_bind,hval]
    · rw [hu,structMembers,← hu,JsonNode.putAt_nodeAt]
      exact ⟨he,hf⟩
  · obtain ⟨hd,hUV⟩ := hf.disjoint
    obtain ⟨r,hs⟩ := he.sound
    rw [← hUV] at hs
    obtain ⟨h1,r1,he1,hl1,hs1,hsame1,hk1⟩ := xjd1JsonToNull_spec hf.own hd hs
    have hqZ : q ∈ insert q (U \ V) := Finset.mem_insert_self _ _
    have hms : structMembers (v.nodeAt path) = [] := (structMembers_cases _).elim (fun h => absurd h (hu _)) And.left
    have hcells : insert q (U \ V) = (U \ V) ∪ {q} := by rw [Finset.union_comm,Finset.insert_eq]
    have hV : ∀ x ∈ ({q} : Finset ℕ), x ∈ U → x ∈ V := fun x hx _ => by
      rw [Finset.mem_singleton] at hx
      exact hx ▸ hqV
    have hq : q ∉ U \ V := fun hm => (Finset.mem_sdiff.mp hm).2 hqV
    obtain ⟨he2,hf2⟩ := he.rewrite hf (Owns.leaf (v := .struct []) (fun h => by cases h) rfl (hl1.put ⟨1,.struct []⟩))
      (fun x hx hxV => (put_other (ne_of_mem_of_not_mem (Finset.mem_sdiff.mpr ⟨hx,hxV⟩) hq)).trans
        (hsame1 x (Finset.mem_sdiff.mpr ⟨hx,hxV⟩))) hV (hcells ▸ hs1.write hqZ _)
      (hk1.trans (KeepsValues.of_same hs1 fun k hk _ => put_other (ne_of_mem_of_not_mem hqZ hk).symm) fun _ => id)
    rw [hms]
    refine ⟨_,_,_,?_,he2,hf2⟩
    filter_upwards [he1] with n hn
    simp only [toStruct,getNode,get_live hl,Run.ok_bind]
    cases hc : (v.nodeAt path).content ps with
    | struct ps' => exact absurd hc (hval ps')
    | _ => simp only [hn,Run.ok_bind,setNode_live hl1]

theorem grow_spec (he : Editing h0 H0 v d U h H) (hf : Focus h v d U path q V) {ps : List (Option ℕ)}
    (hl : Live h q ⟨1,(v.nodeAt path).content ps⟩) (hlen : ps.length = (v.nodeAt path).children.length)
    (cs : List (JsonNode R)) (hw : w ≠ .nullptr) (hc : w.children = (v.nodeAt path).children ++ cs) :
    ∃ qs h1 h' U' V', parsedList cs h = (qs,h1) ∧ qs.length = cs.length ∧ setNode h1 q (w.content (ps ++ qs)) = .ok h' ∧
      Editing h0 H0 (v.putAt path w) d U' h' H ∧ Focus h' (v.putAt path w) d U' path q V' ∧
      Live h' q ⟨1,w.content (ps ++ qs)⟩ := by
  obtain ⟨r,hs⟩ := he.sound
  obtain ⟨qs,h1,r1,hqs,hpre,hs1,hlenq,hst⟩ := parsedList_spec cs (fun c _ => parsedNode_spec c) hs
  obtain ⟨W,X,how,hd,hX,hdis,hs2⟩ := own_slots qs (fun j Z H hs => Sound.own (hst j) hs) hs1
  obtain ⟨_,_,_,hqV⟩ := hf.own.live
  have hqU : q ∈ U := hf.sub hqV
  have hold : ∀ x ∈ U, h1[x]? = h[x]? := fun x hx => by
    obtain ⟨t,rfl⟩ := hpre
    exact List.getElem?_append_left (hs.inside x hx)
  have hl1 : Live h1 q ⟨1,(v.nodeAt path).content ps⟩ := (hold q hqU).trans hl
  have hcells : (U \ V) ∪ (V ∪ X) = U ∪ X := by rw [← Finset.union_assoc,hf.disjoint.2]
  have hnode : Owns (put h1 q ⟨1,w.content (ps ++ qs)⟩) w (some q) (V ∪ X) := by
    refine hf.own.grow hl hlen hw hc hlenq (hl1.put _) (fun j => (how j).frame fun x hx => ?_) hd hX
      (Finset.disjoint_of_subset_left hf.sub hdis) fun x hx hxq => (put_other hxq).trans (hold x (hf.sub hx))
    refine put_other ?_
    rintro rfl
    exact Finset.disjoint_left.mp hdis hqU ((hX x).mpr ⟨j,hx⟩)
  have hin : ∀ x ∈ V ∪ X, x ∈ U → x ∈ V := fun x hx hxU =>
    (Finset.mem_union.mp hx).elim id fun hx => absurd hx (Finset.disjoint_left.mp hdis hxU)
  have hkeeps : KeepsValues H h (put h1 q ⟨1,w.content (ps ++ qs)⟩) := KeepsValues.of_same hs fun k hk hlt => by
    obtain ⟨t,rfl⟩ := hpre
    exact (put_other (ne_of_mem_of_not_mem hqU hk).symm).trans (List.getElem?_append_left hlt)
  obtain ⟨he',hf'⟩ := he.rewrite hf hnode
    (fun x hx hxV => (put_other (ne_of_mem_of_not_mem hqV hxV).symm).trans (hold x hx)) hin
    (hcells ▸ hs2.write (Finset.mem_union_left X hqU) _) hkeeps
  exact ⟨qs,h1,_,_,_,hqs,hlenq,setNode_live hl1 _,he',hf',hl1.put _⟩

theorem find_members {ms : List (Bytes × JsonNode R)} {ps : List (Option ℕ)} (hlen : ps.length = ms.length) (z : Bytes) :
    ((ms.findIdx? fun m => m.1 = z) = none ∧ (((ms.map Prod.fst).zip ps).find? fun m => m.1 = z) = none) ∨
      ∃ (j : ℕ) (m : Bytes × Option ℕ), (ms.findIdx? fun m => m.1 = z) = some j ∧
        (((ms.map Prod.fst).zip ps).find? fun m => m.1 = z) = some m ∧ m.2 = ps[j]?.join := by
  induction ms generalizing ps with
  | nil => exact .inl ⟨rfl,rfl⟩
  | cons m ms ih =>
    obtain ⟨p,ps,rfl⟩ := List.exists_cons_of_length_eq_add_one hlen
    by_cases hm : m.1 = z
    · exact .inr ⟨0,(m.1,p),by simp [List.findIdx?_cons,hm],by simp [hm],rfl⟩
    · rcases ih (Nat.succ.inj hlen) with ⟨h1,h2⟩ | ⟨j,e,h1,h2,h3⟩
      · exact .inl ⟨by simp [List.findIdx?_cons,hm,h1],by simp [hm,h2]⟩
      · exact .inr ⟨j+1,e,by simp [List.findIdx?_cons,hm,h1],by simp [hm,h2],h3⟩

/-- The search for a member overwrites a value that is no struct before it looks. -/
theorem findStructElement_toStruct (hne : v.nodeAt path ≠ .nullptr) (z : Bytes) :
    let v1 := v.putAt path (.struct (structMembers (v.nodeAt path)))
    Xjd1.findStructElement v (some path) z = Xjd1.findStructElement v1 (some path) z := by
  intro v1
  have hnode : v1.nodeAt path = .struct (structMembers (v.nodeAt path)) := JsonNode.nodeAt_putAt hne _
  rw [Xjd1.findStructElement,Xjd1.findStructElement]
  simp only [hnode]
  rcases structMembers_cases (v.nodeAt path) with hu | ⟨hu,_⟩
  · have hv1 : v1 = v := by
      rw [show v1 = v.putAt path (.struct (structMembers (v.nodeAt path))) from rfl,← hu,JsonNode.putAt_nodeAt]
    rw [hv1]
    rfl
  · rw [hu]
    simp only [structMembers,List.findIdx?_nil]
    rw [JsonNode.putAt_putAt]

theorem findOrAddMember_spec {ms : List (Bytes × JsonNode R)} (he : Editing h0 H0 v d U h H)
    (hf : Focus h v d U path q V) (hu : v.nodeAt path = .struct ms) (z : Bytes) :
    ∃ o h' U', findOrAddMember h q z = .ok (o,h') ∧ Editing h0 H0 (Xjd1.findStructElement v (some path) z).1 d U' h' H ∧
      Found h' (Xjd1.findStructElement v (some path) z).1 d U' (Xjd1.findStructElement v (some path) z).2 o := by
  obtain ⟨ps,hl,hlen,_⟩ := hf.own.live
  have hlen' : ps.length = ms.length := by
    rw [hlen,hu]
    exact List.length_map _
  have hval : (v.nodeAt path).content ps = .struct ((ms.map Prod.fst).zip ps) := by rw [hu]; rfl
  rcases find_members hlen' z with ⟨hnone,hfind⟩ | ⟨j,m,hsome,hfind,hm⟩
  · have hvalue : Xjd1.findStructElement v (some path) z =
        (v.putAt path (.struct (ms ++ [(z,.false)])),some (path ++ [ms.length])) := by
      simp only [Xjd1.findStructElement,hu,structMembers,hnone]
    rw [hvalue]
    obtain ⟨qs,h1,h',U',V',hqs,_,hset,he',hf',hl'⟩ := grow_spec he hf hl hlen [.false] (w := .struct (ms ++ [(z,.false)]))
      (fun h => by cases h) (by rw [hu]; simp [JsonNode.children])
    have hnew : parsedList [.false] h = ([some h.length],xjd1JsonNew h) := by
      have hput : newNode h (JsonU.false : JsonU R) = xjd1JsonNew h :=
        Live.put_self (by simp [Live,xjd1JsonNew,alloc])
      simp only [parsedList,parsedNode,hput]
    obtain ⟨rfl,rfl⟩ := Prod.mk.inj (hqs.symm.trans hnew)
    have hcontent : (JsonNode.struct (ms ++ [(z,(.false : JsonNode R))])).content (ps ++ [some h.length]) =
        .struct ((ms.map Prod.fst).zip ps ++ [(z,some h.length)]) := by
      simp only [JsonNode.content,List.map_append,List.map_cons,List.map_nil]
      rw [List.zip_append (by simp [hlen'])]
      rfl
    have hslots : ((JsonNode.struct (ms ++ [(z,(.false : JsonNode R))])).content (ps ++ [some h.length])).slots =
        ps ++ [some h.length] := slots_content (by simp [JsonNode.children,hlen'])
    have hfound := Found.child hf' hl' ms.length
    have hnode : (v.putAt path (.struct (ms ++ [(z,.false)]))).nodeAt (path ++ [ms.length]) = .false := by
      rw [JsonNode.nodeAt_append,JsonNode.nodeAt_putAt hf.ne_nullptr]
      exact JsonNode.child_member ms [] z .false
    have hpointer : nodePointer (v.putAt path (.struct (ms ++ [(z,.false)]))) (path ++ [ms.length]) =
        some (path ++ [ms.length]) := nodePointer_eq_some.mpr ⟨rfl,by rw [hnode]; exact fun h => by cases h⟩
    have hslot : (ps ++ [some h.length])[ms.length]?.join = some h.length := by simp [← hlen']
    rw [hpointer,hslots,hslot] at hfound
    refine ⟨some h.length,h',U',?_,he',hfound⟩
    rw [hcontent] at hset
    simp only [findOrAddMember,getNode,get_live hl,Run.ok_bind,hval,members,hfind,hset]
  · have hvalue : Xjd1.findStructElement v (some path) z = (v,nodePointer v (path ++ [j])) := by
      simp only [Xjd1.findStructElement,hu,structMembers,hsome]
    rw [hvalue]
    refine ⟨m.2,h,U,?_,he,?_⟩
    · simp only [findOrAddMember,getNode,get_live hl,Run.ok_bind,hval,members,hfind]
    · have hfound := Found.child hf hl j
      simp only [slots_content hlen] at hfound
      rwa [hm]

theorem findStructElement_spec (he : Editing h0 H0 v d U h H) {o : Option NodePath} (hf : Found h v d U o p) (z : Bytes) :
    ∃ o' h' U', Run.Returns (fun n => findStructElement n h p z) (o',h') ∧
      Editing h0 H0 (Xjd1.findStructElement v o z).1 d U' h' H ∧
      Found h' (Xjd1.findStructElement v o z).1 d U' (Xjd1.findStructElement v o z).2 o' := by
  cases hf with
  | missing => exact ⟨none,h,U,.of_forall fun _ => rfl,he,.missing⟩
  | @node path q V hf =>
    obtain ⟨h1,U1,V1,he1,hed1,hf1⟩ := toStruct_spec he hf
    have hu1 : (v.putAt path (.struct (structMembers (v.nodeAt path)))).nodeAt path = .struct (structMembers (v.nodeAt path)) :=
      JsonNode.nodeAt_putAt hf.ne_nullptr _
    obtain ⟨o',h2,U2,he2,hed2,hfound⟩ := findOrAddMember_spec hed1 hf1 hu1 z
    rw [findStructElement_toStruct hf.ne_nullptr z]
    refine ⟨o',h2,U2,?_,hed2,hfound⟩
    filter_upwards [he1] with n hn
    simp only [findStructElement,hn,Run.ok_bind,he2]

section Array
variable [CDouble R]

theorem findArrayElement_spec {vs : List (JsonNode R)} {ps : List (Option ℕ)} {pIndex : JsonNode R}
    {x : JsonNode R × Option NodePath} (he : Editing h0 H0 v d U h H) (hf : Focus h v d U path q V)
    (hu : v.nodeAt path = .array vs) (hl : Live h q ⟨1,.array ps⟩) (hx : Xjd1.findArrayElement v path vs pIndex = .ok x) :
    ∃ o h' U', findArrayElement h q ps pIndex = .ok (o,h') ∧ Editing h0 H0 x.1 d U' h' H ∧ Found h' x.1 d U' x.2 o := by
  obtain ⟨ps',hl',hlen,_⟩ := hf.own.live
  have hval : (v.nodeAt path).content ps' = .array ps' := by rw [hu]; rfl
  obtain rfl : ps' = ps := by
    rw [hval] at hl'
    exact JsonU.array.inj (congrArg Counted.val (hl'.unique hl))
  have hlen' : ps'.length = vs.length := by rw [hlen,hu]; rfl
  obtain ⟨o,ho,hx⟩ := Run.bind_eq_ok.mp hx
  cases o with
  | none =>
    cases hx
    exact ⟨none,h,U,by simp only [findArrayElement,ho,Run.ok_bind],he,.missing⟩
  | some k =>
    by_cases hk : k < vs.length
    · simp only [hk,if_true] at hx
      cases hx
      have hfound := Found.child hf hl' k
      simp only [slots_content hlen] at hfound
      exact ⟨_,h,U,by simp only [findArrayElement,ho,Run.ok_bind,hlen',hk,if_true],he,hfound⟩
    · by_cases hmax : k < 1024
      · simp only [hk,hmax,if_true,if_false] at hx
        cases hx
        obtain ⟨qs,h1,h',U',V',hqs,hlenq,hset,he',hf',hl2⟩ := grow_spec he hf hl' hlen
          (List.replicate (k + 1 - vs.length) .null) (w := .array (vs ++ List.replicate (k + 1 - vs.length) .null))
          (fun h => by cases h) (by rw [hu]; rfl)
        have hslots : ((JsonNode.array (vs ++ List.replicate (k + 1 - vs.length) (.null : JsonNode R))).content
            (ps' ++ qs)).slots = ps' ++ qs := rfl
        have hfound := Found.child hf' hl2 k
        have hnode : (v.putAt path (.array (vs ++ List.replicate (k + 1 - vs.length) .null))).nodeAt (path ++ [k]) = .null := by
          rw [JsonNode.nodeAt_append,JsonNode.nodeAt_putAt hf.ne_nullptr,JsonNode.nodeAt,JsonNode.nodeAt,JsonNode.child,
            JsonNode.children,List.getElem?_append_right (Nat.not_lt.mp hk),List.getElem?_replicate,if_pos (by omega)]
          rfl
        have hpointer : nodePointer (v.putAt path (.array (vs ++ List.replicate (k + 1 - vs.length) .null))) (path ++ [k]) =
            some (path ++ [k]) := nodePointer_eq_some.mpr ⟨rfl,by rw [hnode]; exact fun h => by cases h⟩
        rw [hpointer,hslots] at hfound
        refine ⟨_,h',U',?_,he',hfound⟩
        have hset' : setNode h1 q (.array (ps' ++ qs)) = .ok h' := hset
        simp only [findArrayElement,ho,Run.ok_bind,hlen',hk,hmax,if_true,if_false,hqs,hset']
      · simp only [hk,hmax,if_false] at hx
        cases hx

end Array

theorem Owns.moved {x : ℕ} {b : Counted (JsonU R)} (ho : Owns h w (some x) X) (hb : Live h x b) (hq : q ∉ X)
    (hl : Live h' q b) (hsame : ∀ y ∈ X, y ≠ x → h'[y]? = h[y]?) : Owns h' w (some q) (insert q (X.erase x)) := by
  cases ho with
  | @node _ _ ps W _ hv hlx hlen hs hd hi hmem =>
    obtain rfl := hb.unique hlx
    have hin : ∀ j y, y ∈ W j → y ∈ X ∧ y ≠ x := fun j y hy => ⟨(hmem y).mpr (.inr ⟨j,hy⟩),fun hyx => hi j (hyx ▸ hy)⟩
    refine .node hv hl hlen (fun j => (hs j).frame fun y hy => hsame y (hin j y hy).1 (hin j y hy).2) hd
      (fun j hj => hq (hin j q hj).1) fun y => ?_
    rw [Finset.mem_insert,Finset.mem_erase,hmem]
    constructor
    · rintro (rfl | ⟨hyx,rfl | hy⟩)
      · exact .inl rfl
      · exact absurd rfl hyx
      · exact .inr hy
    · rintro (rfl | ⟨j,hy⟩)
      · exact .inl rfl
      · exact .inr ⟨(hin j y hy).2,.inr ⟨j,hy⟩⟩

theorem assign_spec (he : Editing h0 H0 v d U h (handle p + H)) (hH : ∀ q ∈ H0, q ∈ H) (hf : Focus h v d U path q V)
    (hst : Stored .true h w p) (hw : w ≠ .nullptr) :
    ∃ h' U', Run.Returns (fun n => assign n h q p) h' ∧ Editing h0 H0 (v.putAt path w) d U' h' H := by
  obtain ⟨r,hs⟩ := he.sound
  obtain ⟨X,ho,hd,hs1⟩ := Sound.own hst hs
  cases hst with
  | nullptr => exact absurd rfl hw
  | @node _ x b ps _ hb h1 hc hlen _ =>
    obtain ⟨hdV,hUV⟩ := hf.disjoint
    obtain ⟨_,_,_,hqV⟩ := hf.own.live
    obtain ⟨_,_,_,hxX⟩ := ho.live
    have hqU : q ∈ U := hf.sub hqV
    have hqX : q ∉ X := Finset.disjoint_left.mp hd hqU
    have hxU : x ∉ U := Finset.disjoint_right.mp hd hxX
    -- what the node held is given back, while the new value and the rest of the document stay out of the count
    have hsplit : U ∪ X = ((U \ V) ∪ X) ∪ V := by rw [Finset.union_right_comm,hUV]
    rw [hsplit] at hs1
    obtain ⟨h1,r1,he1,hl1,hs2,hsame1,hk1⟩ := xjd1JsonToNull_spec hf.own
      (Finset.disjoint_union_left.mpr ⟨hdV,(Finset.disjoint_of_subset_left hf.sub hd).symm⟩) hs1
    have hsameX : ∀ y ∈ X, h1[y]? = h[y]? := fun y hy => hsame1 y (Finset.mem_union_right _ hy)
    have hbx : Live h1 x b := (hsameX x hxX).trans hb
    have hxq : x ≠ q := ne_of_mem_of_not_mem hxX hqX
    have hq2 : Live (free (put h1 q b) x) q b := live_free.mpr ⟨hxq.symm,hl1.put b⟩
    have hout : ∀ y, y ≠ q → y ≠ x → (free (put h1 q b) x)[y]? = h1[y]? := fun y hyq hyx =>
      (List.getElem?_set_ne hyx.symm).trans (put_other hyq)
    have hown : Owns (free (put h1 q b) x) w (some q) (insert q (X.erase x)) :=
      Owns.moved (ho.frame hsameX) hbx hqX hq2 fun y hy hyx => hout y (ne_of_mem_of_not_mem hy hqX) hyx
    have hcells : insert q ((U \ V) ∪ X) = insert x ((U \ V) ∪ insert q (X.erase x)) := by
      ext y
      simp only [Finset.mem_insert,Finset.mem_union,Finset.mem_sdiff,Finset.mem_erase]
      by_cases hyx : y = x
      · subst hyx
        simp [hxX]
      · simp only [hyx,false_or,ne_eq,not_false_eq_true,true_and]
        tauto
    have hqZ : q ∈ insert q ((U \ V) ∪ X) := Finset.mem_insert_self _ _
    have hs3 := hs2.write hqZ b
    rw [hcells] at hs3
    have hk2 : KeepsValues H h (free (put h1 q b) x) := by
      refine hk1.trans (KeepsValues.of_same hs2 fun k hk _ => hout k ?_ ?_) fun _ => id
      · exact (ne_of_mem_of_not_mem hqZ hk).symm
      · exact (ne_of_mem_of_not_mem (Finset.mem_insert_of_mem (Finset.mem_union_right _ hxX)) hk).symm
    refine ⟨_,_,?_,hf.plug _ w _ hown (fun y hy hyV => ?_) (fun y hy hyU => ?_),⟨r1,hs3.free⟩,hH,fun u p hp hu => ?_⟩
    · filter_upwards [he1] with n hn
      simp only [assign,hn,Run.ok_bind,getNode,get_live hbx]
    · rw [hout y (ne_of_mem_of_not_mem hqV hyV).symm (ne_of_mem_of_not_mem hy hxU)]
      exact hsame1 y (Finset.mem_union_left _ (Finset.mem_sdiff.mpr ⟨hy,hyV⟩))
    · rcases Finset.mem_insert.mp hy with rfl | hy
      · exact hqV
      · exact absurd (Finset.mem_of_mem_erase hy) (Finset.disjoint_left.mp hd hyU)
    · exact hk2 u p (fun i hi => hH i (hp i hi)) (he.keeps u p hp hu)

section Statement
variable [CDouble R] {s : StmtNodes P} {lit : P → JsonNode R} {ctx : Ctx R} {n : ℕ} {E E' : Expr R}

theorem HeapExpr.spine {M : HeapExpr P → Prop} (dot : ∀ pLeft zId, M pLeft → M (.dot pLeft zId))
    (lb : ∀ pLeft pRight, M pLeft → M (.bi .lb pLeft pRight))
    (other : ∀ e, (∀ pLeft zId, e ≠ .dot pLeft zId) → (∀ pLeft pRight, e ≠ .bi .lb pLeft pRight) → M e) : ∀ e, M e
  | .dot pLeft zId => dot pLeft zId (HeapExpr.spine dot lb other pLeft)
  | .bi eType pLeft pRight => by
    by_cases hop : eType = .lb
    · subst hop
      exact lb pLeft pRight (HeapExpr.spine dot lb other pLeft)
    · exact other _ (fun _ _ h => by cases h) fun _ _ h => by
        cases h
        exact hop rfl
  | .jvalue _ | .tri _ _ _ | .id _ | .struct _ | .array _ | .length _ =>
    other _ (fun _ _ h => by cases h) fun _ _ h => by cases h

/-- A subscript is evaluated beside the document that is edited; the reference to its value is lost. -/
theorem subscript_beside {pRight : Option (HeapExpr P)} {O : Option (Expr R)} {L : Multiset ℕ}
    (hh : s.Hold lit ctx.pDoc h0 H0) (he : Editing h0 H0 v d U h (L + H))
    (hw : Xjd1.evalOption (interp n) ctx (pRight.map (HeapExpr.expr lit)) = .ok (w,O)) :
    ∃ p h' L', Run.Returns (fun n => evalOption (xjd1ExprEval s n) pRight h) (p,h') ∧ Run.Returns (fun n => readNode n h' p) w ∧
      Editing h0 H0 v d U h' (L' + H) ∧ ∀ x ∈ U, h'[x]? = h[x]? := by
  obtain ⟨r,hs⟩ := he.sound
  have hr := evalOption_refines (fun _ _ _ _ _ => Stored.weaken) (fun e _ v E hv => xjd1ExprEval_refines s lit hv) hw
  obtain ⟨p,h',L',r',he',hs',hk,hv',_⟩ := hr r h U _ hs (hh.keeps he.keeps he.still)
  have hsum : handle p + (L' + (L + H)) = handle p + L' + L + H := by abel
  have hstill : ∀ q ∈ H0, q ∈ handle p + (L' + (L + H)) := fun q hq => mem_others q (he.still q hq)
  have hk' := KeepsValues.of_kept hk hs' fun q hq => mem_others q hq
  refine ⟨p,h',handle p + L' + L,he',read_stored hv',?_,hk.fixed⟩
  rw [← hsum]
  exact he.beside hs' hstill (fun w p hp hw => hk' w p (fun q hq => he.still q (hp q hq)) hw) hk.fixed

theorem findOrCreateJsonNode_spec {o : Option NodePath} (hh : s.Hold lit ctx.pDoc h0 H0) (he : Editing h0 H0 v d U h H)
    (e : HeapExpr P) (hv : Xjd1.findOrCreateJsonNode (interp n) ctx v (e.expr lit) = .ok (w,o,E)) :
    ∃ p h' L U', Run.Returns (fun n => findOrCreateJsonNode s n d e h) (p,h') ∧ Editing h0 H0 w d U' h' (L + H) ∧
      Found h' w d U' o p := by
  have hnone {f : ℕ → Exec (Option ℕ × JsonHeap R)} (hf : Run.Returns f (none,h)) : ∃ p h' L U', Run.Returns f (p,h') ∧
      Editing h0 H0 v d U' h' (L + H) ∧ Found h' v d U' none p :=
    ⟨none,h,0,U,hf,by rwa [zero_add],.missing⟩
  induction e using HeapExpr.spine generalizing w o E with
  | dot pLeft zId ih =>
    obtain ⟨⟨w1,o1,E1⟩,hv1,hv⟩ := Run.bind_eq_ok.mp hv
    cases hv
    obtain ⟨p1,h1,L1,U1,he1,hed1,hf1⟩ := ih hv1
    obtain ⟨p2,h2,U2,he2,hed2,hf2⟩ := findStructElement_spec hed1 hf1 zId
    refine ⟨p2,h2,L1,U2,?_,hed2,hf2⟩
    filter_upwards [he1,he2] with n hn1 hn2
    simp only [findOrCreateJsonNode,hn1,Run.ok_bind,hn2]
  | lb pLeft pRight ih =>
    rw [HeapExpr.expr_bi] at hv
    obtain ⟨⟨w1,o1,E1⟩,hv1,hv⟩ := Run.bind_eq_ok.mp hv
    obtain ⟨p1,h1,L1,U1,he1,hed1,hf1⟩ := ih hv1
    cases hf1 with
    | missing => cases hv
    | @node path q V hf =>
      obtain ⟨ps,hl,hlen,hq⟩ := hf.own.live
      cases hu : w1.nodeAt path with
      | struct ms =>
        simp only [hu] at hv
        obtain ⟨⟨w2,O⟩,hw,hv⟩ := Run.bind_eq_ok.mp hv
        cases hv
        obtain ⟨p2,h2,L2,he2,hread,hed2,hsame⟩ := subscript_beside hh hed1 hw
        obtain ⟨p3,h3,U3,he3,hed3,hf3⟩ := findStructElement_spec hed2 (.node (hf.frame hsame)) (xjd1JsonToString w2)
        refine ⟨p3,h3,L2,U3,?_,hed3,hf3⟩
        filter_upwards [he1,he2,hread,he3] with n hn1 hn2 hn hn3
        simp only [findOrCreateJsonNode,hn1,Run.ok_bind,getNode,get_live hl,hu,JsonNode.content,hn2,hn,hn3]
      | array vs =>
        simp only [hu] at hv
        obtain ⟨⟨w2,O⟩,hw,hv⟩ := Run.bind_eq_ok.mp hv
        obtain ⟨x,hx,hv⟩ := Run.bind_eq_ok.mp hv
        cases hv
        obtain ⟨p2,h2,L2,he2,hread,hed2,hsame⟩ := subscript_beside hh hed1 hw
        have hl2 : Live h2 q ⟨1,.array ps⟩ := by
          rw [hu] at hl
          exact (hsame q (hf.sub hq)).trans hl
        obtain ⟨p3,h3,U3,he3,hed3,hf3⟩ := findArrayElement_spec hed2 (hf.frame hsame) hu hl2 hx
        refine ⟨p3,h3,L2,U3,?_,hed3,hf3⟩
        filter_upwards [he1,he2,hread] with n hn1 hn2 hn
        simp only [findOrCreateJsonNode,hn1,Run.ok_bind,getNode,get_live hl,hu,JsonNode.content,hn2,hn,he3]
      | _ =>
        simp only [hu] at hv
        cases hv
        refine ⟨none,h1,L1,U1,?_,hed1,.missing⟩
        filter_upwards [he1] with n hn1
        simp only [findOrCreateJsonNode,hn1,Run.ok_bind,getNode,get_live hl,hu,JsonNode.content]
  | other e hdot hlb =>
    cases e with
    | dot pLeft zId => exact absurd rfl (hdot pLeft zId)
    | id zId =>
      cases hv
      cases d with
      | none =>
        obtain rfl := he.own.eq_empty.1
        exact hnone (.of_forall fun _ => rfl)
      | some q =>
        have hf := Focus.root he.own
        have hp : nodePointer v [] = some [] := nodePointer_eq_some.mpr ⟨rfl,hf.ne_nullptr⟩
        rw [hp]
        exact ⟨some q,h,0,U,.of_forall fun _ => rfl,by rwa [zero_add],.node hf⟩
    | bi eType pLeft pRight =>
      rw [HeapExpr.expr_bi] at hv
      cases eType with
      | lb => exact absurd rfl (hlb pLeft pRight)
      | _ =>
        cases hv
        exact hnone (.of_forall fun _ => rfl)
    | _ =>
      cases hv
      exact hnone (.of_forall fun _ => rfl)

theorem reviseOneField_spec {pLvalue pValue : HeapExpr P} (hh : s.Hold lit ctx.pDoc h0 H0) (he : Editing h0 H0 v d U h H)
    (hx : pValue.Unshared) (hv : Xjd1.reviseOneField (interp n) ctx v (pLvalue.expr lit) (pValue.expr lit) = .ok (w,E,E')) :
    ∃ h' L U', Run.Returns (fun n => reviseOneField s n d h (pLvalue,pValue)) h' ∧ Editing h0 H0 w d U' h' (L + H) := by
  obtain ⟨⟨w1,o,E1⟩,hv1,hv⟩ := Run.bind_eq_ok.mp hv
  obtain ⟨p1,h1,L1,U1,he1,hed1,hf1⟩ := findOrCreateJsonNode_spec hh he pLvalue hv1
  cases hf1 with
  | missing =>
    cases hv
    refine ⟨h1,L1,U1,?_,hed1⟩
    filter_upwards [he1] with n hn
    simp only [reviseOneField,hn,Run.ok_bind]
  | @node path q V hf =>
    obtain ⟨⟨u,E2⟩,hv2,hv⟩ := Run.bind_eq_ok.mp hv
    obtain ⟨hu,hw⟩ : u ≠ .nullptr ∧ w = w1.putAt path u := by
      cases u <;> cases hv
      all_goals exact ⟨(fun h => by cases h),rfl⟩
    obtain ⟨r1,hs1⟩ := hed1.sound
    obtain ⟨p2,h2,L2,r2,he2,hs2,hk2,hq2,_⟩ := unshared_refines s lit hx hv2 r1 h1 U1 _ hs1 (hh.keeps hed1.keeps hed1.still)
    obtain ⟨p3,h3,L3,r3,he3,hs3,hk3,hst3,_⟩ := xjd1JsonEdit_spec hs2 hq2
    have hk := hk2.trans hk3
    have hsum : L3 + (L2 + (L1 + H)) = L3 + L2 + L1 + H := by abel
    have hmem : ∀ q ∈ L1 + H, q ∈ L3 + (L2 + (L1 + H)) := fun q hq =>
      Multiset.mem_add.mpr (.inr (Multiset.mem_add.mpr (.inr hq)))
    have hk' := KeepsValues.of_kept hk hs3 fun q hq => Multiset.mem_add.mpr (.inr (hmem q hq))
    have hed3 := hed1.beside hs3 (fun q hq => Multiset.mem_add.mpr (.inr (hmem q (hed1.still q hq))))
      (fun w p hp hw => hk' w p (fun q hq => hed1.still q (hp q hq)) hw) hk.fixed
    obtain ⟨h4,U4,he4,hed4⟩ := assign_spec hed3 (fun q hq => hmem q (hed1.still q hq)) (hf.frame hk.fixed) hst3 hu
    rw [hsum,← hw] at hed4
    refine ⟨h4,L3 + L2 + L1,U4,?_,hed4⟩
    filter_upwards [he1,he2,he3,he4] with n hn1 hn2 hn3 hn4
    simp only [reviseOneField,hn1,Run.ok_bind,hn2,hn3,hn4]

end Statement

end Rules

end InMemory
end Xjd1
