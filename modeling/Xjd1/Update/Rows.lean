import Xjd1.Update.InPlace

/-! The rows of an UPDATE statement in memory. Each row is parsed, tested and revised on its
own nodes. -/
namespace Xjd1

open Heap RefCount Fueled

variable {R P : Type} [CDouble R]

section Values
variable (lit : P → JsonNode R)

inductive Revised (ctx : Ctx R) : JsonNode R → List (HeapExpr P × HeapExpr P) → JsonNode R → Prop
  | nil (v : JsonNode R) : Revised ctx v [] v
  | cons {v w u : JsonNode R} {c : HeapExpr P × HeapExpr P} {cs : List (HeapExpr P × HeapExpr P)} {n : ℕ} {E E' : Expr R}
      (h : reviseOneField (interp n) ctx v (c.1.expr lit) (c.2.expr lit) = .ok (w,E,E')) (hs : Revised ctx w cs u) :
      Revised ctx v (c::cs) u

def RowTest (ctx : Ctx R) (pWhere : Option (HeapExpr P)) (b : Bool) : Prop :=
  match pWhere with
  | none => b = true
  | some e => ∃ n E, xjd1ExprTrue (interp n) ctx (e.expr lit) = .ok (b,E)

/-- What becomes of a row with the document `x`: nothing, or another document. -/
inductive RowUpdate (ctx : Ctx R) (pWhere : Option (HeapExpr P)) (pChng : List (HeapExpr P × HeapExpr P)) (x : JsonNode R) :
    Option (JsonNode R) → Prop
  | skipped (hw : RowTest lit { ctx with pDoc := .doc x } pWhere false) : RowUpdate ctx pWhere pChng x none
  | updated {v : JsonNode R} (hw : RowTest lit { ctx with pDoc := .doc x } pWhere true)
      (hr : Revised lit { ctx with pDoc := .doc x } x pChng v) : RowUpdate ctx pWhere pChng x (some v)

end Values

namespace InMemory

section Code
variable (s : StmtNodes P) (n : ℕ)

/-- The new document of a row that is updated, as it is rendered; its nodes are freed after that. -/
def reviseDoc (pDoc : Option ℕ) (pChng : List (HeapExpr P × HeapExpr P)) (h : JsonHeap R) :
    Exec (JsonNode R × JsonHeap R) := do
  let h ← xjd1JsonRef h pDoc
  let (pNewDoc,h) ← xjd1JsonEdit n h pDoc
  let h ← pChng.foldlM (reviseOneField s n pNewDoc) h
  let v ← readNode n h pNewDoc
  let h ← xjd1JsonFree n h pNewDoc
  .ok (v,h)

end Code

def rowTest (s : StmtNodes P) (n : ℕ) (pWhere : Option (HeapExpr P)) (h : JsonHeap R) : Exec (Bool × JsonHeap R) :=
  match pWhere with
  | none => .ok (true,h)
  | some e => xjd1ExprTrue (xjd1ExprEval s n) n e h

/-- A row of `xjd1UpdateStep`: the document that replaces the one in the row, if the row is updated. -/
def updateRow (literal : P → ℕ) (n : ℕ) (pWhere : Option (HeapExpr P)) (pChng : List (HeapExpr P × HeapExpr P))
    (x : JsonNode R) (h : JsonHeap R) : Exec (Option (JsonNode R) × JsonHeap R) := do
  let (pDoc,h) := parsedNode x h
  let s : StmtNodes P := ⟨literal,some pDoc⟩
  let (b,h) ← rowTest s n pWhere h
  let (v,h) ← if b then do
      let (v,h) ← reviseDoc s n pDoc pChng h
      .ok (some v,h)
    else .ok (none,h)
  let h ← xjd1JsonFree n h pDoc
  .ok (v,h)

def updateRows (literal : P → ℕ) (n : ℕ) (pWhere : Option (HeapExpr P)) (pChng : List (HeapExpr P × HeapExpr P)) :
    List (JsonNode R) → JsonHeap R → Exec (List (Option (JsonNode R)) × JsonHeap R)
  | [], h => .ok ([],h)
  | x::xs, h => do
    let (v,h) ← updateRow literal n pWhere pChng x h
    let (vs,h) ← updateRows literal n pWhere pChng xs h
    .ok (v::vs,h)

section Rows
variable {lit : P → JsonNode R} {ctx : Ctx R} {h h0 : JsonHeap R} {v w x : JsonNode R} {d p : Option ℕ} {U : Finset ℕ}
  {H H0 : Multiset ℕ} {r : ℕ → ℕ} {pWhere : Option (HeapExpr P)} {pChng : List (HeapExpr P × HeapExpr P)}

section Statement
variable {s : StmtNodes P}

theorem reviseFields_spec (hh : s.Hold lit ctx.pDoc h0 H0) (he : Editing h0 H0 v d U h H)
    (hx : ∀ c ∈ pChng, c.2.Unshared) (hr : Revised lit ctx v pChng w) :
    ∃ h' L U', Run.Returns (fun n => pChng.foldlM (reviseOneField s n d) h) h' ∧ Editing h0 H0 w d U' h' (L + H) := by
  induction hr generalizing U h H with
  | nil v => exact ⟨h,0,U,.of_forall fun _ => rfl,by rwa [zero_add]⟩
  | @cons v w u c cs n E E' hc _ ih =>
    obtain ⟨h1,L1,U1,he1,hed1⟩ := reviseOneField_spec hh he (hx c List.mem_cons_self) hc
    obtain ⟨h2,L2,U2,he2,hed2⟩ := ih hed1 fun c' hc' => hx c' (List.mem_cons_of_mem c hc')
    refine ⟨h2,L2 + L1,U2,?_,by rwa [add_assoc]⟩
    simp only [List.foldlM_cons]
    exact he1.bind he2

theorem reviseDoc_spec (hs : Sound r h ∅ H) (hh : s.Hold lit ctx.pDoc h H) (hv : Stored .false h v p) (hp : ∀ q ∈ p, q ∈ H)
    (hx : ∀ c ∈ pChng, c.2.Unshared) (hr : Revised lit ctx v pChng w) :
    ∃ h' L r', Run.Returns (fun n => reviseDoc s n p pChng h) (w,h') ∧ Sound r' h' ∅ (L + (handle p + H)) ∧
      KeepsValues H h h' := by
  obtain ⟨h1,he1,hs1,hk1,hv1⟩ := xjd1JsonRef_spec hs (fun q hq => Multiset.mem_add.mpr (.inr (hp q hq))) hv
  have hreached : ∀ i ∈ p, RefCount.Reached h1 H i := fun i hi => ⟨i,hp i hi,.refl⟩
  have hapart : apart h1 ∅ H v p := by
    refine ⟨hv1,?_⟩
    cases p with
    | none =>
      cases hv1
      exact .inl .nullptr
    | some i => exact .inr ⟨i,rfl,hreached i rfl⟩
  obtain ⟨q,h2,L2,r2,he2,hs2,hk2,hv2,hL2⟩ := xjd1JsonEdit_spec hs1 hapart
  obtain rfl := hL2 hreached
  have hmem : ∀ i ∈ H, i ∈ handle p + H := fun i hi => Multiset.mem_add.mpr (.inr hi)
  have hkeeps := KeepsValues.of_kept (hk1.trans hk2) hs2 fun i hi => mem_others i hi
  obtain ⟨U,ho,_,hs2'⟩ := Sound.own hv2 hs2
  rw [Finset.empty_union] at hs2'
  obtain ⟨h3,L3,U3,he3,hed3⟩ := reviseFields_spec hh ⟨ho,⟨r2,hs2'⟩,hmem,hkeeps⟩ hx hr
  obtain ⟨r3,hs3⟩ := hed3.sound
  obtain ⟨r4,hs4⟩ := Sound.disown hed3.own (Finset.disjoint_empty_left U3) (by rwa [Finset.empty_union])
  obtain ⟨h4,he4,hs5,hk4⟩ := xjd1JsonFree_spec hs4
  refine ⟨h4,L3,r4,?_,hs5,hed3.keeps.trans (KeepsValues.of_kept hk4 hs5 fun _ => id) hed3.still⟩
  filter_upwards [he2,he3,read_stored hed3.own.stored,he4] with n hn2 hn3 hread hn4
  simp only [reviseDoc,he1,Run.ok_bind,hn2,hn3,hread,hn4]

theorem rowTest_spec {b : Bool} (hs : Sound r h ∅ H) (hh : s.Hold lit ctx.pDoc h H) (hb : RowTest lit ctx pWhere b) :
    ∃ h' L r', Run.Returns (fun n => rowTest s n pWhere h) (b,h') ∧ Sound r' h' ∅ (L + H) ∧ Kept ∅ h h' := by
  cases pWhere with
  | none =>
    obtain rfl := hb
    exact ⟨h,0,r,.of_forall fun _ => rfl,by rwa [zero_add],.refl ∅ h⟩
  | some e =>
    obtain ⟨n,E,hb⟩ := hb
    obtain ⟨v,E',hv,hb⟩ := truth_of_true hb
    obtain ⟨h',L,r',he,hs',hk,_⟩ := xjd1ExprTrue_spec (xjd1ExprEval_refines s lit hv) hb hs hh
    exact ⟨h',L,r',he,hs',hk⟩

end Statement

theorem updateRow_spec {literal : P → ℕ} {o : Option (JsonNode R)} (hs : Sound r h ∅ H)
    (hl : ∀ k, literal k ∈ H ∧ Stored .false h (lit k) (some (literal k))) (hx : ∀ c ∈ pChng, c.2.Unshared)
    (ho : RowUpdate lit ctx pWhere pChng x o) :
    ∃ h' L r', Run.Returns (fun n => updateRow literal n pWhere pChng x h) (o,h') ∧ Sound r' h' ∅ (L + H) ∧
      KeepsValues H h h' ∧ (o ≠ none → ∃ p, Stored .false h' x p ∧ ∀ q ∈ p, q ∈ L) := by
  obtain ⟨p,h1,r1,he1,hpre1,hs1,hv1⟩ := parsedNode_spec x r h ∅ H hs
  have hmem : ∀ q ∈ H, q ∈ handle p + H := fun q hq => Multiset.mem_add.mpr (.inr hq)
  have hkeep1 : KeepsValues H h h1 := KeepsValues.of_kept (Kept.of_prefix hs hpre1) hs1 hmem
  have hh1 : StmtNodes.Hold ⟨literal,some p⟩ lit (.doc x) h1 (handle p + H) := by
    refine ⟨fun k => ⟨hmem _ (hl k).1,(hl k).2.extend hpre1⟩,fun v hv => ?_⟩
    obtain rfl := StmtDoc.doc.inj hv
    exact ⟨p,rfl,hv1.weaken,mem_own⟩
  cases ho with
  | skipped hw =>
    obtain ⟨h2,L2,r2,he2,hs2,hk2⟩ := rowTest_spec hs1 hh1 hw
    rw [add_left_comm] at hs2
    obtain ⟨h3,he3,hs3,hk3⟩ := xjd1JsonFree_spec hs2
    have hkeep3 := KeepsValues.of_kept (hk2.trans hk3) hs3 fun q hq => Multiset.mem_add.mpr (.inr hq)
    refine ⟨h3,L2,r2,?_,hs3,fun w q hq hw => hkeep3 w q hq (hkeep1 w q hq hw),fun h => absurd rfl h⟩
    filter_upwards [he2,he3] with n hn2 hn3
    simp only [updateRow,he1,hn2,Run.ok_bind,hn3]
    rfl
  | @updated v hw hr =>
    obtain ⟨h2,L2,r2,he2,hs2,hk2⟩ := rowTest_spec hs1 hh1 hw
    have hh2 := hh1.kept hk2 hs2 fun q hq => Multiset.mem_add.mpr (.inr hq)
    have hp : ∀ q ∈ p, q ∈ L2 + (handle p + H) := fun q hq => Multiset.mem_add.mpr (.inr (mem_own q hq))
    have hv2 := stored_kept hv1 hk2 hs2 hp
    obtain ⟨h3,L3,r3,he3,hs3,hkeep3⟩ := reviseDoc_spec hs2 hh2 hv2 hp hx hr
    have hsum : L3 + (handle p + (L2 + (handle p + H))) = handle p + (L3 + handle p + L2 + H) := by abel
    rw [hsum] at hs3
    obtain ⟨h4,he4,hs4,hk4⟩ := xjd1JsonFree_spec hs3
    have hsub : ∀ q ∈ L2 + (handle p + H), q ∈ L3 + handle p + L2 + H := fun q hq => by
      simp only [Multiset.mem_add] at hq ⊢
      tauto
    have hkeep4 := hkeep3.trans (KeepsValues.of_kept hk4 hs4 fun _ => id) hsub
    have hkeep2 := KeepsValues.of_kept hk2 hs2 fun q hq => Multiset.mem_add.mpr (.inr hq)
    have hkeep := hkeep1.trans (hkeep2.trans hkeep4 fun q hq => Multiset.mem_add.mpr (.inr hq)) hmem
    refine ⟨h4,L3 + handle p + L2,r3,?_,hs4,hkeep,fun _ => ⟨p,hkeep4 x p hp hv2,fun q hq => ?_⟩⟩
    · filter_upwards [he2,he3,he4] with n hn2 hn3 hn4
      simp only [updateRow,he1,hn2,Run.ok_bind,if_true,hn3,hn4]
    · exact Multiset.mem_add.mpr (.inl (Multiset.mem_add.mpr (.inr (mem_handle.mpr hq))))

/-- A run of an UPDATE statement uses no node that has been freed, and the documents that it
writes are those of the assignments on values, if no value that is assigned has a borrowed
one below a new node. Of every row that is updated, one reference to the document is lost. -/
theorem updateRows_inMemory {literal : P → ℕ} {xs : List (JsonNode R)} {os : List (Option (JsonNode R))} (hs : Sound r h ∅ H)
    (hl : ∀ k, literal k ∈ H ∧ Stored .false h (lit k) (some (literal k))) (hx : ∀ c ∈ pChng, c.2.Unshared)
    (hrows : List.Forall₂ (RowUpdate lit ctx pWhere pChng) xs os) :
    ∃ h' L r', Run.Returns (fun n => updateRows literal n pWhere pChng xs h) (os,h') ∧ Sound r' h' ∅ (L + H) ∧
      KeepsValues H h h' ∧ List.Forall₂ (fun x o => o ≠ none → ∃ p, Stored .false h' x p ∧ ∀ q ∈ p, q ∈ L) xs os := by
  induction hrows generalizing r h H with
  | nil => exact ⟨h,0,r,.of_forall fun _ => rfl,by rwa [zero_add],fun _ _ _ hw => hw,.nil⟩
  | @cons x o xs os ho _ ih =>
    obtain ⟨h1,L1,r1,he1,hs1,hk1,hlost1⟩ := updateRow_spec hs hl hx ho
    have hmem : ∀ q ∈ H, q ∈ L1 + H := fun q hq => Multiset.mem_add.mpr (.inr hq)
    obtain ⟨h2,L2,r2,he2,hs2,hk2,hlost2⟩ := ih hs1 fun k => ⟨hmem _ (hl k).1,hk1 _ _ (fun q hq => by
      rw [Option.mem_some_iff] at hq
      exact hq ▸ (hl k).1) (hl k).2⟩
    refine ⟨h2,L2 + L1,r2,?_,by rwa [add_assoc],hk1.trans hk2 hmem,.cons (fun hne => ?_) (hlost2.imp fun x o h hne => ?_)⟩
    · filter_upwards [he1,he2] with n hn1 hn2
      simp only [updateRows,hn1,Run.ok_bind,hn2]
    · obtain ⟨p,hv,hp⟩ := hlost1 hne
      exact ⟨p,hk2 x p (fun q hq => Multiset.mem_add.mpr (.inl (hp q hq))) hv,fun q hq => Multiset.mem_add.mpr (.inr (hp q hq))⟩
    · obtain ⟨p,hv,hp⟩ := h hne
      exact ⟨p,hv,fun q hq => Multiset.mem_add.mpr (.inl (hp q hq))⟩

end Rows

/-- `UPDATE c SET c.b = c.a + 1 WHERE c.a` on a row where `a` is a number but zero, and on one
where it is zero. -/
theorem updateRows_inMemory_sum :
    let h : JsonHeap Int := poolNode [] (.real 1)
    let pWhere : HeapExpr Unit := .dot (.id [ch 'c']) [ch 'a']
    let pChng : List (HeapExpr Unit × HeapExpr Unit) := [(.dot (.id [ch 'c']) [ch 'b'],.bi .plus pWhere (some (.jvalue ())))]
    let H := Multiset.replicate 10000 0
    let xs : List (JsonNode Int) := [.struct [([ch 'a'],.real 5)],.struct [([ch 'a'],.real 0)]]
    let os : List (Option (JsonNode Int)) := [some (.struct [([ch 'a'],.real 5),([ch 'b'],.real 6)]),none]
    ∃ h' L r', Run.Returns (fun n => updateRows (fun _ => 0) n (some pWhere) pChng xs h) (os,h') ∧ Sound r' h' ∅ (L + H) ∧
      KeepsValues H h h' ∧ List.Forall₂ (fun x o => o ≠ none → ∃ p, Stored .false h' x p ∧ ∀ q ∈ p, q ∈ L) xs os := by
  intro h pWhere pChng H xs os
  obtain ⟨r,hs,hv⟩ := poolNode_spec (v := .real (1 : Int)) (Sound.nil fun _ => 0) (fun h => by cases h) rfl
  rw [add_zero] at hs
  let ctx : Ctx Int := ⟨[],.select,fun _ => []⟩
  have hrows : List.Forall₂ (RowUpdate (fun _ => .real (1 : Int)) ctx (some pWhere) pChng) xs os :=
    .cons (.updated ⟨3,_,rfl⟩ (.cons (n := 4) rfl (.nil _))) (.cons (.skipped ⟨3,_,rfl⟩) .nil)
  refine updateRows_inMemory hs (fun k => ⟨?_,hv⟩) (fun c hc => ?_) hrows
  · exact Multiset.mem_replicate.mpr ⟨by omega,rfl⟩
  · obtain rfl := List.mem_singleton.mp hc
    exact .fresh (.bi ⟨(fun h => by cases h),(fun h => by cases h),fun h => by cases h⟩ _ _)

/-- A borrowed value below a new node: `SET c.a = [c.b], c.a[0].x = 1, c.d = c.b` writes into
the document that the last assignment reads. -/
example :
    let c : HeapExpr Unit := .id [ch 'c']
    let pChng : List (HeapExpr Unit × HeapExpr Unit) := [(.dot c [ch 'a'],.array [.dot c [ch 'b']]),
      (.dot (.bi .lb (.dot c [ch 'a']) (some (.jvalue ()))) [ch 'x'],.jvalue ()),(.dot c [ch 'd'],.dot c [ch 'b'])]
    let x : JsonNode Int := .struct [([ch 'b'],.struct [])]
    ∃ h', updateRows (fun _ => 0) 8 none pChng [x] (poolNode [] (.real 0)) = .ok ([some (.struct [
      ([ch 'b'],.struct []),([ch 'a'],.array [.struct [([ch 'x'],.real 0)]]),([ch 'd'],.struct [([ch 'x'],.real 0)])])],h') :=
  ⟨_,rfl⟩

end InMemory
end Xjd1
