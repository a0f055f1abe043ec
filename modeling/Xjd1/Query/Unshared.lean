import Xjd1.Query.MemoryEval

/-! Expressions whose values can be edited. `xjd1JsonEdit` looks at one count only: a node with
one reference is edited in place, and what is below it with it, even if that is shared. -/
namespace Xjd1

open Heap RefCount Fueled

variable {R P : Type}

/-- An expression whose value is made of new nodes only. -/
inductive HeapExpr.Fresh : HeapExpr P → Prop
  | bi {eType : BiOp} (hop : eType ≠ .lb ∧ eType ≠ .and ∧ eType ≠ .or) (pLeft : HeapExpr P) (pRight : Option (HeapExpr P)) :
      Fresh (.bi eType pLeft pRight)
  | logical {eType : BiOp} {pLeft : HeapExpr P} {pRight : Option (HeapExpr P)} (hop : eType = .and ∨ eType = .or)
      (hl : Fresh pLeft) (hr : ∀ e ∈ pRight, Fresh e) : Fresh (.bi eType pLeft pRight)
  | tri (pTest : HeapExpr P) {pIfTrue pIfFalse : HeapExpr P} (ht : Fresh pIfTrue) (hf : Fresh pIfFalse) :
      Fresh (.tri pTest pIfTrue pIfFalse)
  | struct {st : List (Bytes × HeapExpr P)} (h : ∀ m ∈ st, Fresh m.2) : Fresh (.struct st)
  | array {ar : List (HeapExpr P)} (h : ∀ e ∈ ar, Fresh e) : Fresh (.array ar)
  | length (pArg : HeapExpr P) : Fresh (.length pArg)

/-- An expression whose value is in a literal or in the document. -/
inductive HeapExpr.Borrowed : HeapExpr P → Prop
  | jvalue (p : P) : Borrowed (.jvalue p)
  | id (zId : Bytes) : Borrowed (.id zId)
  | dot {pLeft : HeapExpr P} (h : Borrowed pLeft) (zId : Bytes) : Borrowed (.dot pLeft zId)
  | lb {pLeft : HeapExpr P} (h : Borrowed pLeft) (pRight : Option (HeapExpr P)) : Borrowed (.bi .lb pLeft pRight)

/-- An expression that puts nothing borrowed below a new node. -/
inductive HeapExpr.Unshared : HeapExpr P → Prop
  | fresh {e : HeapExpr P} (h : Fresh e) : Unshared e
  | borrowed {e : HeapExpr P} (h : Borrowed e) : Unshared e
  | logical {eType : BiOp} {pLeft : HeapExpr P} {pRight : Option (HeapExpr P)} (hop : eType = .and ∨ eType = .or)
      (hl : Unshared pLeft) (hr : ∀ e ∈ pRight, Unshared e) : Unshared (.bi eType pLeft pRight)
  | tri (pTest : HeapExpr P) {pIfTrue pIfFalse : HeapExpr P} (ht : Unshared pIfTrue) (hf : Unshared pIfFalse) :
      Unshared (.tri pTest pIfTrue pIfFalse)

namespace InMemory

section Values
variable [CDouble R] {s : StmtNodes P} {lit : P → JsonNode R} {ctx : Ctx R} {h : JsonHeap R} {v : JsonNode R}
  {p : Option ℕ} {Z : Finset ℕ} {H : Multiset ℕ} {r : ℕ → ℕ} {n : ℕ} {e : HeapExpr P} {E : Expr R} {tidy : Prop}

theorem exprEval_ok (hv : (interp n).xjd1ExprEval ctx (e.expr lit) = .ok (v,E)) :
    ∃ m, n = m+1 ∧ Xjd1.exprEval (interp m) ctx (e.expr lit) = .ok (v,E) := by
  cases n with
  | zero => cases hv
  | succ m => exact ⟨m,rfl,hv⟩

theorem items_fresh {es : List (HeapExpr P)} {ws : List (JsonNode R)}
    (hall : List.Forall₂ (fun e w => ∃ E, (interp n).xjd1ExprEval ctx (e.expr lit) = .ok (w,E)) es ws)
    (he : ∀ e ∈ es, ∀ w E, (interp n).xjd1ExprEval ctx (e.expr lit) = .ok (w,E) →
      Refines (stored .true) s lit ctx.pDoc False w fun m => xjd1ExprEval s m e) :
    List.Forall₂ (fun e w => Refines (stored .true) s lit ctx.pDoc False w fun m => xjd1ExprEval s m e) es ws := by
  induction hall with
  | nil => exact .nil
  | @cons e w es ws hw _ ih =>
    obtain ⟨E,hw⟩ := hw
    exact .cons (he e List.mem_cons_self w E hw) (ih fun e' he' => he e' (List.mem_cons_of_mem e he'))

theorem fresh_refines (s : StmtNodes P) (lit : P → JsonNode R) (he : e.Fresh)
    (hv : (interp n).xjd1ExprEval ctx (e.expr lit) = .ok (v,E)) :
    Refines (stored .true) s lit ctx.pDoc False v fun m => xjd1ExprEval s m e := by
  intro r h Z H hs hh
  induction he generalizing n v E r h Z H with
  | bi hop pLeft pRight =>
    obtain ⟨m,rfl,hv⟩ := exprEval_ok hv
    rw [HeapExpr.expr_bi] at hv
    exact ((exprEvalBi_fresh (fun e v E => xjd1ExprEval_refines s lit) hop hv hs hh).mono (fun _ _ _ _ _ => id)
      False.elim).unfolded
  | @logical eType pLeft pRight hop _ _ ihl ihr =>
    obtain ⟨m,rfl,hv⟩ := exprEval_ok hv
    rw [HeapExpr.expr_bi] at hv
    exact ((logical_gives (T := fun _ => False) hop (fun _ _ _ _ _ => id) (fun _ _ _ _ _ => Stored.weaken)
      (fun v E hv => ihl hv) (fun e he v E hv => ihr e he hv) hv hs hh).mono (fun _ _ _ _ _ => id)
      False.elim).unfolded
  | @tri pTest pIfTrue pIfFalse _ _ iht ihf =>
    obtain ⟨m,rfl,hv⟩ := exprEval_ok hv
    obtain ⟨w,E1,b,E2,h1,hb,h2⟩ := tri_ok hv
    have hr : Refines (stored .true) s lit ctx.pDoc False v fun m => xjd1ExprEval s m (if b then pIfTrue else pIfFalse) := by
      cases b with
      | true => exact iht h2
      | false => exact ihf h2
    exact (tri_gives (xjd1ExprEval_refines s lit h1) hb hr hs hh).unfolded
  | @struct st _ ih =>
    obtain ⟨m,rfl,hv⟩ := exprEval_ok hv
    obtain ⟨ws,hall,hws,rfl⟩ := struct_ok hv
    refine (struct_gives hws (fun r h Z H hs hh => evalItems_fresh (items_fresh hall fun e he w E hw => ?_) hs hh) hs hh).unfolded
    obtain ⟨m,hm,rfl⟩ := List.mem_map.mp he
    exact ih m hm hw
  | array _ ih =>
    obtain ⟨m,rfl,hv⟩ := exprEval_ok hv
    obtain ⟨ws,hall,rfl⟩ := array_ok hv
    refine (array_gives (fun r h Z H hs hh => evalItems_fresh (items_fresh hall fun e he w E hw => ?_) hs hh) hs hh).unfolded
    exact ih e he hw
  | length pArg =>
    obtain ⟨m,rfl,hv⟩ := exprEval_ok hv
    obtain ⟨w,E1,h1,hu⟩ := length_ok hv
    exact ((length_gives (xjd1ExprEval_refines s lit h1) hu hs hh).mono (fun _ _ _ _ _ => id) False.elim).unfolded

theorem borrowed_refines (s : StmtNodes P) (lit : P → JsonNode R) (he : e.Borrowed)
    (hv : (interp n).xjd1ExprEval ctx (e.expr lit) = .ok (v,E)) :
    Refines (lent True) s lit ctx.pDoc False v fun m => xjd1ExprEval s m e := by
  intro r h Z H hs hh
  induction he generalizing n v E r h Z H with
  | jvalue p =>
    obtain ⟨m,rfl,hv⟩ := exprEval_ok hv
    cases hv
    exact (literal_gives hs hh p).unfolded
  | id zId =>
    obtain ⟨m,rfl,hv⟩ := exprEval_ok hv
    rw [id_ok (I := interp m) hv] at hh
    exact (document_gives hs hh zId).unfolded
  | @dot pLeft _ zId ih =>
    obtain ⟨m,rfl,hv⟩ := exprEval_ok hv
    obtain ⟨w,E1,h1,rfl⟩ := dot_ok hv
    exact (dot_gives (ih h1) hs hh).unfolded
  | @lb pLeft _ pRight ih =>
    obtain ⟨m,rfl,hv⟩ := exprEval_ok hv
    rw [HeapExpr.expr_bi] at hv
    obtain ⟨w1,E1,w2,E2,h1,h2,h3⟩ := lb_ok hv
    have hr := evalOption_refines (fun _ _ _ _ _ => Stored.weaken) (fun e _ v E hv => xjd1ExprEval_refines s lit hv) h2
    exact ((lb_gives (ih h1) hr h3 hs hh).mono (fun _ _ _ _ _ => id) False.elim).unfolded

/-- The value of an unshared expression is apart: all of its nodes are new, or its first one
is referred to elsewhere. -/
theorem unshared_refines (s : StmtNodes P) (lit : P → JsonNode R) (he : e.Unshared)
    (hv : (interp n).xjd1ExprEval ctx (e.expr lit) = .ok (v,E)) :
    Refines apart s lit ctx.pDoc False v fun m => xjd1ExprEval s m e := by
  intro r h Z H hs hh
  have hfresh : ∀ (h : JsonHeap R) (Z : Finset ℕ) H v p, Stored .true h v p → apart h Z H v p := fun _ _ _ _ _ hv =>
    ⟨hv.weaken,.inl hv⟩
  induction he generalizing n v E r h Z H with
  | fresh he => exact (fresh_refines s lit he hv).mono hfresh r h Z H hs hh
  | borrowed he =>
    refine (borrowed_refines s lit he hv).mono (fun h Z H v p hv => ?_) r h Z H hs hh
    exact ⟨hv.1,(hv.2 trivial).imp And.right id⟩
  | @logical eType pLeft pRight hop _ _ ihl ihr =>
    obtain ⟨m,rfl,hv⟩ := exprEval_ok hv
    rw [HeapExpr.expr_bi] at hv
    exact ((logical_gives (T := fun _ => False) hop hfresh (fun _ _ _ _ _ => And.left)
      (fun v E hv => ihl hv) (fun e he v E hv => ihr e he hv) hv hs hh).mono (fun _ _ _ _ _ => id)
      False.elim).unfolded
  | @tri pTest pIfTrue pIfFalse _ _ iht ihf =>
    obtain ⟨m,rfl,hv⟩ := exprEval_ok hv
    obtain ⟨w,E1,b,E2,h1,hb,h2⟩ := tri_ok hv
    have hr : Refines apart s lit ctx.pDoc False v fun m => xjd1ExprEval s m (if b then pIfTrue else pIfFalse) := by
      cases b with
      | true => exact iht h2
      | false => exact ihf h2
    exact (tri_gives (xjd1ExprEval_refines s lit h1) hb hr hs hh).unfolded

omit [CDouble R] in
/-- A value that is apart is edited on nodes of its own; the reference to a node that others
refer to is lost. -/
theorem xjd1JsonEdit_spec (hs : Sound r h Z (handle p + H)) (hv : apart h Z H v p) :
    ∃ q h' L r', Run.Returns (fun n => xjd1JsonEdit n h p) (q,h') ∧ Sound r' h' Z (handle q + (L + H)) ∧ Kept Z h h' ∧
      Stored .true h' v q ∧ ((∀ i ∈ p, RefCount.Reached h H i) → L = handle p) := by
  obtain ⟨hv,hown⟩ := hv
  cases hv with
  | nullptr => exact ⟨none,h,0,r,.of_forall fun _ => rfl,by simpa using hs,.refl Z h,.nullptr,fun _ => rfl⟩
  | @node _ i a ps hne hl h1 hc hlen hch =>
    by_cases hone : a.nRef = 1
    · have hnot : ¬ ∃ j ∈ some i, RefCount.Reached h H j := by
        -- it would make a second reference to the node
        rintro ⟨j,hj,hr⟩
        obtain rfl := Option.some.inj hj
        have hcount := hs.counted i a hl (hs.target i (by simp)).1
        have hmem := hs.reached_mem (fun q hq => Multiset.mem_add.mpr (.inr hq)) hr
        rw [add_left_comm,Multiset.count_add,handle_some,Multiset.count_singleton_self,hone] at hcount
        have hpos := Multiset.count_pos.mpr hmem
        omega
      refine ⟨some i,h,0,r,.of_forall fun n => ?_,by simpa using hs,.refl Z h,hown.resolve_right hnot,
        fun hr => absurd ⟨i,rfl,hr i rfl⟩ hnot⟩
      simp only [xjd1JsonEdit,getNode,get_live hl,Run.ok_bind,if_pos hone]
    · obtain ⟨q,h',r',he,hpre,hs',hv'⟩ := deepCopy_spec v r h Z (handle (some i) + H) (some i) hs
        (.node hne hl h1 hc hlen hch) fun j hj => Multiset.mem_add.mpr (.inr (mem_own j hj))
      refine ⟨q,h',handle (some i),r',?_,hs',Kept.of_prefix hs hpre,hv',fun _ => rfl⟩
      filter_upwards [he] with n hn
      simp only [xjd1JsonEdit,getNode,get_live hl,Run.ok_bind,if_neg hone,hn]

end Values

end InMemory
end Xjd1
