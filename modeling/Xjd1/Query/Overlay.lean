import Xjd1.Query.Fuel

/-! The stages of a query do not read the lists of the stages above them: with
other lists in those places they take the same steps and leave them alone. -/
namespace Xjd1

open Fueled Fueled.Run

variable {R : Type}

/-- What to put into the fields that belong to the stages above; the lists of a
SELECT are kept where there is nothing to put. -/
structure Overlay (R : Type) where
  grouped : Option (ResultList R)
  distincted : Option (ResultList R)
  pOrderBy : Option (List (ExprItem R))
  pLimit : Option (Expr R)
  pOffset : Option (Expr R)
  ordered : ResultList R
  nLimit : Option Int

def SimpleQuery.overlay (o : Overlay R) (s : SimpleQuery R) : SimpleQuery R :=
  { s with grouped := o.grouped.getD s.grouped, distincted := o.distincted.getD s.distincted }

def QueryU.overlay (o : Overlay R) : QueryU R → QueryU R
  | .simple s => .simple (s.overlay o)
  | .compound c => .compound c

def Query.overlay (o : Overlay R) (p : Query R) : Query R :=
  { p with u := p.u.overlay o, pOrderBy := o.pOrderBy, pLimit := o.pLimit, pOffset := o.pOffset,
           ordered := o.ordered, nLimit := o.nLimit }

structure Overlay.Free (o : Overlay R) (p : Query R) : Prop where
  ordered : p.eDocFrom ≠ .ordered
  distincted : o.distincted.isSome → p.eDocFrom ≠ .distincted
  grouped : o.grouped.isSome → p.eDocFrom ≠ .grouped

def Overlay.Under (o : Overlay R) (p p' : Query R) : Prop := p' = p.overlay o ∧ o.Free p

def Overlay.UnderWith {α : Type} (o : Overlay R) (a b : α × Query R) : Prop :=
  b.1 = a.1 ∧ o.Under a.2 b.2

def Interp.Inert (I : Interp R) : Prop :=
  ∀ (ctx : Ctx R) (o : Overlay R) (p : Query R) (k : ℕ), o.Free p →
    Rel o.UnderWith (I.xjd1QueryDoc ctx p k) (I.xjd1QueryDoc ctx (p.overlay o) k)

theorem Overlay.Free.of_eq {o : Overlay R} {p q : Query R} (h : o.Free p)
    (he : q.eDocFrom = p.eDocFrom) : o.Free q :=
  ⟨he ▸ h.ordered,fun hs => he ▸ h.distincted hs,fun hs => he ▸ h.grouped hs⟩

theorem Overlay.Under.setSimple {o : Overlay R} {p p' : Query R} (h : o.Under p p')
    (s : SimpleQuery R) : o.Under (p.setSimple s) (p'.setSimple (s.overlay o)) := by
  obtain ⟨rfl,h⟩ := h
  exact ⟨rfl,h.of_eq rfl⟩

theorem Overlay.Under.simple {o : Overlay R} {p p' : Query R} (h : o.Under p p') :
    Rel (fun s s' => s' = s.overlay o) p.simple p'.simple := by
  obtain ⟨rfl,_⟩ := h
  obtain ⟨u,_,_,_,_,_,_,_⟩ := p
  cases u with
  | simple s => exact .ok rfl
  | compound c => exact .stop _

theorem bind_under {o : Overlay R} {α β γ : Type} {r : β → γ → Prop} {x y : Exec (α × Query R)}
    {f : α × Query R → Exec β} {g : α × Query R → Exec γ} (h : Rel o.UnderWith x y)
    (hf : ∀ a p p', o.Under p p' → Rel r (f (a,p)) (g (a,p'))) : Rel r (x >>= f) (y >>= g) := by
  refine h.bind fun a b hab => ?_
  obtain ⟨a,p⟩ := a
  obtain ⟨b,p'⟩ := b
  obtain ⟨h1,h2⟩ := hab
  simp only at h1
  subst h1
  exact hf _ _ _ h2

theorem scope_congr {I : Interp R} {ctx : Ctx R} {p p' : Query R}
    (hd : ∀ k, Prod.fst <$> I.xjd1QueryDoc ctx p k = Prod.fst <$> I.xjd1QueryDoc ctx p' k)
    (ha : ∀ i, (p.frame I ctx).agg i = (p'.frame I ctx).agg i) : p.scope I ctx = p'.scope I ctx := by
  rw [Query.scope,Query.scope]
  congr 1
  show (⟨_,_⟩ : Frame R) = ⟨_,_⟩
  rw [Frame.mk.injEq]
  exact ⟨funext hd,funext ha⟩

section Stages
variable {I : Interp R} (hI : I.Inert) {o : Overlay R} (n : ℕ) (ctx : Ctx R)
include hI

theorem scope_under {p p' : Query R} (h : o.Under p p') : p'.scope I ctx = p.scope I ctx := by
  obtain ⟨rfl,h⟩ := h
  have hd : ∀ k, Prod.fst <$> I.xjd1QueryDoc ctx (p.overlay o) k =
      Prod.fst <$> I.xjd1QueryDoc ctx p k := by
    intro k
    have hr := hI ctx o p k h
    revert hr
    generalize I.xjd1QueryDoc ctx p k = x
    generalize I.xjd1QueryDoc ctx (p.overlay o) k = y
    intro hr
    cases hr with
    | ok h => exact congrArg Run.ok h.1
    | stop s => rfl
    | more => rfl
  refine scope_congr hd fun i => ?_
  obtain ⟨u,_,_,_,_,_,_,_⟩ := p
  cases u <;> rfl

variable [CDouble R]

theorem whereTurn_under {p p' : Query R} (h : o.Under p p') :
    Rel (Sum.LiftRel o.UnderWith o.Under) (whereTurn I ctx p) (whereTurn I ctx p') := by
  refine h.simple.bind fun s s' hs => ?_
  subst hs
  refine (Rel.of_eq rfl).bind fun x y hxy => ?_
  subst hxy
  obtain ⟨rc,pFrom⟩ := x
  have hu := h.setSimple { s with pFrom := pFrom }
  have hsc := scope_under hI ctx hu
  simp only [SimpleQuery.overlay] at hsc ⊢
  cases rc with
  | done => exact .ok (.inl ⟨rfl,hu⟩)
  | row =>
    cases hw : s.pWhere with
    | none =>
      rw [hw] at hu
      exact .ok (.inl ⟨rfl,hu⟩)
    | some pWhere =>
      rw [hw] at hsc
      simp only [hsc]
      refine (Rel.of_eq rfl).bind fun x y hxy => ?_
      subst hxy
      obtain ⟨b,pWhere⟩ := x
      have hw := h.setSimple { s with pFrom := pFrom, pWhere := some pWhere }
      cases b
      · exact .ok (.inr hw)
      · exact .ok (.inl ⟨rfl,hw⟩)

theorem whered_under {p p' : Query R} (h : o.Under p p') :
    Rel o.UnderWith (selectStepWhered I n ctx p) (selectStepWhered I n ctx p') :=
  Rel.loop (fun _ _ h => whereTurn_under hI ctx h) n h

theorem queryAggregateStep_under {p p' : Query R} (h : o.Under p p') :
    Rel o.UnderWith (queryAggregateStep I ctx p) (queryAggregateStep I ctx p') := by
  refine h.simple.bind fun s s' hs => ?_
  subst hs
  rw [scope_under hI ctx h]
  refine (Rel.of_eq rfl).bind fun x y hxy => ?_
  subst hxy
  exact .ok ⟨rfl,h.setSimple _⟩

omit hI in
theorem queryAggregateFinalize_under {p p' : Query R} (h : o.Under p p') :
    Rel o.Under (queryAggregateFinalize p) (queryAggregateFinalize p') := by
  refine h.simple.bind fun s s' hs => ?_
  subst hs
  exact .ok (h.setSimple _)

section Grouped
variable (hg : o.grouped = none)
include hg

omit hI [CDouble R] in
theorem setGrouped_under {p p' : Query R} (h : o.Under p p') (l : ResultList R) :
    Rel o.Under (setGrouped p l) (setGrouped p' l) := by
  refine h.simple.bind fun s s' hs => ?_
  subst hs
  have hu := h.setSimple { s with grouped := l }
  simp only [SimpleQuery.overlay,hg,Option.getD_none] at hu ⊢
  exact .ok hu

omit hI [CDouble R] in
theorem Overlay.Under.toGrouped {p p' : Query R} (h : o.Under p p') :
    o.Under { p with eDocFrom := .grouped } { p' with eDocFrom := .grouped } := by
  obtain ⟨rfl,_⟩ := h
  refine ⟨rfl,by simp,by simp,?_⟩
  rw [hg]
  nofun

omit hg in
theorem plainAggTurn_under {st st' : Option (List (JsonNode R)) × Query R} (h : o.UnderWith st st') :
    Rel (Sum.LiftRel o.UnderWith o.UnderWith) (plainAggTurn I n ctx st) (plainAggTurn I n ctx st') := by
  obtain ⟨a,p⟩ := st
  obtain ⟨_,p'⟩ := st'
  obtain ⟨rfl,h⟩ := h
  refine bind_under (whered_under hI n ctx h) fun rc p p' h => ?_
  cases rc with
  | done => exact .ok (.inl ⟨rfl,h⟩)
  | row =>
    refine bind_under (queryAggregateStep_under hI ctx h) fun save p p' h => ?_
    refine h.simple.bind fun s s' hs => ?_
    subst hs
    simp only [SimpleQuery.overlay]
    split
    · exact .ok (.inr ⟨rfl,h⟩)
    · exact .ok (.inr ⟨rfl,h⟩)

theorem plainAggStep_under {p p' : Query R} (h : o.Under p p') :
    Rel o.UnderWith (plainAggStep I n ctx p) (plainAggStep I n ctx p') := by
  refine h.simple.bind fun s s' hs => ?_
  subst hs
  simp only [SimpleQuery.overlay,hg,Option.getD_none]
  split
  · exact .stop _
  · split
    · exact .ok ⟨rfl,h⟩
    · refine (setGrouped_under hg h _).bind fun p p' h => ?_
      have hl := Rel.loop (fun _ _ h => plainAggTurn_under hI n ctx h) n
        (show o.UnderWith (none,p) (none,p') from ⟨rfl,h⟩)
      refine bind_under hl fun a p p' h => ?_
      refine h.simple.bind fun s s' hs => ?_
      subst hs
      simp only [SimpleQuery.overlay,hg,Option.getD_none]
      refine (setGrouped_under hg h _).bind fun p p' h => ?_
      refine (queryAggregateFinalize_under h).bind fun p p' h => ?_
      exact .ok ⟨rfl,h.toGrouped hg⟩

theorem groupFillTurn_under {p p' : Query R} (h : o.Under p p') :
    Rel (Sum.LiftRel o.Under o.Under) (groupFillTurn I n ctx p) (groupFillTurn I n ctx p') := by
  refine bind_under (whered_under hI n ctx h) fun rc p p' h => ?_
  cases rc with
  | done => exact .ok (.inl h)
  | row =>
    refine h.simple.bind fun s s' hs => ?_
    subst hs
    simp only [SimpleQuery.overlay,hg,Option.getD_none,scope_under hI ctx h]
    refine (Rel.of_eq rfl).bind fun x y hxy => ?_
    subst hxy
    obtain ⟨keys,es⟩ := x
    have hu := h.setSimple { s with
      pGroupBy := s.pGroupBy.map fun _ => es,
      grouped := addToResultList s.grouped (keys ++ xjd1DataSrcCacheSave s.pFrom) }
    simp only [SimpleQuery.overlay,hg,Option.getD_none] at hu
    exact .ok (.inr hu)

theorem groupFill_under {p p' : Query R} (h : o.Under p p') :
    Rel o.Under (groupFill I n ctx p) (groupFill I n ctx p') := by
  refine h.simple.bind fun s s' hs => ?_
  subst hs
  simp only [SimpleQuery.overlay]
  refine (setGrouped_under hg h _).bind fun p p' h => ?_
  refine (Rel.loop (fun _ _ h => groupFillTurn_under hI n ctx hg h) n h).bind fun p p' h => ?_
  refine h.simple.bind fun s s' hs => ?_
  subst hs
  simp only [SimpleQuery.overlay,hg,Option.getD_none]
  refine (Rel.of_eq rfl).bind fun x y hxy => ?_
  subst hxy
  exact setGrouped_under hg h x

theorem groupTurn_under {p p' : Query R} (h : o.Under p p') :
    Rel (Sum.LiftRel o.Under o.Under) (groupTurn I ctx p) (groupTurn I ctx p') := by
  refine h.simple.bind fun s s' hs => ?_
  subst hs
  simp only [SimpleQuery.overlay,hg,Option.getD_none]
  cases s.grouped.pItem with
  | nil => exact .stop _
  | cons pItem pNext =>
    refine bind_under (queryAggregateStep_under hI ctx h) fun save p p' h => ?_
    simp only
    split
    · exact (setGrouped_under hg h _).bind fun p p' h => .ok (.inl h)
    · exact (setGrouped_under hg h _).bind fun p p' h => .ok (.inr h)

theorem groupAdvance_under {p p' : Query R} (h : o.Under p p') :
    Rel o.Under (groupAdvance I n ctx p) (groupAdvance I n ctx p') := by
  refine h.simple.bind fun s s' hs => ?_
  subst hs
  simp only [SimpleQuery.overlay,hg,Option.getD_none]
  split
  · exact setGrouped_under hg h _
  · exact groupFill_under hI n ctx hg h

theorem groupNext_under {p p' : Query R} (h : o.Under p p') :
    Rel o.UnderWith (groupNext I n ctx p) (groupNext I n ctx p') := by
  refine (groupAdvance_under hI n ctx hg h).bind fun p p' h => ?_
  have h := h.toGrouped hg
  refine h.simple.bind fun s s' hs => ?_
  subst hs
  simp only [SimpleQuery.overlay,hg,Option.getD_none]
  split
  · exact .ok ⟨rfl,h⟩
  · refine (Rel.loop (fun _ _ h => groupTurn_under hI ctx hg h) n h).bind fun p p' h => ?_
    refine (queryAggregateFinalize_under h).bind fun p p' h => ?_
    exact .ok ⟨rfl,h⟩

theorem havingTurn_under {p p' : Query R} (h : o.Under p p') :
    Rel (Sum.LiftRel o.UnderWith o.Under) (havingTurn I n ctx p) (havingTurn I n ctx p') := by
  refine bind_under (groupNext_under hI n ctx hg h) fun rc p p' h => ?_
  refine h.simple.bind fun s s' hs => ?_
  subst hs
  simp only [SimpleQuery.overlay]
  cases rc with
  | done => exact .ok (.inl ⟨rfl,h⟩)
  | row =>
    cases hh : s.pHaving with
    | none => exact .ok (.inl ⟨rfl,h⟩)
    | some pHaving =>
      simp only [scope_under hI ctx h]
      refine (Rel.of_eq rfl).bind fun x y hxy => ?_
      subst hxy
      obtain ⟨b,pHaving⟩ := x
      have hu := h.setSimple { s with pHaving := some pHaving }
      cases b
      · exact .ok (.inr hu)
      · exact .ok (.inl ⟨rfl,hu⟩)

theorem grouped_under {p p' : Query R} (h : o.Under p p') :
    Rel o.UnderWith (selectStepGrouped I n ctx p) (selectStepGrouped I n ctx p') := by
  refine h.simple.bind fun s s' hs => ?_
  subst hs
  simp only [SimpleQuery.overlay]
  split
  · exact whered_under hI n ctx h
  · exact plainAggStep_under hI n ctx hg h
  · exact Rel.loop (fun _ _ h => havingTurn_under hI n ctx hg h) n h

section Distincted
variable (hd : o.distincted = none)
include hd

omit hI hg [CDouble R] in
theorem setDistincted_under {p p' : Query R} (h : o.Under p p') (l : ResultList R) :
    Rel o.Under (setDistincted p l) (setDistincted p' l) := by
  refine h.simple.bind fun s s' hs => ?_
  subst hs
  have hu := h.setSimple { s with distincted := l }
  simp only [SimpleQuery.overlay,hd,Option.getD_none] at hu ⊢
  exact .ok hu

theorem distinctFillTurn_under {p p' : Query R} (h : o.Under p p') :
    Rel (Sum.LiftRel o.Under o.Under) (distinctFillTurn I n ctx p) (distinctFillTurn I n ctx p') := by
  refine bind_under (grouped_under hI n ctx hg h) fun rc p p' h => ?_
  cases rc with
  | done => exact .ok (.inl h)
  | row =>
    obtain ⟨rfl,hf⟩ := h
    refine bind_under (hI ctx o p 0 hf) fun v p p' h => ?_
    refine h.simple.bind fun s s' hs => ?_
    subst hs
    simp only [SimpleQuery.overlay,hd,Option.getD_none]
    exact (setDistincted_under hd h _).bind fun p p' h => .ok (.inr h)

theorem distinctFill_under {p p' : Query R} (h : o.Under p p') :
    Rel o.Under (distinctFill I n ctx p) (distinctFill I n ctx p') := by
  refine h.simple.bind fun s s' hs => ?_
  subst hs
  simp only [SimpleQuery.overlay]
  refine (setDistincted_under hd h _).bind fun p p' h => ?_
  refine (Rel.loop (fun _ _ h => distinctFillTurn_under hI n ctx hg hd h) n h).bind fun p p' h => ?_
  refine h.simple.bind fun s s' hs => ?_
  subst hs
  simp only [SimpleQuery.overlay,hd,Option.getD_none]
  refine (Rel.of_eq rfl).bind fun x y hxy => ?_
  subst hxy
  refine (setDistincted_under hd h _).bind fun p p' h => .ok ?_
  obtain ⟨rfl,_⟩ := h
  refine ⟨rfl,by simp,?_,by simp⟩
  rw [hd]
  nofun

theorem distinct_under {p p' : Query R} (h : o.Under p p') :
    Rel o.UnderWith (selectStepDistinct I n ctx p) (selectStepDistinct I n ctx p') := by
  refine h.simple.bind fun s s' hs => ?_
  subst hs
  simp only [SimpleQuery.overlay,hd,Option.getD_none]
  split
  · split
    · exact (setDistincted_under hd h _).bind fun p p' h => .ok ⟨rfl,h⟩
    · exact (distinctFill_under hI n ctx hg hd h).bind fun p p' h => .ok ⟨rfl,h⟩
  · exact grouped_under hI n ctx hg h

theorem stepCompounded_under {p p' : Query R} (h : o.Under p p') :
    Rel o.UnderWith (stepCompounded I n ctx p) (stepCompounded I n ctx p') := by
  have hp := h
  obtain ⟨rfl,hf⟩ := h
  obtain ⟨u,_,_,_,_,_,_,_⟩ := p
  cases u with
  | simple s => exact distinct_under hI n ctx hg hd hp
  | compound c =>
    refine (Rel.of_eq rfl).bind fun x y hxy => ?_
    subst hxy
    exact .ok ⟨rfl,rfl,hf.of_eq rfl⟩

end Distincted
end Grouped

omit [CDouble R] in
theorem resultDoc_under {p p' : Query R} (h : o.Under p p') (s : SimpleQuery R) (e : Expr R) :
    Rel o.UnderWith (resultDoc I ctx p s e) (resultDoc I ctx p' (s.overlay o) e) := by
  rw [resultDoc,resultDoc,scope_under hI ctx h]
  refine (Rel.of_eq rfl).bind fun x y hxy => ?_
  subst hxy
  exact .ok ⟨rfl,h.setSimple _⟩

omit [CDouble R] in
theorem simpleDoc_under {p p' : Query R} (h : o.Under p p') (s : SimpleQuery R) (k : ℕ) :
    Rel o.UnderWith (simpleDoc I ctx p s k) (simpleDoc I ctx p' (s.overlay o) k) := by
  have hp := h
  obtain ⟨rfl,hf⟩ := h
  have he : (p.overlay o).eDocFrom = p.eDocFrom := rfl
  have hread : ∀ (x : Exec (JsonNode R)) (y : Exec (JsonNode R)), x = y →
      Rel o.UnderWith (x >>= fun v => Run.ok (v,p)) (y >>= fun v => Run.ok (v,p.overlay o)) := by
    rintro x _ rfl
    refine (Rel.of_eq rfl).bind fun a b hab => ?_
    subst hab
    exact .ok ⟨rfl,hp⟩
  unfold simpleDoc
  rw [he]
  cases hd : p.eDocFrom with
  | ordered => exact absurd hd hf.ordered
  | distincted =>
    have hn : o.distincted = none := by
      by_contra hne
      exact hf.distincted (Option.isSome_iff_ne_none.mpr hne) hd
    refine hread _ _ ?_
    simp only [SimpleQuery.overlay,hn,Option.getD_none]
  | grouped =>
    have hn : o.grouped = none := by
      by_contra hne
      exact hf.grouped (Option.isSome_iff_ne_none.mpr hne) hd
    have hl : s.grouped.doc ((s.pGroupBy.getD []).length + (k-1)) =
        (s.overlay o).grouped.doc (((s.overlay o).pGroupBy.getD []).length + (k-1)) := by
      simp only [SimpleQuery.overlay,hn,Option.getD_none]
    have hr : (s.overlay o).pRes = s.pRes := rfl
    rw [hr]
    cases hres : s.pRes with
    | none => exact hread _ _ hl
    | some e =>
      cases k with
      | zero => exact resultDoc_under hI ctx hp s e
      | succ k => exact hread _ _ hl
  | datasrc =>
    have hr : (s.overlay o).pRes = s.pRes := rfl
    rw [hr]
    cases hres : s.pRes with
    | none => exact .ok ⟨rfl,hp⟩
    | some e =>
      cases k with
      | zero => exact resultDoc_under hI ctx hp s e
      | succ k => exact .ok ⟨rfl,hp⟩

omit [CDouble R] in
theorem queryDoc_under (p : Query R) (k : ℕ) (hf : o.Free p) :
    Rel o.UnderWith (queryDoc I ctx p k) (queryDoc I ctx (p.overlay o) k) := by
  have hu : o.Under p (p.overlay o) := ⟨rfl,hf⟩
  have he : (p.overlay o).eDocFrom = p.eDocFrom := rfl
  unfold queryDoc
  rw [he,if_neg hf.ordered,if_neg hf.ordered]
  obtain ⟨u,_,_,_,_,_,_,_⟩ := p
  cases u with
  | simple s => exact simpleDoc_under hI ctx hu s k
  | compound c =>
    simp only [Query.overlay,QueryU.overlay]
    split
    · exact .ok ⟨rfl,hu⟩
    · exact .stop _

end Stages

theorem interp_inert [CDouble R] (n : ℕ) : (interp n : Interp R).Inert := by
  induction n with
  | zero => exact fun _ _ _ _ _ => .more
  | succ n ih => exact fun ctx o p k hf => queryDoc_under ih ctx p k hf

end Xjd1
