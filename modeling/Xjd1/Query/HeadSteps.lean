import Xjd1.Query.Heads
import Xjd1.Query.Ordered
import Xjd1.Query.Distinct

/-! Every stage of a query leaves a head in the list that documents are read from, if it
has come to a row and the stages below it and the calls it makes do. -/
namespace Xjd1

open Fueled Fueled.Run SlotSort

variable {R : Type}

/-- A condition that holds; where it cannot be evaluated, neither can what it is about. -/
def met : Exec Bool → Bool
  | .ok b => b
  | .stop _ => true
  | .more => false

theorem met_mono {x y : Exec Bool} (h : x ≤ y) (hx : met x = true) : met y = true := by
  rcases h with rfl | rfl
  · cases hx
  · exact hx

/-- The run ends without reading the head of an empty list. -/
def readsNone {α : Type} : Exec α → Exec Bool
  | .ok _ => .ok true
  | .stop s => .ok (s ≠ .emptyList)
  | .more => .more

theorem readsNone_le {α : Type} {x y : Exec α} (h : x ≤ y) : readsNone x ≤ readsNone y := by
  rcases h with rfl | rfl
  · exact more_le _
  · exact Run.le_refl _

section Readable
variable (I : Interp R) (ctx : Ctx R)

/-- What an expression sees of a query behind its last group: the aggregates, and no document. -/
def Query.endFrame (p : Query R) : Frame R where
  doc k := if k = 0 then .more else .stop .emptyList
  agg := (p.frame I ctx).agg

/-- Document 0 is not read from a list that is empty. Behind the last group, it is
the result expression, unless that reads a document of the query. -/
def Query.readable (p : Query R) : Exec Bool :=
  match p.eDocFrom, p.u with
  | .ordered, _ => .ok !p.ordered.pItem.isEmpty
  | .distincted, .simple s => .ok !s.distincted.pItem.isEmpty
  | .grouped, .simple s =>
    if s.grouped.pItem.isEmpty then
      match s.pRes with
      | none => .ok false
      | some pRes => readsNone (I.xjd1ExprEval (ctx.push (p.endFrame I ctx)) pRes)
    else .ok true
  | _, _ => .ok true

end Readable

/-- No call reads the head of an empty list, and a step to a row leaves the query with a head to read. -/
structure Interp.Heads (I : Interp R) : Prop where
  neutral : I.Neutral
  inert : I.Inert
  exprEval : I.EvalHeaded
  dataSrcStep : ∀ S ctx d, Ctx.Heads S ctx → d.Fit S → d.Settled →
    Headed (fun r => r.2.Settled) (I.xjd1DataSrcStep ctx d)
  stepCompounded : ∀ S ctx p, Ctx.Heads S ctx → p.Fit S → p.Settled → p.eDocFrom ≠ .ordered →
    Headed (fun r => (r.2.Settled ∧ r.2.eDocFrom ≠ .ordered) ∧ (r.1 = .row → r.2.AtHead))
      (I.selectStepCompounded ctx p)
  queryStep : ∀ S ctx p, Ctx.Heads S ctx → p.Fit S → p.Settled →
    Headed (fun r => r.2.Settled ∧ (r.1 = .row → r.2.AtHead)) (I.xjd1QueryStep ctx p)
  queryDoc : ∀ S ctx p k, Ctx.Heads S ctx → p.Fit S → p.AtHead → Headed (fun _ => True) (I.xjd1QueryDoc ctx p k)
  queryEnd : ∀ ctx p, p.Fit (fun _ => true) → met (p.readable I (Ctx.top ctx)) = true →
    Headed (fun _ => True) (I.xjd1QueryDoc (Ctx.top ctx) p 0)

structure Query.Select (S : ℕ → Bool) (p : Query R) (s : SimpleQuery R) : Prop where
  fit : p.Fit S
  simple : p.u = .simple s
  pFrom : s.pFrom.Settled

def Query.AtSource (S : ℕ → Bool) (l : ResultList R) (p : Query R) : Prop :=
  p.eDocFrom = .datasrc ∧ ∃ s, p.Select S s ∧ s.grouped = l

/-- The list of the groups is set up if documents are read from it. -/
structure Query.AtGroup (p : Query R) (s : SimpleQuery R) : Prop where
  eDocFrom : p.eDocFrom = .datasrc ∨ p.eDocFrom = .grouped
  grouped : p.eDocFrom = .grouped →
    s.pAgg.isSome = true ∧ s.grouped.pPool = true ∧ (s.pGroupBy = none → s.grouped.pItem ≠ [])

def GroupStep (S : ℕ → Bool) (r : Rc × Query R) : Prop :=
  (∃ s, r.2.Select S s ∧ r.2.AtGroup s) ∧ (r.1 = .row → r.2.AtHead)

theorem Overlay.keeps {α : Type} {o : Overlay R} {x : Exec (α × Query R)} (h : Rel o.UnderWith x x) {a : α}
    {q : Query R} (hx : x = .ok (a,q)) : q = q.overlay o ∧ o.Free q := by
  subst hx
  cases h with
  | ok h => exact ⟨h.2.1,h.2.2⟩

theorem static_of_rewind {p q : Query R} {s t : SimpleQuery R} (hp : p.u = .simple s) (hq : q.u = .simple t)
    (h : xjd1QueryRewind q = xjd1QueryRewind p) : t.isDistinct = s.isDistinct ∧ t.pGroupBy = s.pGroupBy ∧
      t.pAgg.isSome = s.pAgg.isSome := by
  obtain ⟨t',ht,hr⟩ := Query.simple_of_rewind hp h
  rw [hq,QueryU.simple.injEq] at ht
  subst ht
  rw [simpleRewind_eq,simpleRewind_eq s,SimpleQuery.mk.injEq] at hr
  refine ⟨hr.1,hr.2.2.2.2.1,?_⟩
  have ha := congrArg Option.isSome hr.2.2.2.2.2.2.1
  rwa [Option.isSome_map,Option.isSome_map] at ha

section Stages
variable [CDouble R] {I : Interp R} {S : ℕ → Bool} {ctx : Ctx R} (n : ℕ)

section Select
variable (hI : I.Heads) (hctx : ctx.Heads S) {p : Query R} {s : SimpleQuery R}
include hI hctx

omit [CDouble R] in
theorem scope_heads (hp : p.Fit S) (hr : p.AtHead) : (p.scope I ctx).Heads (inside true S) :=
  hctx.push fun _ i => (hI.queryDoc S ctx p i hctx hp hr).bind fun _ _ _ => trivial

theorem whereTurn_headed {l : ResultList R} (h : p.AtSource S l) :
    Headed (Sum.elim (fun r => r.2.AtSource S l) (Query.AtSource S l)) (whereTurn I ctx p) := by
  obtain ⟨hd,s,hp,hl⟩ := h
  have hs := hp.fit.simple hp.simple
  have hcore : Headed (Sum.elim (fun r => r.2.eDocFrom = .datasrc ∧ ∃ t, r.2.u = .simple t ∧ t.pFrom.Settled ∧ t.grouped = l)
      fun q => q.eDocFrom = .datasrc ∧ ∃ t, q.u = .simple t ∧ t.pFrom.Settled ∧ t.grouped = l) (whereTurn I ctx p) := by
    rw [whereTurn,Query.simple_eq_ok.mpr hp.simple,ok_bind]
    refine (hI.dataSrcStep S ctx s.pFrom hctx hs.pFrom hp.pFrom).bind fun x hx hset => ?_
    obtain ⟨rc,pFrom⟩ := x
    have hfit : (p.setSimple { s with pFrom := pFrom }).Fit S := by
      refine hp.fit.of_rewind (rewind_setSimple hp.simple ?_)
      rw [simpleRewind_eq,simpleRewind_eq s]
      simp only [hI.neutral.dataSrcStep ctx _ rc pFrom hs.pFrom.clean hx]
    simp only
    split
    · rename_i pWhere hw
      have hwf := hs.pWhere
      rw [hw] at hwf
      refine (exprTrue_headed hI.exprEval (scope_heads hI hctx hfit (.of_datasrc hd)) ⟨hwf.1,hwf.2⟩).bind fun y _ _ => ?_
      obtain ⟨b,e⟩ := y
      cases b
      · exact ⟨hd,_,rfl,hset,hl⟩
      · exact ⟨hd,_,rfl,hset,hl⟩
    · exact ⟨hd,_,rfl,hset,hl⟩
  refine hcore.mono fun r hr h => ?_
  have hn := whereTurn_neutral hI.neutral ctx hp.fit.clean hr
  cases r with
  | inl r =>
    obtain ⟨h1,t,h2,h3,h4⟩ := h
    exact ⟨h1,t,⟨hp.fit.of_rewind (hn.1 r rfl),h2,h3⟩,h4⟩
  | inr q =>
    obtain ⟨h1,t,h2,h3,h4⟩ := h
    exact ⟨h1,t,⟨hp.fit.of_rewind (hn.2 q rfl),h2,h3⟩,h4⟩

theorem whered_headed {l : ResultList R} (h : p.AtSource S l) :
    Headed (fun r => r.2.AtSource S l) (selectStepWhered I n ctx p) :=
  Avoids.loop (fun _ h => whereTurn_headed hI hctx h) n h

theorem queryAggregateStep_headed (hp : p.Select S s) (hr : p.AtHead) :
    Headed (fun r => ∃ l, r.2 = p.setSimple { s with pAgg := l } ∧ r.2.Select S { s with pAgg := l })
      (queryAggregateStep I ctx p) := by
  have hs := hp.fit.simple hp.simple
  have hl : aggsInitial ((s.pAgg.getD []).map AggExpr.clear) ∧ aggsScoped (s.pAgg.getD []) (inside true S) = true := by
    have ha := hs.pAgg
    cases hsome : s.pAgg with
    | none => exact ⟨by rw [Option.getD_none,List.map_nil,aggsInitial]; trivial,rfl⟩
    | some l =>
      rw [hsome] at ha
      exact ha
  have hcore : Headed (fun r => ∃ l, r.2 = p.setSimple { s with pAgg := l }) (queryAggregateStep I ctx p) := by
    rw [queryAggregateStep,Query.simple_eq_ok.mpr hp.simple,ok_bind]
    exact (aggregateStep_headed hI.exprEval (scope_heads hI hctx hp.fit hr) hl.1 hl.2).bind fun _ _ _ => ⟨_,rfl⟩
  refine hcore.mono fun r hr h => ?_
  obtain ⟨l,h⟩ := h
  have hn := queryAggregateStep_neutral hI.neutral ctx hp.fit.clean hr
  exact ⟨l,h,hp.fit.of_rewind hn,by rw [h]; rfl,hp.pFrom⟩

omit [CDouble R] hI hctx in
theorem setGrouped_eq (hp : p.u = .simple s) (l : ResultList R) :
    setGrouped p l = .ok (p.setSimple { s with grouped := l }) := by
  rw [setGrouped,Query.simple_eq_ok.mpr hp,ok_bind]

omit [CDouble R] hI hctx in
theorem Query.Select.setGrouped (hp : p.Select S s) (l : ResultList R) :
    (p.setSimple { s with grouped := l }).Select S { s with grouped := l } :=
  ⟨hp.fit.of_rewind (rewind_setSimple hp.simple (by rw [simpleRewind_eq,simpleRewind_eq s])),rfl,hp.pFrom⟩

omit [CDouble R] hI hctx in
theorem Query.Select.setDocFrom (hp : p.Select S s) (d : DocFrom) : Query.Select S { p with eDocFrom := d } s :=
  ⟨hp.fit.of_rewind (rewind_eDocFrom p d),hp.simple,hp.pFrom⟩

omit hI hctx in
theorem queryAggregateFinalize_select (hp : p.Select S s) : ∃ l, queryAggregateFinalize p =
    .ok (p.setSimple { s with pAgg := l }) ∧ (p.setSimple { s with pAgg := l }).Select S { s with pAgg := l } := by
  have h : queryAggregateFinalize p = .ok (p.setSimple { s with pAgg := s.pAgg.map xjd1AggregateFinalize }) := by
    rw [queryAggregateFinalize,Query.simple_eq_ok.mpr hp.simple,ok_bind]
  exact ⟨_,h,hp.fit.of_rewind (queryAggregateFinalize_neutral h),rfl,hp.pFrom⟩

theorem plainAggTurn_headed {l : ResultList R} {st : Option (List (JsonNode R)) × Query R} (h : st.2.AtSource S l) :
    Headed (Sum.elim (fun r => r.2.AtSource S l) fun st => st.2.AtSource S l) (plainAggTurn I n ctx st) := by
  refine (whered_headed n hI hctx h).bind fun x _ hx => ?_
  obtain ⟨rc,q⟩ := x
  cases rc with
  | done => exact hx
  | row =>
    obtain ⟨hd,t,ht,hl⟩ := hx
    refine (queryAggregateStep_headed hI hctx ht (.of_datasrc hd)).bind fun y _ hy => ?_
    obtain ⟨save,q'⟩ := y
    obtain ⟨as,rfl,hq⟩ := hy
    have hf : (q.setSimple { t with pAgg := as }).AtSource S l := ⟨hd,_,hq,hl⟩
    simp only [Query.simple_setSimple,ok_bind]
    split <;> exact hf

/-- Documents are read from the list of the groups, and it has a head if `P`. -/
def Query.InGroup (S : ℕ → Bool) (P : Prop) (p : Query R) : Prop :=
  p.eDocFrom = .grouped ∧ ∃ s, p.Select S s ∧ s.grouped.pPool = true ∧ (P → s.grouped.pItem ≠ [])

omit [CDouble R] hI hctx in
theorem Query.InGroup.atHead {P : Prop} (h : p.InGroup S P) (hP : P) : p.AtHead := by
  obtain ⟨hd,s,hp,_,hl⟩ := h
  rw [Query.AtHead,hd,hp.simple]
  exact hl hP

theorem plainAggStep_headed (hp : p.Select S s) (hg : p.AtGroup s) :
    Headed (fun r => r = (.done,p) ∨ r.2.InGroup S True) (plainAggStep I n ctx p) := by
  rw [plainAggStep,Query.simple_eq_ok.mpr hp.simple,ok_bind]
  split
  · exact .stop (by decide)
  · split
    · exact .inl rfl
    · rename_i hpool
      have hd : p.eDocFrom = .datasrc := hg.eDocFrom.resolve_right fun h => hpool (hg.grouped h).2.1
      simp only [setGrouped_eq hp.simple,ok_bind]
      have hloop := Avoids.loop (P := fun st => st.2.AtSource S (.new (xjd1DataSrcCount s.pFrom)))
        (fun _ h => plainAggTurn_headed n hI hctx h) n
        (s := (none,p.setSimple { s with grouped := .new (xjd1DataSrcCount s.pFrom) }))
        ⟨hd,_,hp.setGrouped _,rfl⟩
      refine hloop.bind fun x _ h => ?_
      obtain ⟨apSrc,q⟩ := x
      obtain ⟨_,t,ht,hl⟩ := h
      have hq := ht.setGrouped (addToResultList t.grouped (apSrc.getD (List.replicate (xjd1DataSrcCount s.pFrom) .nullptr)))
      obtain ⟨l,hfin,hsel⟩ := queryAggregateFinalize_select hq
      simp only [Query.simple_eq_ok.mpr ht.simple,setGrouped_eq ht.simple,ok_bind,hfin]
      refine .inr ⟨rfl,_,hsel.setDocFrom _,?_,fun _ => List.cons_ne_nil _ _⟩
      show t.grouped.pPool = true
      rw [hl]
      rfl

theorem groupFillTurn_headed (h : ∃ l, p.AtSource S l ∧ l.pPool = true) :
    Headed (Sum.elim (fun q => ∃ l, q.AtSource S l ∧ l.pPool = true) fun q => ∃ l, q.AtSource S l ∧ l.pPool = true)
      (groupFillTurn I n ctx p) := by
  obtain ⟨l,h,hpool⟩ := h
  refine (whered_headed n hI hctx h).bind fun x _ hx => ?_
  obtain ⟨rc,q⟩ := x
  cases rc with
  | done => exact ⟨l,hx,hpool⟩
  | row =>
    obtain ⟨hd,t,ht,hl⟩ := hx
    have hb := (ht.fit.simple ht.simple).pGroupBy
    simp only [Query.simple_eq_ok.mpr ht.simple,ok_bind]
    refine (evalItems_headed hI.exprEval (scope_heads hI hctx ht.fit (.of_datasrc hd)) (itemsInitial_getD hb.1)
      (itemsScoped_getD hb.2)).bind fun y hy _ => ?_
    obtain ⟨keys,es⟩ := y
    have hes := groupBy_neutral hI.neutral ht.fit.clean ht.simple hy
    simp only [hes]
    exact ⟨_,⟨hd,_,ht.setGrouped (addToResultList t.grouped (keys ++ xjd1DataSrcCacheSave t.pFrom)),rfl⟩,
      by rw [← hpool,← hl]; rfl⟩

theorem groupFill_headed (hp : p.Select S s) (hd : p.eDocFrom = .datasrc) :
    Headed (fun q => ∃ t, q.Select S t ∧ t.grouped.pPool = true) (groupFill I n ctx p) := by
  simp only [groupFill,Query.simple_eq_ok.mpr hp.simple,setGrouped_eq hp.simple,ok_bind]
  have hloop := Avoids.loop (fun _ h => groupFillTurn_headed n hI hctx h) n
    (s := p.setSimple { s with grouped := .new ((s.pGroupBy.getD []).length + xjd1DataSrcCount s.pFrom) })
    ⟨_,⟨hd,_,hp.setGrouped _,rfl⟩,rfl⟩
  refine hloop.bind fun q _ h => ?_
  obtain ⟨l,⟨_,t,ht,hl⟩,hpool⟩ := h
  simp only [Query.simple_eq_ok.mpr ht.simple,ok_bind]
  refine (sortResultList_headed t.grouped t.pGroupBy false).bind fun l' _ h => ?_
  rw [setGrouped_eq ht.simple]
  exact ⟨_,ht.setGrouped l',by rw [← hpool,← hl]; exact h.1⟩

omit hI hctx [CDouble R] in
theorem restoreResultList_ne_nil {l : ResultList R} (h : l.pSaved.isSome ∨ l.pItem ≠ []) :
    (restoreResultList l).pItem ≠ [] := by
  rw [restoreResultList]
  cases hs : l.pSaved with
  | some saved => exact List.cons_ne_nil _ _
  | none =>
    rw [hs] at h
    exact h.resolve_left (by simp)

omit hI hctx [CDouble R] in
theorem restoreResultList_pPool (l : ResultList R) : (restoreResultList l).pPool = l.pPool := by
  rw [restoreResultList]
  split <;> rfl

/-- After the last row of a group a row stands for it, and before it there is a next one. -/
theorem groupTurn_headed (h : p.InGroup S True) :
    Headed (Sum.elim (Query.InGroup S True) (Query.InGroup S True)) (groupTurn I ctx p) := by
  have hrow := h.atHead trivial
  obtain ⟨hd,s,hp,hpool,hl⟩ := h
  rw [groupTurn,Query.simple_eq_ok.mpr hp.simple,ok_bind]
  cases hitems : s.grouped.pItem with
  | nil => exact absurd hitems (hl trivial)
  | cons pItem pNext =>
    refine (queryAggregateStep_headed hI hctx hp hrow).bind fun y _ hy => ?_
    obtain ⟨save,q⟩ := y
    obtain ⟨as,rfl,hq⟩ := hy
    simp only [setGrouped_eq hq.simple,ok_bind]
    split
    · refine ⟨hd,_,hq.setGrouped _,?_,fun _ => restoreResultList_ne_nil ?_⟩
      · rw [restoreResultList_pPool]
        split <;> exact hpool
      · split
        · left
          simp only [saveResultList,hitems,List.head?_cons,Option.isSome_some]
        · right
          exact hl trivial
    · rename_i hend
      have hne : pNext ≠ [] := by
        rintro rfl
        exact hend rfl
      refine ⟨hd,_,hq.setGrouped _,?_,fun _ => ?_⟩
      · split <;> exact hpool
      · split
        · simpa only [saveResultList,hitems,List.tail_cons] using hne
        · rename_i hsave
          simpa only [if_neg hsave,popResultList,hitems,List.tail_cons] using hne

theorem groupAdvance_headed (hp : p.Select S s) (hg : p.AtGroup s) :
    Headed (fun q => ∃ t, q.Select S t ∧ t.grouped.pPool = true) (groupAdvance I n ctx p) := by
  rw [groupAdvance,Query.simple_eq_ok.mpr hp.simple,ok_bind]
  split
  · rename_i hpool
    rw [setGrouped_eq hp.simple]
    exact ⟨_,hp.setGrouped _,hpool⟩
  · rename_i hpool
    exact groupFill_headed n hI hctx hp (hg.eDocFrom.resolve_right fun h => hpool (hg.grouped h).2.1)

theorem groupNext_headed (hp : p.Select S s) (hg : p.AtGroup s) :
    Headed (fun r => r.2.InGroup S (r.1 = .row)) (groupNext I n ctx p) := by
  refine (groupAdvance_headed n hI hctx hp hg).bind fun q _ h => ?_
  obtain ⟨t,ht,hpool⟩ := h
  have ht' := ht.setDocFrom .grouped
  simp only [Query.simple_eq_ok.mpr ht'.simple,ok_bind]
  split
  · exact ⟨rfl,t,ht',hpool,(fun h => by cases h)⟩
  · rename_i hne
    have hin : Query.InGroup S True { q with eDocFrom := .grouped } :=
      ⟨rfl,t,ht',hpool,fun _ h => hne (by rw [h]; rfl)⟩
    refine (Avoids.loop (fun _ h => groupTurn_headed hI hctx h) n hin).bind fun q' _ h => ?_
    obtain ⟨hd,t',ht,hpool,hl⟩ := h
    obtain ⟨l,hfin,hsel⟩ := queryAggregateFinalize_select ht
    simp only [hfin,ok_bind]
    exact ⟨hd,_,hsel,hpool,fun _ => hl trivial⟩

theorem havingTurn_headed (hp : p.Select S s) (hg : p.AtGroup s) :
    Headed (Sum.elim (fun r => r.2.InGroup S (r.1 = .row)) (Query.InGroup S True)) (havingTurn I n ctx p) := by
  refine (groupNext_headed n hI hctx hp hg).bind fun x _ h => ?_
  obtain ⟨rc,q⟩ := x
  have hin := h
  obtain ⟨hd,t,ht,hpool,hl⟩ := h
  simp only [Query.simple_eq_ok.mpr ht.simple,ok_bind]
  split
  · rename_i pHaving hh _
    have hf := (ht.fit.simple ht.simple).pHaving
    rw [hh] at hf
    have hsc := scope_heads hI hctx ht.fit (hin.atHead rfl)
    refine (exprTrue_headed hI.exprEval hsc ⟨hf.1,hf.2⟩).bind fun y hy _ => ?_
    obtain ⟨b,e⟩ := y
    have he := exprTrue_neutral hI.neutral _ hf.1 hy
    have hset : q.setSimple { t with pHaving := some e } = q := by
      rw [he,← hh,SimpleQuery.eta,Query.setSimple,← ht.simple,Query.eta]
    simp only [hset]
    cases b
    · exact ⟨hd,t,ht,hpool,fun _ => hl rfl⟩
    · exact hin
  · exact hin

omit hI hctx [CDouble R] in
theorem Query.InGroup.atGroup {q : Query R} {P : Prop} (h : q.InGroup S P) (hs : p.u = .simple s)
    (hr : xjd1QueryRewind q = xjd1QueryRewind p) (ha : s.pAgg.isSome = true) (hb : s.pGroupBy = none → P) :
    ∃ t, q.Select S t ∧ q.AtGroup t := by
  obtain ⟨hd,t,ht,hpool,hl⟩ := h
  obtain ⟨_,hb',ha'⟩ := static_of_rewind hs ht.simple hr
  exact ⟨t,ht,.inr hd,fun _ => ⟨ha'.trans ha,hpool,fun hn => hl (hb (hb'.symm.trans hn))⟩⟩

theorem grouped_headed (hp : p.Select S s) (hg : p.AtGroup s) : Headed (GroupStep S) (selectStepGrouped I n ctx p) := by
  rw [selectStepGrouped,Query.simple_eq_ok.mpr hp.simple,ok_bind]
  split
  · rename_i ha
    have hd : p.eDocFrom = .datasrc := hg.eDocFrom.resolve_right fun h => by
      have ha' := (hg.grouped h).1
      rw [ha] at ha'
      cases ha'
    refine (whered_headed n hI hctx ⟨hd,s,hp,rfl⟩).mono fun r _ h => ?_
    obtain ⟨hd,t,ht,_⟩ := h
    refine ⟨⟨t,ht,.inl hd,fun h => ?_⟩,fun _ => .of_datasrc hd⟩
    rw [hd] at h
    cases h
  · rename_i as ha hb
    refine (plainAggStep_headed n hI hctx hp hg).mono fun r hr h => ?_
    rcases h with rfl | h
    · exact ⟨⟨s,hp,hg⟩,(fun h => by cases h)⟩
    · have hn := plainAggStep_neutral hI.neutral ctx n hp.fit.clean hr
      exact ⟨h.atGroup hp.simple hn (by rw [ha]; rfl) fun _ => trivial,fun _ => h.atHead trivial⟩
  · rename_i as es ha hb
    have ha' : s.pAgg.isSome = true := by rw [ha]; rfl
    have hb' : ∀ P : Prop, s.pGroupBy = none → P := fun P h => by
      rw [hb] at h
      cases h
    have hloop := Avoids.loop (e := Stop.emptyList) (f := havingTurn I n ctx)
      (P := fun q => xjd1QueryRewind q = xjd1QueryRewind p ∧ ∃ t, q.Select S t ∧ q.AtGroup t)
      (Q := fun r => xjd1QueryRewind r.2 = xjd1QueryRewind p ∧ r.2.InGroup S (r.1 = .row))
      (fun q hq => ?_) n ⟨rfl,s,hp,hg⟩
    · exact hloop.mono fun r _ h => ⟨h.2.atGroup hp.simple h.1 ha' (hb' _),fun hr => h.2.atHead hr⟩
    · obtain ⟨hqr,t,ht,hgt⟩ := hq
      refine (havingTurn_headed n hI hctx ht hgt).mono fun r hr h => ?_
      have hn := havingTurn_neutral hI.neutral ctx n ht.fit.clean hr
      cases r with
      | inl r => exact ⟨(hn.1 r rfl).trans hqr,h⟩
      | inr q' =>
        have hq' := (hn.2 q' rfl).trans hqr
        exact ⟨hq',h.atGroup hp.simple hq' ha' (hb' _)⟩

omit [CDouble R] hI hctx in
theorem setDistincted_eq (hp : p.u = .simple s) (l : ResultList R) :
    setDistincted p l = .ok (p.setSimple { s with distincted := l }) := by
  rw [setDistincted,Query.simple_eq_ok.mpr hp,ok_bind]

omit [CDouble R] hI hctx in
theorem Query.Select.setDistincted (hp : p.Select S s) (l : ResultList R) :
    (p.setSimple { s with distincted := l }).Select S { s with distincted := l } :=
  ⟨hp.fit.of_rewind (rewind_setSimple hp.simple (by rw [simpleRewind_eq,simpleRewind_eq s])),rfl,hp.pFrom⟩

omit hctx in
theorem grouped_keeps {q : Query R} {t : SimpleQuery R} {rc : Rc} (hs : p.u = .simple s) (hg : p.AtGroup s)
    (h : selectStepGrouped I n ctx p = .ok (rc,q)) (ht : q.u = .simple t) : t.distincted = s.distincted := by
  have hf : (distinctOverlay p s.distincted).Free p := by
    rw [distinctOverlay_free]
    rcases hg.eDocFrom with h | h <;> rw [h] <;> exact ⟨by decide,by decide⟩
  have hr := grouped_under hI.inert n ctx (o := distinctOverlay p s.distincted) rfl ⟨rfl,hf⟩
  rw [overlay_distincted hs] at hr
  have hu : q.u = q.u.overlay (distinctOverlay p s.distincted) := congrArg Query.u (Overlay.keeps hr h).1
  rw [ht] at hu
  have hl := congrArg SimpleQuery.distincted (QueryU.simple.inj hu)
  exact hl

theorem distinctFillTurn_headed (h : ∃ s, p.Select S s ∧ p.AtGroup s ∧ s.distincted.pPool = true) :
    Headed (Sum.elim (fun q => ∃ t, q.Select S t ∧ t.distincted.pPool = true)
      fun q => ∃ s, q.Select S s ∧ q.AtGroup s ∧ s.distincted.pPool = true) (distinctFillTurn I n ctx p) := by
  obtain ⟨s,hp,hg,hpool⟩ := h
  refine (grouped_headed n hI hctx hp hg).bind fun x hx h => ?_
  obtain ⟨rc,q⟩ := x
  obtain ⟨⟨t,ht,hgt⟩,hrow⟩ := h
  have hk := grouped_keeps n hI hp.simple hg hx ht.simple
  cases rc with
  | done => exact ⟨t,ht,by rw [hk]; exact hpool⟩
  | row =>
    refine (hI.queryDoc S ctx q 0 hctx ht.fit (hrow rfl)).bind fun y hy _ => ?_
    obtain ⟨v,q'⟩ := y
    obtain rfl := hI.neutral.queryDoc ctx q 0 v q' ht.fit.clean hy
    simp only [Query.simple_eq_ok.mpr ht.simple,ok_bind,setDistincted_eq ht.simple]
    have hgt' : (q'.setSimple { t with distincted := addToResultList t.distincted (v::xjd1DataSrcCacheSave t.pFrom) }).AtGroup
        { t with distincted := addToResultList t.distincted (v::xjd1DataSrcCacheSave t.pFrom) } :=
      ⟨hgt.eDocFrom,hgt.grouped⟩
    refine ⟨_,ht.setDistincted _,hgt',?_⟩
    rw [← hpool,← hk]
    rfl

/-- If the query is a DISTINCT whose list is still to be filled, there is a row to fill it with. -/
def Query.Rowed (I : Interp R) (n : ℕ) (ctx : Ctx R) (p : Query R) : Prop :=
  ∀ s, p.u = .simple s → s.isDistinct = true → s.distincted.pPool = false →
    ∀ q t, distinctFill I n ctx p = .ok q → q.u = .simple t → t.distincted.pItem ≠ []

def DistinctStep (S : ℕ → Bool) (p : Query R) : Prop :=
  (∃ s, p.Select S s ∧ p.Flagged ∧ (s.isDistinct = true → s.distincted.pPool = true)) ∧ p.eDocFrom ≠ .ordered

theorem distinctFill_headed (hp : p.Select S s) (hg : p.AtGroup s) :
    Headed (fun q => q.eDocFrom = .distincted ∧ ∃ t, q.Select S t ∧ t.distincted.pPool = true) (distinctFill I n ctx p) := by
  simp only [distinctFill,Query.simple_eq_ok.mpr hp.simple,setDistincted_eq hp.simple,ok_bind]
  have hloop := Avoids.loop (fun _ h => distinctFillTurn_headed n hI hctx h) n
    (s := p.setSimple { s with distincted := .new (1 + xjd1DataSrcCount s.pFrom) })
    ⟨_,hp.setDistincted _,⟨hg.eDocFrom,hg.grouped⟩,rfl⟩
  refine hloop.bind fun q _ h => ?_
  obtain ⟨t,ht,hpool⟩ := h
  simp only [Query.simple_eq_ok.mpr ht.simple,ok_bind]
  refine (sortResultList_headed t.distincted none true).bind fun l _ hl => ?_
  simp only [setDistincted_eq ht.simple,ok_bind]
  exact ⟨rfl,_,(ht.setDistincted l).setDocFrom _,hl.1.trans hpool⟩

omit [CDouble R] hI hctx in
theorem Query.Select.flagged_distincted (hp : p.Select S s) (hd : p.eDocFrom = .distincted) (hs : s.isDistinct = true)
    (hpool : s.distincted.pPool = true) : p.Flagged := by
  have he : ∀ t, p.u = .simple t → t = s := fun t ht => QueryU.simple.inj (ht.symm.trans hp.simple)
  refine ⟨fun h => ?_,fun t ht _ => ?_,fun _ _ _ _ _ => hd,fun _ _ h => ?_⟩
  · cases hd.symm.trans h
  · rw [he t ht]
    exact ⟨hs,hpool⟩
  · cases hd.symm.trans h

omit [CDouble R] hI hctx in
theorem Query.Flagged.atGroup (hf : p.Flagged) (hs : p.u = .simple s) (ho : p.eDocFrom ≠ .ordered)
    (hd : p.eDocFrom ≠ .distincted) : p.AtGroup s := by
  refine ⟨?_,hf.grouped s hs⟩
  cases h : p.eDocFrom with
  | ordered => exact absurd h ho
  | distincted => exact absurd h hd
  | datasrc => exact .inl rfl
  | grouped => exact .inr rfl

theorem distinct_headed (hp : p.Select S s) (hf : p.Flagged) (ho : p.eDocFrom ≠ .ordered) :
    Headed (fun r => DistinctStep S r.2 ∧ (p.Rowed I n ctx → r.1 = .row → r.2.AtHead)) (selectStepDistinct I n ctx p) := by
  rw [selectStepDistinct,Query.simple_eq_ok.mpr hp.simple,ok_bind]
  split
  · rename_i hd
    split
    · rename_i hpool
      have hdoc := hf.pPool s hp.simple ho hd hpool
      have hq := hp.setDistincted (popResultList s.distincted)
      simp only [setDistincted_eq hp.simple,ok_bind]
      refine ⟨⟨⟨_,hq,hq.flagged_distincted hdoc hd hpool,fun _ => hpool⟩,ho⟩,fun _ h => ?_⟩
      have hne : (popResultList s.distincted).pItem ≠ [] := fun hnil => by
        simp [hnil] at h
      rw [Query.AtHead,Query.setSimple_eDocFrom,hdoc]
      exact hne
    · rename_i hpool
      have hpool' : s.distincted.pPool = false := by simpa using hpool
      have hdoc : p.eDocFrom ≠ .distincted := fun h => hpool (hf.distincted s hp.simple h).2
      refine (distinctFill_headed n hI hctx hp (hf.atGroup hp.simple ho hdoc)).bind fun q hq h => ?_
      obtain ⟨hdq,t,ht,hpt⟩ := h
      have hn := distinctFill_neutral hI.neutral ctx n hp.fit.clean hq
      have hdt := (static_of_rewind hp.simple ht.simple hn).1.trans hd
      refine ⟨⟨⟨t,ht,ht.flagged_distincted hdq hdt hpt,fun _ => hpt⟩,fun h => ?_⟩,fun hr _ => ?_⟩
      · cases hdq.symm.trans h
      · rw [Query.AtHead,hdq,ht.simple]
        exact hr s hp.simple hd hpool' q t hq ht.simple
  · rename_i hd
    have hdoc : p.eDocFrom ≠ .distincted := fun h => hd (hf.distincted s hp.simple h).1
    refine (grouped_headed n hI hctx hp (hf.atGroup hp.simple ho hdoc)).mono fun r hr h => ?_
    obtain ⟨⟨t,ht,hgt⟩,hrow⟩ := h
    have hn := grouped_neutral hI.neutral ctx n hp.fit.clean hr
    have hdt : t.isDistinct ≠ true := fun h => hd ((static_of_rewind hp.simple ht.simple hn).1.symm.trans h)
    have he : ∀ u, r.2.u = .simple u → u = t := fun u hu => QueryU.simple.inj (hu.symm.trans ht.simple)
    refine ⟨⟨⟨t,ht,⟨fun h => ?_,fun _ _ h => ?_,fun u hu _ h => ?_,fun u hu => ?_⟩,fun h => absurd h hdt⟩,fun h => ?_⟩,
      fun _ => hrow⟩
    · rcases hgt.eDocFrom with h' | h' <;> cases h'.symm.trans h
    · rcases hgt.eDocFrom with h' | h' <;> cases h'.symm.trans h
    · rw [he u hu] at h
      exact absurd h hdt
    · rw [he u hu]
      exact hgt.grouped
    · rcases hgt.eDocFrom with h' | h' <;> cases h'.symm.trans h

structure Query.Operand (S : ℕ → Bool) (p : Query R) : Prop where
  fit : p.Fit S
  settled : p.Settled
  eDocFrom : p.eDocFrom ≠ .ordered

def CompoundQuery.Operands (S : ℕ → Bool) (c : CompoundQuery R) : Prop := c.pLeft.Operand S ∧ c.pRight.Operand S

omit [CDouble R] in
theorem operandStep_headed (hp : p.Operand S) : Headed (fun r => r.2.2.Operand S) (operandStep I ctx p) := by
  refine (hI.stepCompounded S ctx p hctx hp.fit hp.settled hp.eDocFrom).bind fun x hx h => ?_
  obtain ⟨rc,q⟩ := x
  have hq : q.Fit S := hp.fit.of_rewind (hI.neutral.stepCompounded ctx p rc q hp.fit.clean hx)
  cases rc with
  | done => exact ⟨hq,h.1.1,h.1.2⟩
  | row =>
    refine (hI.queryDoc S ctx q 0 hctx hq (h.2 rfl)).bind fun y hy _ => ?_
    obtain ⟨v,q'⟩ := y
    obtain rfl := hI.neutral.queryDoc ctx q 0 v q' hq.clean hy
    exact ⟨hq,h.1.1,h.1.2⟩

theorem cacheQuery_headed (hp : p.Operand S) : Headed (fun r => r.2.Operand S) (cacheQuery I n ctx p) := by
  have hloop := Avoids.loop (e := Stop.emptyList) (f := cacheTurn I ctx) (P := fun st => st.2.Operand S)
    (Q := fun r => r.2.Operand S) (fun st hst => ?_) n (s := (.new 1,p)) hp
  · exact hloop.bind fun x _ h => (sortResultList_headed x.1 none true).bind fun _ _ _ => h
  · refine (operandStep_headed hI hctx hst).bind fun y _ hy => ?_
    obtain ⟨rc,v,q⟩ := y
    cases rc <;> exact hy

section Compound
variable {c : CompoundQuery R} (hc : c.Operands S)
include hc

omit [CDouble R] in
theorem allRightStep_headed : Headed (fun r => r.2.Operands S) (allRightStep I ctx c) :=
  (operandStep_headed hI hctx hc.2).bind fun _ _ h => ⟨hc.1,h⟩

omit [CDouble R] in
theorem allStep_headed : Headed (fun r => r.2.Operands S) (allStep I ctx c) := by
  unfold allStep
  split
  · exact allRightStep_headed hI hctx hc
  · refine (operandStep_headed hI hctx hc.1).bind fun x _ h => ?_
    obtain ⟨rc,v,q⟩ := x
    cases rc with
    | row => exact ⟨h,hc.2⟩
    | done => exact allRightStep_headed hI hctx (c := { c with pLeft := q }) ⟨h,hc.2⟩

theorem setOpFill_headed : Headed (CompoundQuery.Operands S) (setOpFill I n ctx c) := by
  unfold setOpFill
  split
  · exact hc
  · exact (cacheQuery_headed n hI hctx hc.1).bind fun _ _ hl =>
      (cacheQuery_headed n hI hctx hc.2).bind fun _ _ hr => ⟨hl,hr⟩

theorem compoundStep_headed : Headed (fun r => r.2.Operands S) (compoundStep I n ctx c) := by
  unfold compoundStep
  split
  · exact allStep_headed hI hctx hc
  · exact (setOpFill_headed n hI hctx hc).bind fun _ _ h => h

end Compound

omit [CDouble R] hI hctx in
theorem Query.AtHead.of_compound {c : CompoundQuery R} (hc : p.u = .compound c) (hd : p.eDocFrom ≠ .ordered) : p.AtHead := by
  rw [Query.AtHead,hc]
  cases h : p.eDocFrom with
  | ordered => exact absurd h hd
  | _ => trivial

omit [CDouble R] hI hctx in
theorem Query.Settled.flagged (h : p.Settled) : p.Flagged := ((querySettled_iff p).mp h).1

omit [CDouble R] hI hctx in
theorem Query.Fit.select (hp : p.Fit S) (h : p.Settled) (hs : p.u = .simple s) : p.Select S s := by
  have hu := ((querySettled_iff p).mp h).2
  rw [hs,QueryU.Settled,simpleSettled_iff] at hu
  exact ⟨hp,hs,hu⟩

omit [CDouble R] hI hctx in
theorem Query.Select.settled (hp : p.Select S s) (hf : p.Flagged) : p.Settled := by
  rw [querySettled_iff,hp.simple,QueryU.Settled,simpleSettled_iff]
  exact ⟨hf,hp.pFrom⟩

structure Query.Unsorted (I : Interp R) (n : ℕ) (ctx : Ctx R) (S : ℕ → Bool) (p : Query R) : Prop where
  operand : p.Operand S
  rowed : p.Rowed I n ctx

theorem stepCompounded_headed (hp : p.Operand S) :
    Headed (fun r => r.2.Unsorted I n ctx S ∧ (p.Rowed I n ctx → r.1 = .row → r.2.AtHead)) (stepCompounded I n ctx p) := by
  have hcore : Headed (fun r => (r.2.Settled ∧ r.2.eDocFrom ≠ .ordered ∧ r.2.Rowed I n ctx) ∧
      (p.Rowed I n ctx → r.1 = .row → r.2.AtHead)) (stepCompounded I n ctx p) := by
    rw [stepCompounded]
    cases hu : p.u with
    | simple s =>
      have hs := hp.fit.select hp.settled hu
      refine (distinct_headed n hI hctx hs hp.settled.flagged hp.eDocFrom).mono fun r _ h => ?_
      obtain ⟨⟨⟨t,ht,hf,hpool⟩,ho⟩,hrow⟩ := h
      refine ⟨⟨ht.settled hf,ho,fun u hu hd hn => ?_⟩,hrow⟩
      obtain rfl := QueryU.simple.inj (hu.symm.trans ht.simple)
      rw [hpool hd] at hn
      cases hn
    | compound c =>
      have hs := ((querySettled_iff p).mp hp.settled).2
      rw [hu,QueryU.Settled,compoundSettled_iff] at hs
      obtain ⟨hl,hr⟩ := hp.fit.compound hu
      refine (compoundStep_headed n hI hctx ⟨⟨hl,hs.1.1,hs.1.2⟩,⟨hr,hs.2.1,hs.2.2⟩⟩).bind fun x _ h => ?_
      obtain ⟨rc,d⟩ := x
      have hnot : ∀ t, (.compound d : QueryU R) ≠ .simple t := fun t h => by cases h
      refine ⟨⟨?_,hp.eDocFrom,fun t ht => absurd ht (hnot t)⟩,fun _ _ => .of_compound (c := d) rfl hp.eDocFrom⟩
      rw [querySettled_iff,QueryU.Settled,compoundSettled_iff]
      exact ⟨⟨fun h => absurd h hp.eDocFrom,fun t ht => absurd ht (hnot t),fun t ht => absurd ht (hnot t),
        fun t ht => absurd ht (hnot t)⟩,⟨h.1.settled,h.1.eDocFrom⟩,h.2.settled,h.2.eDocFrom⟩
  refine hcore.mono fun r hr h => ?_
  have hn := stepCompounded_neutral hI.neutral ctx n hp.fit.clean hr
  exact ⟨⟨⟨hp.fit.of_rewind hn,h.1.1,h.1.2.1⟩,h.1.2.2⟩,h.2⟩

omit hctx in
theorem stepCompounded_keeps {q : Query R} {rc : Rc} (hd : p.eDocFrom ≠ .ordered)
    (h : stepCompounded I n ctx p = .ok (rc,q)) : q.ordered = p.ordered := by
  have hr := stepCompounded_under hI.inert n ctx (o := orderOverlay p p.ordered p.nLimit) rfl rfl
    ⟨rfl,(orderOverlay_free p p p.ordered p.nLimit).mpr hd⟩
  rw [overlay_ordered] at hr
  have hq := congrArg Query.ordered (Overlay.keeps hr h).1
  exact hq

omit [CDouble R] hI hctx in
theorem Query.Operand.overlay (hp : p.Operand S) (l : ResultList R) (m : Option Int) :
    Query.Operand S { p with ordered := l, nLimit := m } where
  fit := hp.fit.of_rewind (by rw [queryRewind_eq,queryRewind_eq p])
  settled := by
    have hs := (querySettled_iff p).mp hp.settled
    exact (querySettled_iff _).mpr ⟨⟨fun h => absurd h hp.eDocFrom,hs.1.distincted,hs.1.pPool,hs.1.grouped⟩,hs.2⟩
  eDocFrom := hp.eDocFrom

omit hctx in
theorem Query.Rowed.overlay (hp : p.Rowed I n ctx) (hd : p.eDocFrom ≠ .ordered) (l : ResultList R) (m : Option Int) :
    Query.Rowed I n ctx { p with ordered := l, nLimit := m } := by
  intro s hs hdist hpool q t hq ht
  have hover : p.overlay (orderOverlay p l m) = { p with ordered := l, nLimit := m } := by
    rw [Query.overlay,hs]
    exact congrArg (fun s => ({ p with u := .simple s, ordered := l, nLimit := m } : Query R)) (SimpleQuery.eta s)
  have hr := distinctFill_under hI.inert n ctx (o := orderOverlay p l m) rfl rfl ⟨hover.symm,(orderOverlay_free p p l m).mpr hd⟩
  rw [hq] at hr
  generalize hx : distinctFill I n ctx p = x at hr
  cases hr with
  | @ok q0 _ h =>
    obtain ⟨u,_,_,_,_,_,_,_⟩ := q0
    obtain ⟨rfl,_⟩ := h
    cases u with
    | compound c => cases ht
    | simple t0 =>
      cases ht
      exact hp s hs hdist hpool _ t0 hx rfl

omit hctx in
/-- What is unsorted stays so with another list of sorted rows and another limit. -/
theorem Query.Unsorted.overlay (hp : p.Unsorted I n ctx S) (l : ResultList R) (m : Option Int) :
    Query.Unsorted I n ctx S { p with ordered := l, nLimit := m } :=
  ⟨hp.operand.overlay l m,hp.rowed.overlay n hI hp.operand.eDocFrom l m⟩

structure Query.Sorting (I : Interp R) (n : ℕ) (ctx : Ctx R) (S : ℕ → Bool) (p : Query R) : Prop where
  unsorted : p.Unsorted I n ctx S
  pOrderBy : p.pOrderBy.isSome = true
  pPool : p.ordered.pPool = true

theorem orderFillTurn_headed (hp : p.Sorting I n ctx S) :
    Headed (Sum.elim (Query.Sorting I n ctx S) (Query.Sorting I n ctx S)) (orderFillTurn I n ctx p) := by
  have hop := hp.unsorted.operand
  refine (stepCompounded_headed n hI hctx hop).bind fun x hx h => ?_
  obtain ⟨rc,q⟩ := x
  obtain ⟨hq,hrow⟩ := h
  replace hrow := hrow hp.unsorted.rowed
  have hob := pOrderBy_of_rewind (stepCompounded_neutral hI.neutral ctx n hop.fit.clean hx)
  have hord := stepCompounded_keeps n hI hop.eDocFrom hx
  have hq' : q.Sorting I n ctx S := ⟨hq,by rw [hob]; exact hp.pOrderBy,by rw [hord]; exact hp.pPool⟩
  cases rc with
  | done => exact hq'
  | row =>
    have hi := hq.operand.fit.clean.pOrderBy
    have hs := itemsScoped_getD ((queryScoped_iff q S).mp hq.operand.fit.inScope).2.1
    refine (evalItems_headed hI.exprEval (scope_heads hI hctx hq.operand.fit (hrow rfl)) hi hs).bind fun y hy _ => ?_
    obtain ⟨keys,es⟩ := y
    have hes := evalItems_neutral hI.neutral _ hi hy
    have hset : ({ q with pOrderBy := q.pOrderBy.map fun _ => es } : Query R) = q := by
      have hmap : (q.pOrderBy.map fun _ => es) = q.pOrderBy := by
        rw [hes]
        cases q.pOrderBy <;> rfl
      rw [hmap,Query.eta]
    simp only [hset]
    refine (hI.queryDoc S ctx q 0 hctx hq.operand.fit (hrow rfl)).bind fun z hz _ => ?_
    obtain ⟨v,q'⟩ := z
    obtain rfl := hI.neutral.queryDoc ctx q 0 v q' hq.operand.fit.clean hz
    exact ⟨hq.overlay n hI _ _,hq'.pOrderBy,hq'.pPool⟩

structure Query.Ready (I : Interp R) (n : ℕ) (ctx : Ctx R) (S : ℕ → Bool) (p : Query R) : Prop where
  fit : p.Fit S
  settled : p.Settled
  rowed : p.eDocFrom ≠ .ordered → p.Rowed I n ctx

omit [CDouble R] hI hctx in
theorem Query.Settled.sorted (h : p.Settled) (hob : p.pOrderBy.isSome = true) {l : ResultList R} (hl : l.pPool = true) :
    Query.Settled { p with ordered := l, eDocFrom := .ordered } :=
  (querySettled_iff _).mpr ⟨⟨fun _ => ⟨hob,hl⟩,(fun _ _ h => by cases h),fun _ _ h => absurd rfl h,(fun _ _ h => by cases h)⟩,
    ((querySettled_iff p).mp h).2⟩

theorem orderAdvance_headed (hp : p.Ready I n ctx S) (hob : p.pOrderBy.isSome = true) :
    Headed (fun q => q.Ready I n ctx S ∧ q.eDocFrom = .ordered) (orderAdvance I n ctx p) := by
  have hready : ∀ q : Query R, q.Fit S → q.Settled → ∀ l : ResultList R, q.pOrderBy.isSome = true → l.pPool = true →
      Query.Ready I n ctx S { q with ordered := l, eDocFrom := .ordered } := fun q hf hs l hb hl =>
    ⟨hf.of_rewind (by rw [queryRewind_eq,queryRewind_eq q]),hs.sorted hb hl,fun h => absurd rfl h⟩
  rw [orderAdvance]
  split
  · rename_i hpool
    split
    · rename_i hd
      have h := hready p hp.fit hp.settled (popResultList p.ordered) hob hpool
      rw [← hd] at h
      exact ⟨h,hd⟩
    · exact .stop (by decide)
  · rename_i hpool
    have hd : p.eDocFrom ≠ .ordered := fun h => hpool (hp.settled.flagged.ordered h).2
    have hun : p.Unsorted I n ctx S := ⟨⟨hp.fit,hp.settled,hd⟩,hp.rowed hd⟩
    have hloop := Avoids.loop (fun _ h => orderFillTurn_headed n hI hctx h) n
      (s := { p with ordered := .new ((p.pOrderBy.getD []).length + 1) }) ⟨hun.overlay n hI _ _,hob,rfl⟩
    refine hloop.bind fun q _ hq => ?_
    refine (sortResultList_headed q.ordered q.pOrderBy false).bind fun l _ hl => ?_
    exact ⟨hready q hq.unsorted.operand.fit hq.unsorted.operand.settled l hq.pOrderBy (hl.1.trans hq.pPool),rfl⟩

omit [CDouble R] hI hctx in
theorem Query.Settled.unordered (h : p.Settled) (hob : p.pOrderBy.isNone = true) : p.eDocFrom ≠ .ordered := by
  intro hd
  have hs := (h.flagged.ordered hd).1
  rw [Option.isNone_iff_eq_none.mp hob] at hs
  cases hs

theorem selectStepOrdered_unsorted (hf : p.Fit S) (hs : p.Settled) (hob : p.pOrderBy.isNone = true) :
    Headed (fun r => r.2.Ready I n ctx S ∧ (p.Rowed I n ctx → r.1 = .row → r.2.AtHead)) (selectStepOrdered I n ctx p) := by
  rw [selectStepOrdered,if_pos hob]
  refine (stepCompounded_headed n hI hctx ⟨hf,hs,hs.unordered hob⟩).mono fun r _ h => ?_
  exact ⟨⟨h.1.operand.fit,h.1.operand.settled,fun _ => h.1.rowed⟩,h.2⟩

theorem selectStepOrdered_headed (hp : p.Ready I n ctx S) :
    Headed (fun r => r.2.Ready I n ctx S ∧ (r.1 = .row → r.2.AtHead)) (selectStepOrdered I n ctx p) := by
  by_cases hob : p.pOrderBy.isNone = true
  · refine (selectStepOrdered_unsorted n hI hctx hp.fit hp.settled hob).mono fun r _ h => ?_
    exact ⟨h.1,h.2 (hp.rowed (hp.settled.unordered hob))⟩
  · rw [selectStepOrdered,if_neg hob]
    have hsome : p.pOrderBy.isSome = true := by
      rw [Option.isNone_iff_eq_none] at hob
      exact Option.isSome_iff_ne_none.mpr hob
    refine (orderAdvance_headed n hI hctx hp hsome).bind fun q _ hq => ⟨hq.1,fun h => ?_⟩
    have hne : q.ordered.pItem ≠ [] := fun hnil => by
      simp [hnil] at h
    rw [Query.AtHead,hq.2]
    exact hne

omit [CDouble R] hI hctx in
theorem Query.Settled.withLimit (h : p.Settled) (m : Option Int) : (p.withLimit m).Settled := by
  have hs := (querySettled_iff p).mp h
  exact (querySettled_iff _).mpr ⟨⟨hs.1.ordered,hs.1.distincted,hs.1.pPool,hs.1.grouped⟩,hs.2⟩

omit [CDouble R] hI hctx in
theorem Query.Fit.withLimit (h : p.Fit S) (m : Option Int) : (p.withLimit m).Fit S :=
  h.of_rewind (by rw [queryRewind_eq,queryRewind_eq p]; rfl)

omit hctx in
theorem Query.Ready.withLimit (hp : p.Ready I n ctx S) (m : Option Int) : (p.withLimit m).Ready I n ctx S where
  fit := hp.fit.withLimit m
  settled := hp.settled.withLimit m
  rowed := fun h => (hp.rowed h).overlay n hI h p.ordered m

theorem offsetLoop_headed (k : ℕ) (hp : p.Ready I n ctx S) :
    Headed (fun r => r.2.Ready I n ctx S) (offsetLoop I n ctx k p) := by
  induction k generalizing p with
  | zero => exact hp
  | succ k ih =>
    refine (selectStepOrdered_headed n hI hctx hp).bind fun x _ h => ?_
    obtain ⟨rc,q⟩ := x
    cases rc with
    | done => exact h.1
    | row => exact ih h.1

omit [CDouble R] hI hctx in
theorem scope_outside (hctx : ctx.Heads S) (p : Query R) : (p.scope I ctx).Heads (inside false S) :=
  hctx.push fun h => by cases h

/-- How many rows OFFSET drops. -/
def Query.nOffset (I : Interp R) (ctx : Ctx R) (p : Query R) : Exec ℕ :=
  match p.pOffset with
  | none => .ok 0
  | some pOffset => do
    let (v,_) ← I.xjd1ExprEval (p.scope I ctx) pOffset
    let k ← limitValue v
    .ok (k.getD 0).toNat

omit hctx in
theorem applyOffset_eq_loop (hp : p.Fit S) :
    applyOffset I n ctx p = p.nOffset I ctx >>= fun k => offsetLoop I n ctx k p := by
  have hi := (queryInitial_iff _).mp hp.clean
  rw [queryRewind_eq] at hi
  rw [applyOffset,Query.nOffset]
  cases ho : p.pOffset with
  | none => rfl
  | some pOffset =>
    simp only [ho] at hi ⊢
    cases hx : I.xjd1ExprEval (p.scope I ctx) pOffset with
    | ok x =>
      obtain ⟨v,e⟩ := x
      have he := hI.neutral.exprEval _ pOffset v e hi.2.2.2.1 hx
      have hset : ({ p with pOffset := some e } : Query R) = p := by rw [he,← ho,Query.eta]
      simp only [ok_bind,hset,bind_assoc]
    | stop s => rfl
    | more => rfl

theorem nOffset_headed (hp : p.Fit S) : Headed (fun _ => True) (p.nOffset I ctx) := by
  have hi := (queryInitial_iff _).mp hp.clean
  rw [queryRewind_eq] at hi
  have hs := ((queryScoped_iff p S).mp hp.inScope).2.2.2
  rw [Query.nOffset]
  split
  · trivial
  · rename_i pOffset ho
    simp only [ho] at hi hs
    refine (hI.exprEval _ _ pOffset (scope_outside hctx p) ⟨hi.2.2.2.1,hs⟩).bind fun x _ _ => ?_
    exact (limitValue_headed x.1).bind fun _ _ _ => trivial

theorem setLimit_headed (hp : p.Fit S) : Headed (fun q => ∃ m, q = p.withLimit (some m)) (setLimit I ctx p) := by
  have hi := (queryInitial_iff _).mp hp.clean
  rw [queryRewind_eq] at hi
  have hs := ((queryScoped_iff p S).mp hp.inScope).2.2.1
  rw [setLimit]
  split
  · exact ⟨_,rfl⟩
  · rename_i pLimit hl
    simp only [hl] at hi hs
    refine (hI.exprEval _ _ pLimit (scope_outside hctx p) ⟨hi.2.2.1,hs⟩).bind fun x hx _ => ?_
    obtain ⟨v,e⟩ := x
    have he := hI.neutral.exprEval _ pLimit v e hi.2.2.1 hx
    refine (limitValue_headed v).bind fun k _ _ => ⟨k.getD (-1),?_⟩
    rw [he,← hl]
    rfl

theorem limitStep_headed (k : Int) (hp : p.Ready I n ctx S) :
    Headed (fun r => r.2.Settled ∧ (r.1 = .row → r.2.AtHead)) (limitStep I n ctx k p) := by
  rw [limitStep]
  split
  · exact ⟨hp.settled,(fun h => by cases h)⟩
  · refine (selectStepOrdered_headed n hI hctx hp).bind fun x _ h => ?_
    obtain ⟨rc,q⟩ := x
    show Query.Settled (if 0 < k then _ else q) ∧ (rc = .row → Query.AtHead (if 0 < k then _ else q))
    split
    · exact ⟨h.1.settled.withLimit _,h.2⟩
    · exact ⟨h.1.settled,h.2⟩

/-- If the query is a DISTINCT that fills its list, the list has a row. -/
def Query.rowed (I : Interp R) (n : ℕ) (ctx : Ctx R) (p : Query R) : Exec Bool :=
  match p.u with
  | .simple s =>
    if s.isDistinct && !s.distincted.pPool then do
      let p ← distinctFill I n ctx p
      let s ← p.simple
      .ok !s.distincted.pItem.isEmpty
    else .ok true
  | .compound _ => .ok true

omit hI hctx in
theorem rowed_of_met (h : met (p.rowed I n ctx) = true) : p.Rowed I n ctx := by
  intro s hs hd hpool q t hq ht hnil
  rw [Query.rowed,hs] at h
  simp only at h
  rw [if_pos (by rw [hd,hpool]; rfl),hq,ok_bind,Query.simple_eq_ok.mpr ht,ok_bind,hnil] at h
  cases h

/-- Before a step of a query. If the step takes a DISTINCT to the first row of its list,
the list has one, unless OFFSET drops it unread. -/
def Query.stepRowed (I : Interp R) (n : ℕ) (ctx : Ctx R) (p : Query R) : Exec Bool :=
  match p.nLimit with
  | some nLimit => if nLimit = 0 then .ok true else p.rowed I n ctx
  | none => do
    let k ← p.nOffset I ctx
    if k = 0 then do
      let p ← setLimit I ctx p
      if p.nLimit = some 0 then .ok true else p.rowed I n ctx
    else if p.pOrderBy.isNone then .ok true
    else p.rowed I n ctx

theorem offsetLoop_unsorted (hf : p.Fit S) (hs : p.Settled) (hob : p.pOrderBy.isNone = true) (k : ℕ) :
    Headed (fun x => x.2.Ready I n ctx S) (offsetLoop I n ctx (k+1) p) := by
  refine (selectStepOrdered_unsorted n hI hctx hf hs hob).bind fun x _ h => ?_
  obtain ⟨rc,q⟩ := x
  cases rc with
  | done => exact h.1
  | row => exact offsetLoop_headed n hI hctx k h.1

/-- Behind the rows that OFFSET drops, the query can be stepped to a row unless LIMIT is 0. -/
theorem offset_headed (hf : p.Fit S) (hs : p.Settled) (hr : met (p.stepRowed I n ctx) = true) (hn : p.nLimit = none) {k : ℕ}
    (hk : p.nOffset I ctx = .ok k) : Headed (fun x => x.2.Fit S ∧ x.2.Settled ∧
      ∀ q, setLimit I ctx x.2 = .ok q → q.nLimit ≠ some 0 → q.Ready I n ctx S) (offsetLoop I n ctx k p) := by
  have hready : ∀ q : Query R, q.Ready I n ctx S → q.Fit S ∧ q.Settled ∧
      ∀ q', setLimit I ctx q = .ok q' → q'.nLimit ≠ some 0 → q'.Ready I n ctx S := fun q h => by
    refine ⟨h.fit,h.settled,fun q' hq' _ => ?_⟩
    have hl := setLimit_headed hI hctx h.fit
    rw [hq'] at hl
    obtain ⟨m,rfl⟩ := hl
    exact h.withLimit n hI _
  rw [Query.stepRowed] at hr
  simp only [hn] at hr
  rw [hk,ok_bind] at hr
  cases k with
  | zero =>
    refine ⟨hf,hs,fun q hq hm => ?_⟩
    have hl := setLimit_headed hI hctx hf
    rw [hq] at hl
    obtain ⟨m,rfl⟩ := hl
    rw [if_pos rfl,hq,ok_bind,if_neg hm] at hr
    exact ⟨hf.withLimit _,hs.withLimit _,fun _ => rowed_of_met n hr⟩
  | succ k =>
    rw [if_neg (Nat.succ_ne_zero k)] at hr
    by_cases hob : p.pOrderBy.isNone = true
    · exact (offsetLoop_unsorted n hI hctx hf hs hob k).mono fun x _ h => hready x.2 h
    · rw [if_neg hob] at hr
      exact (offsetLoop_headed n hI hctx (k+1) ⟨hf,hs,fun _ => rowed_of_met n hr⟩).mono fun x _ h => hready x.2 h

theorem queryStep_headed (hf : p.Fit S) (hs : p.Settled) (hr : met (p.stepRowed I n ctx) = true) :
    Headed (fun r => r.2.Settled ∧ (r.1 = .row → r.2.AtHead)) (queryStep I n ctx p) := by
  rw [queryStep]
  cases hn : p.nLimit with
  | some k =>
    rw [Query.stepRowed] at hr
    simp only [hn] at hr ⊢
    by_cases hk : k = 0
    · rw [limitStep,if_pos hk]
      exact ⟨hs,(fun h => by cases h)⟩
    · rw [if_neg hk] at hr
      exact limitStep_headed n hI hctx k ⟨hf,hs,fun _ => rowed_of_met n hr⟩
  | none =>
    simp only
    rw [applyOffset_eq_loop n hI hf,bind_assoc]
    refine (nOffset_headed hI hctx hf).bind fun k hk _ => ?_
    refine (offset_headed n hI hctx hf hs hr hn hk).bind fun x _ h => ?_
    obtain ⟨rc,e⟩ := x
    obtain ⟨hfe,hse,hready⟩ := h
    refine (setLimit_headed hI hctx hfe).bind fun q hq h => ?_
    obtain ⟨m,rfl⟩ := h
    cases rc with
    | done => exact ⟨hse.withLimit _,(fun h => by cases h)⟩
    | row =>
      show Headed _ (limitStep I n ctx m (e.withLimit (some m)))
      by_cases hm : m = 0
      · rw [limitStep,if_pos hm]
        exact ⟨hse.withLimit _,(fun h => by cases h)⟩
      · exact limitStep_headed n hI hctx m (hready _ hq fun h => hm (Option.some.inj h))

omit [CDouble R] hI hctx in
theorem doc_headed {l : ResultList R} (h : l.pItem ≠ []) (i : ℕ) : Headed (fun _ => True) (l.doc i) := by
  rw [ResultList.doc]
  split
  · contradiction
  · exact .ofOption (by decide) _

omit [CDouble R] hctx in
theorem resultDoc_headed {T : ℕ → Bool} (hsc : (p.scope I ctx).Heads T) {e : Expr R} (he : ExprFit T e) :
    Headed (fun _ => True) (resultDoc I ctx p s e) :=
  (hI.exprEval T _ e hsc he).bind fun _ _ _ => trivial

omit [CDouble R] in
theorem simpleDoc_headed (hp : p.Fit S) (hs : p.u = .simple s) (hr : p.AtHead) (k : ℕ) :
    Headed (fun _ => True) (simpleDoc I ctx p s k) := by
  have hres : ∀ e, s.pRes = some e → Headed (fun _ => True) (resultDoc I ctx p s e) := fun e he => by
    have hf := (hp.simple hs).pRes
    rw [he] at hf
    exact resultDoc_headed hI (scope_heads hI hctx hp hr) ⟨hf.1,hf.2⟩
  rw [Query.AtHead,hs] at hr
  cases hd : p.eDocFrom with
  | ordered =>
    simp only [simpleDoc,hd]
    exact .stop (by decide)
  | distincted =>
    rw [hd] at hr
    simp only [simpleDoc,hd]
    exact (doc_headed hr k).bind fun _ _ _ => trivial
  | grouped =>
    rw [hd] at hr
    cases he : s.pRes with
    | none =>
      simp only [simpleDoc,hd,he]
      exact (doc_headed hr _).bind fun _ _ _ => trivial
    | some e =>
      cases k with
      | zero => simpa only [simpleDoc,hd,he] using hres e he
      | succ k =>
        simp only [simpleDoc,hd,he]
        exact (doc_headed hr _).bind fun _ _ _ => trivial
  | datasrc =>
    cases he : s.pRes with
    | none =>
      simp only [simpleDoc,hd,he]
      trivial
    | some e =>
      cases k with
      | zero => simpa only [simpleDoc,hd,he] using hres e he
      | succ k =>
        simp only [simpleDoc,hd,he]
        trivial

omit [CDouble R] in
theorem queryDoc_headed (hp : p.Fit S) (hr : p.AtHead) (k : ℕ) : Headed (fun _ => True) (queryDoc I ctx p k) := by
  unfold queryDoc
  split
  · rename_i hd
    rw [Query.AtHead,hd] at hr
    split
    · exact (doc_headed hr _).bind fun _ _ _ => trivial
    · exact .stop (by decide)
  · split
    · rename_i s hs
      exact simpleDoc_headed hI hctx hp hs hr k
    · split
      · trivial
      · exact .stop (by decide)

end Select

end Stages

end Xjd1
