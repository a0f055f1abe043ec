import Xjd1.Query.Group
import Xjd1.Query.Tally

/-! Aggregate queries without GROUP BY: the step functions of all calls are run over
the same rows, and one row stands for all of them. -/
namespace Xjd1

open Fueled Fueled.Run Delivery Scan SlotSort

variable {R : Type}

def Query.withAgg (l : List (AggExpr R)) (g : ResultList R) (p : Query R) : Query R :=
  match p.u with
  | .simple s => p.setSimple { s with pAgg := some l, grouped := g }
  | .compound _ => p

structure Query.AtRows (p : Query R) (s : SimpleQuery R) (l : List (AggExpr R)) : Prop where
  u : p.u = .simple s
  eDocFrom : p.eDocFrom = .datasrc
  pValue : (s.pAgg.getD []).map AggExpr.pValue = l.map AggExpr.pValue

section Source
variable {l : List (AggExpr R)} {p : Query R} {s : SimpleQuery R}

theorem Query.AtRows.withAgg (h : p.AtRows s l) (g : ResultList R) :
    p.withAgg l g = p.setSimple { s with pAgg := some l, grouped := g } := by
  rw [Query.withAgg,h.u]

theorem Query.AtRows.simple (h : p.AtRows s l) (g : ResultList R) :
    (p.withAgg l g).simple = .ok { s with pAgg := some l, grouped := g } := by
  rw [h.withAgg]
  rfl

theorem setGrouped_withAgg (hs : p.u = .simple s) (g g' : ResultList R) :
    setGrouped (p.withAgg l g) g' = .ok (p.withAgg l g') := by
  rw [Query.withAgg,Query.withAgg,hs]
  rfl

theorem queryAggregateFinalize_withAgg [CDouble R] (hs : p.u = .simple s) (g : ResultList R) :
    queryAggregateFinalize (p.withAgg l g) = .ok (p.withAgg (xjd1AggregateFinalize l) g) := by
  rw [Query.withAgg,Query.withAgg,hs]
  rfl

theorem Query.AtRows.atFrom (h : p.AtRows s l) (d : DataSrc R) (w : Option (Expr R)) :
    (p.atFrom s d w).AtRows { s with pFrom := d, pWhere := w } l :=
  ⟨rfl,h.eDocFrom,h.pValue⟩

variable [CDouble R] {ctx : Ctx R} {g : ResultList R}

omit [CDouble R] in
theorem Query.AtRows.scope_of_doc (h : p.AtRows s l) {I : Interp R}
    (hd : ∀ k, Prod.fst <$> I.xjd1QueryDoc ctx (p.withAgg l g) k = Prod.fst <$> I.xjd1QueryDoc ctx p k) :
    (p.withAgg l g).scope I ctx = p.scope I ctx := by
  refine scope_congr hd fun i => ?_
  have hv := congrArg (·[i]?) h.pValue
  simp only [List.getElem?_map] at hv
  simp only [Query.frame,h.withAgg,h.u,Query.setSimple_u,Option.getD_some,hv]

theorem Query.AtRows.doc (h : p.AtRows s l) (g : ResultList R) (n k : ℕ) :
    (Prod.fst <$> (interp n).xjd1QueryDoc ctx (p.withAgg l g) k : Exec (JsonNode R)) =
      Prod.fst <$> (interp n).xjd1QueryDoc ctx p k := by
  induction n generalizing k with
  | zero => rfl
  | succ n ih =>
    have hs := h.scope_of_doc (g := g) ih
    rw [h.withAgg] at hs ⊢
    show Prod.fst <$> queryDoc (interp n) ctx _ k = Prod.fst <$> queryDoc (interp n) ctx p k
    simp only [queryDoc,Query.setSimple_eDocFrom,h.eDocFrom,reduceCtorEq,if_false,h.u,Query.setSimple_u,simpleDoc]
    cases hr : s.pRes with
    | none => rfl
    | some e =>
      cases k with
      | zero =>
        rw [hr] at hs
        simp only [resultDoc,hs]
        exact fst_bind _ Prod.fst _ _
      | succ k => rfl

theorem Query.AtRows.scope (h : p.AtRows s l) (ctx : Ctx R) (g : ResultList R) (n : ℕ) :
    (p.withAgg l g).scope (interp n) ctx = p.scope (interp n) ctx := h.scope_of_doc (h.doc g n)

theorem Query.AtRows.whered (h : p.AtRows s l) (ctx : Ctx R) (g : ResultList R) (n m : ℕ) :
    Rel (fun r r' => r' = (r.1,r.2.withAgg l g) ∧ ∃ t, r.2.AtRows t l) (selectStepWhered (interp n) m ctx p)
      (selectStepWhered (interp n) m ctx (p.withAgg l g)) := by
  refine Rel.loop (r := fun q q' => q' = q.withAgg l g ∧ ∃ t, q.AtRows t l) (fun q q' hq => ?_) m ⟨rfl,s,h⟩
  obtain ⟨rfl,t,ht⟩ := hq
  simp only [whereTurn,ht.simple g,Query.simple_eq_ok.mpr ht.u,ok_bind]
  refine (Rel.of_eq rfl).bind fun x y hxy => ?_
  subst hxy
  obtain ⟨rc,pFrom⟩ := x
  have hd : ∀ w, (q.atFrom t pFrom w).AtRows { t with pFrom := pFrom, pWhere := w } l := ht.atFrom pFrom
  have hset : ∀ w, (q.withAgg l g).setSimple { t with pFrom := pFrom, pWhere := w, pAgg := some l, grouped := g } =
      (q.atFrom t pFrom w).withAgg l g := by
    intro w
    rw [(hd w).withAgg,ht.withAgg]
    rfl
  have hsc := (hd t.pWhere).scope ctx g n
  rw [← hset] at hsc
  cases rc with
  | done => exact .ok (.inl ⟨congrArg (Prod.mk Rc.done) (hset t.pWhere),_,hd t.pWhere⟩)
  | row =>
    cases hw : t.pWhere with
    | none => exact .ok (.inl ⟨congrArg (Prod.mk Rc.row) (hset none),_,hd none⟩)
    | some pWhere =>
      rw [hw] at hsc
      simp only [hsc]
      refine (Rel.of_eq rfl).bind fun x y hxy => ?_
      subst hxy
      obtain ⟨b,pWhere⟩ := x
      cases b
      · exact .ok (.inr ⟨hset (some pWhere),_,hd (some pWhere)⟩)
      · exact .ok (.inl ⟨congrArg (Prod.mk Rc.row) (hset (some pWhere)),_,hd (some pWhere)⟩)

theorem Query.AtRows.steps (h : p.AtRows s l) (g : ResultList R) {rc : Rc} {q : Query R}
    (hq : Steps selectStepWhered ctx p (rc,q)) :
    Steps selectStepWhered ctx (p.withAgg l g) (rc,q.withAgg l g) ∧ ∃ t, q.AtRows t l := by
  have hlift : ∀ n, selectStepWhered (interp n) n ctx p = .ok (rc,q) →
      selectStepWhered (interp n) n ctx (p.withAgg l g) = .ok (rc,q.withAgg l g) ∧ ∃ t, q.AtRows t l := by
    intro n hn
    obtain ⟨r,hr,rfl,ht⟩ := (h.whered ctx g n n).ok_left hn
    exact ⟨hr,ht⟩
  obtain ⟨n,hn⟩ := hq.exists
  exact ⟨hq.mono fun n hn => (hlift n hn).1,(hlift n hn).2⟩

end Source

/-- A row: the arguments of each call, and the documents of the sources. -/
structure AggRow (R : Type) where
  args : List (List (JsonNode R))
  docs : List (JsonNode R)

def column (rows : List (AggRow R)) (i : ℕ) : List (List (JsonNode R)) := rows.map fun v => v.args.getD i []

theorem column_append (rows rows' : List (AggRow R)) (i : ℕ) :
    column (rows ++ rows') i = column rows i ++ column rows' i := List.map_append

def fed [CDouble R] (pAgg : List (AggExpr R)) (rows : List (AggRow R)) : List (AggExpr R) :=
  pAgg.mapIdx fun i a => { a with pAggCtx := tally a.pFunction (column rows i) }

def saves [CDouble R] (pAgg : List (AggExpr R)) (rows : List (AggRow R)) (v : AggRow R) : Bool :=
  (List.range pAgg.length).any fun i =>
    pAgg[i]?.any fun a => a.pFunction.asks (column rows i) (v.args.getD i [])

def aggRows [CDouble R] (ctx : Ctx R) : Stepper (Query R) (AggRow R) where
  row p v q := Steps selectStepWhered ctx p (.row,q) ∧ ∃ s, q.u = .simple s ∧
    List.Forall₂ (fun a vs => ∃ es, Returns (fun n => evalItems (interp n) (q.scope (interp n) ctx) a.args) (vs,es))
      (s.pAgg.getD []) v.args ∧ v.docs = xjd1DataSrcCacheSave s.pFrom
  done p q := Steps selectStepWhered ctx p (.done,q)

/-- What holds of each member of a list from some fuel on holds of all from some fuel on. -/
theorem eventually_getElem? {α : Type} {l : List α} {P : ℕ → ℕ → α → Prop}
    (h : ∀ i a, l[i]? = some a → ∀ᶠ n in Filter.atTop, P n i a) :
    ∀ᶠ n in Filter.atTop, ∀ i a, l[i]? = some a → P n i a := by
  induction l generalizing P with
  | nil => exact Filter.Eventually.of_forall fun n i a ha => by cases ha
  | cons b l ih =>
    filter_upwards [h 0 b rfl,ih fun i a ha => h (i+1) a ha] with n h0 hl i a ha
    cases i with
    | zero =>
      cases ha
      exact h0
    | succ i => exact hl i a ha

theorem aggsInitial_mem {l : List (AggExpr R)} (h : aggsInitial l) {a : AggExpr R} (ha : a ∈ l) :
    itemsInitial a.args ∧ a.pValue = .nullptr ∧ a.pAggCtx = .null := by
  induction l with
  | nil => cases ha
  | cons b l ih =>
    obtain ⟨f,args,v,c⟩ := b
    rw [aggsInitial] at h
    rcases List.mem_cons.mp ha with rfl | ha
    · exact h.1
    · exact ih h.2 ha

theorem fed_pValue [CDouble R] (pAgg : List (AggExpr R)) (rows : List (AggRow R)) :
    (fed pAgg rows).map AggExpr.pValue = pAgg.map AggExpr.pValue := by
  refine List.ext_getElem? fun i => ?_
  rw [fed,List.getElem?_map,List.getElem?_mapIdx,List.getElem?_map]
  cases pAgg[i]? <;> rfl

section Row
variable [CDouble R]

theorem aggregateStep_mapIdx {I : Interp R} {c : Ctx R} {l : List (AggExpr R)} {vs : ℕ → List (JsonNode R)}
    {f g : ℕ → AggExpr R → AggCtx R} {b : ℕ → AggExpr R → Bool}
    (h : ∀ i a, l[i]? = some a → evalItems I c a.args = .ok (vs i,a.args) ∧
      xStep a.pFunction (vs i) (f i a) = .ok (g i a,b i a)) :
    xjd1AggregateStep I c (l.mapIdx fun i a => { a with pAggCtx := f i a }) =
      .ok (l.mapIdx fun i a => { a with pAggCtx := g i a },(List.range l.length).any fun i => l[i]?.any (b i)) := by
  induction l generalizing vs f g b with
  | nil => rfl
  | cons a l ih =>
    obtain ⟨h1,h2⟩ := h 0 a rfl
    have hl := @ih (fun i => vs (i+1)) (fun i => f (i+1)) (fun i => g (i+1)) (fun i => b (i+1))
      fun i a ha => h (i+1) a ha
    rw [List.mapIdx_cons,List.mapIdx_cons,xjd1AggregateStep,aggExprStep]
    simp only [h1,ok_bind,h2,hl]
    rw [List.length_cons,List.range_succ_eq_map,List.any_cons,List.any_map]
    rfl

variable {ctx : Ctx R} {p q : Query R} {s : SimpleQuery R} {pAgg : List (AggExpr R)} {rows : List (AggRow R)}
  {v : AggRow R}

/-- `p` is a SELECT at its data sources, with these aggregate calls, and leaves no subquery open. -/
structure Query.OverAgg (p : Query R) (s : SimpleQuery R) (pAgg : List (AggExpr R)) : Prop where
  u : p.u = .simple s
  clean : p.Clean
  eDocFrom : p.eDocFrom = .datasrc
  pAgg : s.pAgg = some pAgg

theorem Query.OverAgg.atRows (h : p.OverAgg s pAgg) (rows : List (AggRow R)) :
    p.AtRows s (fed pAgg rows) :=
  ⟨h.u,h.eDocFrom,by rw [h.pAgg,fed_pValue]; rfl⟩

omit [CDouble R] in
theorem Query.OverAgg.args_initial (h : p.OverAgg s pAgg) {a : AggExpr R} (ha : a ∈ pAgg) :
    itemsInitial a.args := by
  have hi := h.clean.simple h.u
  rw [simpleRewind_eq,simpleInitial_iff] at hi
  have hagg := hi.2.2.2.2.2.1
  simp only [h.pAgg,Option.map_some,aggsOptionInitial] at hagg
  exact (aggsInitial_mem hagg (List.mem_map_of_mem ha)).1

theorem Query.OverAgg.step (h : p.OverAgg s pAgg) {rc : Rc} (hq : Steps selectStepWhered ctx p (rc,q)) :
    ∃ t, q.OverAgg t pAgg ∧ t.pGroupBy = s.pGroupBy ∧ t.pHaving = s.pHaving := by
  obtain ⟨n,hn⟩ := hq.exists
  obtain ⟨d,w,rfl⟩ := whered_frame h.u hn
  exact ⟨_,⟨rfl,h.clean.of_rewind (whered_stageNeutral ctx p _ _ h.clean hq),h.eDocFrom,h.pAgg⟩,rfl,rfl⟩

def AllTake (pAgg : List (AggExpr R)) (rows : List (AggRow R)) : Prop :=
  ∀ (i : ℕ) (a : AggExpr R), pAgg[i]? = some a → a.pFunction.Takes (column rows i)

theorem aggregateStep_fed (hq : q.OverAgg s pAgg) (hargs : List.Forall₂
    (fun a vs => ∃ es, Returns (fun n => evalItems (interp n) (q.scope (interp n) ctx) a.args) (vs,es)) pAgg v.args)
    (ht : AllTake pAgg (rows ++ [v])) :
    Returns (fun n => xjd1AggregateStep (interp n) (q.scope (interp n) ctx) (fed pAgg rows))
      (fed pAgg (rows ++ [v]),saves pAgg rows v) := by
  have heval : ∀ i a, pAgg[i]? = some a → ∀ᶠ n in Filter.atTop,
      evalItems (interp n) (q.scope (interp n) ctx) a.args = .ok (v.args.getD i [],a.args) := by
    intro i a ha
    rcases forall2_getElem? hargs i with ⟨h1,_⟩ | ⟨b,vs,h1,h2,es,h⟩
    · rw [ha] at h1
      cases h1
    · obtain rfl := Option.some.inj (ha.symm.trans h1)
      obtain ⟨n,hn⟩ := h.exists
      obtain rfl := evalItems_neutral (interp_neutral n) _ (hq.args_initial (List.mem_of_getElem? ha)) hn
      rw [List.getD_eq_getElem?_getD,h2]
      exact h
  filter_upwards [eventually_getElem? heval] with n hn
  refine aggregateStep_mapIdx fun i a ha => ⟨hn i a ha,?_⟩
  have h1 := ht i a ha
  rw [column_append] at h1 ⊢
  exact xStep_tally h1

theorem queryAggregateStep_fed (hq : q.OverAgg s pAgg) (g : ResultList R) (h : Returns
    (fun n => xjd1AggregateStep (interp n) (q.scope (interp n) ctx) (fed pAgg rows))
      (fed pAgg (rows ++ [v]),saves pAgg rows v)) :
    Returns (fun n => queryAggregateStep (interp n) ctx (q.withAgg (fed pAgg rows) g))
      (saves pAgg rows v,q.withAgg (fed pAgg (rows ++ [v])) g) := by
  filter_upwards [h] with n hn
  have hsrc := hq.atRows rows
  have hscope := hsrc.scope ctx g n
  rw [hsrc.withAgg] at hscope ⊢
  rw [(hq.atRows (rows ++ [v])).withAgg]
  simp only [queryAggregateStep,Query.simple_setSimple,ok_bind,Option.getD_some,hscope,hn]
  rfl

theorem plainAggTurn_row (hp : p.OverAgg s pAgg) (h : (aggRows ctx).row p v q) (ht : AllTake pAgg (rows ++ [v]))
    (g : ResultList R) (apSrc : Option (List (JsonNode R))) :
    Returns (fun n => plainAggTurn (interp n) n ctx (apSrc,p.withAgg (fed pAgg rows) g))
      (.inr (if apSrc.isNone || saves pAgg rows v then some v.docs else apSrc,
        q.withAgg (fed pAgg (rows ++ [v])) g)) := by
  obtain ⟨h1,t,hu,hargs,hdocs⟩ := h
  obtain ⟨t',hq,_,_⟩ := hp.step h1
  obtain rfl := QueryU.simple.inj (hu.symm.trans hq.u)
  rw [hq.pAgg,Option.getD_some] at hargs
  have hwhere := ((hp.atRows rows).steps g h1).1
  have hagg := queryAggregateStep_fed hq g (aggregateStep_fed hq hargs ht)
  filter_upwards [hwhere,hagg] with n hn hstep
  simp only [plainAggTurn,hn,ok_bind,hstep,(hq.atRows (rows ++ [v])).simple g,← hdocs]
  split <;> rfl

theorem plainAggTurn_done (hp : p.OverAgg s pAgg) (h : (aggRows ctx).done p q) (g : ResultList R)
    (apSrc : Option (List (JsonNode R))) :
    Returns (fun n => plainAggTurn (interp n) n ctx (apSrc,p.withAgg (fed pAgg rows) g))
      (.inl (apSrc,q.withAgg (fed pAgg rows) g)) := by
  filter_upwards [((hp.atRows rows).steps g h).1] with n hn
  simp only [plainAggTurn,hn,ok_bind]

end Row

section Rows
variable [CDouble R] {ctx : Ctx R} {p q : Query R} {s : SimpleQuery R} {pAgg : List (AggExpr R)}

def savedDocs (pAgg : List (AggExpr R)) : List (AggRow R) → Option (List (JsonNode R)) → List (AggRow R) →
    Option (List (JsonNode R))
  | _, apSrc, [] => apSrc
  | prior, apSrc, v::rows =>
    savedDocs pAgg (prior ++ [v]) (if apSrc.isNone || saves pAgg prior v then some v.docs else apSrc) rows

theorem AllTake.left {rows rows' : List (AggRow R)} (h : AllTake pAgg (rows ++ rows')) : AllTake pAgg rows := by
  intro i a ha
  have hi := h i a ha
  rw [column_append] at hi
  exact hi.left

theorem plainAgg_loop (hp : p.OverAgg s pAgg) {rows : List (AggRow R)} (h : Delivers (aggRows ctx) p rows q)
    (prior : List (AggRow R)) (ht : AllTake pAgg (prior ++ rows)) (g : ResultList R)
    (apSrc : Option (List (JsonNode R))) :
    Returns (fun n => Run.loop (plainAggTurn (interp n) n ctx) n (apSrc,p.withAgg (fed pAgg prior) g))
      (savedDocs pAgg prior apSrc rows,q.withAgg (fed pAgg (prior ++ rows)) g) := by
  induction h generalizing s prior apSrc with
  | done h =>
    rw [List.append_nil]
    exact (plainAggTurn_done hp h g apSrc).loop_exit
  | @row p q _ v rows h _ ih =>
    obtain ⟨t,hq,_,_⟩ := hp.step h.1
    have hcons : prior ++ v::rows = prior ++ [v] ++ rows := (List.append_cons prior v rows)
    rw [hcons] at ht ⊢
    exact (plainAggTurn_row hp h ht.left g apSrc).loop_turn
      (fun n m h => plainAggTurn_le (interp_le h) (Ctx.le_refl ctx) h) (ih hq _ ht _)

/-- The rows saved are those a scan finds best, if its steps agree with what the calls ask for. -/
theorem savedDocs_eq {f : List (AggRow R) → Option (AggRow R)}
    (h : ∀ rows v, f (rows ++ [v]) = if (f rows).isNone || saves pAgg rows v then some v else f rows)
    (prior rows : List (AggRow R)) :
    savedDocs pAgg prior ((f prior).map AggRow.docs) rows = (f (prior ++ rows)).map AggRow.docs := by
  induction rows generalizing prior with
  | nil => rw [savedDocs,List.append_nil]
  | cons v rows ih =>
    have hv : (if ((f prior).map AggRow.docs).isNone || saves pAgg prior v then some v.docs
        else (f prior).map AggRow.docs) = (f (prior ++ [v])).map AggRow.docs := by
      rw [h,Option.isNone_map]
      split <;> rfl
    rw [savedDocs,hv,ih,← List.append_cons]

def AggRow.arg (v : AggRow R) (j : ℕ) : JsonNode R := firstArg (v.args.getD j [])

omit [CDouble R] in
theorem map_column (rows : List (AggRow R)) (j : ℕ) : (column rows j).map firstArg = rows.map fun v => v.arg j := by
  rw [column,List.map_map]
  rfl

theorem savedDocs_first (h : ∀ a ∈ pAgg, a.pFunction.isBest = false) (rows : List (AggRow R)) :
    savedDocs pAgg [] none rows = rows.head?.map AggRow.docs := by
  have hsaves : ∀ rows v, saves pAgg rows v = false := by
    intro rows v
    refine List.any_eq_false.mpr fun i _ hi => ?_
    obtain ⟨a,ha,hask⟩ := (Option.any_eq_true _ _).mp hi
    rw [Function.asks,h a (List.mem_of_getElem? ha),Bool.false_and] at hask
    exact Bool.false_ne_true hask
  refine savedDocs_eq (f := List.head?) (fun rows v => ?_) [] rows
  rw [hsaves,Bool.or_false]
  cases rows <;> rfl

/-- With one `min` or `max`, the first row at which it finds its best argument stays saved. -/
theorem savedDocs_best {j : ℕ} {a : AggExpr R} (ha : pAgg[j]? = some a) (hf : a.pFunction.isBest)
    (hone : ∀ i b, pAgg[i]? = some b → b.pFunction.isBest → i = j) (rows : List (AggRow R)) :
    savedDocs pAgg [] none rows =
      (scan (fun v w : AggRow R => a.pFunction.better (v.arg j) (w.arg j) = true) rows).map AggRow.docs := by
  have hsaves : ∀ rows v, saves pAgg rows v = a.pFunction.asks (column rows j) (v.args.getD j []) := by
    intro rows v
    refine Bool.eq_iff_iff.mpr ⟨fun h => ?_,fun h => ?_⟩
    · obtain ⟨i,_,hi⟩ := List.any_eq_true.mp h
      obtain ⟨b,hb,hask⟩ := (Option.any_eq_true _ _).mp hi
      obtain rfl := hone i b hb (Bool.and_eq_true_iff.mp hask).1
      obtain rfl := Option.some.inj (ha.symm.trans hb)
      exact hask
    · refine List.any_eq_true.mpr ⟨j,List.mem_range.mpr (List.getElem?_eq_some_iff.mp ha).1,?_⟩
      exact (Option.any_eq_true _ _).mpr ⟨a,ha,h⟩
  refine savedDocs_eq (f := scan fun v w : AggRow R => a.pFunction.better (v.arg j) (w.arg j) = true)
    (fun rows v => ?_) [] rows
  have hask : a.pFunction.asks (column rows j) (v.args.getD j []) =
      Option.all (fun w : AggRow R => a.pFunction.better (v.arg j) (w.arg j))
        (scan (fun v w => a.pFunction.better (v.arg j) (w.arg j) = true) rows) := by
    rw [Function.asks,hf,Bool.true_and,map_column,Function.bestOf,scan_map,Option.all_map]
    rfl
  rw [hsaves,hask,scan_concat]
  cases scan (fun v w : AggRow R => a.pFunction.better (v.arg j) (w.arg j) = true) rows with
  | none => rfl
  | some w => rfl

/-- The documents shown with the row: none if there was no row, those of the first row without `min`
and `max`, and with one of them those of the first row at its extremum. -/
structure ShownDocs (pAgg : List (AggExpr R)) (nSrc : ℕ) (rows : List (AggRow R)) (docs : List (JsonNode R)) :
    Prop where
  noRow : rows = [] → docs = List.replicate nSrc .nullptr
  first : (∀ a ∈ pAgg, a.pFunction.isBest = false) → ∀ v ∈ rows.head?, docs = v.docs
  best : ∀ (j : ℕ) (a : AggExpr R), pAgg[j]? = some a → a.pFunction.isBest →
    (∀ (i : ℕ) (b : AggExpr R), pAgg[i]? = some b → b.pFunction.isBest → i = j) → rows ≠ [] →
    ∃ v, FirstBest (fun v w => a.pFunction.better (v.arg j) (w.arg j) = true) rows v ∧ docs = v.docs

theorem savedDocs_shown {rows : List (AggRow R)} (ht : AllTake pAgg rows) (nSrc : ℕ) :
    ShownDocs pAgg nSrc rows ((savedDocs pAgg [] none rows).getD (List.replicate nSrc .nullptr)) := by
  refine ⟨fun h => ?_,fun h v hv => ?_,fun j a ha hf hone hne => ?_⟩
  · rw [h]
    rfl
  · rw [savedDocs_first h,hv]
    rfl
  · have hord := (ht j a ha).ordered hf
    rw [map_column] at hord
    have hweak : Weak (fun v w : AggRow R => a.pFunction.better (v.arg j) (w.arg j) = true) (· ∈ rows) :=
      ((weak_better hf hord).on fun v : AggRow R => v.arg j).mono fun v hv => List.mem_map_of_mem hv
    obtain ⟨v,hv,hbest⟩ := scan_firstBest hweak hne
    rw [savedDocs_best ha hf hone,hv]
    exact ⟨v,hbest,rfl⟩

/-- The query at its row: the calls have their values, and the documents of one row are kept. -/
def Query.atEnd (q : Query R) (pAgg : List (AggExpr R)) (rows : List (AggRow R)) (nSrc : ℕ)
    (docs : List (JsonNode R)) : Query R :=
  { q.withAgg (xjd1AggregateFinalize (fed pAgg rows)) { ResultList.new nSrc with pItem := [⟨docs⟩] } with
    eDocFrom := .grouped }

theorem fed_nil {pAgg : List (AggExpr R)} (h : aggsInitial pAgg) : fed pAgg [] = pAgg := by
  refine List.ext_getElem? fun i => ?_
  rw [fed,List.getElem?_mapIdx]
  cases ha : pAgg[i]? with
  | none => rfl
  | some a =>
    have htally : tally a.pFunction (column [] i) = a.pAggCtx := by
      rw [(aggsInitial_mem h (List.mem_of_getElem? ha)).2.2]
      cases a.pFunction <;> rfl
    rw [Option.map_some,htally]
    cases a
    rfl

section Atend
variable {rows : List (AggRow R)} {nSrc : ℕ} {docs : List (JsonNode R)}

theorem atEnd_u (h : q.OverAgg s pAgg) : (q.atEnd pAgg rows nSrc docs).u =
    .simple { s with
      pAgg := some (xjd1AggregateFinalize (fed pAgg rows)),
      grouped := { ResultList.new nSrc with pItem := [⟨docs⟩] } } := by
  rw [Query.atEnd,Query.withAgg,h.u]
  rfl

theorem atEnd_done (h : q.OverAgg s pAgg) (hg : s.pGroupBy = none) (hh : s.pHaving = none) :
    Steps selectStepGrouped ctx (q.atEnd pAgg rows nSrc docs) (.done,q.atEnd pAgg rows nSrc docs) := by
  refine Filter.Eventually.of_forall fun n => ?_
  have hu : (q.atEnd pAgg rows nSrc docs).simple = .ok _ := Query.simple_eq_ok.mpr (atEnd_u h)
  simp only [selectStepGrouped,hu,ok_bind,hg,plainAggStep,hh]
  rfl

theorem atEnd_agg (h : q.OverAgg s pAgg) (ht : AllTake pAgg rows) (I : Interp R) {i : ℕ} {a : AggExpr R}
    (ha : pAgg[i]? = some a) : Aggregated a.pFunction (column rows i)
      (((q.atEnd pAgg rows nSrc docs).frame I ctx).agg i) := by
  have hv : ((q.atEnd pAgg rows nSrc docs).frame I ctx).agg i =
      xFinal a.pFunction (tally a.pFunction (column rows i)) := by
    simp only [Query.frame,atEnd_u h,Option.getD_some,xjd1AggregateFinalize,fed,List.getElem?_map,List.getElem?_mapIdx,
      ha,Option.map_some]
  rw [hv]
  exact xFinal_tally (ht i a ha)

theorem atEnd_doc (h : q.OverAgg s pAgg) (hg : s.pGroupBy = none) {k : ℕ} {d : JsonNode R} (hd : docs[k]? = some d) :
    Returns (fun n => ((q.atEnd pAgg rows nSrc docs).frame (interp n) ctx).doc (k+1)) d := by
  refine Returns.succ_iff.mp (Filter.Eventually.of_forall fun n => ?_)
  show Prod.fst <$> queryDoc (interp n) ctx (q.atEnd pAgg rows nSrc docs) (k+1) = _
  have he : (q.atEnd pAgg rows nSrc docs).eDocFrom = .grouped := rfl
  simp only [queryDoc,he,reduceCtorEq,if_false,atEnd_u h,simpleDoc,hg]
  have hdoc : Run.ofOption Stop.undefined docs[0+(k+1-1)]? = .ok d := by
    rw [Nat.zero_add,Nat.add_sub_cancel,hd]
    rfl
  cases s.pRes <;> exact congrArg (fun x => Prod.fst <$> (x >>= fun v => Run.ok (v,q.atEnd pAgg rows nSrc docs))) hdoc

end Atend

theorem Query.OverAgg.delivers (hp : p.OverAgg s pAgg) {rows : List (AggRow R)} (h : Delivers (aggRows ctx) p rows q) :
    ∃ t, q.OverAgg t pAgg ∧ t.pGroupBy = s.pGroupBy ∧ t.pHaving = s.pHaving := by
  induction h generalizing s with
  | done h => exact hp.step h
  | row h _ ih =>
    obtain ⟨t,hq,hg,hh⟩ := hp.step h.1
    obtain ⟨u,hu,hg',hh'⟩ := ih hq
    exact ⟨u,hu,hg'.trans hg,hh'.trans hh⟩

end Rows

/-- `SELECT [f(e),count()] FROM c` with its cursor past `k` rows, at the document `pValue`. -/
def selectAgg (f : Function) (e : Expr R) (pValue : JsonNode R) (k : ℕ) : Query R :=
  ⟨.simple ⟨false,some (.array [⟨none,.func f [⟨none,e⟩] 0⟩,⟨none,.func .count [] 1⟩]),
    .tab none pValue [ch 'c'] k,none,none,none,some [⟨f,[⟨none,e⟩],.nullptr,.null⟩,⟨.count,[],.nullptr,.null⟩],
    .empty,.empty⟩,none,none,none,none,.datasrc,.empty,none⟩

section SelectAgg
variable {f : Function} {e : Expr R}

theorem selectAgg_initial (f : Function) (he : e.Initial) : (selectAgg f e .nullptr 0).Initial := by
  simp [selectAgg,Query.Initial,QueryU.Initial,SimpleQuery.Initial,DataSrc.Initial,Expr.Initial,optionInitial,
    itemsOptionInitial,itemsInitial,aggsOptionInitial,aggsInitial,he]

variable [CDouble R] {ctx : Ctx R} {pValue : JsonNode R} {k : ℕ}

theorem selectAgg_row {zJson : Bytes} {d v : JsonNode R} (hz : (ctx.db [ch 'c'])[k]? = some zJson)
    (hd : xjd1JsonParse zJson = d) (n : ℕ) (hv : evalItems (interp n) ((selectAgg f e d (k+1)).scope (interp n) ctx)
      [⟨none,e⟩] = .ok ([v],[⟨none,e⟩])) :
    (aggRows ctx).row (selectAgg f e pValue k) ⟨[[v],[]],[d]⟩ (selectAgg f e d (k+1)) := by
  have hstep : selectStepWhered (interp 1) 1 ctx (selectAgg f e pValue k) = .ok (.row,selectAgg f e d (k+1)) := by
    simp only [selectAgg,selectStepWhered,loop,whereTurn,interp,Interp.next,dataSrcStep,Query.simple,ok_bind,hz,hd]
    rfl
  have harg := Returns.of_ok (fun _ _ h => evalItems_le (interp_le h) (scope_le (interp_le h) (Ctx.le_refl ctx)
    (selectAgg f e d (k+1))) [⟨none,e⟩]) hv
  exact ⟨whered_mono.steps 1 hstep,_,rfl,.cons ⟨_,harg⟩ (.cons ⟨[],Filter.Eventually.of_forall fun _ => rfl⟩ .nil),rfl⟩

theorem selectAgg_done (hz : (ctx.db [ch 'c'])[k]? = none) :
    (aggRows ctx).done (selectAgg f e pValue k) (selectAgg f e .nullptr 0) := by
  refine whered_mono.steps 1 ?_
  simp only [selectAgg,selectStepWhered,loop,whereTurn,interp,Interp.next,dataSrcStep,Query.simple,ok_bind,hz]
  rfl

end SelectAgg

/-- The rows of `SELECT [max(c),count()] FROM c` over the documents 1 and 2. -/
def maxRows : List (AggRow Int) := [⟨[[.real 1],[]],[.real 1]⟩,⟨[[.real 2],[]],[.real 2]⟩]

/-- The calls `max(c)` and `count()`. -/
def maxCalls : List (AggExpr Int) := [⟨.max,[⟨none,firstDoc⟩],.nullptr,.null⟩,⟨.count,[],.nullptr,.null⟩]

/-- Whole numbers, and NaN as `none`. -/
abbrev WholeOrNan := Option Int

instance : CDouble WholeOrNan where
  lt x y := (Option.map₂ (fun x y : Int => decide (x < y)) x y).getD false
  eq x y := (Option.map₂ (fun x y : Int => decide (x = y)) x y).getD false
  nan := none
  ofInt := some
  toInt x := x.bind CDouble.toInt
  add := Option.map₂ (· + ·)
  sub := Option.map₂ (· - ·)
  mul := Option.map₂ (· * ·)
  div := Option.map₂ Int.tdiv
  strtod z := (some (wholeRead z).1,(wholeRead z).2)
  fmt17 x := x.elim [ch 'n',ch 'a',ch 'n'] wholeText
  fmt6 x := x.elim [ch 'n',ch 'a',ch 'n'] wholeText

/-- The surroundings of a query at the top level, over the documents `[null,5]`, `[1,6]` and `[2,4]`. -/
def nullPair : Ctx WholeOrNan :=
  ⟨[],.select,fun _ => [[ch '[',ch 'n',ch 'u',ch 'l',ch 'l',ch ',',ch '5',ch ']'],[ch '[',ch '1',ch ',',ch '6',ch ']'],
    [ch '[',ch '2',ch ',',ch '4',ch ']']]⟩

/-- `[c[0]*1,c[1]]`. -/
def scaledPair : Expr WholeOrNan :=
  let entry (i : Int) : Expr WholeOrNan := .bi .lb (.id [ch 'c'] (some 0) 1) (some (.jvalue (.real (some i))))
  .array [⟨none,.bi .star (entry 0) (some (.jvalue (.real (some 1))))⟩,⟨none,entry 1⟩]

/-- What `scaledPair` makes of the documents. -/
def nullPairs : List (JsonNode WholeOrNan) :=
  [.array [.real none,.real (some 5)],.array [.real (some 1),.real (some 6)],.array [.real (some 2),.real (some 4)]]

/-- The rows of `SELECT [min([c[0]*1,c[1]]),count()] FROM c`. -/
def nullPairRows : List (AggRow WholeOrNan) :=
  [⟨[[.array [.real none,.real (some 5)]],[]],[.array [.null,.real (some 5)]]⟩,
    ⟨[[.array [.real (some 1),.real (some 6)]],[]],[.array [.real (some 1),.real (some 6)]]⟩,
    ⟨[[.array [.real (some 2),.real (some 4)]],[]],[.array [.real (some 2),.real (some 4)]]⟩]

theorem nullPair_rows : Delivers (aggRows nullPair) (selectAgg .min scaledPair .nullptr 0) nullPairRows
    (selectAgg .min scaledPair .nullptr 0) :=
  .row (selectAgg_row rfl rfl 8 rfl) (.row (selectAgg_row rfl rfl 8 rfl)
    (.row (selectAgg_row rfl rfl 8 rfl) (.done (selectAgg_done (k := 3) rfl))))

theorem aggregated_min [CDouble R] {xs : List (JsonNode R)} {v : JsonNode R} (h : Aggregated .min (unary xs) v) :
    ∀ w ∈ xs, xjd1JsonCompare v w ≤ 0 := by
  generalize hc : unary xs = col at h
  cases h with
  | noMin =>
    obtain rfl := List.map_eq_nil_iff.mp hc
    exact nofun
  | @min ys v _ h =>
    have hxs : xs = ys := by rw [← map_firstArg xs,hc,map_firstArg]
    rwa [hxs]

theorem nullPair_min : ∃ p', Steps selectStepGrouped nullPair (selectAgg .min scaledPair .nullptr 0) (.row,p') ∧
    (p'.frame (interp 0) nullPair).agg 0 = .array [.real (some 2),.real (some 4)] := by
  have h : ∃ p', selectStepGrouped (interp 8) 8 nullPair (selectAgg .min scaledPair .nullptr 0) = .ok (.row,p') ∧
      (p'.frame (interp 0) nullPair).agg 0 = .array [.real (some 2),.real (some 4)] := ⟨_,rfl,rfl⟩
  obtain ⟨p',h1,h2⟩ := h
  exact ⟨p',grouped_mono.steps 8 h1,h2⟩

end Xjd1
