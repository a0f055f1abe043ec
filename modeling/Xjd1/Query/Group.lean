import Xjd1.Lib.Groups
import Xjd1.Query.Distinct

/-! GROUP BY. The accepted rows are put into a list and sorted by their keys; the
aggregates are stepped over the rows at the head of the list up to the end of a group. -/
namespace Xjd1

open Fueled Fueled.Run Delivery SlotSort

variable {R : Type} [CDouble R]

/-- `p` at the rows `pItem` of its grouped list, with these aggregate calls and this row saved. -/
def Query.atGroup (p : Query R) (s : SimpleQuery R) (pAgg : List (AggExpr R)) (pSaved : Option (ResultItem R))
    (pItem : List (ResultItem R)) : Query R :=
  { p.setSimple { s with
      pAgg := some pAgg, grouped := { s.grouped with pSaved := pSaved, pItem := pItem } } with eDocFrom := .grouped }

structure SameRow (p p' : Query R) (s s' : SimpleQuery R) : Prop where
  u : p.u = .simple s
  u' : p'.u = .simple s'
  eDocFrom : p.eDocFrom = .grouped
  eDocFrom' : p'.eDocFrom = .grouped
  pRes : s.pRes = s'.pRes
  pGroupBy : s.pGroupBy = s'.pGroupBy
  pAgg : s.pAgg = s'.pAgg
  head : s.grouped.pItem.head? = s'.grouped.pItem.head?

omit [CDouble R] in
theorem ResultList.doc_head {l l' : ResultList R} (h : l.pItem.head? = l'.pItem.head?) (i : ℕ) : l.doc i = l'.doc i := by
  rw [ResultList.doc,ResultList.doc]
  cases hl : l.pItem <;> cases hl' : l'.pItem <;> rw [hl,hl'] at h
  · cases h
  · cases h
  · cases h
    rfl

omit [CDouble R] in
theorem fst_bind {α β γ : Type} (x : Exec α) (f : α → β) (g g' : α → γ) :
    (Prod.fst <$> (x >>= fun a => Run.ok (f a,g a)) : Exec β) = Prod.fst <$> (x >>= fun a => Run.ok (f a,g' a)) := by
  cases x <;> rfl

omit [CDouble R] in
theorem SameRow.scope_of_doc {ctx : Ctx R} {p p' : Query R} {s s' : SimpleQuery R} (h : SameRow p p' s s')
    {I : Interp R} (hd : ∀ k, Prod.fst <$> I.xjd1QueryDoc ctx p k = Prod.fst <$> I.xjd1QueryDoc ctx p' k) :
    p.scope I ctx = p'.scope I ctx := by
  refine scope_congr hd fun i => ?_
  simp only [Query.frame,h.u,h.u',h.pAgg]

theorem SameRow.doc {ctx : Ctx R} {p p' : Query R} {s s' : SimpleQuery R} (h : SameRow p p' s s') (n k : ℕ) :
    (Prod.fst <$> (interp n).xjd1QueryDoc ctx p k : Exec (JsonNode R)) =
      Prod.fst <$> (interp n).xjd1QueryDoc ctx p' k := by
  induction n generalizing k with
  | zero => rfl
  | succ n ih =>
    have hs := h.scope_of_doc ih
    have hg : ∀ i, s.grouped.doc i = s'.grouped.doc i := ResultList.doc_head h.head
    show Prod.fst <$> queryDoc (interp n) ctx p k = Prod.fst <$> queryDoc (interp n) ctx p' k
    simp only [queryDoc,h.eDocFrom,h.eDocFrom',reduceCtorEq,if_false,h.u,h.u',simpleDoc,h.pRes,h.pGroupBy,hg]
    cases s'.pRes with
    | none => exact fst_bind _ (fun v => v) _ _
    | some e =>
      cases k with
      | zero =>
        simp only [resultDoc,hs]
        exact fst_bind _ Prod.fst _ _
      | succ k => exact fst_bind _ (fun v => v) _ _

theorem SameRow.scope {ctx : Ctx R} {p p' : Query R} {s s' : SimpleQuery R} (h : SameRow p p' s s') (n : ℕ) :
    p.scope (interp n) ctx = p'.scope (interp n) ctx := h.scope_of_doc (h.doc n)

section Feed
variable (I : Interp R) (ctx : Ctx R) (p : Query R) (s : SimpleQuery R)

def feedRow (pAgg : List (AggExpr R)) (row : ResultItem R) : Exec (List (AggExpr R) × Bool) :=
  xjd1AggregateStep I ((p.atGroup s pAgg none [row]).scope I ctx) pAgg

def feedGroup : List (ResultItem R) → List (AggExpr R) → Exec (List (AggExpr R) × Bool)
  | [], pAgg => .ok (pAgg,false)
  | row::rows, pAgg => do
    let (pAgg,saveThisRow) ← feedRow I ctx p s pAgg row
    if rows.isEmpty then .ok (pAgg,saveThisRow) else feedGroup rows pAgg

/-- Step the aggregates over one group after the other: whether the last row of each asks to be saved. -/
def feedGroups : List (List (ResultItem R)) → List (AggExpr R) → Exec (List Bool)
  | [], _ => .ok []
  | g::gs, pAgg => do
    let (pAgg,saveThisRow) ← feedGroup I ctx p s g pAgg
    let saves ← feedGroups gs (xjd1AggregateFinalize pAgg)
    .ok (saveThisRow::saves)

end Feed

section Loop
variable {ctx : Ctx R} {p : Query R} {s : SimpleQuery R}

theorem groupTurn_eq (n : ℕ) (pAgg : List (AggExpr R)) (pSaved : Option (ResultItem R)) (a : ResultItem R)
    (l : List (ResultItem R)) : groupTurn (interp n) ctx (p.atGroup s pAgg pSaved (a::l)) =
      (feedRow (interp n) ctx p s pAgg a >>= fun r => .ok (if endsGroup s.pGroupBy a l then
        .inl (p.atGroup s r.1 none ((if r.2 then a else pSaved.getD a) :: if r.2 then l.tail else l))
      else .inr (p.atGroup s r.1 (if r.2 then some a else pSaved) l))) := by
  have hsame : SameRow (p.atGroup s pAgg pSaved (a::l)) (p.atGroup s pAgg none [a]) _ _ :=
    ⟨rfl,rfl,rfl,rfl,rfl,rfl,rfl,rfl⟩
  have hq : queryAggregateStep (interp n) ctx (p.atGroup s pAgg pSaved (a::l)) =
      feedRow (interp n) ctx p s pAgg a >>= fun r => .ok (r.2,p.atGroup s r.1 pSaved (a::l)) := by
    rw [feedRow,← hsame.scope n]
    rfl
  have hs : (p.atGroup s pAgg pSaved (a::l)).simple = .ok _ := rfl
  simp only [groupTurn,hs,ok_bind,hq,bind_assoc]
  congr 1
  funext r
  obtain ⟨b,save⟩ := r
  cases save
  · cases endsGroup s.pGroupBy a l
    · rfl
    · cases pSaved <;> rfl
  · cases endsGroup s.pGroupBy a l <;> rfl

theorem feedRow_mono (ctx : Ctx R) (p : Query R) (s : SimpleQuery R) (pAgg : List (AggExpr R)) (row : ResultItem R) :
    Run.Mono fun n => feedRow (interp n) ctx p s pAgg row :=
  fun _ _ h => aggregateStep_le (interp_le h) (scope_le (interp_le h) (Ctx.le_refl ctx) _) pAgg

theorem feedGroup_mono (ctx : Ctx R) (p : Query R) (s : SimpleQuery R) (rows : List (ResultItem R))
    (pAgg : List (AggExpr R)) : Run.Mono fun n => feedGroup (interp n) ctx p s rows pAgg := by
  intro n m h
  induction rows generalizing pAgg with
  | nil => exact Run.le_refl _
  | cons row rows ih =>
    refine bind_le_bind (feedRow_mono ctx p s pAgg row n m h) fun r => ?_
    cases rows with
    | nil => exact Run.le_refl _
    | cons b rows => exact ih r.1

theorem feedGroups_mono (ctx : Ctx R) (p : Query R) (s : SimpleQuery R) (gs : List (List (ResultItem R)))
    (pAgg : List (AggExpr R)) : Run.Mono fun n => feedGroups (interp n) ctx p s gs pAgg := by
  intro n m h
  induction gs generalizing pAgg with
  | nil => exact Run.le_refl _
  | cons g gs ih =>
    exact bind_le_bind (feedGroup_mono ctx p s g pAgg n m h) fun r =>
      bind_le_bind (ih (xjd1AggregateFinalize r.1)) fun _ => Run.le_refl _

theorem feedGroups_cons {g : List (ResultItem R)} {gs : List (List (ResultItem R))} {pAgg : List (AggExpr R)}
    {saves : List Bool} : Returns (fun n => feedGroups (interp n) ctx p s (g::gs) pAgg) saves ↔
      ∃ r rest, Returns (fun n => feedGroup (interp n) ctx p s g pAgg) r ∧
        Returns (fun n => feedGroups (interp n) ctx p s gs (xjd1AggregateFinalize r.1)) rest ∧ saves = r.2::rest := by
  constructor
  · intro h
    obtain ⟨n,hn⟩ := h.exists
    obtain ⟨r,h1,hn⟩ := bind_eq_ok.mp hn
    obtain ⟨rest,h2,hn⟩ := bind_eq_ok.mp hn
    cases hn
    exact ⟨r,rest,.of_ok (feedGroup_mono ctx p s g pAgg) h1,.of_ok (feedGroups_mono ctx p s gs _) h2,rfl⟩
  · rintro ⟨r,rest,h1,h2,rfl⟩
    exact h1.bind (h2.bind (Filter.Eventually.of_forall fun _ => rfl))

theorem feedGroups_length {gs : List (List (ResultItem R))} {pAgg : List (AggExpr R)} {saves : List Bool}
    (h : Returns (fun n => feedGroups (interp n) ctx p s gs pAgg) saves) : saves.length = gs.length := by
  induction gs generalizing pAgg saves with
  | nil =>
    obtain ⟨_,hn⟩ := h.exists
    cases hn
    rfl
  | cons g gs ih =>
    obtain ⟨r,rest,_,h2,rfl⟩ := feedGroups_cons.mp h
    rw [List.length_cons,List.length_cons,ih h2]

inductive Feeds (ctx : Ctx R) : Query R → List (ResultItem R) → Query R → Prop
  | last {p q : Query R} {s : SimpleQuery R} {a : ResultItem R} {l : List (ResultItem R)} (hs : p.u = .simple s)
    (hi : s.grouped.pItem = a::l) (h : Returns (fun n => groupTurn (interp n) ctx p) (.inl q)) : Feeds ctx p [a] q
  | turn {p p' q : Query R} {s : SimpleQuery R} {a : ResultItem R} {l rows : List (ResultItem R)}
    (hs : p.u = .simple s) (hi : s.grouped.pItem = a::l)
    (h : Returns (fun n => groupTurn (interp n) ctx p) (.inr p')) (hr : Feeds ctx p' rows q) :
    Feeds ctx p (a::rows) q

theorem Feeds.loop {q : Query R} {rows : List (ResultItem R)} (h : Feeds ctx p rows q) :
    Returns (fun n => Run.loop (groupTurn (interp n) ctx) n p) q := by
  induction h with
  | last _ _ h => exact h.loop_exit
  | turn _ _ h _ ih => exact h.loop_turn (fun n m h => groupTurn_le (interp_le h) (Ctx.le_refl ctx)) ih

theorem endsGroup_ends {a : ResultItem R} {rest : List (ResultItem R)}
    (h : IsRun (cmpResultItem s.pGroupBy) [a] rest) : endsGroup s.pGroupBy a rest = true := by
  cases rest with
  | nil => rfl
  | cons b rest => exact decide_eq_true (h.ends a rfl b rfl)

theorem endsGroup_goes {a b : ResultItem R} {g rest : List (ResultItem R)}
    (h : IsRun (cmpResultItem s.pGroupBy) (a::b::g) rest) : endsGroup s.pGroupBy a (b::g++rest) = false :=
  decide_eq_false (not_not.mpr (List.isChain_cons_cons.mp h.chain).1)

/-- What the loop over the group `g` leaves: a row that stands for the group, and the rows behind it. -/
def Query.afterGroup (p : Query R) (s : SimpleQuery R) (r : List (AggExpr R) × Bool) (x : ResultItem R)
    (rest : List (ResultItem R)) : Query R :=
  p.atGroup s r.1 none (x :: if r.2 then rest.tail else rest)

/-- The loop steps the aggregates over the rows of the first group. If its last row asks
to be saved, the first row of the next group is dropped. -/
theorem feeds_of_feedGroup {g rest : List (ResultItem R)} (hr : IsRun (cmpResultItem s.pGroupBy) g rest)
    {pAgg : List (AggExpr R)} {r : List (AggExpr R) × Bool} (pSaved : Option (ResultItem R))
    (h : Returns (fun n => feedGroup (interp n) ctx p s g pAgg) r) :
    ∃ x, Feeds ctx (p.atGroup s pAgg pSaved (g++rest)) g (p.afterGroup s r x rest) := by
  induction g generalizing pAgg pSaved with
  | nil => exact absurd rfl hr.ne_nil
  | cons a g ih =>
    cases g with
    | nil =>
      obtain ⟨r1,h1,h⟩ := h.of_bind (feedRow_mono ctx p s pAgg a) fun r _ _ _ => Run.le_refl _
      have hr1 : r1 = r := by
        obtain ⟨_,hn⟩ := h.exists
        cases hn
        rfl
      subst hr1
      refine ⟨if r1.2 then a else pSaved.getD a,.last rfl rfl ?_⟩
      filter_upwards [h1] with n hn
      rw [List.singleton_append,groupTurn_eq,hn,ok_bind,endsGroup_ends hr,if_pos rfl]
      rfl
    | cons b g =>
      obtain ⟨r1,h1,h⟩ := h.of_bind (feedRow_mono ctx p s pAgg a) fun r => feedGroup_mono ctx p s (b::g) r.1
      obtain ⟨x,hx⟩ := ih hr.tail (if r1.2 then some a else pSaved) h
      refine ⟨x,.turn rfl rfl ?_ hx⟩
      filter_upwards [h1] with n hn
      rw [List.cons_append,groupTurn_eq,hn,ok_bind,endsGroup_goes hr,if_neg Bool.false_ne_true]

/-- The loop steps the aggregates over nothing else. -/
theorem Feeds.eq {g rest rows : List (ResultItem R)} (hr : IsRun (cmpResultItem s.pGroupBy) g rest)
    {pAgg : List (AggExpr R)} {pSaved : Option (ResultItem R)} {q : Query R}
    (h : Feeds ctx (p.atGroup s pAgg pSaved (g++rest)) rows q) :
    rows = g ∧ ∃ r x, Returns (fun n => feedGroup (interp n) ctx p s g pAgg) r ∧ q = p.afterGroup s r x rest := by
  induction g generalizing pAgg pSaved rows with
  | nil => exact absurd rfl hr.ne_nil
  | cons a g ih =>
    have hturn : ∀ t, Returns (fun n => groupTurn (interp n) ctx (p.atGroup s pAgg pSaved (a::g++rest))) t →
        ∃ r, Returns (fun n => feedRow (interp n) ctx p s pAgg a) r ∧
          t = if endsGroup s.pGroupBy a (g++rest) then
            .inl (p.atGroup s r.1 none ((if r.2 then a else pSaved.getD a) :: if r.2 then (g++rest).tail else g++rest))
            else .inr (p.atGroup s r.1 (if r.2 then some a else pSaved) (g++rest)) := by
      intro t ht
      simp only [List.cons_append,groupTurn_eq] at ht
      obtain ⟨r,h1,h2⟩ := ht.of_bind (feedRow_mono ctx p s pAgg a) fun _ _ _ _ => Run.le_refl _
      obtain ⟨_,hn⟩ := h2.exists
      cases hn
      exact ⟨r,h1,rfl⟩
    cases g with
    | nil =>
      cases h with
      | last hs hi h =>
        obtain ⟨r,h1,ht⟩ := hturn _ h
        rw [List.nil_append,endsGroup_ends hr,if_pos rfl] at ht
        cases ht
        cases hs
        cases hi
        exact ⟨rfl,r,_,h1.bind (Filter.Eventually.of_forall fun _ => rfl),rfl⟩
      | turn hs hi h _ =>
        obtain ⟨r,h1,ht⟩ := hturn _ h
        rw [List.nil_append,endsGroup_ends hr,if_pos rfl] at ht
        cases ht
    | cons b g =>
      cases h with
      | last hs hi h =>
        obtain ⟨r,h1,ht⟩ := hturn _ h
        rw [endsGroup_goes hr,if_neg Bool.false_ne_true] at ht
        cases ht
      | turn hs hi h hrows =>
        obtain ⟨r,h1,ht⟩ := hturn _ h
        rw [endsGroup_goes hr,if_neg Bool.false_ne_true] at ht
        cases ht
        cases hs
        cases hi
        obtain ⟨rfl,r',x,h2,hq⟩ := ih hr.tail hrows
        exact ⟨rfl,r',x,h1.bind h2,hq⟩

end Loop

theorem whered_mono : Stage.Mono (selectStepWhered : Stage R) :=
  fun ctx p _ _ h => whered_le (interp_le h) (Ctx.le_refl ctx) h p

theorem whered_stageNeutral : Stage.Neutral (selectStepWhered : Stage R) := by
  intro ctx p rc q hp h
  obtain ⟨n,hn⟩ := h.exists
  exact whered_neutral (interp_neutral n) ctx n hp hn

/-- The rows WHERE accepts, as they are put into the list: the values of the
GROUP BY expressions, then the documents. -/
def wheredRows (ctx : Ctx R) : Stepper (Query R) (ResultItem R) where
  row p pItem q := Steps selectStepWhered ctx p (.row,q) ∧ ∃ s keys es, q.u = .simple s ∧
    Returns (fun n => evalItems (interp n) (q.scope (interp n) ctx) (s.pGroupBy.getD [])) (keys,es) ∧
    pItem = ⟨keys ++ xjd1DataSrcCacheSave s.pFrom⟩
  done p q := Steps selectStepWhered ctx p (.done,q)

def groupOverlay (p0 : Query R) (l : ResultList R) : Overlay R :=
  ⟨some l,none,p0.pOrderBy,p0.pLimit,p0.pOffset,p0.ordered,p0.nLimit⟩

omit [CDouble R] in
theorem groupOverlay_free (p0 p : Query R) (l : ResultList R) (h : p.eDocFrom = .datasrc) :
    (groupOverlay p0 l).Free p :=
  ⟨by simp [h],by simp [h],by simp [h]⟩

theorem groupFillTurn_done {ctx : Ctx R} {p p0 q : Query R} {l : ResultList R} (h : (wheredRows ctx).done p q)
    (hd : p.eDocFrom = .datasrc) :
    Returns (fun n => groupFillTurn (interp n) n ctx (p.overlay (groupOverlay p0 l)))
      (.inl (q.overlay (groupOverlay p0 l))) := by
  have hf := groupOverlay_free p0 p l hd
  have hw := (Overlay.lift (fun n => whered_under (interp_inert n) n ctx ⟨rfl,hf⟩) h).1
  filter_upwards [hw] with n hn
  simp only [groupFillTurn,hn,ok_bind]

theorem groupFillTurn_row {ctx : Ctx R} {p q : Query R} {pItem : ResultItem R} (p0 : Query R)
    (l : ResultList R) (hp : p.Clean) (hd : p.eDocFrom = .datasrc) (h : (wheredRows ctx).row p pItem q) :
    Returns (fun n => groupFillTurn (interp n) n ctx (p.overlay (groupOverlay p0 l)))
      (.inr (q.overlay (groupOverlay p0 { l with pItem := pItem :: l.pItem }))) := by
  obtain ⟨h1,t,keys,es,ht,h2,rfl⟩ := h
  have hf := groupOverlay_free p0 p l hd
  have e1 := whered_stageNeutral ctx p _ q hp h1
  obtain ⟨hw,hfq⟩ := Overlay.lift (fun n => whered_under (interp_inert n) n ctx ⟨rfl,hf⟩) h1
  obtain ⟨m,hm⟩ := h2.exists
  have hes := groupBy_neutral (interp_neutral m) (hp.of_rewind e1) ht hm
  filter_upwards [hw,h2] with n hn hn2
  have hsc : (q.overlay (groupOverlay p0 l)).scope (interp n) ctx = q.scope (interp n) ctx :=
    scope_under (interp_inert n) ctx ⟨rfl,hfq⟩
  have hg : (t.overlay (groupOverlay p0 l)).pGroupBy = t.pGroupBy := rfl
  simp only [groupFillTurn,hn,ok_bind,simple_overlay ht,hsc,hg,hn2,hes]
  simp only [Query.setSimple,Query.overlay,ht,SimpleQuery.overlay,QueryU.overlay,groupOverlay]
  rfl

theorem groupFill_loop {ctx : Ctx R} {p q : Query R} {s : SimpleQuery R} {rows : List (ResultItem R)}
    (p0 : Query R) (l : ResultList R) (hp : p.Clean) (hs : p.u = .simple s) (hd : p.eDocFrom = .datasrc)
    (h : Delivers (wheredRows ctx) p rows q) :
    Returns (fun n => Run.loop (groupFillTurn (interp n) n ctx) n (p.overlay (groupOverlay p0 l)))
      (q.overlay (groupOverlay p0 { l with pItem := rows.reverse ++ l.pItem })) := by
  induction h generalizing l s with
  | done h => exact (groupFillTurn_done h hd).loop_exit
  | @row p q _ pItem rows h _ ih =>
    have ht := groupFillTurn_row p0 l hp hd h
    obtain ⟨n,hn⟩ := h.1.exists
    obtain ⟨d,w,rfl⟩ := whered_frame hs hn
    have hr := fun l => @ih _ l (hp.of_rewind (whered_stageNeutral ctx _ _ _ hp h.1)) rfl hd
    simp only [List.reverse_cons,List.append_assoc,List.singleton_append]
    exact ht.loop_turn (fun n m h => groupFillTurn_le (interp_le h) (Ctx.le_refl ctx) h) (hr _)

theorem wheredRows_frame {ctx : Ctx R} {p q : Query R} {s : SimpleQuery R} {rows : List (ResultItem R)}
    (hs : p.u = .simple s) (h : Delivers (wheredRows ctx) p rows q) :
    (∃ d w, q = p.atFrom s d w) ∧ ∀ i ∈ rows, (s.pGroupBy.getD []).length ≤ i.apKey.length := by
  induction h generalizing s with
  | done h =>
    obtain ⟨n,hn⟩ := Filter.Eventually.exists h
    exact ⟨whered_frame hs hn,nofun⟩
  | row h _ ih =>
    obtain ⟨h1,t,keys,es,ht,h2,rfl⟩ := h
    obtain ⟨n,hn⟩ := h1.exists
    obtain ⟨d,w,rfl⟩ := whered_frame hs hn
    obtain ⟨⟨d',w',rfl⟩,hlen⟩ := ih rfl
    refine ⟨⟨d',w',rfl⟩,fun i hi => ?_⟩
    rcases List.mem_cons.mp hi with rfl | hi
    · obtain ⟨m,hm⟩ := h2.exists
      cases ht
      rw [List.length_append,evalItems_length hm]
      exact Nat.le_add_right _ _
    · exact hlen i hi

def groupFillList (s : SimpleQuery R) (rows : List (ResultItem R)) : ResultList R :=
  { ResultList.new ((s.pGroupBy.getD []).length + xjd1DataSrcCount s.pFrom) with pItem := rows.reverse }

omit [CDouble R] in
theorem setGrouped_overlay {p p0 : Query R} {s : SimpleQuery R} (hp : p.u = .simple s) (l l' : ResultList R) :
    setGrouped (p.overlay (groupOverlay p0 l)) l' = .ok (p.overlay (groupOverlay p0 l')) := by
  rw [setGrouped,simple_overlay hp,ok_bind]
  simp only [Query.setSimple,Query.overlay,hp,SimpleQuery.overlay,QueryU.overlay,groupOverlay]
  rfl

omit [CDouble R] in
theorem overlay_grouped {p : Query R} {s : SimpleQuery R} (hp : p.u = .simple s) :
    p.overlay (groupOverlay p s.grouped) = p := overlay_own hp rfl rfl

theorem groupFill_eq {ctx : Ctx R} {p q : Query R} {s t : SimpleQuery R} {rows : List (ResultItem R)}
    (hp : p.Initial) (hs : p.u = .simple s) (ht : q.u = .simple t) (hg : t.pGroupBy = s.pGroupBy)
    (h : Delivers (wheredRows ctx) p rows q) :
    ∀ᶠ n in Filter.atTop, groupFill (interp n) n ctx p =
      (sortResultList (groupFillList s rows) s.pGroupBy false >>= fun l => .ok (q.overlay (groupOverlay p l))) := by
  have hd : p.eDocFrom = .datasrc := ((queryInitial_iff p).mp hp).2.2.2.2.1
  have hl := groupFill_loop p (.new ((s.pGroupBy.getD []).length + xjd1DataSrcCount s.pFrom)) hp.clean hs hd h
  filter_upwards [hl] with n hn
  have h1 : ∀ l, setGrouped p l = .ok (p.overlay (groupOverlay p l)) := fun l => by
    conv => lhs; rw [← overlay_grouped hs]
    exact setGrouped_overlay hs _ _
  have hs' : p.simple = .ok s := Query.simple_eq_ok.mpr hs
  simp only [groupFill,hs',ok_bind,h1,hn,simple_overlay ht,setGrouped_overlay ht]
  simp only [SimpleQuery.overlay,groupOverlay,Option.getD_some,ResultList.new,List.append_nil,hg,groupFillList]

/-- The groups of a SELECT: the rows the step functions of the aggregates are run on
by each step to a row. -/
def groupRows (ctx : Ctx R) : Stepper (Query R) (List (ResultItem R)) where
  row p rows q := Steps selectStepGrouped ctx p (.row,q) ∧ ∃ p1 p2,
    Returns (fun n => groupAdvance (interp n) n ctx p) p1 ∧ Feeds ctx { p1 with eDocFrom := .grouped } rows p2
  done p q := Steps selectStepGrouped ctx p (.done,q)

/-- The next step of `p` goes on with the rows `l`. -/
structure Boundary (ctx : Ctx R) (p b : Query R) (t : SimpleQuery R) (pAgg : List (AggExpr R))
    (l : List (ResultItem R)) : Prop where
  u : ∃ s, p.u = .simple s ∧ s.pAgg.isSome ∧ s.pGroupBy.isSome
  advance : ∃ p1, Returns (fun n => groupAdvance (interp n) n ctx p) p1 ∧
    { p1 with eDocFrom := .grouped } = b.atGroup t pAgg none l
  pGroupBy : t.pGroupBy.isSome
  pHaving : t.pHaving = none
  pPool : t.grouped.pPool = true

section Boundary
variable {ctx : Ctx R} {p b q : Query R} {t : SimpleQuery R} {pAgg : List (AggExpr R)} {l : List (ResultItem R)}

/-- The step after a group goes on with the rows behind the one that stands for it. -/
theorem Boundary.next (h : Boundary ctx p b t pAgg l) (pAgg' : List (AggExpr R)) (x : ResultItem R)
    (l' : List (ResultItem R)) : Boundary ctx (b.atGroup t pAgg' none (x::l')) b t pAgg' l' := by
  refine ⟨⟨_,rfl,rfl,h.pGroupBy⟩,⟨b.atGroup t pAgg' none l',Filter.Eventually.of_forall fun n => ?_,rfl⟩,
    h.pGroupBy,h.pHaving,h.pPool⟩
  have hs : (b.atGroup t pAgg' none (x::l')).simple = .ok _ := rfl
  simp only [groupAdvance,hs,ok_bind]
  rw [if_pos h.pPool]
  rfl

theorem Boundary.grouped (h : Boundary ctx p b t pAgg l) {rc : Rc} {pAgg' : List (AggExpr R)}
    {l' : List (ResultItem R)}
    (hn : Returns (fun n => groupNext (interp n) n ctx p) (rc,b.atGroup t pAgg' none l')) :
    Steps selectStepGrouped ctx p (rc,b.atGroup t pAgg' none l') := by
  obtain ⟨s,hs,ha,hg⟩ := h.u
  obtain ⟨a,ha⟩ := Option.isSome_iff_exists.mp ha
  obtain ⟨es,hg⟩ := Option.isSome_iff_exists.mp hg
  have hturn : Returns (fun n => havingTurn (interp n) n ctx p) (.inl (rc,b.atGroup t pAgg' none l')) := by
    filter_upwards [hn] with n hn
    have hs' : (b.atGroup t pAgg' none l').simple = .ok _ := rfl
    simp only [havingTurn,hn,ok_bind,hs',h.pHaving]
  filter_upwards [hturn.loop_exit] with n hn
  rw [selectStepGrouped,Query.simple_eq_ok.mpr hs,ok_bind,ha,hg]
  exact hn

theorem Boundary.done (h : Boundary ctx p b t pAgg []) :
    Steps selectStepGrouped ctx p (.done,b.atGroup t pAgg none []) := by
  obtain ⟨p1,h1,hp1⟩ := h.advance
  refine h.grouped ?_
  filter_upwards [h1] with n hn
  have hs : (b.atGroup t pAgg none []).simple = .ok _ := rfl
  simp only [groupNext,hn,ok_bind,hp1,hs]
  rfl

theorem Boundary.fed (h : Boundary ctx p b t pAgg l) (hl : l ≠ []) {rows rest : List (ResultItem R)}
    {r : List (AggExpr R) × Bool} {x : ResultItem R}
    (hf : Feeds ctx (b.atGroup t pAgg none l) rows (b.afterGroup t r x rest)) :
    (groupRows ctx).row p rows (b.afterGroup t (xjd1AggregateFinalize r.1,r.2) x rest) := by
  obtain ⟨p1,h1,hp1⟩ := h.advance
  refine ⟨h.grouped ?_,p1,_,h1,by rw [hp1]; exact hf⟩
  filter_upwards [h1,hf.loop] with n hn hloop
  have hs : (b.atGroup t pAgg none l).simple = .ok _ := rfl
  have hne : l.isEmpty = false := List.isEmpty_eq_false_iff.mpr hl
  simp only [groupNext,hn,ok_bind,hp1,hs,hne,Bool.false_eq_true,if_false,hloop]
  rfl

theorem Boundary.row {g rest : List (ResultItem R)} (h : Boundary ctx p b t pAgg (g++rest))
    (hr : IsRun (cmpResultItem t.pGroupBy) g rest) {r : List (AggExpr R) × Bool}
    (hf : Returns (fun n => feedGroup (interp n) ctx b t g pAgg) r) :
    ∃ x, (groupRows ctx).row p g (b.afterGroup t (xjd1AggregateFinalize r.1,r.2) x rest) := by
  obtain ⟨x,hx⟩ := feeds_of_feedGroup hr none hf
  exact ⟨x,h.fed (List.append_ne_nil_of_left_ne_nil hr.ne_nil _) hx⟩

theorem Boundary.row_eq {g rest rows : List (ResultItem R)} (h : Boundary ctx p b t pAgg (g++rest))
    (hr : IsRun (cmpResultItem t.pGroupBy) g rest) (hrow : (groupRows ctx).row p rows q) :
    rows = g ∧ ∃ r x, Returns (fun n => feedGroup (interp n) ctx b t g pAgg) r ∧
      q = b.afterGroup t (xjd1AggregateFinalize r.1,r.2) x rest := by
  obtain ⟨hq,p1,p2,h1,hf⟩ := hrow
  obtain ⟨p1',h1',hp1⟩ := h.advance
  obtain rfl := h1.unique h1'
  rw [hp1] at hf
  obtain ⟨rfl,r,x,h2,rfl⟩ := hf.eq hr
  obtain ⟨hs,_⟩ := h.fed (List.append_ne_nil_of_left_ne_nil hr.ne_nil _) hf
  cases hq.unique hs
  exact ⟨rfl,r,x,h2,rfl⟩

theorem groups_length_le {gs : List (List (ResultItem R))} (h : Boundary ctx p b t pAgg l)
    (hd : Delivers (groupRows ctx) p gs q) : gs.flatten.length ≤ l.length := by
  induction hd generalizing pAgg l with
  | done _ => exact Nat.zero_le _
  | @row p q' _ rows gs hrow _ ih =>
    cases hgs : runs (cmpResultItem t.pGroupBy) l with
    | nil =>
      rw [runs_eq_nil] at hgs
      subst hgs
      cases Returns.unique hrow.1 h.done
    | cons g gs' =>
      obtain ⟨rfl,hr,_⟩ := runs_eq_cons hgs
      obtain ⟨rfl,r,x,_,rfl⟩ := h.row_eq hr hrow
      have hle := ih (h.next (xjd1AggregateFinalize r.1) x _)
      rw [List.flatten_cons,List.length_append,List.length_append]
      split at hle
      · rw [List.length_tail] at hle
        omega
      · omega

omit [CDouble R] in
/-- What is left of the groups behind a group whose last row is not saved, or behind the last group. -/
theorem rest_eq {save : Bool} {saves : List Bool} {gs : List (List (ResultItem R))}
    (hlen : saves.length = gs.length) (hsave : ∀ s ∈ (save::saves).dropLast, s = false) :
    (if save then gs.flatten.tail else gs.flatten) = gs.flatten ∧ ∀ s ∈ saves.dropLast, s = false := by
  cases saves with
  | nil =>
    obtain rfl := List.length_eq_zero_iff.mp hlen.symm
    exact ⟨ite_self _,nofun⟩
  | cons b saves =>
    rw [List.dropLast_cons_cons] at hsave
    obtain rfl := hsave save List.mem_cons_self
    exact ⟨if_neg Bool.false_ne_true,fun s hs => hsave s (List.mem_cons_of_mem _ hs)⟩

/-- The groups are fed one after the other while no last row but that of the last group is saved. -/
theorem groups_delivers {saves : List Bool} (h : Boundary ctx p b t pAgg l)
    (hf : Returns (fun n => feedGroups (interp n) ctx b t (runs (cmpResultItem t.pGroupBy) l) pAgg) saves)
    (hsave : ∀ save ∈ saves.dropLast, save = false) :
    ∃ q, Delivers (groupRows ctx) p (runs (cmpResultItem t.pGroupBy) l) q := by
  generalize hgs : runs (cmpResultItem t.pGroupBy) l = gs at hf
  induction gs generalizing p pAgg l saves with
  | nil =>
    rw [runs_eq_nil] at hgs
    subst hgs
    exact ⟨_,.done h.done⟩
  | cons g gs ih =>
    obtain ⟨rfl,hr,hgs'⟩ := runs_eq_cons hgs
    obtain ⟨r,rest,hg,hrest,rfl⟩ := feedGroups_cons.mp hf
    obtain ⟨hl,hsave'⟩ := rest_eq (feedGroups_length hrest) hsave
    obtain ⟨x,hx⟩ := h.row hr hg
    rw [Query.afterGroup,hl] at hx
    obtain ⟨q,hq⟩ := ih (h.next (xjd1AggregateFinalize r.1) x gs.flatten) hsave' hgs' hrest
    exact ⟨q,.row hx hq⟩

/-- If every row is fed, no last row but that of the last group is saved. -/
theorem groups_saves {gs : List (List (ResultItem R))} (h : Boundary ctx p b t pAgg l)
    (hd : Delivers (groupRows ctx) p gs q) (hlen : gs.flatten.length = l.length) :
    ∃ saves, Returns (fun n => feedGroups (interp n) ctx b t (runs (cmpResultItem t.pGroupBy) l) pAgg) saves ∧
      ∀ save ∈ saves.dropLast, save = false := by
  induction hd generalizing pAgg l with
  | done _ =>
    obtain rfl := List.length_eq_zero_iff.mp hlen.symm
    exact ⟨[],Filter.Eventually.of_forall fun _ => rfl,nofun⟩
  | @row p q' _ rows gs hrow hd ih =>
    cases hgs : runs (cmpResultItem t.pGroupBy) l with
    | nil =>
      rw [runs_eq_nil] at hgs
      subst hgs
      cases Returns.unique hrow.1 h.done
    | cons g gs' =>
      obtain ⟨rfl,hr,hgs'⟩ := runs_eq_cons hgs
      obtain ⟨rfl,r,x,hg,rfl⟩ := h.row_eq hr hrow
      have hnext := h.next (xjd1AggregateFinalize r.1) x (if r.2 then gs'.flatten.tail else gs'.flatten)
      have hle := groups_length_le hnext hd
      rw [List.flatten_cons,List.length_append,List.length_append] at hlen
      -- a row dropped behind this group is not fed later
      have hkeep : r.2 = false ∨ gs'.flatten = [] := by
        by_contra hne
        rw [not_or,Bool.not_eq_false] at hne
        rw [hne.1,if_pos rfl,List.length_tail] at hle
        have hpos := List.length_pos_of_ne_nil hne.2
        omega
      have hl : (if r.2 then gs'.flatten.tail else gs'.flatten) = gs'.flatten := by
        rcases hkeep with h0 | h0
        · rw [h0,if_neg Bool.false_ne_true]
        · rw [h0,List.tail_nil,ite_self]
      obtain ⟨saves,hs,hsave⟩ := ih hnext (by rw [hl]; omega)
      rw [hl,hgs'] at hs
      refine ⟨r.2::saves,feedGroups_cons.mpr ⟨r,saves,hg,hs,rfl⟩,?_⟩
      cases saves with
      | nil => exact nofun
      | cons c saves =>
        have hne : gs' ≠ [] := by
          rintro rfl
          cases feedGroups_length hs
        have h0 : r.2 = false := hkeep.resolve_right fun h0 => by
          rw [h0] at hgs'
          exact hne (hgs'.symm.trans (runs_eq_nil.mpr rfl))
        rw [List.dropLast_cons_cons]
        intro save hm
        rcases List.mem_cons.mp hm with rfl | hm
        · exact h0
        · exact hsave save hm

end Boundary

/-- Stepping the aggregates over rows of the list depends on the clauses of the SELECT only. -/
theorem feedGroups_congr {ctx : Ctx R} {p : Query R} {s t : SimpleQuery R} (hr : t.pRes = s.pRes)
    (hg : t.pGroupBy = s.pGroupBy) (n : ℕ) (gs : List (List (ResultItem R))) (pAgg : List (AggExpr R)) :
    feedGroups (interp n) ctx p t gs pAgg = feedGroups (interp n) ctx p s gs pAgg := by
  have hrow : ∀ pAgg row, feedRow (interp n) ctx p t pAgg row = feedRow (interp n) ctx p s pAgg row := by
    intro pAgg row
    have hsame : SameRow (p.atGroup t pAgg none [row]) (p.atGroup s pAgg none [row]) _ _ :=
      ⟨rfl,rfl,rfl,rfl,hr,hg,rfl,rfl⟩
    rw [feedRow,feedRow,hsame.scope n]
  have hgroup : ∀ rows pAgg, feedGroup (interp n) ctx p t rows pAgg = feedGroup (interp n) ctx p s rows pAgg := by
    intro rows
    induction rows with
    | nil => exact fun _ => rfl
    | cons row rows ih => exact fun pAgg => by simp only [feedGroup,hrow,ih]
  induction gs generalizing pAgg with
  | nil => rfl
  | cons g gs ih => simp only [feedGroups,hgroup,ih]

section First
variable {ctx : Ctx R} {p q : Query R} {s : SimpleQuery R} {pAgg : List (AggExpr R)} {es : List (ExprItem R)}
  {rows : List (ResultItem R)} (hp : p.Initial) (hs : p.u = .simple s) (ha : s.pAgg = some pAgg)
  (hg : s.pGroupBy = some es) (hh : s.pHaving = none) (h : Delivers (wheredRows ctx) p rows q)

include hp hs h in
theorem groupAdvance_first : ∀ᶠ n in Filter.atTop, groupAdvance (interp n) n ctx p =
    (sortResultList (groupFillList s rows) s.pGroupBy false >>= fun l => .ok (q.overlay (groupOverlay p l))) := by
  obtain ⟨⟨d,w,rfl⟩,_⟩ := wheredRows_frame hs h
  have hl : s.grouped = .empty := by
    have hi := ((queryInitial_iff p).mp hp).1
    rw [hs,QueryU.Initial,simpleInitial_iff] at hi
    exact hi.2.2.2.2.2.2.1
  filter_upwards [groupFill_eq (t := { s with pFrom := d, pWhere := w }) hp hs rfl rfl h] with n hn
  rw [groupAdvance,Query.simple_eq_ok.mpr hs,ok_bind,hl,← hn]
  rfl

include hp hs ha hg hh h in
/-- Once the list is sorted, the first step goes on with its rows. -/
theorem boundary_first {l : List (ResultItem R)} (hsort : sortResultList (groupFillList s rows) s.pGroupBy false =
    .ok { groupFillList s rows with pItem := l }) :
    ∃ t, Boundary ctx p p t pAgg l ∧ t.pRes = s.pRes ∧ t.pGroupBy = s.pGroupBy := by
  have hadv := groupAdvance_first hp hs h
  obtain ⟨⟨d,w,rfl⟩,_⟩ := wheredRows_frame hs h
  simp only [hsort,ok_bind] at hadv
  refine ⟨{ s with pFrom := d, pWhere := w, grouped := groupFillList s rows },
    ⟨⟨s,hs,by rw [ha]; rfl,by rw [hg]; rfl⟩,⟨_,hadv,?_⟩,by rw [hg]; rfl,hh,rfl⟩,rfl,rfl⟩
  simp only [Query.atGroup,← ha]
  rfl

include hp hs ha hg h in
theorem group_overflow (hlen : 2^nSlot ≤ rows.length) (r : Rc × Query R) : ¬ Steps selectStepGrouped ctx p r := by
  rw [← List.length_reverse] at hlen
  have hadv := groupAdvance_first hp hs h
  simp only [sortResultList_overflow (groupFillList s rows) s.pGroupBy false hlen,stop_bind] at hadv
  intro hr
  refine Returns.not_faults hr (s := .slots) ?_
  filter_upwards [hadv,Filter.eventually_gt_atTop 0] with n hn hpos
  obtain ⟨n,rfl⟩ := Nat.exists_eq_succ_of_ne_zero hpos.ne'
  simp only [selectStepGrouped,Query.simple_eq_ok.mpr hs,ok_bind,ha,hg,Run.loop,havingTurn,groupNext,hn,stop_bind]

variable (ho : ∀ j < es.length, Ordered xjd1JsonCompare fun v => ∃ i ∈ rows, i.apKey[j]? = some v)

include hs hg h ho in
theorem rows_ordered : Ordered (cmpResultItem (some es)) (fun i => i ∈ rows ∧ es.length ≤ i.apKey.length) ∧
    ∀ i ∈ rows, i ∈ rows ∧ es.length ≤ i.apKey.length := by
  refine ⟨ordered_cmpResultItem_some es ho,fun i hi => ⟨hi,?_⟩⟩
  have hlen := (wheredRows_frame hs h).2 i hi
  rwa [hg] at hlen

include hp hs ha hg hh h ho

theorem boundary_sorted (hlen : rows.length < 2^nSlot) : ∃ l t, StableSort (cmpResultItem (some es)) rows l ∧
    Boundary ctx p p t pAgg l ∧ t.pRes = s.pRes ∧ t.pGroupBy = s.pGroupBy := by
  obtain ⟨hord,hrows⟩ := rows_ordered hs hg h ho
  obtain ⟨l,hl,hsort⟩ := sortResultList_sort hord (groupFillList s rows)
    (fun i hi => hrows i (List.mem_reverse.mp hi)) (by rwa [groupFillList,List.length_reverse])
  rw [groupFillList,List.reverse_reverse] at hl
  obtain ⟨t,ht⟩ := boundary_first hp hs ha hg hh h (l := l) (by rw [hg]; exact hsort)
  exact ⟨l,t,hl,ht⟩

theorem groups_need {gs : List (List (ResultItem R))} {u : Query R} (hd : Delivers (groupRows ctx) p gs u)
    (hgs : gs.flatten.Perm rows) : rows.length < 2^nSlot ∧ ∃ l saves, StableSort (cmpResultItem (some es)) rows l ∧
      Returns (fun n => feedGroups (interp n) ctx p s (runs (cmpResultItem (some es)) l) pAgg) saves ∧
      ∀ save ∈ saves.dropLast, save = false := by
  have hlen : rows.length < 2^nSlot := by
    by_contra hlen
    have hno := group_overflow hp hs ha hg h (Nat.le_of_not_lt hlen)
    cases hd with
    | done hd => exact hno _ hd
    | row hd _ => exact hno _ hd.1
  obtain ⟨l,t,hl,hb,hr,hgt⟩ := boundary_sorted hp hs ha hg hh h ho hlen
  obtain ⟨saves,hsave⟩ := groups_saves hb hd (hgs.length_eq.trans hl.perm.length_eq.symm)
  rw [hgt,hg] at hsave
  simp only [feedGroups_congr hr hgt] at hsave
  exact ⟨hlen,l,saves,hl,hsave⟩

end First

/-- `SELECT 1 FROM pFrom GROUP BY key`, with these aggregate calls. -/
def selectGroup (pFrom : DataSrc Int) (key : Expr Int) (pAgg : List (AggExpr Int)) : Query Int :=
  ⟨.simple ⟨false,some (.jvalue (.real 1)),pFrom,none,some [⟨none,key⟩],none,some pAgg,.empty,.empty⟩,none,none,none,
    none,.datasrc,.empty,none⟩

theorem selectGroup_initial {pFrom : DataSrc Int} {key : Expr Int} {pAgg : List (AggExpr Int)} (hf : pFrom.Initial)
    (hk : key.Initial) (ha : aggsInitial pAgg) : (selectGroup pFrom key pAgg).Initial := by
  simp [selectGroup,Query.Initial,QueryU.Initial,SimpleQuery.Initial,Expr.Initial,optionInitial,itemsOptionInitial,
    itemsInitial,aggsOptionInitial,hf,hk,ha]

theorem wheredRows_row {ctx : Ctx Int} {p q : Query Int} {s : SimpleQuery Int} {keys : List (JsonNode Int)}
    {es : List (ExprItem Int)} (n : ℕ) (h : selectStepWhered (interp n) n ctx p = .ok (.row,q)) (hs : q.u = .simple s)
    (hk : evalItems (interp n) (q.scope (interp n) ctx) (s.pGroupBy.getD []) = .ok (keys,es)) :
    (wheredRows ctx).row p ⟨keys ++ xjd1DataSrcCacheSave s.pFrom⟩ q :=
  ⟨whered_mono.steps n h,s,keys,es,hs,Returns.of_ok (fun _ _ h => evalItems_le (interp_le h)
    (scope_le (interp_le h) (Ctx.le_refl ctx) q) _) hk,rfl⟩

/-- The surroundings of a query over collections of the documents [2,1], [1,3], [2,5] and [1,4]. -/
def pairs : Ctx Int := ⟨[],.select,fun _ => [[ch '[',ch '2',ch ',',ch '1',ch ']'],[ch '[',ch '1',ch ',',ch '3',ch ']'],
  [ch '[',ch '2',ch ',',ch '5',ch ']'],[ch '[',ch '1',ch ',',ch '4',ch ']']]⟩

/-- `SELECT 1 FROM c GROUP BY c[0]`, with the call `min(c[1])`. -/
def selectPairsMin : Query Int :=
  selectGroup (.tab none .nullptr [ch 'c'] 0) (element 0) [⟨.min,[⟨none,element 1⟩],.nullptr,.null⟩]

/-- The rows of `selectPairsMin`: the key and the document. -/
def pairRows : List (ResultItem Int) := [⟨[.real 2,.array [.real 2,.real 1]]⟩,⟨[.real 1,.array [.real 1,.real 3]]⟩,
  ⟨[.real 2,.array [.real 2,.real 5]]⟩,⟨[.real 1,.array [.real 1,.real 4]]⟩]

theorem selectPairsMin_rows : ∃ q, Delivers (wheredRows pairs) selectPairsMin pairRows q := by
  have h : ∃ q1 q2 q3 q4 q5 s1 s2 s3 s4, (selectStepWhered (interp 6) 6 pairs selectPairsMin = .ok (.row,q1) ∧
      q1.u = .simple s1 ∧ evalItems (interp 6) (q1.scope (interp 6) pairs) (s1.pGroupBy.getD []) =
        .ok ([.real 2],[⟨none,element 0⟩]) ∧ xjd1DataSrcCacheSave s1.pFrom = [.array [.real 2,.real 1]]) ∧
      (selectStepWhered (interp 6) 6 pairs q1 = .ok (.row,q2) ∧
      q2.u = .simple s2 ∧ evalItems (interp 6) (q2.scope (interp 6) pairs) (s2.pGroupBy.getD []) =
        .ok ([.real 1],[⟨none,element 0⟩]) ∧ xjd1DataSrcCacheSave s2.pFrom = [.array [.real 1,.real 3]]) ∧
      (selectStepWhered (interp 6) 6 pairs q2 = .ok (.row,q3) ∧
      q3.u = .simple s3 ∧ evalItems (interp 6) (q3.scope (interp 6) pairs) (s3.pGroupBy.getD []) =
        .ok ([.real 2],[⟨none,element 0⟩]) ∧ xjd1DataSrcCacheSave s3.pFrom = [.array [.real 2,.real 5]]) ∧
      (selectStepWhered (interp 6) 6 pairs q3 = .ok (.row,q4) ∧
      q4.u = .simple s4 ∧ evalItems (interp 6) (q4.scope (interp 6) pairs) (s4.pGroupBy.getD []) =
        .ok ([.real 1],[⟨none,element 0⟩]) ∧ xjd1DataSrcCacheSave s4.pFrom = [.array [.real 1,.real 4]]) ∧
      selectStepWhered (interp 6) 6 pairs q4 = .ok (.done,q5) :=
    ⟨_,_,_,_,_,_,_,_,_,⟨rfl,rfl,rfl,rfl⟩,⟨rfl,rfl,rfl,rfl⟩,⟨rfl,rfl,rfl,rfl⟩,⟨rfl,rfl,rfl,rfl⟩,rfl⟩
  obtain ⟨q1,q2,q3,q4,q5,s1,s2,s3,s4,⟨h1,hs1,k1,d1⟩,⟨h2,hs2,k2,d2⟩,⟨h3,hs3,k3,d3⟩,⟨h4,hs4,k4,d4⟩,h5⟩ := h
  have r1 := wheredRows_row 6 h1 hs1 k1
  have r2 := wheredRows_row 6 h2 hs2 k2
  have r3 := wheredRows_row 6 h3 hs3 k3
  have r4 := wheredRows_row 6 h4 hs4 k4
  rw [d1] at r1
  rw [d2] at r2
  rw [d3] at r3
  rw [d4] at r4
  exact ⟨q5,.row r1 (.row r2 (.row r3 (.row r4 (.done (whered_mono.steps 6 h5)))))⟩

theorem oneTwo_ordered : Ordered xjd1JsonCompare fun v : JsonNode Int => v ∈ [.real 1,.real 2] := by
  have hswap : ∀ a ∈ [(.real 1 : JsonNode Int),.real 2], ∀ b ∈ [(.real 1 : JsonNode Int),.real 2],
      (xjd1JsonCompare a b < 0 ↔ 0 < xjd1JsonCompare b a) := by decide
  have htrans : ∀ a ∈ [(.real 1 : JsonNode Int),.real 2], ∀ b ∈ [(.real 1 : JsonNode Int),.real 2],
      ∀ c ∈ [(.real 1 : JsonNode Int),.real 2], xjd1JsonCompare a b ≤ 0 → xjd1JsonCompare b c ≤ 0 →
        xjd1JsonCompare a c ≤ 0 := by decide
  exact ⟨fun a b ha hb => hswap a ha b hb,fun a b c ha hb hc => htrans a ha b hb c hc⟩

/-- `SELECT 1 FROM c GROUP BY c`, with the call `min(c)`. -/
def selectGroupMin : Query Int :=
  selectGroup (.tab none .nullptr [ch 'c'] 0) firstDoc [⟨.min,[⟨none,firstDoc⟩],.nullptr,.null⟩]

theorem selectGroupMin_initial : selectGroupMin.Initial := by
  refine selectGroup_initial ?_ ?_ ?_
  · rw [DataSrc.Initial]
    exact ⟨rfl,rfl⟩
  · rw [firstDoc,Expr.Initial]
    trivial
  · simp [aggsInitial,itemsInitial,firstDoc,Expr.Initial]

/-- The rows of `selectGroupMin`: the key and the document. -/
def oneTwoRows : List (ResultItem Int) := [⟨[.real 1,.real 1]⟩,⟨[.real 2,.real 2]⟩]

theorem selectGroupMin_rows : ∃ q, Delivers (wheredRows oneTwo) selectGroupMin oneTwoRows q := by
  have h : ∃ q1 q2 q3 s1 s2, selectStepWhered (interp 6) 6 oneTwo selectGroupMin = .ok (.row,q1) ∧ q1.u = .simple s1 ∧
      evalItems (interp 6) (q1.scope (interp 6) oneTwo) (s1.pGroupBy.getD []) = .ok ([.real 1],[⟨none,firstDoc⟩]) ∧
      xjd1DataSrcCacheSave s1.pFrom = [.real 1] ∧
      selectStepWhered (interp 6) 6 oneTwo q1 = .ok (.row,q2) ∧ q2.u = .simple s2 ∧
      evalItems (interp 6) (q2.scope (interp 6) oneTwo) (s2.pGroupBy.getD []) = .ok ([.real 2],[⟨none,firstDoc⟩]) ∧
      xjd1DataSrcCacheSave s2.pFrom = [.real 2] ∧
      selectStepWhered (interp 6) 6 oneTwo q2 = .ok (.done,q3) :=
    ⟨_,_,_,_,_,rfl,rfl,rfl,rfl,rfl,rfl,rfl,rfl,rfl⟩
  obtain ⟨q1,q2,q3,s1,s2,h1,hs1,k1,d1,h2,hs2,k2,d2,h3⟩ := h
  have r1 := wheredRows_row 6 h1 hs1 k1
  have r2 := wheredRows_row 6 h2 hs2 k2
  rw [d1] at r1
  rw [d2] at r2
  exact ⟨q3,.row r1 (.row r2 (.done (whered_mono.steps 6 h3)))⟩

end Xjd1
