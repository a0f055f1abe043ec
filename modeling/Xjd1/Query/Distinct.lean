import Xjd1.Json.Order
import Xjd1.Lib.SortedSets
import Xjd1.Query.Rewind

/-! DISTINCT. The rows of the stages below are put into a list, which is sorted
and rid of duplicates; the head of the list is the current row. -/
namespace Xjd1

open Fueled Fueled.Run Delivery SlotSort

variable {R : Type} [CDouble R]

def distinctRows (ctx : Ctx R) : Stepper (Query R) (ResultItem R) where
  row p pItem q := ∃ v s, (stream selectStepGrouped ctx).row p v q ∧ q.u = .simple s ∧
    pItem = ⟨v :: xjd1DataSrcCacheSave s.pFrom⟩
  done := (stream selectStepGrouped ctx).done

def distinctOverlay (p0 : Query R) (l : ResultList R) : Overlay R :=
  ⟨none,some l,p0.pOrderBy,p0.pLimit,p0.pOffset,p0.ordered,p0.nLimit⟩

omit [CDouble R] in
theorem distinctOverlay_free (p0 p : Query R) (l : ResultList R) :
    (distinctOverlay p0 l).Free p ↔ p.eDocFrom ≠ .ordered ∧ p.eDocFrom ≠ .distincted :=
  ⟨fun h => ⟨h.ordered,h.distincted rfl⟩,fun h => ⟨h.1,fun _ => h.2,nofun⟩⟩

omit [CDouble R] in
theorem simple_overlay {p : Query R} {s : SimpleQuery R} (hp : p.u = .simple s) (o : Overlay R) :
    (p.overlay o).simple = .ok (s.overlay o) := by
  rw [Query.simple_eq_ok,Query.overlay,hp]
  rfl

omit [CDouble R] in
theorem setDistincted_overlay {p p0 : Query R} {s : SimpleQuery R} (hp : p.u = .simple s)
    (l l' : ResultList R) :
    setDistincted (p.overlay (distinctOverlay p0 l)) l' = .ok (p.overlay (distinctOverlay p0 l')) := by
  rw [setDistincted,simple_overlay hp,ok_bind]
  simp only [Query.setSimple,Query.overlay,hp,SimpleQuery.overlay,QueryU.overlay,distinctOverlay]
  rfl

omit [CDouble R] in
theorem overlay_own {p : Query R} {s : SimpleQuery R} (hp : p.u = .simple s)
    {grouped distincted : Option (ResultList R)} (hg : grouped.getD s.grouped = s.grouped)
    (hd : distincted.getD s.distincted = s.distincted) :
    p.overlay ⟨grouped,distincted,p.pOrderBy,p.pLimit,p.pOffset,p.ordered,p.nLimit⟩ = p := by
  have hs : s.overlay ⟨grouped,distincted,p.pOrderBy,p.pLimit,p.pOffset,p.ordered,p.nLimit⟩ = s := by
    rw [SimpleQuery.overlay,hg,hd]
    exact SimpleQuery.eta s
  rw [Query.overlay,hp,QueryU.overlay,hs,← hp]
  exact Query.eta p

omit [CDouble R] in
theorem overlay_distincted {p : Query R} {s : SimpleQuery R} (hp : p.u = .simple s) :
    p.overlay (distinctOverlay p s.distincted) = p := overlay_own hp rfl rfl

theorem distinctFillTurn_row {ctx : Ctx R} {p p0 q : Query R} {pItem : ResultItem R} {l : ResultList R}
    (h : (distinctRows ctx).row p pItem q) (hf : (distinctOverlay p0 l).Free p) :
    Returns (fun n => distinctFillTurn (interp n) n ctx (p.overlay (distinctOverlay p0 l)))
      (.inr (q.overlay (distinctOverlay p0 { l with pItem := pItem :: l.pItem }))) ∧
    (distinctOverlay p0 { l with pItem := pItem :: l.pItem }).Free q := by
  obtain ⟨v,s,⟨p',h1,h2⟩,hs,rfl⟩ := h
  obtain ⟨h1,hf1⟩ := h1.grouped_overlay hf rfl
  obtain ⟨h2,hf2⟩ := h2.overlay hf1
  refine ⟨?_,(distinctOverlay_free p0 q _).mpr ((distinctOverlay_free p0 q l).mp hf2)⟩
  filter_upwards [h1,h2] with n hn1 hn2
  simp only [distinctFillTurn,hn1,hn2,ok_bind,simple_overlay hs,setDistincted_overlay hs]
  rfl

theorem distinctFillTurn_done {ctx : Ctx R} {p p0 q : Query R} {l : ResultList R}
    (h : (distinctRows ctx).done p q) (hf : (distinctOverlay p0 l).Free p) :
    Returns (fun n => distinctFillTurn (interp n) n ctx (p.overlay (distinctOverlay p0 l)))
      (.inl (q.overlay (distinctOverlay p0 l))) := by
  filter_upwards [(Steps.grouped_overlay h hf rfl).1] with n hn
  simp only [distinctFillTurn,hn,ok_bind]

theorem distinctFill_loop {ctx : Ctx R} {p p0 q : Query R} {items : List (ResultItem R)} {l : ResultList R}
    (h : Delivers (distinctRows ctx) p items q) (hf : (distinctOverlay p0 l).Free p) :
    Returns (fun n => Run.loop (distinctFillTurn (interp n) n ctx) n (p.overlay (distinctOverlay p0 l)))
      (q.overlay (distinctOverlay p0 { l with pItem := items.reverse ++ l.pItem })) := by
  induction h generalizing l with
  | done h => exact (distinctFillTurn_done h hf).loop_exit
  | row h _ ih =>
    obtain ⟨ht,hf'⟩ := distinctFillTurn_row h hf
    have hr := ih hf'
    simp only [List.reverse_cons,List.append_assoc,List.singleton_append]
    exact ht.loop_turn (fun n m h => distinctFillTurn_le (interp_le h) (Ctx.le_refl ctx) h) hr

def distinctFilled (p0 q : Query R) (l : ResultList R) : Query R :=
  { q.overlay (distinctOverlay p0 l) with eDocFrom := .distincted }

def distinctFillList (s : SimpleQuery R) (items : List (ResultItem R)) : ResultList R :=
  { ResultList.new (1 + xjd1DataSrcCount s.pFrom) with pItem := items.reverse }

theorem distinctFill_eq {ctx : Ctx R} {p q : Query R} {s t : SimpleQuery R} {items : List (ResultItem R)}
    (hp : p.Initial) (hs : p.u = .simple s) (ht : q.u = .simple t)
    (h : Delivers (distinctRows ctx) p items q) :
    ∀ᶠ n in Filter.atTop, distinctFill (interp n) n ctx p =
      (sortResultList (distinctFillList s items) none true >>= fun l => .ok (distinctFilled p q l)) := by
  have hf : (distinctOverlay p (.new (1 + xjd1DataSrcCount s.pFrom))).Free p := by
    rw [distinctOverlay_free,((queryInitial_iff p).mp hp).2.2.2.2.1]
    exact ⟨nofun,nofun⟩
  filter_upwards [distinctFill_loop h hf] with n hn
  have h1 : setDistincted p (.new (1 + xjd1DataSrcCount s.pFrom)) =
      .ok (p.overlay (distinctOverlay p (.new (1 + xjd1DataSrcCount s.pFrom)))) := by
    conv => lhs; rw [← overlay_distincted hs]
    exact setDistincted_overlay hs _ _
  have hs' : p.simple = .ok s := Query.simple_eq_ok.mpr hs
  simp only [distinctFill,hs',ok_bind,h1,hn,simple_overlay ht,setDistincted_overlay ht]
  simp only [SimpleQuery.overlay,distinctOverlay,Option.getD_some,ResultList.new,List.append_nil]
  rfl

theorem selectStepDistinct_first {ctx : Ctx R} {p q : Query R} {s t : SimpleQuery R}
    {items : List (ResultItem R)} (hp : p.Initial) (hs : p.u = .simple s) (hd : s.isDistinct = true)
    (ht : q.u = .simple t) (h : Delivers (distinctRows ctx) p items q) :
    ∀ᶠ n in Filter.atTop, selectStepDistinct (interp n) n ctx p =
      (sortResultList (distinctFillList s items) none true >>= fun l => .ok (.row,distinctFilled p q l)) := by
  have hl : s.distincted.pPool = false := by
    have hi := ((queryInitial_iff p).mp hp).1
    rw [hs,QueryU.Initial,simpleInitial_iff] at hi
    rw [hi.2.2.2.2.2.2.2]
    rfl
  filter_upwards [distinctFill_eq hp hs ht h] with n hn
  rw [selectStepDistinct,Query.simple_eq_ok.mpr hs]
  simp only [ok_bind,hd,hl,if_true,Bool.false_eq_true,if_false,hn,bind_assoc]

structure Query.AtDistinct (p : Query R) (s : SimpleQuery R) : Prop where
  u : p.u = .simple s
  eDocFrom : p.eDocFrom = .distincted
  isDistinct : s.isDistinct = true
  pPool : s.distincted.pPool = true

def distinctItems (ctx : Ctx R) : Stepper (Query R) (ResultItem R) where
  row p pItem q := Steps selectStepDistinct ctx p (.row,q) ∧ ∃ s l, q.AtDistinct s ∧ s.distincted.pItem = pItem::l
  done p q := Steps selectStepDistinct ctx p (.done,q)

theorem selectStepDistinct_pop (ctx : Ctx R) {p : Query R} {s : SimpleQuery R} (h : p.AtDistinct s) :
    Steps selectStepDistinct ctx p (if s.distincted.pItem.tail.isEmpty then .done else .row,
      p.setSimple { s with distincted := popResultList s.distincted }) := by
  refine Filter.Eventually.of_forall fun n => ?_
  simp only [selectStepDistinct,setDistincted,Query.simple_eq_ok.mpr h.u,ok_bind,h.isDistinct,h.pPool,if_true]
  rfl

theorem distinct_pops (ctx : Ctx R) {p : Query R} {s : SimpleQuery R} {a : ResultItem R}
    {l : List (ResultItem R)} (h : p.AtDistinct s) (hi : s.distincted.pItem = a::l) :
    ∃ t, Delivers (distinctItems ctx) p l t := by
  have hs := selectStepDistinct_pop ctx h
  rw [hi,List.tail_cons] at hs
  induction l generalizing p s a with
  | nil => exact ⟨_,.done hs⟩
  | cons b l ih =>
    have hb : (popResultList s.distincted).pItem = b::l := by rw [popResultList,hi]; rfl
    have h' : (p.setSimple { s with distincted := popResultList s.distincted }).AtDistinct
        { s with distincted := popResultList s.distincted } := ⟨rfl,h.eDocFrom,h.isDistinct,h.pPool⟩
    have hs' := selectStepDistinct_pop ctx h'
    rw [show (popResultList s.distincted).pItem.tail = l by rw [hb]; rfl] at hs'
    obtain ⟨t,ht⟩ := ih h' hb hs'
    exact ⟨t,.row ⟨hs,_,l,h',hb⟩ ht⟩

omit [CDouble R] in
theorem isDistinct_of_rewind {s t : SimpleQuery R} (h : simpleRewind t = simpleRewind s) :
    t.isDistinct = s.isDistinct := by
  rw [simpleRewind_eq,simpleRewind_eq s,SimpleQuery.mk.injEq] at h
  exact h.1

omit [CDouble R] in
theorem distinctFilled_at (p : Query R) {q : Query R} {s t : SimpleQuery R} (hd : s.isDistinct = true)
    (ht : q.u = .simple t) (hr : simpleRewind t = simpleRewind s) (l : ResultList R) (hl : l.pPool = true) :
    (distinctFilled p q l).AtDistinct { t with distincted := l } := by
  refine ⟨?_,rfl,(isDistinct_of_rewind hr).trans hd,hl⟩
  rw [distinctFilled,Query.overlay,ht]
  rfl

theorem distinctRows_of_stream {ctx : Ctx R} {p q : Query R} {s : SimpleQuery R} {vs : List (JsonNode R)}
    (hp : p.Clean) (hs : p.u = .simple s) (h : Delivers (stream selectStepGrouped ctx) p vs q) :
    ∃ items t, Delivers (distinctRows ctx) p items q ∧ items.map ResultItem.first = vs ∧
      (∀ i ∈ items, i.apKey ≠ []) ∧ q.u = .simple t ∧ simpleRewind t = simpleRewind s := by
  induction h generalizing s with
  | done h =>
    obtain ⟨t,ht,hr⟩ := Query.simple_of_rewind hs (grouped_stageNeutral ctx _ _ _ hp h)
    exact ⟨[],t,.done h,rfl,nofun,ht,hr⟩
  | row h _ ih =>
    have e1 := (grouped_stageNeutral.row hp h).2.2
    obtain ⟨t,ht,hr⟩ := Query.simple_of_rewind hs e1
    obtain ⟨items,u,hi,hv,hk,hu,hru⟩ := ih (hp.of_rewind e1) ht
    refine ⟨⟨_ :: xjd1DataSrcCacheSave t.pFrom⟩::items,u,.row ⟨_,t,h,ht,rfl⟩ hi,?_,?_,hu,hru.trans hr⟩
    · rw [List.map_cons,hv]
      rfl
    · intro i hi
      rcases List.mem_cons.mp hi with rfl | hi
      · exact List.cons_ne_nil _ _
      · exact hk i hi

/-- One value of each class of the values in `V`, in strictly ascending order. -/
structure ClassesOf (V : JsonNode R → Prop) (ws : List (JsonNode R)) : Prop where
  ascending : SortedSets.Ascending xjd1JsonCompare ws
  sound : ∀ w ∈ ws, V w
  complete : ∀ v, V v → ∃ w ∈ ws, xjd1JsonCompare v w = 0

/-- Sorting rows without duplicates by their first value leaves one row of each class of values. -/
theorem sortResultList_classes {vs : List (JsonNode R)} (ho : Ordered xjd1JsonCompare (· ∈ vs))
    (l : ResultList R) (hk : ∀ i ∈ l.pItem, i.apKey ≠ []) (hv : l.pItem.reverse.map ResultItem.first = vs)
    (hlen : vs.length < 2^nSlot) :
    ∃ out, sortResultList l none true = .ok { l with pItem := out } ∧ (∀ i ∈ out, i ∈ l.pItem) ∧
      ClassesOf (· ∈ vs) (out.map ResultItem.first) := by
  have hmem : ∀ i ∈ l.pItem, i.first ∈ vs := fun i hi => by
    rw [← hv]
    exact List.mem_map_of_mem (List.mem_reverse.mpr hi)
  have hlen' : l.pItem.length < 2^nSlot := by
    rwa [← hv,List.length_map,List.length_reverse] at hlen
  have hl : ∀ i ∈ l.pItem, i.apKey ≠ [] ∧ i.first ∈ vs := fun i hi => ⟨hk i hi,hmem i hi⟩
  obtain ⟨out,h1,h2,h3,h4⟩ := sortResultList_uniq (ordered_cmpResultItem_none ho) l hl hlen'
  refine ⟨out,h4,h2,?_,?_,?_⟩
  · rw [SortedSets.Ascending,List.pairwise_map]
    refine h1.imp_of_mem fun {a b} ha hb hab => ?_
    rwa [cmpResultItem_none (hk a (h2 a ha)) (hk b (h2 b hb))] at hab
  · intro w hw
    obtain ⟨i,hi,rfl⟩ := List.mem_map.mp hw
    exact hmem i (h2 i hi)
  · intro v hv'
    rw [← hv] at hv'
    obtain ⟨i,hi,rfl⟩ := List.mem_map.mp hv'
    rw [List.mem_reverse] at hi
    obtain ⟨j,hj,hij⟩ := h3 i hi
    rw [cmpResultItem_none (hk i hi) (hk j (h2 j hj))] at hij
    exact ⟨j.first,List.mem_map_of_mem hj,hij⟩

def distinctHeads (ctx : Ctx R) : Stepper (Query R) (JsonNode R) where
  row p v q := Steps selectStepDistinct ctx p (.row,q) ∧ ∃ s, q.u = .simple s ∧ s.distincted.doc 0 = .ok v
  done p q := Steps selectStepDistinct ctx p (.done,q)

theorem distinctHeads_of_items {ctx : Ctx R} {p t : Query R} {out : List (ResultItem R)}
    (h : Delivers (distinctItems ctx) p out t) (hk : ∀ i ∈ out, i.apKey ≠ []) :
    Delivers (distinctHeads ctx) p (out.map ResultItem.first) t := by
  induction h with
  | done h => exact .done h
  | @row p q t i out h _ ih =>
    obtain ⟨h1,s,l,h2,h3⟩ := h
    refine .row ⟨h1,s,h2.u,?_⟩ (ih fun j hj => hk j (List.mem_cons_of_mem i hj))
    have hi := hk i List.mem_cons_self
    obtain ⟨as⟩ := i
    cases as with
    | nil => exact absurd rfl hi
    | cons v as => simp [ResultList.doc,h3,ResultItem.first]

section Delivers
variable {ctx : Ctx R} {p q : Query R} {s t : SimpleQuery R} {items : List (ResultItem R)} (hp : p.Initial)
  (hs : p.u = .simple s) (hd : s.isDistinct = true) (h : Delivers (distinctRows ctx) p items q)
  (ht : q.u = .simple t) (hr : simpleRewind t = simpleRewind s)

include hp hs hd h ht hr in
/-- The first step is to a row, at the sorted list whatever is in it. -/
theorem distinct_sorted {out : List (ResultItem R)} (hsort : sortResultList (distinctFillList s items) none true =
    .ok { distinctFillList s items with pItem := out }) :
    ∃ y r, Steps selectStepDistinct ctx p (.row,y) ∧ y.AtDistinct r ∧ r.distincted.pItem = out := by
  have hf := selectStepDistinct_first hp hs hd ht h
  simp only [hsort,ok_bind] at hf
  exact ⟨_,_,hf,distinctFilled_at p hd ht hr { distinctFillList s items with pItem := out } rfl,rfl⟩

include hp hs hd h ht hr in
theorem distinct_run {out : List (ResultItem R)} (hsort : sortResultList (distinctFillList s items) none true =
    .ok { distinctFillList s items with pItem := out }) (hne : out ≠ []) :
    ∃ u, Delivers (distinctItems ctx) p out u := by
  obtain ⟨y,r,h1,h2,h3⟩ := distinct_sorted hp hs hd h ht hr hsort
  cases out with
  | nil => exact absurd rfl hne
  | cons a out =>
    obtain ⟨u,hu⟩ := distinct_pops ctx h2 h3
    exact ⟨u,.row ⟨h1,r,out,h2,h3⟩ hu⟩

omit hr in
include hp hs hd h ht in
/-- With `2^40` rows or more, the sort runs off its slots. -/
theorem distinct_overflow (hlen : 2^nSlot ≤ items.length) (r : Rc × Query R) :
    ¬ Steps selectStepDistinct ctx p r := by
  rw [← List.length_reverse] at hlen
  have hf := selectStepDistinct_first hp hs hd ht h
  simp only [sortResultList_overflow (distinctFillList s items) none true hlen,stop_bind] at hf
  exact fun hr => Returns.not_faults hr hf

end Delivers

section Heads
variable {ctx : Ctx R} {p q : Query R} {s : SimpleQuery R} {vs : List (JsonNode R)} (hp : p.Initial)
  (hs : p.u = .simple s) (hd : s.isDistinct = true) (h : Delivers (stream selectStepGrouped ctx) p vs q)
include hp hs hd h

theorem distinct_delivers (ho : Ordered xjd1JsonCompare (· ∈ vs)) (hne : vs ≠ []) (hlen : vs.length < 2^nSlot) :
    ∃ ws t, Delivers (distinctHeads ctx) p ws t ∧ ClassesOf (· ∈ vs) ws := by
  obtain ⟨items,t,hi,rfl,hk,ht,hr⟩ := distinctRows_of_stream hp.clean hs h
  obtain ⟨out,h1,h2,h3⟩ := sortResultList_classes ho (distinctFillList s items)
    (fun i hi => hk i (List.mem_reverse.mp hi)) (by rw [distinctFillList,List.reverse_reverse]) hlen
  have hout : out ≠ [] := by
    rintro rfl
    obtain ⟨v,hv⟩ := List.exists_mem_of_ne_nil _ hne
    obtain ⟨_,hw,_⟩ := h3.complete v hv
    cases hw
  obtain ⟨u,hu⟩ := distinct_run hp hs hd hi ht hr h1 hout
  exact ⟨_,u,distinctHeads_of_items hu fun i hi => hk i (List.mem_reverse.mp (h2 i hi)),h3⟩

theorem distinct_noRows (hvs : vs = []) : ¬ ∃ ws t, Delivers (distinctHeads ctx) p ws t := by
  obtain ⟨items,t,hi,hv,_,ht,hr⟩ := distinctRows_of_stream hp.clean hs h
  rw [hvs,List.map_eq_nil_iff] at hv
  subst hv
  obtain ⟨y,r,h1,h2,h3⟩ := distinct_sorted hp hs hd hi ht hr (sortResultList_nil rfl)
  rintro ⟨ws,u,hw⟩
  cases hw with
  | done hw => cases Returns.unique h1 hw
  | row hw _ =>
    obtain ⟨hw,r',hr',hdoc⟩ := hw
    cases Returns.unique h1 hw
    rw [h2.u] at hr'
    cases hr'
    rw [ResultList.doc,h3] at hdoc
    cases hdoc

/-- DISTINCT shows one row of each class exactly when there are rows, and fewer than the sort's slots hold. -/
theorem distinct_delivers_iff (ho : Ordered xjd1JsonCompare (· ∈ vs)) :
    (∃ ws t, Delivers (distinctHeads ctx) p ws t ∧ ClassesOf (· ∈ vs) ws) ↔ vs ≠ [] ∧ vs.length < 2^nSlot := by
  constructor
  · rintro ⟨ws,t,hw,_⟩
    refine ⟨fun hvs => distinct_noRows hp hs hd h hvs ⟨ws,t,hw⟩,?_⟩
    by_contra hlen
    obtain ⟨items,u,hi,rfl,_,hu,_⟩ := distinctRows_of_stream hp.clean hs h
    have hno := distinct_overflow hp hs hd hi hu ((Nat.le_of_not_lt hlen).trans_eq (List.length_map _))
    cases hw with
    | done hw => exact hno _ hw
    | row hw _ => exact hno _ hw.1
  · rintro ⟨hne,hlen⟩
    exact distinct_delivers hp hs hd h ho hne hlen

end Heads

/-- The surroundings of a query over collections of the documents 2, 1, 2, 1 and "x". -/
def repeated : Ctx Int := ⟨[],.select,fun _ => [[ch '2'],[ch '1'],[ch '2'],[ch '1'],[ch '"',ch 'x',ch '"']]⟩

/-- `SELECT DISTINCT c FROM c` -/
def selectDistinctDoc : Query Int :=
  ⟨.simple ⟨true,some firstDoc,.tab none .nullptr [ch 'c'] 0,none,none,none,none,.empty,.empty⟩,none,none,none,none,
    .datasrc,.empty,none⟩

theorem selectDistinctDoc_rows : ∃ q, Delivers (stream selectStepGrouped repeated) selectDistinctDoc
    [.real 2,.real 1,.real 2,.real 1,.string [ch 'x']] q := by
  have h : ∃ q1 q2 q3 q4 q5 q6, (selectStepGrouped (interp 4) 4 repeated selectDistinctDoc = .ok (.row,q1) ∧
      (interp 4).xjd1QueryDoc repeated q1 0 = .ok (.real 2,q1)) ∧
      (selectStepGrouped (interp 4) 4 repeated q1 = .ok (.row,q2) ∧
      (interp 4).xjd1QueryDoc repeated q2 0 = .ok (.real 1,q2)) ∧
      (selectStepGrouped (interp 4) 4 repeated q2 = .ok (.row,q3) ∧
      (interp 4).xjd1QueryDoc repeated q3 0 = .ok (.real 2,q3)) ∧
      (selectStepGrouped (interp 4) 4 repeated q3 = .ok (.row,q4) ∧
      (interp 4).xjd1QueryDoc repeated q4 0 = .ok (.real 1,q4)) ∧
      (selectStepGrouped (interp 4) 4 repeated q4 = .ok (.row,q5) ∧
      (interp 4).xjd1QueryDoc repeated q5 0 = .ok (.string [ch 'x'],q5)) ∧
      selectStepGrouped (interp 4) 4 repeated q5 = .ok (.done,q6) :=
    ⟨_,_,_,_,_,_,⟨rfl,rfl⟩,⟨rfl,rfl⟩,⟨rfl,rfl⟩,⟨rfl,rfl⟩,⟨rfl,rfl⟩,rfl⟩
  obtain ⟨q1,q2,q3,q4,q5,q6,h1,h2,h3,h4,h5,h6⟩ := h
  have hrow {p q : Query Int} {v : JsonNode Int} (h : selectStepGrouped (interp 4) 4 repeated p = .ok (.row,q) ∧
      (interp 4).xjd1QueryDoc repeated q 0 = .ok (v,q)) : (stream selectStepGrouped repeated).row p v q :=
    ⟨q,grouped_mono.steps 4 h.1,Returns.of_ok (queryDoc_mono _ _ 0) h.2⟩
  exact ⟨q6,.row (hrow h1) (.row (hrow h2) (.row (hrow h3) (.row (hrow h4) (.row (hrow h5)
    (.done (grouped_mono.steps 4 h6))))))⟩

/-- Three classes, two of them with two values each. -/
theorem distinct_delivers_repeated : ∃ ws t, Delivers (distinctHeads repeated) selectDistinctDoc ws t ∧
    ClassesOf (· ∈ [.real 2,.real 1,.real 2,.real 1,.string [ch 'x']]) ws := by
  obtain ⟨q,hq⟩ := selectDistinctDoc_rows
  have hi : selectDistinctDoc.Initial := by
    simp [selectDistinctDoc,firstDoc,Query.Initial,QueryU.Initial,SimpleQuery.Initial,DataSrc.Initial,Expr.Initial,
      optionInitial,itemsOptionInitial,aggsOptionInitial]
  refine (distinct_delivers_iff hi rfl rfl hq ((ordered_xjd1JsonCompare numbers_int).mono ?_)).mpr
    ⟨List.cons_ne_nil _ _,by decide⟩
  simp [NodeOf]

/-- DISTINCT over an empty collection never gets past a row without a value. -/
theorem distinct_delivers_noRows : ∃ (p q : Query Int) (s : SimpleQuery Int), p.Initial ∧ p.u = .simple s ∧
    s.isDistinct = true ∧ Delivers (stream selectStepGrouped noCollections) p [] q ∧
    ¬ ∃ ws t, Delivers (distinctHeads noCollections) p ws t ∧ ClassesOf (· ∈ []) ws := by
  have h : ∃ r, selectStepGrouped (interp 4) 4 noCollections (selectDistinctOne (.tab none .nullptr [] 0)) =
      .ok (.done,r) := ⟨_,rfl⟩
  obtain ⟨r,h⟩ := h
  have hi := selectDistinctOne_initial _ noRows_initial
  have hd : Delivers (stream selectStepGrouped noCollections) (selectDistinctOne (.tab none .nullptr [] 0)) [] r :=
    .done (grouped_mono.steps 4 h)
  exact ⟨_,r,_,hi,rfl,rfl,hd,fun ⟨ws,t,hw,_⟩ => distinct_noRows hi rfl rfl hd rfl ⟨ws,t,hw⟩⟩

end Xjd1
