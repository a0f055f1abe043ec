import Xjd1.Query.Rewind

/-! ORDER BY, OFFSET and LIMIT. The rows of the stages below are put into a list
and sorted, or taken as they come; some are stepped over, and the rest counted. -/
namespace Xjd1

open Fueled Fueled.Run Delivery SlotSort

variable {R : Type} [CDouble R]

/-- The rows of the stages below ORDER BY, as they are put into the list: the
values of the keys, then the document. -/
def orderRows (ctx : Ctx R) : Stepper (Query R) (ResultItem R) where
  row p pItem q := ∃ p' keys es v, Steps stepCompounded ctx p (.row,p') ∧
    Returns (fun n => evalItems (interp n) (p'.scope (interp n) ctx) (p'.pOrderBy.getD [])) (keys,es) ∧
    Reads0 ctx p' (v,q) ∧ pItem = ⟨keys ++ [v]⟩
  done := (stream stepCompounded ctx).done

def ResultItem.last (pItem : ResultItem R) : JsonNode R := pItem.apKey.getLastD .nullptr

/-- `p` with another list of ordered rows and another limit, under the clauses of `p0`. -/
def orderOverlay (p0 : Query R) (l : ResultList R) (m : Option Int) : Overlay R :=
  ⟨none,none,p0.pOrderBy,p0.pLimit,p0.pOffset,l,m⟩

omit [CDouble R] in
theorem orderOverlay_free (p0 p : Query R) (l : ResultList R) (m : Option Int) :
    (orderOverlay p0 l m).Free p ↔ p.eDocFrom ≠ .ordered :=
  ⟨fun h => h.ordered,fun h => ⟨h,nofun,nofun⟩⟩

omit [CDouble R] in
theorem overlay_ordered (p : Query R) : p.overlay (orderOverlay p p.ordered p.nLimit) = p := by
  obtain ⟨u,_,_,_,_,_,_,_⟩ := p
  cases u with
  | simple s => exact congrArg (fun s => Query.mk (.simple s) _ _ _ _ _ _ _) (SimpleQuery.eta s)
  | compound c => rfl

omit [CDouble R] in
theorem pOrderBy_of_rewind {p q : Query R} (h : xjd1QueryRewind q = xjd1QueryRewind p) :
    q.pOrderBy = p.pOrderBy := by
  rw [queryRewind_eq,queryRewind_eq p,Query.mk.injEq] at h
  exact h.2.2.1

omit [CDouble R] in
theorem Query.Clean.pOrderBy {p : Query R} (hp : p.Clean) : itemsInitial (p.pOrderBy.getD []) := by
  rw [Query.Clean,queryRewind_eq,queryInitial_iff] at hp
  have h := hp.2.1
  simp only at h
  cases ho : p.pOrderBy with
  | none => rw [Option.getD_none,itemsInitial]; trivial
  | some es =>
    rw [ho,itemsOptionInitial] at h
    exact h

/-- What is known of a row of `orderRows`, as reading and evaluating leave the query as it is. -/
theorem orderRows_row {ctx : Ctx R} {p q : Query R} {pItem : ResultItem R} (hp : p.Clean)
    (h : (orderRows ctx).row p pItem q) : ∃ keys v, Steps stepCompounded ctx p (.row,q) ∧
      Returns (fun n => evalItems (interp n) (q.scope (interp n) ctx) (q.pOrderBy.getD []))
        (keys,q.pOrderBy.getD []) ∧
      Reads0 ctx q (v,q) ∧ pItem = ⟨keys ++ [v]⟩ ∧ xjd1QueryRewind q = xjd1QueryRewind p := by
  obtain ⟨p',keys,es,v,h1,h2,h3,rfl⟩ := h
  have e1 := compounded_stageNeutral ctx p .row p' hp h1
  have hc := hp.of_rewind e1
  obtain rfl := reads_eq hc h3
  obtain ⟨n,hn⟩ := h2.exists
  obtain rfl := evalItems_neutral (interp_neutral n) _ hc.pOrderBy hn
  exact ⟨keys,v,h1,h2,h3,rfl,e1⟩

section Fill
variable {ctx : Ctx R} {p p0 q : Query R} {l : ResultList R} {m : Option Int}

theorem orderFillTurn_row {pItem : ResultItem R} (hp : p.Clean) (ho : p.pOrderBy = p0.pOrderBy)
    (h : (orderRows ctx).row p pItem q) (hf : p.eDocFrom ≠ .ordered) :
    Returns (fun n => orderFillTurn (interp n) n ctx (p.overlay (orderOverlay p0 l m)))
      (.inr (q.overlay (orderOverlay p0 { l with pItem := pItem :: l.pItem } m))) ∧ q.eDocFrom ≠ .ordered := by
  obtain ⟨keys,v,h1,h2,h3,rfl,e1⟩ := orderRows_row hp h
  have hq : q.pOrderBy = p0.pOrderBy := (pOrderBy_of_rewind e1).trans ho
  obtain ⟨h1,hf1⟩ := h1.compounded_overlay ((orderOverlay_free p0 p l m).mpr hf) rfl rfl
  obtain ⟨h3,_⟩ := h3.overlay hf1
  refine ⟨?_,hf1.ordered⟩
  filter_upwards [h1,h2,h3] with n hn1 hn2 hn3
  have hs : (q.overlay (orderOverlay p0 l m)).scope (interp n) ctx = q.scope (interp n) ctx :=
    scope_under (interp_inert n) ctx ⟨rfl,hf1⟩
  have hes : (p0.pOrderBy.map fun _ => p0.pOrderBy.getD []) = p0.pOrderBy := by cases p0.pOrderBy <;> rfl
  have hob : (q.overlay (orderOverlay p0 l m)).pOrderBy = p0.pOrderBy := rfl
  simp only [orderFillTurn,hn1,ok_bind,hs,hob,← hq,hn2]
  rw [hq,hes]
  exact congrArg (fun x : Exec (JsonNode R × Query R) => x >>= fun r => .ok (Sum.inr { r.2 with
    ordered := addToResultList r.2.ordered (keys ++ [r.1]) })) hn3

theorem orderFillTurn_done (h : (orderRows ctx).done p q) (hf : p.eDocFrom ≠ .ordered) :
    Returns (fun n => orderFillTurn (interp n) n ctx (p.overlay (orderOverlay p0 l m)))
      (.inl (q.overlay (orderOverlay p0 l m))) := by
  filter_upwards [(Steps.compounded_overlay h ((orderOverlay_free p0 p l m).mpr hf) rfl rfl).1] with n hn
  simp only [orderFillTurn,hn,ok_bind]

theorem orderFill_loop {items : List (ResultItem R)} (hp : p.Clean) (ho : p.pOrderBy = p0.pOrderBy)
    (h : Delivers (orderRows ctx) p items q) (hf : p.eDocFrom ≠ .ordered) :
    Returns (fun n => Run.loop (orderFillTurn (interp n) n ctx) n (p.overlay (orderOverlay p0 l m)))
      (q.overlay (orderOverlay p0 { l with pItem := items.reverse ++ l.pItem } m)) := by
  induction h generalizing l with
  | done h => exact (orderFillTurn_done h hf).loop_exit
  | row h _ ih =>
    obtain ⟨_,_,_,_,_,_,e1⟩ := orderRows_row hp h
    obtain ⟨ht,hf'⟩ := orderFillTurn_row hp ho h hf
    have hr := fun l => @ih l (hp.of_rewind e1) ((pOrderBy_of_rewind e1).trans ho) hf'
    simp only [List.reverse_cons,List.append_assoc,List.singleton_append]
    exact ht.loop_turn (fun n m h => orderFillTurn_le (interp_le h) (Ctx.le_refl ctx) h) (hr _)

end Fill

theorem orderRows_length {ctx : Ctx R} {p q : Query R} {items : List (ResultItem R)} (hp : p.Clean)
    (h : Delivers (orderRows ctx) p items q) :
    ∀ i ∈ items, i.apKey.length = (p.pOrderBy.getD []).length + 1 := by
  induction h with
  | done _ => exact nofun
  | row h _ ih =>
    obtain ⟨keys,v,_,h2,_,rfl,e1⟩ := orderRows_row hp h
    have ho := pOrderBy_of_rewind e1
    intro i hi
    rcases List.mem_cons.mp hi with rfl | hi
    · obtain ⟨n,hn⟩ := h2.exists
      rw [List.length_append,evalItems_length hn,ho]
      rfl
    · rw [ih (hp.of_rewind e1) i hi,ho]

def Query.withLimit (p : Query R) (m : Option Int) : Query R := { p with nLimit := m }

/-- The rows of `selectStepOrdered`, which come the same whatever the limit is. -/
def orderedStream (ctx : Ctx R) : Stepper (Query R) (JsonNode R) where
  row p v q := ∀ m, Steps selectStepOrdered ctx (p.withLimit m) (.row,q.withLimit m) ∧
    Reads0 ctx (q.withLimit m) (v,q.withLimit m)
  done p q := ∀ m, Steps selectStepOrdered ctx (p.withLimit m) (.done,q.withLimit m)

theorem selectStepOrdered_plain {ctx : Ctx R} {p q : Query R} {rc : Rc} (ho : p.pOrderBy = none)
    (h : Steps stepCompounded ctx p (rc,q)) : Steps selectStepOrdered ctx p (rc,q) := by
  filter_upwards [h] with n hn
  rw [selectStepOrdered,ho,Option.isNone_none,if_pos rfl,hn]

theorem ordered_plain {ctx : Ctx R} {p p0 q : Query R} {items : List (ResultItem R)} {l : ResultList R}
    (hp : p.Clean) (ho : p0.pOrderBy = none) (h : Delivers (orderRows ctx) p items q)
    (hf : p.eDocFrom ≠ .ordered) :
    Delivers (orderedStream ctx) (p.overlay (orderOverlay p0 l none)) (items.map ResultItem.last)
      (q.overlay (orderOverlay p0 l none)) := by
  have hfree := fun (p : Query R) (hf : p.eDocFrom ≠ .ordered) m => (orderOverlay_free p0 p l m).mpr hf
  induction h with
  | done h =>
    exact .done fun m => selectStepOrdered_plain ho (Steps.compounded_overlay h (hfree _ hf m) rfl rfl).1
  | row h _ ih =>
    obtain ⟨keys,v,h1,_,h3,rfl,e1⟩ := orderRows_row hp h
    have hf1 := (h1.compounded_overlay (hfree _ hf none) rfl rfl).2.ordered
    refine .row (fun m => ?_) (ih (hp.of_rewind e1) hf1)
    obtain ⟨h1',hf'⟩ := h1.compounded_overlay (hfree _ hf m) rfl rfl
    refine ⟨selectStepOrdered_plain ho h1',?_⟩
    rw [ResultItem.last,List.getLastD_concat]
    exact (h3.overlay hf').1

structure Query.AtOrdered (p : Query R) : Prop where
  pOrderBy : p.pOrderBy.isSome
  eDocFrom : p.eDocFrom = .ordered
  pPool : p.ordered.pPool = true
  length : ∀ i ∈ p.ordered.pItem, i.apKey.length = p.ordered.nKey
  nKey : 0 < p.ordered.nKey

theorem Query.AtOrdered.reads {ctx : Ctx R} {p : Query R} {a : ResultItem R} {l : List (ResultItem R)}
    (h : p.AtOrdered) (hi : p.ordered.pItem = a::l) : Reads0 ctx p (a.last,p) := by
  have ha := h.length a (hi ▸ List.mem_cons_self)
  have hlast : a.apKey[p.ordered.nKey-1]? = some a.last := by
    rw [← ha,ResultItem.last,List.getLastD_eq_getLast?,List.getLast?_eq_getElem?]
    rw [List.getElem?_eq_getElem (Nat.sub_lt (by have := h.nKey; omega) Nat.one_pos)]
    rfl
  refine Returns.of_ok (queryDoc_mono ctx p 0) (n := 1) ?_
  show queryDoc (interp 0) ctx p 0 = _
  rw [queryDoc,if_pos h.eDocFrom,if_pos rfl,ResultList.doc,hi]
  simp only [hlast,ofOption_some,ok_bind]

theorem Query.AtOrdered.pop (ctx : Ctx R) {p : Query R} (h : p.AtOrdered) :
    Steps selectStepOrdered ctx p (if p.ordered.pItem.tail.isEmpty then .done else .row,
      { p with ordered := popResultList p.ordered }) := by
  refine Filter.Eventually.of_forall fun n => ?_
  have ho : p.pOrderBy.isNone = false := by
    rw [← Option.not_isSome,h.pOrderBy]
    rfl
  simp only [selectStepOrdered,orderAdvance,ho,h.pPool,h.eDocFrom,if_true,Bool.false_eq_true,if_false,ok_bind]
  rfl

omit [CDouble R] in
theorem Query.AtOrdered.popped {p : Query R} (h : p.AtOrdered) :
    Query.AtOrdered { p with ordered := popResultList p.ordered } :=
  ⟨h.pOrderBy,h.eDocFrom,h.pPool,fun i hi => h.length i (List.mem_of_mem_tail hi),h.nKey⟩

omit [CDouble R] in
theorem Query.AtOrdered.withLimit {p : Query R} (h : p.AtOrdered) (m : Option Int) :
    (p.withLimit m).AtOrdered := ⟨h.pOrderBy,h.eDocFrom,h.pPool,h.length,h.nKey⟩

theorem Query.AtOrdered.pops (ctx : Ctx R) {p : Query R} {a : ResultItem R} {l : List (ResultItem R)}
    (h : p.AtOrdered) (hi : p.ordered.pItem = a::l) :
    ∃ t, Delivers (orderedStream ctx) p (l.map ResultItem.last) t := by
  induction l generalizing p a with
  | nil =>
    refine ⟨_,.done (t := { p with ordered := popResultList p.ordered }) fun m => ?_⟩
    have hs := (h.withLimit m).pop ctx
    rwa [show (p.withLimit m).ordered.pItem = [a] from hi] at hs
  | cons b l ih =>
    have hb : (popResultList p.ordered).pItem = b::l := by rw [popResultList,hi]; rfl
    obtain ⟨t,ht⟩ := ih h.popped hb
    refine ⟨t,.row (fun m => ⟨?_,(h.popped.withLimit m).reads hb⟩) ht⟩
    have hs := (h.withLimit m).pop ctx
    rwa [show (p.withLimit m).ordered.pItem = a::b::l from hi] at hs

def orderFilled (p0 q : Query R) (l : ResultList R) (m : Option Int) : Query R :=
  { q.overlay (orderOverlay p0 l m) with eDocFrom := .ordered }

def orderFillList (p : Query R) (items : List (ResultItem R)) : ResultList R :=
  { ResultList.new ((p.pOrderBy.getD []).length + 1) with pItem := items.reverse }

theorem selectStepOrdered_first {ctx : Ctx R} {p q : Query R} {items : List (ResultItem R)} (hp : p.Initial)
    (ho : p.pOrderBy.isSome) (h : Delivers (orderRows ctx) p items q) (m : Option Int) :
    ∀ᶠ n in Filter.atTop, selectStepOrdered (interp n) n ctx (p.withLimit m) =
      (sortResultList (orderFillList p items) p.pOrderBy false >>= fun l =>
        .ok (if l.pItem.isEmpty then .done else .row,orderFilled p q l m)) := by
  have hi := (queryInitial_iff p).mp hp
  have hd : p.eDocFrom ≠ .ordered := by
    rw [hi.2.2.2.2.1]
    exact nofun
  have hl := orderFill_loop (l := .new ((p.pOrderBy.getD []).length + 1)) (m := m) hp.clean rfl h hd
  filter_upwards [hl] with n hn
  have ho' : (p.withLimit m).pOrderBy.isNone = false := by
    rw [← Option.not_isSome]
    exact congrArg not ho
  have hpool : (p.withLimit m).ordered.pPool = false := by
    show p.ordered.pPool = false
    rw [hi.2.2.2.2.2.1]
    rfl
  have hfill : ({ p.withLimit m with ordered := .new (((p.withLimit m).pOrderBy.getD []).length + 1) } : Query R) =
      p.overlay (orderOverlay p (.new ((p.pOrderBy.getD []).length + 1)) m) :=
    (congrArg (fun p : Query R => { p with ordered := .new ((p.pOrderBy.getD []).length + 1), nLimit := m })
      (overlay_ordered p)).symm
  simp only [selectStepOrdered,orderAdvance,orderFill,ho',hpool,Bool.false_eq_true,if_false,hfill,hn,ok_bind,
    bind_assoc]
  simp only [Query.overlay,orderOverlay,ResultList.new,List.append_nil]
  rfl

/-- `S` is `rows` in the order ORDER BY asks for. -/
def OrderedBy (pOrderBy : Option (List (ExprItem R))) (rows S : List (ResultItem R)) : Prop :=
  match pOrderBy with
  | none => S = rows
  | some es => StableSort (cmpResultItem (some es)) rows S

/-- The values of each sort key are totally preordered. -/
def KeysOrdered (pOrderBy : Option (List (ExprItem R))) (rows : List (ResultItem R)) : Prop :=
  ∀ j < (pOrderBy.getD []).length, Ordered xjd1JsonCompare fun v => ∃ i ∈ rows, i.apKey[j]? = some v

/-- The rows come in the order ORDER BY asks for, if the slots of the sort suffice. -/
theorem ordered_delivers {ctx : Ctx R} {p q : Query R} {rows : List (ResultItem R)} (hp : p.Initial)
    (h : Delivers (orderRows ctx) p rows q) (hk : KeysOrdered p.pOrderBy rows)
    (hlen : p.pOrderBy.isSome → rows.length < 2^nSlot) :
    ∃ S t, OrderedBy p.pOrderBy rows S ∧ Delivers (orderedStream ctx) p (S.map ResultItem.last) t := by
  have hi := (queryInitial_iff p).mp hp
  have hd : p.eDocFrom ≠ .ordered := by
    rw [hi.2.2.2.2.1]
    exact nofun
  cases ho : p.pOrderBy with
  | none =>
    have hl := ordered_plain (l := p.ordered) hp.clean ho h hd
    rw [← hi.2.2.2.2.2.2,overlay_ordered] at hl
    exact ⟨rows,_,rfl,hl⟩
  | some es =>
    have hes : p.pOrderBy.isSome := by rw [ho]; rfl
    rw [ho] at hk
    have hrows := orderRows_length hp.clean h
    rw [ho,Option.getD_some] at hrows
    obtain ⟨S,hS,hsort⟩ := sortResultList_sort (ordered_cmpResultItem_some es hk) (orderFillList p rows)
      (fun i hi => ⟨List.mem_reverse.mp hi,by rw [hrows i (List.mem_reverse.mp hi)]; omega⟩)
      ((List.length_reverse).trans_lt (hlen hes))
    rw [orderFillList,List.reverse_reverse] at hS
    have hf := selectStepOrdered_first hp hes h
    simp only [ho,hsort,ok_bind] at hf
    have hat : ∀ m, (orderFilled p q { orderFillList p rows with pItem := S } m).AtOrdered := by
      intro m
      refine ⟨hes,rfl,rfl,fun i hi => ?_,Nat.succ_pos _⟩
      rw [hrows i (hS.perm.mem_iff.mp hi)]
      show _ = (p.pOrderBy.getD []).length + 1
      rw [ho]
      rfl
    cases S with
    | nil => exact ⟨[],orderFilled p q { orderFillList p rows with pItem := [] } none,hS,.done hf⟩
    | cons a S =>
      obtain ⟨t,ht⟩ := (hat none).pops ctx (a := a) (l := S) rfl
      have hrow : (orderedStream ctx).row p a.last
          (orderFilled p q { orderFillList p rows with pItem := a::S } none) :=
        fun m => ⟨hf m,(hat m).reads rfl⟩
      exact ⟨a::S,t,hS,.row hrow ht⟩

end Xjd1
