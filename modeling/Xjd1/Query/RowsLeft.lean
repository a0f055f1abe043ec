import Xjd1.Query.HeadSteps

/-! The rows that a query has left before a step, on the lists of its stages, and whether
the step takes it past the last one. -/
namespace Xjd1

open Fueled Fueled.Run

variable {R : Type} [CDouble R]

section Left
variable (I : Interp R) (n : ℕ) (ctx : Ctx R)

/-- The rows behind the head of the sorted list, or all rows if the list is still to be filled. -/
def Query.sortedLeft (p : Query R) : Exec ℕ :=
  if p.ordered.pPool then
    if p.eDocFrom = .ordered then .ok p.ordered.pItem.tail.length
    else .stop .assertFail
  else do
    let p ← orderFill I n ctx p
    .ok p.ordered.pItem.length

def Query.distinctLeft (p : Query R) (s : SimpleQuery R) : Exec ℕ :=
  if s.distincted.pPool then .ok s.distincted.pItem.tail.length
  else do
    let p ← distinctFill I n ctx p
    let s ← p.simple
    .ok s.distincted.pItem.length

/-- How many of the next `k` groups there are that HAVING accepts, and the query behind them. -/
def groupsLeft : ℕ → Query R → Exec (ℕ × Query R)
  | 0, p => .ok (0,p)
  | k+1, p => do
    let (rc,p) ← selectStepGrouped I n ctx p
    match rc with
    | .done => .ok (0,p)
    | .row => do
      let (m,p) ← groupsLeft k p
      .ok (m+1,p)

/-- There are `k` rows left, or document 0 of the query can be read without them. -/
def Query.hasRows (k : ℕ) (p : Query R) : Exec Bool :=
  if k = 0 then .ok true
  else if p.pOrderBy.isSome then do
    let m ← p.sortedLeft I n ctx
    .ok (k ≤ m)
  else match p.u with
    | .simple s =>
      if s.isDistinct then do
        let m ← p.distinctLeft I n ctx s
        .ok (k ≤ m)
      else if s.pAgg.isSome && s.pGroupBy.isSome then do
        let (m,p) ← groupsLeft I n ctx k p
        if k ≤ m then .ok true else p.readable I ctx
      else .ok true
    | .compound _ => .ok true

/-- LIMIT is used up at a row, or there is one more. -/
def limitHasRow (nLimit : Int) (p : Query R) : Exec Bool :=
  if nLimit = 0 then p.readable I ctx else p.hasRows I n ctx 1

/-- Before a step of a query. There are the rows that OFFSET drops in the first step, and
one more unless LIMIT is used up. -/
def Query.canStep (p : Query R) : Exec Bool :=
  match p.nLimit with
  | some nLimit => limitHasRow I n ctx nLimit p
  | none => do
    let k ← p.nOffset I ctx
    let b ← p.hasRows I n ctx k
    let (rc,p) ← offsetLoop I n ctx k p
    let p ← setLimit I ctx p
    if b && rc = .row then limitHasRow I n ctx (p.nLimit.getD (-1)) p else .ok b

end Left

section Mono
variable {I J : Interp R} {c d : Ctx R} {n m : ℕ} (hI : I.Le J) (hc : c ≤ d)
include hI hc

omit [CDouble R] in
theorem readable_le (p : Query R) : p.readable I c ≤ p.readable J d := by
  unfold Query.readable
  split
  · exact Run.le_refl _
  · exact Run.le_refl _
  · split
    · split
      · exact Run.le_refl _
      · refine readsNone_le (hI.exprEval _ _ (Ctx.push_le_push hc ⟨fun k => ?_,rfl⟩) _)
        exact Run.le_refl _
    · exact Run.le_refl _
  · exact Run.le_refl _

theorem nOffset_le (p : Query R) : p.nOffset I c ≤ p.nOffset J d := by
  unfold Query.nOffset
  split
  · exact Run.le_refl _
  · exact bind_le_bind (hI.exprEval _ _ (scope_le hI hc p) _) fun _ => Run.le_refl _

variable (hnm : n ≤ m)
include hnm

theorem rowed_le (p : Query R) : p.rowed I n c ≤ p.rowed J m d := by
  unfold Query.rowed
  split
  · split
    · exact bind_le_bind (distinctFill_le hI hc hnm p) fun _ => Run.le_refl _
    · exact Run.le_refl _
  · exact Run.le_refl _

theorem stepRowed_le (p : Query R) : p.stepRowed I n c ≤ p.stepRowed J m d := by
  unfold Query.stepRowed
  split
  · split
    · exact Run.le_refl _
    · exact rowed_le hI hc hnm p
  · refine bind_le_bind (nOffset_le hI hc p) fun k => ?_
    split
    · refine bind_le_bind (setLimit_le hI hc p) fun q => ?_
      split
      · exact Run.le_refl _
      · exact rowed_le hI hc hnm q
    · split
      · exact Run.le_refl _
      · exact rowed_le hI hc hnm p

theorem sortedLeft_le (p : Query R) : p.sortedLeft I n c ≤ p.sortedLeft J m d := by
  unfold Query.sortedLeft
  split
  · split <;> exact Run.le_refl _
  · exact bind_le_bind (orderFill_le hI hc hnm p) fun _ => Run.le_refl _

theorem distinctLeft_le (p : Query R) (s : SimpleQuery R) : p.distinctLeft I n c s ≤ p.distinctLeft J m d s := by
  unfold Query.distinctLeft
  split
  · exact Run.le_refl _
  · exact bind_le_bind (distinctFill_le hI hc hnm p) fun _ => Run.le_refl _

theorem groupsLeft_le (k : ℕ) (p : Query R) : groupsLeft I n c k p ≤ groupsLeft J m d k p := by
  induction k generalizing p with
  | zero => exact Run.le_refl _
  | succ k ih =>
    refine bind_le_bind (grouped_le hI hc hnm p) fun x => ?_
    obtain ⟨rc,q⟩ := x
    cases rc with
    | done => exact Run.le_refl _
    | row => exact bind_le_bind (ih q) fun _ => Run.le_refl _

theorem hasRows_le (k : ℕ) (p : Query R) : p.hasRows I n c k ≤ p.hasRows J m d k := by
  unfold Query.hasRows
  split
  · exact Run.le_refl _
  · split
    · exact bind_le_bind (sortedLeft_le hI hc hnm p) fun _ => Run.le_refl _
    · split
      · split
        · exact bind_le_bind (distinctLeft_le hI hc hnm p _) fun _ => Run.le_refl _
        · split
          · refine bind_le_bind (groupsLeft_le hI hc hnm k p) fun x => ?_
            obtain ⟨j,q⟩ := x
            simp only
            split
            · exact Run.le_refl _
            · exact readable_le hI hc q
          · exact Run.le_refl _
      · exact Run.le_refl _

theorem limitHasRow_le (k : Int) (p : Query R) : limitHasRow I n c k p ≤ limitHasRow J m d k p := by
  unfold limitHasRow
  split
  · exact readable_le hI hc p
  · exact hasRows_le hI hc hnm 1 p

theorem canStep_le (p : Query R) : p.canStep I n c ≤ p.canStep J m d := by
  unfold Query.canStep
  split
  · exact limitHasRow_le hI hc hnm _ p
  · refine bind_le_bind (nOffset_le hI hc p) fun k => bind_le_bind (hasRows_le hI hc hnm k p) fun b => ?_
    refine bind_le_bind (offsetLoop_le hI hc hnm k p) fun x => bind_le_bind (setLimit_le hI hc x.2) fun q => ?_
    split
    · exact limitHasRow_le hI hc hnm _ q
    · exact Run.le_refl _

end Mono

section Lists
variable {I : Interp R} {n : ℕ} {ctx : Ctx R} {p e : Query R} {s : SimpleQuery R}

/-- The list that was sorted last is read, and there is no row left in it. -/
def Query.AtEnd (p : Query R) : Prop := p.eDocFrom = .ordered ∧ p.ordered.pItem = []

omit [CDouble R] in
theorem not_isNone {α : Type} {o : Option α} (h : o.isSome = true) : ¬ o.isNone = true := by
  rw [Option.isNone_iff_eq_none]
  exact Option.isSome_iff_ne_none.mp h

theorem sortedLeft_eq (p : Query R) :
    p.sortedLeft I n ctx = (fun q => q.ordered.pItem.length) <$> orderAdvance I n ctx p := by
  rw [Query.sortedLeft,orderAdvance]
  split
  · split <;> rfl
  · cases orderFill I n ctx p <;> rfl

theorem offsetLoop_sorted (I : Interp R) (n : ℕ) (ctx : Ctx R) (hob : p.pOrderBy.isSome = true) (hd : p.eDocFrom = .ordered) (hpool : p.ordered.pPool = true)
    (k : ℕ) : ∃ e, offsetLoop I n ctx k p = .ok (if k ≤ p.ordered.pItem.tail.length then .row else .done,e) ∧
      (p.ordered.pItem.tail.length < k → e.AtEnd) := by
  induction k generalizing p with
  | zero => exact ⟨p,rfl,fun h => absurd h (Nat.not_lt_zero _)⟩
  | succ k ih =>
    have hne := not_isNone hob
    have hstep : selectStepOrdered I n ctx p = .ok (if p.ordered.pItem.tail.isEmpty then .done else .row,
        { p with ordered := popResultList p.ordered }) := by
      rw [selectStepOrdered,if_neg hne,orderAdvance,if_pos hpool,if_pos hd]
      rfl
    rw [offsetLoop,hstep,ok_bind]
    cases htl : p.ordered.pItem.tail with
    | nil => exact ⟨_,rfl,fun _ => ⟨hd,htl⟩⟩
    | cons a l =>
      obtain ⟨e,he,hend⟩ := ih (p := { p with ordered := popResultList p.ordered }) hob hd hpool
      have hl : (popResultList p.ordered).pItem.tail.length = l.length := by
        rw [popResultList,htl]
        rfl
      simp only [hl] at he hend
      refine ⟨e,?_,fun h => hend (Nat.lt_of_succ_lt_succ h)⟩
      simpa only [List.isEmpty_cons,Bool.false_eq_true,if_false,List.length_cons,Nat.succ_le_succ_iff] using he

/-- With ORDER BY, the rows are those of the list. -/
theorem offsetLoop_ordered {S : ℕ → Bool} (hI : I.Heads) (hctx : ctx.Heads S) (hp : p.Ready I n ctx S)
    (hob : p.pOrderBy.isSome = true) {q : Query R} (hq : orderAdvance I n ctx p = .ok q) (k : ℕ) :
    ∃ e, offsetLoop I n ctx (k+1) p = .ok (if k+1 ≤ q.ordered.pItem.length then .row else .done,e) ∧
      (q.ordered.pItem.length < k+1 → e.AtEnd) := by
  have hne := not_isNone hob
  have hr := orderAdvance_headed n hI hctx hp hob
  rw [hq] at hr
  have hflag := hr.1.settled.flagged.ordered hr.2
  rw [offsetLoop,selectStepOrdered,if_neg hne,hq,ok_bind,ok_bind]
  cases hl : q.ordered.pItem with
  | nil => exact ⟨q,rfl,fun _ => ⟨hr.2,hl⟩⟩
  | cons a l =>
    obtain ⟨e,he,hend⟩ := offsetLoop_sorted I n ctx hflag.1 hr.2 hflag.2 k
    rw [hl] at he hend
    refine ⟨e,?_,fun h => hend (Nat.lt_of_succ_lt_succ h)⟩
    show offsetLoop I n ctx k q = _
    rw [he]
    exact congrArg (fun rc => Run.ok (rc,e)) (if_congr Nat.succ_le_succ_iff.symm rfl rfl)

/-- The list that DISTINCT has filled is read, and there is no row left in it. -/
structure Query.Spent (p : Query R) (s : SimpleQuery R) : Prop where
  pOrderBy : p.pOrderBy.isNone = true
  simple : p.u = .simple s
  isDistinct : s.isDistinct = true
  pPool : s.distincted.pPool = true
  eDocFrom : p.eDocFrom = .distincted
  pItem : s.distincted.pItem = []

theorem offsetLoop_distincted (I : Interp R) (n : ℕ) (ctx : Ctx R) (hob : p.pOrderBy.isNone = true) (hs : p.u = .simple s) (hdist : s.isDistinct = true)
    (hpool : s.distincted.pPool = true) (hd : p.eDocFrom = .distincted) (k : ℕ) :
    ∃ e, offsetLoop I n ctx k p = .ok (if k ≤ s.distincted.pItem.tail.length then .row else .done,e) ∧
      (s.distincted.pItem = [] ∨ s.distincted.pItem.tail.length < k → ∃ t, e.Spent t) := by
  induction k generalizing p s with
  | zero => exact ⟨p,rfl,fun h => ⟨s,hob,hs,hdist,hpool,hd,h.resolve_right (Nat.not_lt_zero _)⟩⟩
  | succ k ih =>
    have hstep : selectStepOrdered I n ctx p = .ok (if s.distincted.pItem.tail.isEmpty then .done else .row,
        p.setSimple { s with distincted := popResultList s.distincted }) := by
      rw [selectStepOrdered,if_pos hob,stepCompounded,hs]
      simp only
      rw [selectStepDistinct,Query.simple_eq_ok.mpr hs,ok_bind,if_pos hdist,if_pos hpool]
      simp only [setDistincted_eq hs,ok_bind]
      rfl
    rw [offsetLoop,hstep,ok_bind]
    cases htl : s.distincted.pItem.tail with
    | nil => exact ⟨_,rfl,fun _ => ⟨_,hob,rfl,hdist,hpool,hd,htl⟩⟩
    | cons a l =>
      obtain ⟨e,he,hend⟩ := ih (p := p.setSimple { s with distincted := popResultList s.distincted })
        (s := { s with distincted := popResultList s.distincted }) hob rfl hdist hpool hd
      have hl : (popResultList s.distincted).pItem.tail.length = l.length := by
        rw [popResultList,htl]
        rfl
      simp only [hl] at he hend
      refine ⟨e,?_,fun h => hend (.inr (Nat.lt_of_succ_lt_succ (h.resolve_left fun hnil => ?_)))⟩
      · simpa only [List.isEmpty_cons,Bool.false_eq_true,if_false,List.length_cons,Nat.succ_le_succ_iff] using he
      · rw [hnil] at htl
        cases htl

section Distinct
variable {S : ℕ → Bool} (hI : I.Heads) (hctx : ctx.Heads S) (hf : p.Fit S) (hset : p.Settled)
  (hob : p.pOrderBy.isNone = true) (hs : p.u = .simple s) (hdist : s.isDistinct = true)
include hI hctx hf hset hob hs hdist

theorem distinctFill_list (hpool : s.distincted.pPool = false) {q : Query R} (hq : distinctFill I n ctx p = .ok q) :
    ∃ t, q.u = .simple t ∧ q.pOrderBy.isNone = true ∧ t.isDistinct = true ∧ t.distincted.pPool = true ∧
      q.eDocFrom = .distincted := by
  have hsel := hf.select hset hs
  have hd : p.eDocFrom ≠ .distincted := fun h => by
    rw [(hset.flagged.distincted s hs h).2] at hpool
    cases hpool
  have h := distinctFill_headed n hI hctx hsel (hset.flagged.atGroup hs (hset.unordered hob) hd)
  rw [hq] at h
  obtain ⟨hdq,t,ht,hpt⟩ := h
  have hn := distinctFill_neutral hI.neutral ctx n hf.clean hq
  exact ⟨t,ht.simple,by rw [pOrderBy_of_rewind hn]; exact hob,(static_of_rewind hs ht.simple hn).1.trans hdist,hpt,hdq⟩

/-- With DISTINCT and no ORDER BY, the rows are those of the list, but a first step is to a row even if
the list is empty. -/
theorem offsetLoop_distinct (k : ℕ) :
    (∀ x, offsetLoop I n ctx (k+1) p = .ok x → ∃ m, p.distinctLeft I n ctx s = .ok m) ∧
    ∀ m, p.distinctLeft I n ctx s = .ok m → ∃ rc e, offsetLoop I n ctx (k+1) p = .ok (rc,e) ∧
      (k+1 ≤ m → rc = .row) ∧ (m < k+1 → ∃ t, e.Spent t) := by
  rw [Query.distinctLeft]
  cases hpool : s.distincted.pPool with
  | true =>
    have hd := hset.flagged.pPool s hs (hset.unordered hob) hdist hpool
    refine ⟨fun _ _ => ⟨_,rfl⟩,fun m hm => ?_⟩
    cases hm
    obtain ⟨e,he,hend⟩ := offsetLoop_distincted I n ctx hob hs hdist hpool hd (k+1)
    exact ⟨_,e,he,fun h => if_pos h,fun h => hend (.inr h)⟩
  | false =>
    have hstep : selectStepOrdered I n ctx p = distinctFill I n ctx p >>= fun q => .ok (.row,q) := by
      rw [selectStepOrdered,if_pos hob,stepCompounded,hs]
      simp only
      rw [selectStepDistinct,Query.simple_eq_ok.mpr hs,ok_bind,if_pos hdist,if_neg (by rw [hpool]; decide)]
    rw [if_neg Bool.false_ne_true,offsetLoop,hstep]
    cases hq : distinctFill I n ctx p with
    | stop _ => exact ⟨fun x h => (by cases h),fun m h => (by cases h)⟩
    | more => exact ⟨fun x h => (by cases h),fun m h => (by cases h)⟩
    | ok q =>
      obtain ⟨t,ht,hobq,hdt,hpt,hdq⟩ := distinctFill_list hI hctx hf hset hob hs hdist hpool hq
      simp only [ok_bind,Query.simple_eq_ok.mpr ht]
      refine ⟨fun _ _ => ⟨_,rfl⟩,fun m hm => ?_⟩
      cases hm
      obtain ⟨e,he,hend⟩ := offsetLoop_distincted I n ctx hobq ht hdt hpt hdq k
      refine ⟨_,e,he,fun h => if_pos ?_,fun h => hend ?_⟩
      · rw [List.length_tail]
        exact Nat.le_sub_one_of_lt h
      · rw [List.length_tail]
        cases hl : t.distincted.pItem with
        | nil => exact .inl rfl
        | cons a l =>
          rw [hl] at h
          exact .inr (Nat.lt_of_succ_lt_succ h)

end Distinct

/-- Without ORDER BY and DISTINCT, the rows are the groups that HAVING accepts. -/
theorem offsetLoop_groups (hI : I.Neutral) (hp : p.Clean) (hob : p.pOrderBy.isNone = true) (hs : p.u = .simple s)
    (hdist : s.isDistinct = false) (k : ℕ) : offsetLoop I n ctx k p =
      (fun x => (if k ≤ x.1 then .row else .done,x.2)) <$> groupsLeft I n ctx k p := by
  induction k generalizing p s with
  | zero => rfl
  | succ k ih =>
    have hstep : selectStepOrdered I n ctx p = selectStepGrouped I n ctx p := by
      rw [selectStepOrdered,if_pos hob,stepCompounded,hs]
      simp only
      rw [selectStepDistinct,Query.simple_eq_ok.mpr hs,ok_bind,if_neg (by rw [hdist]; decide)]
    rw [offsetLoop,groupsLeft,hstep]
    cases hx : selectStepGrouped I n ctx p with
    | stop _ => rfl
    | more => rfl
    | ok x =>
      obtain ⟨rc,q⟩ := x
      cases rc with
      | done => rfl
      | row =>
        have hn := grouped_neutral hI ctx n hp hx
        obtain ⟨t,ht,hr⟩ := Query.simple_of_rewind hs hn
        have hdt := (static_of_rewind hs ht hn).1.trans hdist
        have h := ih (hp.of_rewind hn) (by rw [pOrderBy_of_rewind hn]; exact hob) ht hdt
        simp only [ok_bind,h]
        cases groupsLeft I n ctx k q with
        | stop _ => rfl
        | more => rfl
        | ok y => exact congrArg (fun rc => Run.ok (rc,y.2)) (if_congr Nat.succ_le_succ_iff.symm rfl rfl)

omit [CDouble R] in
theorem readable_withLimit (p : Query R) (m : Option Int) : (p.withLimit m).readable I ctx = p.readable I ctx := rfl

omit [CDouble R] in
theorem Query.AtEnd.readable (h : p.AtEnd) : p.readable I ctx = .ok false := by
  rw [Query.readable,h.1]
  simp only [h.2]
  rfl

omit [CDouble R] in
theorem Query.Spent.readable (h : p.Spent s) : p.readable I ctx = .ok false := by
  rw [Query.readable,h.eDocFrom,h.simple]
  simp only [h.pItem]
  rfl

omit [CDouble R] in
theorem readable_unlisted (hf : p.Flagged) (hl : p.listed = false) : p.readable I ctx = .ok true := by
  rw [Query.listed,Bool.or_eq_false_iff] at hl
  rw [Query.readable]
  cases hd : p.eDocFrom with
  | ordered =>
    rw [(hf.ordered hd).1] at hl
    cases hl.1
  | datasrc => rfl
  | distincted =>
    cases hu : p.u with
    | compound c => rfl
    | simple s =>
      simp only [hu,(hf.distincted s hu hd).1] at hl
      cases hl.2
  | grouped =>
    cases hu : p.u with
    | compound c => rfl
    | simple s =>
      obtain ⟨ha,_,hne⟩ := hf.grouped s hu hd
      simp only [hu,ha,Bool.true_and,Bool.or_eq_false_iff] at hl
      have hnil := hne (Option.isNone_iff_eq_none.mp (by simpa using hl.2.2))
      simp only
      rw [if_neg (by simpa using hnil)]

omit [CDouble R] in
theorem listed_of_rewind {q : Query R} (h : xjd1QueryRewind q = xjd1QueryRewind p) : q.listed = p.listed := by
  rw [Query.listed,Query.listed,pOrderBy_of_rewind h]
  cases hp : p.u with
  | simple s =>
    obtain ⟨t,ht,_⟩ := Query.simple_of_rewind hp h
    obtain ⟨h1,h2,h3⟩ := static_of_rewind hp ht h
    simp only [ht,h1,h2,h3]
  | compound c =>
    cases hq : q.u with
    | simple t =>
      obtain ⟨s,hs,_⟩ := Query.simple_of_rewind hq h.symm
      rw [hp] at hs
      cases hs
    | compound d => rfl

/-- A DISTINCT over no rows is stepped to a row, of its empty list. -/
theorem rowed_false (h : p.rowed I n ctx = .ok false) :
    ∃ q, stepCompounded I n ctx p = .ok (.row,q) ∧ q.readable I ctx = .ok false := by
  rw [Query.rowed] at h
  cases hu : p.u with
  | compound c =>
    simp only [hu] at h
    cases h
  | simple s =>
    simp only [hu] at h
    split at h
    · rename_i hd
      rw [Bool.and_eq_true] at hd
      obtain ⟨q,hq,h⟩ := bind_eq_ok.mp h
      obtain ⟨t,ht,h⟩ := bind_eq_ok.mp h
      have hdoc : q.eDocFrom = .distincted := by
        rw [distinctFill] at hq
        obtain ⟨_,_,hq⟩ := bind_eq_ok.mp hq
        obtain ⟨_,_,hq⟩ := bind_eq_ok.mp hq
        obtain ⟨_,_,hq⟩ := bind_eq_ok.mp hq
        obtain ⟨_,_,hq⟩ := bind_eq_ok.mp hq
        obtain ⟨_,_,hq⟩ := bind_eq_ok.mp hq
        obtain ⟨_,_,hq⟩ := bind_eq_ok.mp hq
        cases hq
        rfl
      refine ⟨q,?_,?_⟩
      · rw [stepCompounded,hu]
        simp only
        rw [selectStepDistinct,Query.simple_eq_ok.mpr hu,ok_bind,if_pos hd.1,if_neg (by simpa using hd.2),hq]
        rfl
      · rw [Query.readable,hdoc,Query.simple_eq_ok.mp ht]
        exact h
    · cases h

end Lists

section Past
variable {I : Interp R} {n : ℕ} {ctx : Ctx R} {S : ℕ → Bool} (hI : I.Heads) (hctx : ctx.Heads S) {p e : Query R}
  (hf : p.Fit S) (hset : p.Settled)
include hI hctx hf hset

theorem offsetLoop_unlisted (hl : p.listed = false) {k : ℕ} {rc : Rc} (h : offsetLoop I n ctx k p = .ok (rc,e)) :
    e.readable I ctx = .ok true := by
  have hready : p.Ready I n ctx S := by
    refine ⟨hf,hset,fun _ s hs hd => ?_⟩
    rw [Query.listed,hs] at hl
    simp [hd] at hl
  have he := offsetLoop_headed n hI hctx k hready
  rw [h] at he
  exact readable_unlisted he.settled.flagged ((listed_of_rewind (offsetLoop_neutral hI.neutral ctx n hf.clean h)).trans hl)

/-- What `hasRows` says of the rows that are skipped. Where they are not there, the list they come from is read and
is empty, or document 0 is the result expression behind the last group. -/
def Skips (I : Interp R) (n : ℕ) (ctx : Ctx R) (p : Query R) (k : ℕ) (x : Rc × Query R) : Prop :=
  (x.1 = .row ∧ p.hasRows I n ctx k = .ok true) ∨ (x.1 = .done ∧ p.hasRows I n ctx k = x.2.readable I ctx) ∨
    (p.hasRows I n ctx k = .ok false ∧ ∃ t, x.2.Spent t)

theorem skips_unlisted (hl : p.listed = false) {k : ℕ} (hrows : p.hasRows I n ctx (k+1) = .ok true) {x : Rc × Query R}
    (h : offsetLoop I n ctx (k+1) p = .ok x) : Skips I n ctx p (k+1) x := by
  obtain ⟨rc,e⟩ := x
  cases rc with
  | row => exact .inl ⟨rfl,hrows⟩
  | done => exact .inr (.inl ⟨rfl,hrows.trans (offsetLoop_unlisted hI hctx hf hset hl h).symm⟩)

omit hf hset in
theorem skips_ordered (hp : p.Ready I n ctx S) (hob : p.pOrderBy.isSome = true) {k : ℕ} {x : Rc × Query R}
    (h : offsetLoop I n ctx (k+1) p = .ok x) : Skips I n ctx p (k+1) x := by
  have hrows : p.hasRows I n ctx (k+1) = p.sortedLeft I n ctx >>= fun m => .ok (decide (k+1 ≤ m)) := by
    rw [Query.hasRows,if_neg (Nat.succ_ne_zero k),if_pos hob]
  have hne := not_isNone hob
  have hadv : ∃ q, orderAdvance I n ctx p = .ok q := by
    rw [offsetLoop,selectStepOrdered,if_neg hne] at h
    obtain ⟨_,h,_⟩ := bind_eq_ok.mp h
    obtain ⟨q,hq,_⟩ := bind_eq_ok.mp h
    exact ⟨q,hq⟩
  obtain ⟨q,hq⟩ := hadv
  obtain ⟨e,he,hend⟩ := offsetLoop_ordered hI hctx hp hob hq k
  rw [h] at he
  rw [Skips,hrows,sortedLeft_eq,hq,map_ok,ok_bind]
  by_cases hk : k+1 ≤ q.ordered.pItem.length
  · rw [if_pos hk] at he
    cases he
    exact .inl ⟨rfl,by rw [decide_eq_true hk]⟩
  · rw [if_neg hk] at he
    cases he
    exact .inr (.inl ⟨rfl,by rw [decide_eq_false hk,(hend (Nat.lt_of_not_le hk)).readable]⟩)

section Simple
variable {s : SimpleQuery R} (hob : p.pOrderBy.isNone = true) (hs : p.u = .simple s)
include hob hs

theorem skips_distinct (hd : s.isDistinct = true) {k : ℕ} {x : Rc × Query R}
    (h : offsetLoop I n ctx (k+1) p = .ok x) : Skips I n ctx p (k+1) x := by
  have hrows : p.hasRows I n ctx (k+1) = p.distinctLeft I n ctx s >>= fun m => .ok (decide (k+1 ≤ m)) := by
    rw [Query.hasRows,if_neg (Nat.succ_ne_zero k),if_neg (by simpa using hob),hs]
    simp only
    rw [if_pos hd]
  obtain ⟨hex,hspec⟩ := offsetLoop_distinct (n := n) hI hctx hf hset hob hs hd k
  obtain ⟨m,hm⟩ := hex _ h
  obtain ⟨rc,e,he,hrow,hend⟩ := hspec m hm
  rw [h] at he
  cases he
  rw [Skips,hrows,hm,ok_bind]
  by_cases hk : k+1 ≤ m
  · exact .inl ⟨hrow hk,by rw [decide_eq_true hk]⟩
  · exact .inr (.inr ⟨by rw [decide_eq_false hk],hend (Nat.lt_of_not_le hk)⟩)

omit hctx hset in
theorem skips_groups (hd : s.isDistinct = false) (hg : (s.pAgg.isSome && s.pGroupBy.isSome) = true) {k : ℕ}
    {x : Rc × Query R} (h : offsetLoop I n ctx (k+1) p = .ok x) : Skips I n ctx p (k+1) x := by
  have hrows : p.hasRows I n ctx (k+1) = groupsLeft I n ctx (k+1) p >>= fun x =>
      if k+1 ≤ x.1 then .ok true else x.2.readable I ctx := by
    rw [Query.hasRows,if_neg (Nat.succ_ne_zero k),if_neg (by simpa using hob),hs]
    simp only
    rw [if_neg (Bool.eq_false_iff.mp hd),if_pos hg]
  rw [offsetLoop_groups hI.neutral hf.clean hob hs hd] at h
  rw [Skips,hrows]
  cases hx : groupsLeft I n ctx (k+1) p with
  | stop _ =>
    rw [hx] at h
    cases h
  | more =>
    rw [hx] at h
    cases h
  | ok y =>
    rw [hx,map_ok] at h
    cases h
    rw [ok_bind]
    by_cases hk : k+1 ≤ y.1
    · rw [if_pos hk,if_pos hk]
      exact .inl ⟨rfl,rfl⟩
    · rw [if_neg hk,if_neg hk]
      exact .inr (.inl ⟨rfl,rfl⟩)

end Simple

theorem hasRows_skips {k : ℕ} (hready : p.pOrderBy.isSome = true → k ≠ 0 → p.Ready I n ctx S) {x : Rc × Query R}
    (h : offsetLoop I n ctx k p = .ok x) : Skips I n ctx p k x := by
  cases k with
  | zero =>
    cases h
    exact .inl ⟨rfl,rfl⟩
  | succ k =>
    by_cases hob : p.pOrderBy.isSome = true
    · exact skips_ordered hI hctx (hready hob (Nat.succ_ne_zero k)) hob h
    · have hob' : p.pOrderBy.isNone = true := by simpa using hob
      cases hu : p.u with
      | compound c =>
        refine skips_unlisted hI hctx hf hset ?_ ?_ h
        · rw [Query.listed,hu,Bool.or_false]
          exact Bool.eq_false_iff.mpr hob
        · rw [Query.hasRows,if_neg (Nat.succ_ne_zero k),if_neg hob,hu]
      | simple s =>
        cases hd : s.isDistinct with
        | true => exact skips_distinct hI hctx hf hset hob' hu hd h
        | false =>
          by_cases hg : (s.pAgg.isSome && s.pGroupBy.isSome) = true
          · exact skips_groups hI hf hob' hu hd hg h
          · refine skips_unlisted hI hctx hf hset ?_ ?_ h
            · rw [Query.listed,hu,Bool.or_eq_false_iff]
              exact ⟨Bool.eq_false_iff.mpr hob,by simp only [hd,Bool.eq_false_iff.mpr hg,Bool.or_self]⟩
            · rw [Query.hasRows,if_neg (Nat.succ_ne_zero k),if_neg hob,hu]
              simp only
              rw [if_neg (Bool.eq_false_iff.mp hd),if_neg hg]

theorem offsetLoop_of_hasRows {k : ℕ} (hready : p.pOrderBy.isSome = true → k ≠ 0 → p.Ready I n ctx S)
    (h : p.hasRows I n ctx k = .ok false) : ∃ x, offsetLoop I n ctx k p = .ok x := by
  cases k with
  | zero => cases h
  | succ k =>
    rw [Query.hasRows,if_neg (Nat.succ_ne_zero k)] at h
    by_cases hob : p.pOrderBy.isSome = true
    · rw [if_pos hob,sortedLeft_eq] at h
      obtain ⟨m,hm,_⟩ := bind_eq_ok.mp h
      cases hq : orderAdvance I n ctx p with
      | stop _ =>
        rw [hq] at hm
        cases hm
      | more =>
        rw [hq] at hm
        cases hm
      | ok q =>
        obtain ⟨e,he,_⟩ := offsetLoop_ordered hI hctx (hready hob (Nat.succ_ne_zero k)) hob hq k
        exact ⟨_,he⟩
    · have hob' : p.pOrderBy.isNone = true := by simpa using hob
      rw [if_neg hob] at h
      cases hu : p.u with
      | compound c =>
        simp only [hu] at h
        cases h
      | simple s =>
        simp only [hu] at h
        cases hd : s.isDistinct with
        | true =>
          rw [if_pos hd] at h
          obtain ⟨m,hm,_⟩ := bind_eq_ok.mp h
          obtain ⟨rc,e,he,_⟩ := (offsetLoop_distinct (n := n) hI hctx hf hset hob' hu hd k).2 m hm
          exact ⟨_,he⟩
        | false =>
          rw [if_neg (Bool.eq_false_iff.mp hd)] at h
          split at h
          · obtain ⟨x,hx,_⟩ := bind_eq_ok.mp h
            rw [offsetLoop_groups hI.neutral hf.clean hob' hu hd,hx]
            exact ⟨_,rfl⟩
          · cases h

omit hI hctx hf hset in
theorem offsetLoop_one (p : Query R) : offsetLoop I n ctx 1 p = selectStepOrdered I n ctx p := by
  rw [offsetLoop]
  cases selectStepOrdered I n ctx p with
  | ok x =>
    obtain ⟨rc,q⟩ := x
    cases rc <;> rfl
  | stop _ => rfl
  | more => rfl

omit hI hctx hf hset in
theorem limitStep_ok {l : Int} (hl : l ≠ 0) {x : Rc × Query R} (h : limitStep I n ctx l p = .ok x) :
    ∃ q, offsetLoop I n ctx 1 p = .ok (x.1,q) ∧ x.2.readable I ctx = q.readable I ctx := by
  rw [limitStep,if_neg hl] at h
  obtain ⟨⟨rc,q⟩,hq,h⟩ := bind_eq_ok.mp h
  cases h
  refine ⟨q,by rw [offsetLoop_one]; exact hq,?_⟩
  show Query.readable I ctx (if 0 < l then _ else q) = _
  split
  · exact readable_withLimit q _
  · rfl

theorem limitHasRow_readable {l : Int} (hready : p.pOrderBy.isSome = true → l ≠ 0 → p.Ready I n ctx S)
    (hm : met (limitHasRow I n ctx l p) = true) (h : limitStep I n ctx l p = .ok (.done,e)) :
    met (e.readable I ctx) = true := by
  rw [limitHasRow] at hm
  by_cases hl : l = 0
  · rw [limitStep,if_pos hl] at h
    cases h
    rwa [if_pos hl] at hm
  · rw [if_neg hl] at hm
    obtain ⟨q,hq,he⟩ := limitStep_ok hl h
    rw [he]
    rcases hasRows_skips hI hctx hf hset (fun ho _ => hready ho hl) hq with ⟨hrc,_⟩ | ⟨_,hr⟩ | ⟨hr,_⟩
    · cases hrc
    · rwa [← hr]
    · rw [hr] at hm
      cases hm

theorem limitHasRow_false {l : Int} (hready : p.pOrderBy.isSome = true → l ≠ 0 → p.Ready I n ctx S)
    (hm : limitHasRow I n ctx l p = .ok false) :
    ∃ x, limitStep I n ctx l p = .ok x ∧ x.2.readable I ctx = .ok false := by
  rw [limitHasRow] at hm
  by_cases hl : l = 0
  · rw [if_pos hl] at hm
    rw [limitStep,if_pos hl]
    exact ⟨_,rfl,hm⟩
  · rw [if_neg hl] at hm
    obtain ⟨x,hx⟩ := offsetLoop_of_hasRows hI hctx hf hset (fun ho _ => hready ho hl) hm
    have hskip := hasRows_skips hI hctx hf hset (fun ho _ => hready ho hl) hx
    rw [offsetLoop_one] at hx
    obtain ⟨rc,q⟩ := x
    have hq : q.readable I ctx = .ok false := by
      rcases hskip with ⟨_,hr⟩ | ⟨_,hr⟩ | ⟨_,t,ht⟩
      · rw [hm] at hr
        cases hr
      · rw [← hm,hr]
      · exact ht.readable
    rw [limitStep,if_neg hl,hx]
    refine ⟨_,rfl,?_⟩
    show Query.readable I ctx (if 0 < l then _ else q) = _
    split
    · exact hq
    · exact hq

theorem offset_ready (hr : p.pOrderBy.isSome = true → met (p.stepRowed I n ctx) = true) (hn : p.nLimit = none) {k : ℕ}
    (hk : p.nOffset I ctx = .ok k) {x : Rc × Query R} (hx : offsetLoop I n ctx k p = .ok x) {q : Query R}
    (hq : setLimit I ctx x.2 = .ok q) : ∃ m, q = x.2.withLimit (some m) ∧ q.Fit S ∧ q.Settled ∧
      (q.pOrderBy.isSome = true → m ≠ 0 → q.Ready I n ctx S) := by
  have h : x.2.Fit S ∧ x.2.Settled ∧ (p.pOrderBy.isSome = true →
      ∀ q, setLimit I ctx x.2 = .ok q → q.nLimit ≠ some 0 → q.Ready I n ctx S) := by
    by_cases hob : p.pOrderBy.isSome = true
    · have h := offset_headed n hI hctx hf hset (hr hob) hn hk
      rw [hx] at h
      exact ⟨h.1,h.2.1,fun _ => h.2.2⟩
    · cases k with
      | zero =>
        cases hx
        exact ⟨hf,hset,fun h => absurd h hob⟩
      | succ k =>
        have h := offsetLoop_unsorted n hI hctx hf hset (by simpa using hob) k
        rw [hx] at h
        exact ⟨h.fit,h.settled,fun h => absurd h hob⟩
  obtain ⟨hfe,hse,hready⟩ := h
  have hl := setLimit_headed hI hctx hfe
  rw [hq] at hl
  obtain ⟨m,rfl⟩ := hl
  have hx' : offsetLoop I n ctx k p = .ok (x.1,x.2) := hx
  have hob := pOrderBy_of_rewind (offsetLoop_neutral hI.neutral ctx n hf.clean hx')
  exact ⟨m,rfl,hfe.withLimit _,hse.withLimit _,
    fun ho hm => hready (hob ▸ ho) _ hq fun h => hm (Option.some.inj h)⟩

omit hI hctx in
theorem stepRowed_ready (hr : p.pOrderBy.isSome = true → met (p.stepRowed I n ctx) = true) (hn : p.nLimit = none) {k : ℕ}
    (hk : p.nOffset I ctx = .ok k) (hob : p.pOrderBy.isSome = true) (hk0 : k ≠ 0) : p.Ready I n ctx S := by
  replace hr := hr hob
  rw [Query.stepRowed] at hr
  simp only [hn] at hr
  rw [hk,ok_bind,if_neg hk0,if_neg (not_isNone hob)] at hr
  exact ⟨hf,hset,fun _ => rowed_of_met n hr⟩

omit hI hctx in
theorem stepRowed_limited {l : Int} (hr : p.pOrderBy.isSome = true → met (p.stepRowed I n ctx) = true)
    (hn : p.nLimit = some l) (hob : p.pOrderBy.isSome = true) (hl : l ≠ 0) : p.Ready I n ctx S := by
  replace hr := hr hob
  rw [Query.stepRowed] at hr
  simp only [hn] at hr
  rw [if_neg hl] at hr
  exact ⟨hf,hset,fun _ => rowed_of_met n hr⟩

/-- A step that the condition is met for ends, if it does, where document 0 can be read. -/
theorem canStep_readable (hr : p.pOrderBy.isSome = true → met (p.stepRowed I n ctx) = true) (hm : met (p.canStep I n ctx) = true)
    (h : queryStep I n ctx p = .ok (.done,e)) : met (e.readable I ctx) = true := by
  rw [Query.canStep] at hm
  rw [queryStep] at h
  cases hn : p.nLimit with
  | some l =>
    simp only [hn] at hm h
    exact limitHasRow_readable hI hctx hf hset (stepRowed_limited hf hset hr hn) hm h
  | none =>
    simp only [hn] at hm h
    rw [applyOffset_eq_loop n hI hf,bind_assoc] at h
    obtain ⟨k,hk,h⟩ := bind_eq_ok.mp h
    obtain ⟨⟨rc,x⟩,hx,h⟩ := bind_eq_ok.mp h
    obtain ⟨q,hq,h⟩ := bind_eq_ok.mp h
    obtain ⟨m,rfl,hfq,hsq,hready⟩ := offset_ready hI hctx hf hset hr hn hk hx hq
    rw [hk,ok_bind] at hm
    rcases hasRows_skips hI hctx hf hset (stepRowed_ready hf hset hr hn hk) hx with ⟨hrc,hb⟩ | ⟨hrc,hb⟩ | ⟨hb,_⟩
    · obtain rfl : rc = .row := hrc
      rw [hb,ok_bind,hx,ok_bind,hq,ok_bind] at hm
      exact limitHasRow_readable hI hctx hfq hsq hready hm h
    · obtain rfl : rc = .done := hrc
      cases h
      rw [hb] at hm
      show met (x.readable I ctx) = true
      cases hread : x.readable I ctx with
      | ok b =>
        rw [hread,ok_bind,hx,ok_bind,hq,ok_bind] at hm
        cases b with
        | true => rfl
        | false => cases hm
      | stop _ => rfl
      | more =>
        rw [hread] at hm
        cases hm
    · rw [hb,ok_bind,hx,ok_bind,hq,ok_bind] at hm
      cases hm

omit hI hctx hf hset in
theorem limitStep_spent {s : SimpleQuery R} (h : p.Spent s) (l : Int) :
    ∃ x, limitStep I n ctx l p = .ok x ∧ x.2.readable I ctx = .ok false := by
  by_cases hl : l = 0
  · rw [limitStep,if_pos hl]
    exact ⟨_,rfl,h.readable⟩
  · obtain ⟨e,he,hend⟩ := offsetLoop_distincted I n ctx h.pOrderBy h.simple h.isDistinct h.pPool h.eDocFrom 1
    obtain ⟨t,ht⟩ := hend (.inl h.pItem)
    rw [offsetLoop_one] at he
    rw [limitStep,if_neg hl,he]
    refine ⟨_,rfl,?_⟩
    show Query.readable I ctx (if 0 < l then _ else e) = _
    split <;> exact ht.readable

/-- A step that the condition is not met for ends where document 0 is read from an empty list. -/
theorem canStep_false (hr : p.pOrderBy.isSome = true → met (p.stepRowed I n ctx) = true) (hm : p.canStep I n ctx = .ok false) :
    ∃ x, queryStep I n ctx p = .ok x ∧ x.2.readable I ctx = .ok false := by
  rw [Query.canStep] at hm
  rw [queryStep]
  cases hn : p.nLimit with
  | some l =>
    simp only [hn] at hm ⊢
    exact limitHasRow_false hI hctx hf hset (stepRowed_limited hf hset hr hn) hm
  | none =>
    simp only [hn] at hm ⊢
    obtain ⟨k,hk,hm⟩ := bind_eq_ok.mp hm
    obtain ⟨b,hb,hm⟩ := bind_eq_ok.mp hm
    obtain ⟨⟨rc,x⟩,hx,hm⟩ := bind_eq_ok.mp hm
    obtain ⟨q,hq,hm⟩ := bind_eq_ok.mp hm
    obtain ⟨m,rfl,hfq,hsq,hready⟩ := offset_ready hI hctx hf hset hr hn hk hx hq
    rw [applyOffset_eq_loop n hI hf,hk,ok_bind,hx,ok_bind,hq,ok_bind]
    have hread : (x.withLimit (some m)).readable I ctx = x.readable I ctx := readable_withLimit x _
    rcases hasRows_skips hI hctx hf hset (stepRowed_ready hf hset hr hn hk) hx with ⟨hrc,hb'⟩ | ⟨hrc,hb'⟩ | ⟨hb',t,ht⟩
    · obtain rfl : rc = .row := hrc
      obtain rfl : b = true := by
        rw [hb] at hb'
        exact Run.ok.inj hb'
      exact limitHasRow_false hI hctx hfq hsq hready hm
    · obtain rfl : rc = .done := hrc
      refine ⟨_,rfl,?_⟩
      have hbf : b = false := by
        cases b with
        | false => rfl
        | true => cases hm
      rw [hread,← hb',hb,hbf]
    · have hspent : (x.withLimit (some m)).Spent t := ⟨ht.pOrderBy,ht.simple,ht.isDistinct,ht.pPool,ht.eDocFrom,ht.pItem⟩
      cases rc with
      | done => exact ⟨_,rfl,hspent.readable⟩
      | row => exact limitStep_spent hspent _

end Past

end Xjd1
