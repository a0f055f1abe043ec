import Xjd1.Query.Stream

/-! Comma joins. The step of a join node is a nested loop: the right side runs
from its first row to its end for each row of the left side. -/
namespace Xjd1

open Fueled Fueled.Run Delivery

variable {R : Type} [CDouble R]

def SrcSteps (ctx : Ctx R) (d : DataSrc R) (r : Rc × DataSrc R) : Prop :=
  Returns (fun n => (interp n).xjd1DataSrcStep ctx d) r

theorem dataSrcStep_mono (ctx : Ctx R) (d : DataSrc R) : Run.Mono fun n => (interp n).xjd1DataSrcStep ctx d :=
  fun _ _ h => (interp_le h).dataSrcStep ctx ctx (Ctx.le_refl ctx) d

theorem SrcSteps.of_ok {ctx : Ctx R} {d : DataSrc R} {r : Rc × DataSrc R} {n : ℕ}
    (h : (interp n).xjd1DataSrcStep ctx d = .ok r) : SrcSteps ctx d r := Returns.of_ok (dataSrcStep_mono ctx d) h

theorem srcSteps_iff {ctx : Ctx R} {d : DataSrc R} {r : Rc × DataSrc R} :
    SrcSteps ctx d r ↔ Returns (fun n => dataSrcStep (interp n) n ctx d) r := Returns.succ_iff.symm

/-- The rows of a data source, each with the documents of its leaves from left to right. -/
def srcRows (ctx : Ctx R) : Stepper (DataSrc R) (List (JsonNode R)) where
  row d v e := SrcSteps ctx d (.row,e) ∧ v = xjd1DataSrcCacheSave e
  done d e := SrcSteps ctx d (.done,e)

/-- The states a data source can be brought to by steps and rewinds. -/
inductive Reached (ctx : Ctx R) (d : DataSrc R) : DataSrc R → Prop
  | start : Reached ctx d d
  | step {e e' : DataSrc R} {rc : Rc} (h : Reached ctx d e) (hs : SrcSteps ctx e (rc,e')) : Reached ctx d e'
  | rewind {e : DataSrc R} (h : Reached ctx d e) : Reached ctx d (xjd1DataSrcRewind e)

/-- Whenever it is rewound, `d` gives the rows `rows` and then the end. -/
def Replays (ctx : Ctx R) (d : DataSrc R) (rows : List (List (JsonNode R))) : Prop :=
  ∀ e, Reached ctx d e → ∃ t, Delivers (srcRows ctx) (xjd1DataSrcRewind e) rows t

/-- The pairs of a row on the left and a row on the right, the right one varying faster. -/
def crossRows (ls rs : List (List (JsonNode R))) : List (List (JsonNode R)) :=
  ls.flatMap fun x => rs.map fun y => x ++ y

omit [CDouble R] in
theorem crossRows_nil (ls : List (List (JsonNode R))) : crossRows ls [] = [] := by simp [crossRows]

/-- The cross product of a tree of joins whose leaves each replay a list of documents. -/
inductive CrossProduct (ctx : Ctx R) : DataSrc R → List (List (JsonNode R)) → Prop
  | leaf {d : DataSrc R} {vs : List (JsonNode R)} (hd : ∀ b l r, d ≠ .comma b l r)
    (h : Replays ctx d (vs.map fun v => [v])) : CrossProduct ctx d (vs.map fun v => [v])
  | comma {l r : DataSrc R} {ls rs : List (List (JsonNode R))} (bStart : Bool) (hl : CrossProduct ctx l ls)
    (hr : CrossProduct ctx r rs) : CrossProduct ctx (.comma bStart l r) (crossRows ls rs)

section Steps
variable {ctx : Ctx R} {l l' r r' r'' : DataSrc R} {rc : Rc} {o : Rc × DataSrc R} {b : Bool}

theorem comma_row (hr : SrcSteps ctx r (.row,r')) :
    SrcSteps ctx (.comma true l r) (.row,.comma true l r') := by
  refine srcSteps_iff.mpr ?_
  filter_upwards [hr] with n hn
  rw [dataSrcStep,if_pos rfl,joinStep,hn,ok_bind]

theorem comma_next (hr : SrcSteps ctx r (.done,r')) (hl : SrcSteps ctx l (.row,l'))
    (hs : SrcSteps ctx (xjd1DataSrcRewind r') (rc,r'')) :
    SrcSteps ctx (.comma true l r) (rc,.comma true l' r'') := by
  refine srcSteps_iff.mpr ?_
  filter_upwards [hr,hl,hs] with n hn hln hsn
  simp only [dataSrcStep,if_true,joinStep,hn,ok_bind,hln,hsn]

theorem comma_done (hr : SrcSteps ctx r (.done,r')) (hl : SrcSteps ctx l (.done,l')) :
    SrcSteps ctx (.comma true l r) (.done,.comma true l' r') := by
  refine srcSteps_iff.mpr ?_
  filter_upwards [hr,hl] with n hn hln
  simp only [dataSrcStep,if_true,joinStep,hn,ok_bind,hln]

/-- The first step moves the left side to its first row and goes on as the later ones. -/
theorem comma_start (hl : SrcSteps ctx l (.row,l')) (h : SrcSteps ctx (.comma true l' r) o) :
    SrcSteps ctx (.comma false l r) o := by
  refine srcSteps_iff.mpr ?_
  filter_upwards [hl,srcSteps_iff.mp h] with n hn ho
  rw [dataSrcStep,if_pos rfl] at ho
  simp only [dataSrcStep,Bool.false_eq_true,if_false,hn,ok_bind,ho]

theorem comma_start_done (hl : SrcSteps ctx l (.done,l')) :
    SrcSteps ctx (.comma false l r) (.done,.comma true l' r) := by
  refine srcSteps_iff.mpr ?_
  filter_upwards [hl] with n hn
  simp only [dataSrcStep,Bool.false_eq_true,if_false,hn,ok_bind]

theorem joinStep_reached {n : ℕ} (h : joinStep (interp n) ctx l r = .ok o) :
    ∃ l' r', o.2 = .comma true l' r' ∧ Reached ctx l l' ∧ Reached ctx r r' := by
  obtain ⟨⟨rc1,r1⟩,h1,h⟩ := bind_eq_ok.mp h
  have hr1 : Reached ctx r r1 := .step .start (.of_ok h1)
  cases rc1 with
  | row =>
    cases h
    exact ⟨l,r1,rfl,.start,hr1⟩
  | done =>
    obtain ⟨⟨rc2,l2⟩,h2,h⟩ := bind_eq_ok.mp h
    have hl2 : Reached ctx l l2 := .step .start (.of_ok h2)
    cases rc2 with
    | done =>
      cases h
      exact ⟨l2,r1,rfl,hl2,hr1⟩
    | row =>
      obtain ⟨⟨rc3,r3⟩,h3,h⟩ := bind_eq_ok.mp h
      cases h
      exact ⟨l2,r3,rfl,hl2,.step (.rewind hr1) (.of_ok h3)⟩

theorem Reached.trans {d e e' : DataSrc R} (h : Reached ctx d e) (h' : Reached ctx e e') : Reached ctx d e' := by
  induction h' with
  | start => exact h
  | step _ hs ih => exact ih.step hs
  | rewind _ ih => exact ih.rewind

theorem comma_step_reached (h : SrcSteps ctx (.comma b l r) o) :
    ∃ l' r', o.2 = .comma true l' r' ∧ Reached ctx l l' ∧ Reached ctx r r' := by
  obtain ⟨n,hn⟩ := (srcSteps_iff.mp h).exists
  replace hn : dataSrcStep (interp n) n ctx (.comma b l r) = .ok o := hn
  rw [dataSrcStep.eq_def] at hn
  cases b with
  | true => exact joinStep_reached hn
  | false =>
    obtain ⟨⟨rc1,l1⟩,h1,hn⟩ := bind_eq_ok.mp hn
    have hl1 : Reached ctx l l1 := .step .start (.of_ok h1)
    cases rc1 with
    | done =>
      cases hn
      exact ⟨l1,r,rfl,hl1,.start⟩
    | row =>
      obtain ⟨l',r',ho,hl',hr'⟩ := joinStep_reached hn
      exact ⟨l',r',ho,hl1.trans hl',hr'⟩

theorem comma_reached {e : DataSrc R} (h : Reached ctx (.comma b l r) e) :
    ∃ b' l' r', e = .comma b' l' r' ∧ Reached ctx l l' ∧ Reached ctx r r' := by
  induction h with
  | start => exact ⟨b,l,r,rfl,.start,.start⟩
  | step _ hs ih =>
    obtain ⟨b',l',r',rfl,hl,hr⟩ := ih
    obtain ⟨l'',r'',rfl,hl',hr'⟩ := comma_step_reached hs
    exact ⟨true,l'',r'',rfl,hl.trans hl',hr.trans hr'⟩
  | rewind _ ih =>
    obtain ⟨b',l',r',rfl,hl,hr⟩ := ih
    exact ⟨false,_,_,rfl,hl.rewind,hr.rewind⟩

end Steps

section Runs
variable {ctx : Ctx R} {l r r₀ tl tr : DataSrc R} {ls rs rs' : List (List (JsonNode R))}

/-- From a row of the left side with `ls` rows to follow and the right side with `rs'`
rows to follow, the rest of the cross product comes. -/
theorem comma_delivers (hr₀ : Replays ctx r₀ rs) (hl : Delivers (srcRows ctx) l ls tl)
    (hr : Delivers (srcRows ctx) r rs' tr) (hreach : Reached ctx r₀ r) :
    ∃ t, Delivers (srcRows ctx) (.comma true l r)
      ((rs'.map fun y => xjd1DataSrcCacheSave l ++ y) ++ crossRows ls rs) t := by
  induction hl generalizing r rs' tr with
  | done hl =>
    induction hr with
    | done hr => exact ⟨_,.done (comma_done hr hl)⟩
    | row hr _ ih =>
      obtain ⟨hr,rfl⟩ := hr
      obtain ⟨t,ht⟩ := ih (hreach.step hr)
      exact ⟨t,.row ⟨comma_row hr,rfl⟩ ht⟩
  | @row l l' _ _ _ hl _ ihl =>
    obtain ⟨hl,rfl⟩ := hl
    induction hr with
    | @done r r' hr =>
      obtain ⟨t,ht⟩ := hr₀ r' (hreach.step hr)
      generalize hrs : rs = ys at ht
      cases ht with
      | done ht =>
        subst hrs
        rw [crossRows_nil]
        exact ⟨_,.done (comma_next hr hl ht)⟩
      | row hy hs =>
        subst hrs
        obtain ⟨hy,rfl⟩ := hy
        obtain ⟨t',ht'⟩ := ihl hs (((hreach.step hr).rewind).step hy)
        exact ⟨t',.row ⟨comma_next hr hl hy,rfl⟩ ht'⟩
    | row hr _ ih =>
      obtain ⟨hr,rfl⟩ := hr
      obtain ⟨t,ht⟩ := ih (hreach.step hr)
      exact ⟨t,.row ⟨comma_row hr,rfl⟩ ht⟩

/-- A rewound join gives the cross product of what its rewound sides give. -/
theorem comma_replays {b : Bool} (hl : Replays ctx l ls) (hr : Replays ctx r rs) :
    Replays ctx (.comma b l r) (crossRows ls rs) := by
  intro e he
  obtain ⟨b',l',r',rfl,hl',hr'⟩ := comma_reached he
  obtain ⟨tl,htl⟩ := hl l' hl'
  obtain ⟨tr,htr⟩ := hr r' hr'
  rw [xjd1DataSrcRewind]
  cases htl with
  | done h => exact ⟨_,.done (comma_start_done h)⟩
  | row h hs =>
    obtain ⟨h,rfl⟩ := h
    obtain ⟨t,ht⟩ := comma_delivers hr hs htr hr'.rewind
    exact ⟨t,ht.congr (fun v u hu => ⟨comma_start h hu.1,hu.2⟩) fun u hu => comma_start h hu⟩

end Runs

/-- From the rewound state, a tree of joins puts its leaves through the cross product. -/
theorem join_delivers {ctx : Ctx R} {d : DataSrc R} {rows : List (List (JsonNode R))} (h : CrossProduct ctx d rows) :
    ∃ t, Delivers (srcRows ctx) (xjd1DataSrcRewind d) rows t := by
  have hd : Replays ctx d rows := by
    induction h with
    | leaf _ h => exact h
    | comma bStart _ _ ihl ihr => exact comma_replays ihl ihr
  exact hd d .start

section Table
variable {ctx : Ctx R} {zAs : Option Bytes} {zName : Bytes}

theorem tab_row {pValue : JsonNode R} {k : ℕ} {zJson : Bytes} (h : (ctx.db zName)[k]? = some zJson) :
    SrcSteps ctx (.tab zAs pValue zName k) (.row,.tab zAs (xjd1JsonParse zJson) zName (k+1)) := by
  refine srcSteps_iff.mpr (Filter.Eventually.of_forall fun n => ?_)
  simp only [dataSrcStep,h]

theorem tab_done {pValue : JsonNode R} {k : ℕ} (h : (ctx.db zName)[k]? = none) :
    SrcSteps ctx (.tab zAs pValue zName k) (.done,.tab zAs .nullptr zName 0) := by
  refine srcSteps_iff.mpr (Filter.Eventually.of_forall fun n => ?_)
  simp only [dataSrcStep,h]

theorem tab_delivers (pValue : JsonNode R) (k : ℕ) : Delivers (srcRows ctx) (.tab zAs pValue zName k)
    ((((ctx.db zName).drop k).map xjd1JsonParse).map fun v => [v]) (.tab zAs .nullptr zName 0) := by
  rw [List.map_map]
  refine Delivers.positions (fun v j => DataSrc.tab zAs v zName j) (fun v j z hz => ?_) (fun v j hz => ?_) pValue k
  · exact ⟨_,tab_row hz,rfl⟩
  · exact tab_done hz

theorem tab_reached {pValue : JsonNode R} {k : ℕ} {e : DataSrc R} (h : Reached ctx (.tab zAs pValue zName k) e) :
    ∃ v j, e = .tab zAs v zName j := by
  induction h with
  | start => exact ⟨pValue,k,rfl⟩
  | step _ hs ih =>
    obtain ⟨v,j,rfl⟩ := ih
    cases hz : (ctx.db zName)[j]? with
    | none =>
      cases hs.unique (tab_done hz)
      exact ⟨_,_,rfl⟩
    | some z =>
      cases hs.unique (tab_row hz)
      exact ⟨_,_,rfl⟩
  | rewind _ ih =>
    obtain ⟨v,j,rfl⟩ := ih
    exact ⟨_,_,rfl⟩

theorem tab_crossProduct (pValue : JsonNode R) (k : ℕ) : CrossProduct ctx (.tab zAs pValue zName k)
    (((ctx.db zName).map xjd1JsonParse).map fun v => [v]) := by
  refine .leaf (fun _ _ _ h => by cases h) fun e he => ?_
  obtain ⟨v,j,rfl⟩ := tab_reached he
  exact ⟨_,tab_delivers .nullptr 0⟩

end Table

/-- Two collections of two documents, the second one joined with itself. -/
theorem join_delivers_three : ∃ t, Delivers (srcRows (⟨[],.select,fun _ => [[ch '1'],[ch '2']]⟩ : Ctx Int))
    (xjd1DataSrcRewind (.comma true (.tab none .nullptr [ch 'c'] 1)
      (.comma false (.tab none .nullptr [ch 'd'] 0) (.tab none .nullptr [ch 'd'] 0))))
    (crossRows [[.real 1],[.real 2]] (crossRows [[.real 1],[.real 2]] [[.real 1],[.real 2]])) t :=
  join_delivers (.comma true (tab_crossProduct .nullptr 1)
    (.comma false (tab_crossProduct .nullptr 0) (tab_crossProduct .nullptr 0)))

end Xjd1
