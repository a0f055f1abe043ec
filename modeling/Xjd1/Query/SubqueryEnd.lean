import Xjd1.Query.RowsLeft

/-! The end of a subquery in a FROM clause. Its document 0 is read after every step, also
after the one that reports the end, when the list it is read from may be empty. -/
namespace Xjd1

open Fueled Fueled.Run SlotSort

variable {R : Type}

section Stages
variable [CDouble R] {I : Interp R} {S : ℕ → Bool} {ctx : Ctx R} (n : ℕ)

section Flatten

omit [CDouble R] in
theorem isContainer_headed (v : JsonNode R) : Headed (fun _ => True) (isContainer v) := by
  cases v <;> first | trivial | exact .stop (by decide)

theorem memberAt_headed (v : JsonNode R) (i : ℕ) : Headed (fun _ => True) (memberAt v i) := by
  cases v <;> first | trivial | exact .stop (by decide)

omit [CDouble R] in
theorem flattenIterNew_headed (v : JsonNode R) (e : Expr R) (b : Bool) : Headed (fun _ => True) (flattenIterNew v e b) := by
  rw [flattenIterNew]
  split
  · trivial
  · refine (isContainer_headed _).bind fun c _ _ => ?_
    cases c <;> trivial

theorem flattenIterTurn_headed (it : FlattenIter R) : Headed (fun _ => True) (flattenIterTurn it) := by
  rw [flattenIterTurn]
  split
  · trivial
  · refine (memberAt_headed _ _).bind fun m _ _ => ?_
    split
    · trivial
    · split
      · refine (isContainer_headed _).bind fun c _ _ => ?_
        cases c <;> trivial
      · trivial

theorem flattenIterNext_headed (it : Option (FlattenIter R)) : Headed (fun _ => True) (flattenIterNext n it) := by
  cases it with
  | none => trivial
  | some it =>
    have hloop := Avoids.loop (e := Stop.emptyList) (f := flattenIterTurn (R := R)) (P := fun _ => True)
      (Q := fun _ => True) (fun s _ => ?_) n (s := it) trivial
    · exact hloop.bind fun _ _ _ => trivial
    · refine (flattenIterTurn_headed s).mono fun r _ _ => ?_
      cases r <;> trivial

theorem currentMember_headed (p : FlattenIterElem R) : Headed (fun _ => True) (currentMember p) := by
  rw [currentMember]
  split
  · exact .stop (by decide)
  · exact (memberAt_headed _ _).bind fun _ _ _ => .ofOption (by decide) _

theorem currentKeys_headed (l : List (FlattenIterElem R)) : Headed (fun _ => True) (currentKeys l) := by
  induction l with
  | nil => trivial
  | cons p l ih => exact ih.bind fun _ _ _ => (currentMember_headed p).bind fun _ _ _ => trivial

theorem flattenIterEntry_headed (it : FlattenIter R) : Headed (fun _ => True) (flattenIterEntry it) := by
  rw [flattenIterEntry]
  split
  · exact .stop (by decide)
  · refine (currentMember_headed _).bind fun _ _ _ => ?_
    split
    · exact (currentKeys_headed _).bind fun _ _ _ => trivial
    · trivial

end Flatten

section Source
variable (hI : I.Heads) (hctx : ctx.Heads S)
include hI hctx

omit [CDouble R] in
theorem joinStep_headed {l r : DataSrc R} (hl : l.Fit S ∧ l.Settled) (hr : r.Fit S ∧ r.Settled) :
    Headed (fun x => x.2.Settled) (joinStep I ctx l r) := by
  refine (hI.dataSrcStep S ctx r hctx hr.1 hr.2).bind fun x hx h => ?_
  obtain ⟨rc,r1⟩ := x
  have hf : r1.Fit S := hr.1.of_rewind (hI.neutral.dataSrcStep ctx r rc r1 hr.1.clean hx)
  cases rc with
  | row =>
    exact ⟨hl.2,h⟩
  | done =>
    refine (hI.dataSrcStep S ctx l hctx hl.1 hl.2).bind fun y _ h' => ?_
    obtain ⟨rc,l1⟩ := y
    cases rc with
    | done =>
      exact ⟨h',h⟩
    | row =>
      refine (hI.dataSrcStep S ctx _ hctx hf.rewind (dataSrcInitial_settled _ hf.clean)).bind fun z _ h => ?_
      exact ⟨h',h⟩

theorem flattenLoop_headed {op : UInt8} {e : Expr R} {d : DataSrc R} {it : Option (FlattenIter R)} (hd : d.Fit S)
    (hs : d.Settled) : Headed (fun r => r.2.1.Settled) (Run.loop (flattenTurn I n ctx op e) n (d,it)) := by
  refine Avoids.loop (P := fun s => s.1.Fit S ∧ s.1.Settled) (fun s h => ?_) n (s := (d,it)) ⟨hd,hs⟩
  refine (flattenIterNext_headed n s.2).bind fun x _ _ => ?_
  obtain ⟨rc,it⟩ := x
  cases rc with
  | row => exact h.2
  | done =>
    refine (hI.dataSrcStep S ctx s.1 hctx h.1 h.2).bind fun y hy h' => ?_
    obtain ⟨rc,d1⟩ := y
    cases rc with
    | done => exact h'
    | row =>
      have hf : d1.Fit S := h.1.of_rewind (hI.neutral.dataSrcStep ctx _ _ _ h.1.clean hy)
      exact (flattenIterNew_headed _ _ _).bind fun _ _ _ => ⟨hf,h'⟩

/-- A data source whose subquery, if it is one, can be read at its end. -/
theorem dataSrcStep_headed {d : DataSrc R} (hd : d.Fit S) (hs : d.Settled)
    (hend : ∀ z v q q', d = .subq z v q → q.Fit (fun _ => true) → q.Settled →
      I.xjd1QueryStep ctx.top q = .ok (.done,q') → met (q'.readable I ctx.top) = true) :
    Headed (fun r => r.2.Settled) (dataSrcStep I n ctx d) := by
  have hc := hd.clean
  have hsc := hd.inScope
  cases d with
  | comma b l r =>
    rw [DataSrc.Clean,xjd1DataSrcRewind,DataSrc.Initial] at hc
    rw [DataSrc.scoped,Bool.and_eq_true] at hsc
    rw [DataSrc.Settled] at hs
    have hl : l.Fit S := ⟨hc.2.1,hsc.1⟩
    have hr : r.Fit S ∧ r.Settled := ⟨⟨hc.2.2,hsc.2⟩,hs.2⟩
    rw [dataSrcStep]
    split
    · exact joinStep_headed hI hctx ⟨hl,hs.1⟩ hr
    · refine (hI.dataSrcStep S ctx l hctx hl hs.1).bind fun x hx h => ?_
      obtain ⟨rc,l1⟩ := x
      have hf : l1.Fit S := hl.of_rewind (hI.neutral.dataSrcStep ctx l rc l1 hl.clean hx)
      cases rc with
      | row => exact joinStep_headed hI hctx ⟨hf,h⟩ hr
      | done =>
        exact ⟨h,hs.2⟩
  | subq z v q =>
    rw [DataSrc.Clean,xjd1DataSrcRewind,DataSrc.Initial] at hc
    rw [DataSrc.scoped] at hsc
    rw [DataSrc.Settled] at hs
    have htop := ctx.top_heads fun _ => true
    have hq : q.Fit fun _ => true := ⟨hc.2,hsc⟩
    refine (hI.queryStep _ _ q htop hq hs).bind fun x hx h => ?_
    obtain ⟨rc,q1⟩ := x
    have hr := hI.neutral.queryStep _ q rc q1 hq.clean hx
    have hq1 := hq.of_rewind hr
    have hread : Headed (fun _ => True) (I.xjd1QueryDoc ctx.top q1 0) := by
      cases rc with
      | row => exact hI.queryDoc _ _ q1 0 htop hq1 (h.2 rfl)
      | done => exact hI.queryEnd ctx q1 hq1 (hend z v q q1 rfl hq hs hx)
    refine hread.bind fun y hy _ => ?_
    obtain ⟨w,q2⟩ := y
    obtain rfl := hI.neutral.queryDoc _ q1 0 w q2 hq1.clean hy
    exact h.1
  | tab z v name k =>
    rw [dataSrcStep]
    split <;> trivial
  | flatten v d op e as it =>
    rw [DataSrc.Clean,xjd1DataSrcRewind,DataSrc.Initial] at hc
    rw [DataSrc.scoped] at hsc
    rw [DataSrc.Settled] at hs
    refine (flattenLoop_headed n hI hctx ⟨hc.2.1,hsc⟩ hs).bind fun x _ h => ?_
    obtain ⟨rc,d1,it1⟩ := x
    cases rc with
    | done => exact h
    | row =>
      cases it1 with
      | none => exact .stop (by decide)
      | some it1 =>
        exact (flattenIterEntry_headed it1).bind fun _ _ _ => (Avoids.ofOption (by decide) _).bind fun _ _ _ => h
  | path z v e a i =>
    rw [DataSrc.Clean,xjd1DataSrcRewind,DataSrc.Initial] at hc
    rw [DataSrc.scoped] at hsc
    have harray : Headed (fun _ => True) (pathArray I ctx e a) := by
      unfold pathArray
      split
      · exact hI.exprEval S ctx e hctx ⟨hc.2.1,hsc⟩
      · trivial
    refine harray.bind fun x _ _ => ?_
    simp only
    split
    · split <;> trivial
    · trivial
  | null b => trivial

end Source
end Stages

section Sparing
variable [CDouble R] (I : Interp R) (n : ℕ) (ctx : Ctx R)

/-- A subquery is not stepped past the last row of the list that its document 0 is read from. -/
def DataSrc.within : DataSrc R → Exec Bool
  | .subq _ _ q => q.canStep I n ctx.top
  | _ => .ok true

/-- The engine on the steps for which a row is left to read. -/
def Interp.sparing : Interp R :=
  { I.next n with
    xjd1DataSrcStep := fun ctx d => if met (d.within I n ctx) then dataSrcStep I n ctx d else .more
    selectStepCompounded := fun ctx p => if met (p.rowed I n ctx) then stepCompounded I n ctx p else .more
    xjd1QueryStep := fun ctx p => if met (p.stepRowed I n ctx) then queryStep I n ctx p else .more }

end Sparing

section Runs
variable [CDouble R]

def sparing : ℕ → Interp R
  | 0 => interp 0
  | n+1 => (sparing n).sparing n

/-- Step a data source `k` times, or to its end. -/
def dataSrcSteps (I : Interp R) (ctx : Ctx R) : ℕ → DataSrc R → Exec (Rc × DataSrc R)
  | 0, d => .ok (.row,d)
  | k+1, d => do
    let (rc,d) ← I.xjd1DataSrcStep ctx d
    match rc with
    | .done => .ok (.done,d)
    | .row => dataSrcSteps I ctx k d

section Mono
variable {I J : Interp R} {c d : Ctx R} {n m : ℕ}

theorem within_le (hI : I.Le J) (hc : c ≤ d) (hnm : n ≤ m) (p : DataSrc R) : p.within I n c ≤ p.within J m d := by
  cases p with
  | subq z v q => exact canStep_le hI (Ctx.top_le_top hc) hnm q
  | _ => exact Run.le_refl _

theorem cut_le {α : Type} {b b' : Bool} {x y : Exec α} (hb : b = true → b' = true) (h : x ≤ y) :
    (if b then x else .more) ≤ if b' then y else .more := by
  cases b with
  | false => exact more_le _
  | true =>
    rw [hb rfl]
    exact h

theorem cut_le_self {α : Type} {b : Bool} {x y : Exec α} (h : x ≤ y) : (if b then x else .more) ≤ y := by
  cases b with
  | false => exact more_le _
  | true => exact h

theorem Interp.sparing_le (hI : I.Le J) (hnm : n ≤ m) : (I.sparing n).Le (J.sparing m) where
  exprEval _ _ hc e := exprEval_le hI hc e
  dataSrcStep _ _ hc d := cut_le (met_mono (within_le hI hc hnm d)) (dataSrcStep_le hI hc hnm d)
  stepCompounded _ _ hc p := cut_le (met_mono (rowed_le hI hc hnm p)) (stepCompounded_le hI hc hnm p)
  queryStep _ _ hc p := cut_le (met_mono (stepRowed_le hI hc hnm p)) (queryStep_le hI hc hnm p)
  queryDoc _ _ hc p k := queryDoc_le hI hc p k

theorem sparing_le_next (hI : I.Le J) (n : ℕ) : (I.sparing n).Le (J.next n) where
  exprEval _ _ hc e := exprEval_le hI hc e
  dataSrcStep _ _ hc d := cut_le_self (dataSrcStep_le hI hc (Nat.le_refl n) d)
  stepCompounded _ _ hc p := cut_le_self (stepCompounded_le hI hc (Nat.le_refl n) p)
  queryStep _ _ hc p := cut_le_self (queryStep_le hI hc (Nat.le_refl n) p)
  queryDoc _ _ hc p k := queryDoc_le hI hc p k

theorem sparing_le {n m : ℕ} (h : n ≤ m) : (sparing n : Interp R).Le (sparing m) :=
  Interp.mono (F := sparing) rfl (fun hl => Interp.sparing_le hl) h

theorem sparing_le_interp (n : ℕ) : (sparing n : Interp R).Le (interp n) := by
  induction n with
  | zero => exact interp_le (Nat.le_refl 0)
  | succ n ih => exact sparing_le_next ih n

omit [CDouble R] in
theorem dataSrcSteps_le (hI : I.Le J) (k : ℕ) (p : DataSrc R) : dataSrcSteps I c k p ≤ dataSrcSteps J c k p := by
  induction k generalizing p with
  | zero => exact Run.le_refl _
  | succ k ih =>
    refine bind_le_bind (hI.dataSrcStep c c (Ctx.le_refl c) p) fun x => ?_
    obtain ⟨rc,p1⟩ := x
    cases rc
    · exact ih p1
    · exact Run.le_refl _

end Mono
section Expr
variable {I : Interp R} (hI : I.Heads) {S : ℕ → Bool} {ctx : Ctx R} (hctx : ctx.Heads S)
include hI hctx

theorem exprEval_headed {e : Expr R} (he : ExprFit S e) : Headed (fun _ => True) (exprEval I ctx e) := by
  have hi := he.initial
  have hs := he.inScope
  cases e with
  | jvalue p => trivial
  | dot l z =>
    rw [Expr.Initial] at hi
    rw [Expr.scoped] at hs
    exact (hI.exprEval S ctx l hctx ⟨hi,hs⟩).bind fun _ _ _ => trivial
  | bi op l r => exact exprEvalBi_headed hI.exprEval hctx he
  | tri t a b =>
    rw [Expr.Initial] at hi
    rw [Expr.scoped,Bool.and_eq_true,Bool.and_eq_true] at hs
    refine (exprTrue_headed hI.exprEval hctx ⟨hi.1,hs.1⟩).bind fun x _ _ => ?_
    obtain ⟨c,t'⟩ := x
    cases c with
    | true => exact (hI.exprEval S ctx a hctx ⟨hi.2.1,hs.2.1⟩).bind fun _ _ _ => trivial
    | false => exact (hI.exprEval S ctx b hctx ⟨hi.2.2,hs.2.2⟩).bind fun _ _ _ => trivial
  | id z q i =>
    rw [Expr.scoped] at hs
    simp only [exprEval]
    split
    · split
      · rename_i f hf
        exact (hctx _ f hs hf i).bind fun _ _ _ => trivial
      · exact .stop (by decide)
    · trivial
    · exact .stop (by decide)
  | struct es =>
    rw [Expr.Initial] at hi
    rw [Expr.scoped] at hs
    exact (evalItems_headed hI.exprEval hctx hi hs).bind fun _ _ _ => trivial
  | array es =>
    rw [Expr.Initial] at hi
    rw [Expr.scoped] at hs
    exact (evalItems_headed hI.exprEval hctx hi hs).bind fun _ _ _ => trivial
  | func f args i => exact functionEval_headed hI.exprEval hctx he
  | subq p =>
    rw [Expr.Initial] at hi
    rw [Expr.scoped] at hs
    have hp : p.Fit S := ⟨hi.clean,hs⟩
    refine (hI.queryStep S ctx p hctx hp (queryInitial_settled p hi)).bind fun x hx h => ?_
    obtain ⟨rc,q⟩ := x
    cases rc with
    | done => trivial
    | row =>
      have hq := hp.of_rewind (hI.neutral.queryStep ctx p .row q hp.clean hx)
      exact (hI.queryDoc S ctx q 0 hctx hq (h.2 rfl)).bind fun _ _ _ => trivial

end Expr

section Ends
variable {I J : Interp R} (hJ : J.Le J) (hdoc : ∀ ctx p k, J.xjd1QueryDoc ctx p k = queryDoc I ctx p k) {ctx : Ctx R}
  {p : Query R} {s : SimpleQuery R}
include hdoc

omit [CDouble R] in
theorem endFrame_le (hs : p.u = .simple s) (hd : p.eDocFrom = .grouped) (hnil : s.grouped.pItem = []) :
    p.endFrame J ctx ≤ p.frame J ctx := by
  refine ⟨fun k => ?_,rfl⟩
  cases k with
  | zero => exact more_le _
  | succ k =>
    show .stop .emptyList ≤ Prod.fst <$> J.xjd1QueryDoc ctx p (k+1)
    rw [hdoc,queryDoc,hd,if_neg (by decide),hs]
    simp only [simpleDoc,hd,ResultList.doc,hnil]
    cases s.pRes <;> exact Run.le_refl _

omit [CDouble R] hdoc in
theorem queryDoc_grouped {pRes : Expr R} (hs : p.u = .simple s) (hd : p.eDocFrom = .grouped) (he : s.pRes = some pRes) :
    queryDoc I ctx p 0 = resultDoc I ctx p s pRes := by
  rw [queryDoc,hd,if_neg (by decide),hs]
  simp only [simpleDoc,hd,he]

include hJ

omit [CDouble R] in
/-- A result expression that reads no document behind the last group. -/
theorem result_headed (hI : I.Le J) {pRes : Expr R} (hs : p.u = .simple s) (hd : p.eDocFrom = .grouped)
    (hnil : s.grouped.pItem = []) (h : met (readsNone (J.xjd1ExprEval (ctx.push (p.endFrame J ctx)) pRes)) = true) :
    Headed (fun _ => True) (resultDoc I ctx p s pRes) := by
  have hend : J.xjd1ExprEval (ctx.push (p.endFrame J ctx)) pRes ≤ J.xjd1ExprEval (p.scope J ctx) pRes :=
    hJ.exprEval _ _ (Ctx.push_le_push (Ctx.le_refl ctx) (endFrame_le hdoc hs hd hnil)) pRes
  have hle := hI.exprEval _ _ (scope_le hI (Ctx.le_refl ctx) p) pRes
  have heval : Headed (fun _ => True) (J.xjd1ExprEval (ctx.push (p.endFrame J ctx)) pRes) := by
    cases hx : J.xjd1ExprEval (ctx.push (p.endFrame J ctx)) pRes with
    | ok _ => trivial
    | stop e =>
      rw [hx] at h
      exact .stop (of_decide_eq_true h)
    | more => trivial
  rcases hend with hmore | heq
  · rw [hmore] at h
    cases h
  · rw [heq] at heval
    refine Avoids.bind (P := fun _ => True) ?_ fun _ _ _ => trivial
    rcases hle with hmore | heq'
    · rw [hmore]
      trivial
    · rw [heq']
      exact heval

omit [CDouble R] in
/-- A query that can be read at its end is read there without the head of an empty list. -/
theorem queryEnd_headed (hheads : I.Heads) (hI : I.Le J) (hp : p.Fit fun _ => true) (h : met (p.readable J ctx.top) = true) :
    Headed (fun _ => True) (queryDoc I ctx.top p 0) := by
  have htop := ctx.top_heads fun _ => true
  have hread : ∀ {l : ResultList R}, met (.ok !l.pItem.isEmpty) = true → l.pItem ≠ [] := fun hm hnil => by
    rw [hnil] at hm
    cases hm
  rw [Query.readable] at h
  cases hu : p.u with
  | compound c =>
    refine queryDoc_headed hheads htop hp ?_ 0
    rw [Query.AtHead]
    cases hd : p.eDocFrom with
    | ordered =>
      simp only [hd] at h
      exact hread h
    | _ =>
      rw [hu]
      trivial
  | simple s =>
    cases hd : p.eDocFrom with
    | datasrc => exact queryDoc_headed hheads htop hp (.of_datasrc hd) 0
    | ordered =>
      simp only [hd] at h
      refine queryDoc_headed hheads htop hp ?_ 0
      rw [Query.AtHead,hd]
      exact hread h
    | distincted =>
      simp only [hd,hu] at h
      refine queryDoc_headed hheads htop hp ?_ 0
      rw [Query.AtHead,hd,hu]
      exact hread h
    | grouped =>
      simp only [hd,hu] at h
      by_cases hnil : s.grouped.pItem = []
      · rw [if_pos (List.isEmpty_iff.mpr hnil)] at h
        cases he : s.pRes with
        | none =>
          simp only [he] at h
          cases h
        | some pRes =>
          simp only [he] at h
          rw [queryDoc_grouped hu hd he]
          exact result_headed hJ hdoc hI hu hd hnil h
      · refine queryDoc_headed hheads htop hp ?_ 0
        rw [Query.AtHead,hd,hu]
        exact hnil

omit [CDouble R] in
/-- A query that cannot be read at its end is read from an empty list. -/
theorem queryEnd_false (h : p.readable J ctx = .ok false) : queryDoc J ctx p 0 = .stop .emptyList := by
  have hnil : ∀ {l : ResultList R}, (Run.ok !l.pItem.isEmpty : Exec Bool) = .ok false → l.pItem = [] := fun hm => by
    simpa using hm
  rw [Query.readable] at h
  cases hd : p.eDocFrom with
  | ordered =>
    simp only [hd] at h
    rw [queryDoc,if_pos hd,if_pos rfl,ResultList.doc,hnil h]
    rfl
  | datasrc =>
    simp only [hd] at h
    cases h
  | distincted =>
    cases hu : p.u with
    | compound c =>
      simp only [hd,hu] at h
      cases h
    | simple s =>
      simp only [hd,hu] at h
      rw [queryDoc,hd,if_neg (by decide),hu]
      simp only [simpleDoc,hd,ResultList.doc,hnil h]
      rfl
  | grouped =>
    cases hu : p.u with
    | compound c =>
      simp only [hd,hu] at h
      cases h
    | simple s =>
      simp only [hd,hu] at h
      split at h
      · rename_i hemp
        have hl := List.isEmpty_iff.mp hemp
        cases he : s.pRes with
        | none =>
          rw [queryDoc,hd,if_neg (by decide),hu]
          simp only [simpleDoc,hd,he,ResultList.doc,hl]
          rfl
        | some pRes =>
          simp only [he] at h
          rw [queryDoc_grouped hu hd he]
          cases hx : J.xjd1ExprEval (ctx.push (p.endFrame J ctx)) pRes with
          | ok _ =>
            rw [hx] at h
            cases h
          | more =>
            rw [hx] at h
            cases h
          | stop e =>
            rw [hx] at h
            obtain rfl : e = .emptyList := by simpa [readsNone] using h
            have hend : J.xjd1ExprEval (ctx.push (p.endFrame J ctx)) pRes ≤ J.xjd1ExprEval (p.scope J ctx) pRes :=
              hJ.exprEval _ _ (Ctx.push_le_push (Ctx.le_refl ctx) (endFrame_le hdoc hu hd hl)) pRes
            exact bind_eq_stop.mpr (.inl (le_stop hend hx))
      · cases h

end Ends

omit [CDouble R] in
theorem Interp.Neutral.of_le {I J : Interp R} (h : I.Le J) (hJ : J.Neutral) : I.Neutral where
  exprEval ctx e v e' he hx := hJ.exprEval ctx e v e' he (le_ok (h.exprEval ctx ctx (Ctx.le_refl ctx) e) hx)
  dataSrcStep ctx d rc d' hd hx := hJ.dataSrcStep ctx d rc d' hd (le_ok (h.dataSrcStep ctx ctx (Ctx.le_refl ctx) d) hx)
  stepCompounded ctx p rc p' hp hx :=
    hJ.stepCompounded ctx p rc p' hp (le_ok (h.stepCompounded ctx ctx (Ctx.le_refl ctx) p) hx)
  queryStep ctx p rc p' hp hx := hJ.queryStep ctx p rc p' hp (le_ok (h.queryStep ctx ctx (Ctx.le_refl ctx) p) hx)
  queryDoc ctx p k v p' hp hx := hJ.queryDoc ctx p k v p' hp (le_ok (h.queryDoc ctx ctx (Ctx.le_refl ctx) p k) hx)

theorem sparing_inert (n : ℕ) : (sparing n : Interp R).Inert := by
  induction n with
  | zero => exact interp_inert 0
  | succ n ih => exact fun ctx o p k hf => queryDoc_under ih ctx p k hf

theorem sparing_heads (n : ℕ) : (sparing n : Interp R).Heads := by
  induction n with
  | zero =>
    exact ⟨interp_neutral 0,interp_inert 0,fun _ _ _ _ _ => trivial,fun _ _ _ _ _ _ => trivial,
      fun _ _ _ _ _ _ _ => trivial,fun _ _ _ _ _ _ => trivial,fun _ _ _ _ _ _ _ => trivial,fun _ _ _ _ => trivial⟩
  | succ n ih =>
    refine ⟨.of_le (sparing_le_interp (n+1)) (interp_neutral (n+1)),sparing_inert (n+1),
      fun S ctx e hctx he => exprEval_headed ih hctx he,fun S ctx d hctx hd hs => ?_,
      fun S ctx p hctx hp hs ho => ?_,fun S ctx p hctx hp hs => ?_,
      fun S ctx p k hctx hp hr => queryDoc_headed ih hctx hp hr k,
      fun ctx p hp hr => queryEnd_headed (sparing_le (Nat.le_refl (n+1))) (fun _ _ _ => rfl) ih (sparing_le (Nat.le_succ n)) hp hr⟩
    · show Headed _ (if met (d.within (sparing n) n ctx) then dataSrcStep (sparing n) n ctx d else .more)
      split
      · rename_i hw
        refine dataSrcStep_headed n ih hctx hd hs fun z v q q' hdq hq hset hx => ?_
        subst hdq
        have hx' := le_ok ((sparing_le (Nat.le_succ n)).queryStep ctx.top ctx.top (Ctx.le_refl ctx.top) q) hx
        change (if met (q.stepRowed (sparing n) n ctx.top) then queryStep (sparing n) n ctx.top q else .more) = _ at hx'
        split at hx'
        · rename_i hrow
          exact canStep_readable ih (ctx.top_heads _) hq hset (fun _ => hrow) hw hx'
        · cases hx'
      · trivial
    · show Headed _ (if met (p.rowed (sparing n) n ctx) then stepCompounded (sparing n) n ctx p else .more)
      split
      · rename_i hrow
        refine (stepCompounded_headed n ih hctx ⟨hp,hs,ho⟩).mono fun r _ h => ?_
        exact ⟨⟨h.1.operand.settled,h.1.operand.eDocFrom⟩,h.2 (rowed_of_met n hrow)⟩
      · trivial
    · show Headed _ (if met (p.stepRowed (sparing n) n ctx) then queryStep (sparing n) n ctx p else .more)
      split
      · rename_i hrow
        exact queryStep_headed n ih hctx hp hs hrow
      · trivial

omit [CDouble R] in
theorem dataSrcSteps_headed {I : Interp R} (hI : I.Heads) {S : ℕ → Bool} {ctx : Ctx R} (hctx : ctx.Heads S) (k : ℕ)
    {d : DataSrc R} (hd : d.Fit S) (hs : d.Settled) :
    Headed (fun x => x.2.Fit S ∧ x.2.Settled) (dataSrcSteps I ctx k d) := by
  induction k generalizing d with
  | zero => exact ⟨hd,hs⟩
  | succ k ih =>
    refine (hI.dataSrcStep S ctx d hctx hd hs).bind fun x hx h => ?_
    obtain ⟨rc,d1⟩ := x
    have hf : d1.Fit S := hd.of_rewind (hI.neutral.dataSrcStep ctx d rc d1 hd.clean hx)
    cases rc with
    | done => exact ⟨hf,h⟩
    | row => exact ih hf h

section Subquery
variable (n k : ℕ) (ctx : Ctx R) (zAs : Option Bytes) {q : Query R} (hq : q.Initial)
  (hs : q.scoped (fun _ => true) = true)
include hq hs

theorem sparing_run_headed : Headed (fun x => x.2.Fit (fun _ => false) ∧ x.2.Settled)
    (dataSrcSteps (sparing n) ctx k (.subq zAs .nullptr q)) := by
  refine dataSrcSteps_headed (sparing_heads n) (fun _ _ h => by cases h) k ⟨?_,by rw [DataSrc.scoped]; exact hs⟩
    (dataSrcInitial_settled _ (by rw [DataSrc.Initial]; exact ⟨rfl,hq⟩))
  rw [DataSrc.Clean,xjd1DataSrcRewind,DataSrc.Initial]
  exact ⟨rfl,hq.clean⟩

/-- Where such a run has come to a step that it has no row left for, the step reads the head of an empty list. -/
theorem subquery_past_end {z : Option Bytes} {v : JsonNode R} {p : Query R}
    (hrun : dataSrcSteps (sparing (n+2)) ctx k (.subq zAs .nullptr q) = .ok (.row,.subq z v p))
    (hr : p.pOrderBy.isSome = true → met (p.stepRowed (sparing (n+1)) (n+1) ctx.top) = true)
    (hc : (DataSrc.subq z v p).within (sparing (n+1)) (n+1) ctx = .ok false) :
    (interp (n+3)).xjd1DataSrcStep ctx (.subq z v p) = .stop .emptyList := by
  have h := sparing_run_headed (n+2) k ctx zAs hq hs
  rw [hrun] at h
  have hp := h.1.clean
  have hsc := h.1.inScope
  have hset := h.2
  rw [DataSrc.Clean,xjd1DataSrcRewind,DataSrc.Initial] at hp
  rw [DataSrc.scoped] at hsc
  rw [DataSrc.Settled] at hset
  obtain ⟨⟨rc,p'⟩,hstep,hread⟩ := canStep_false (sparing_heads (n+1)) (ctx.top_heads _) ⟨hp.2,hsc⟩ hset hr hc
  have hle := sparing_le_interp (R := R) (n+1)
  have hstep' := le_ok (queryStep_le hle (Ctx.le_refl ctx.top) (Nat.le_refl (n+1)) p) hstep
  have hdoc := queryEnd_false (I := sparing n) (sparing_le (Nat.le_refl (n+1))) (fun _ _ _ => rfl) hread
  have hdoc' := le_stop (queryDoc_le hle (Ctx.le_refl ctx.top) p' 0) hdoc
  refine bind_eq_stop.mpr (.inr ⟨_,hstep',?_⟩)
  exact bind_eq_stop.mpr (.inl hdoc')

end Subquery
end Runs

/-- The subquery `SELECT x FROM c AS x ORDER BY x`, with a limit and an offset. -/
def orderedRows (pLimit pOffset : Option (Expr Int)) : Query Int :=
  ⟨.simple ⟨false,some (.id [ch 'x'] (some 0) 1),.tab (some [ch 'x']) .nullptr [ch 'c'] 0,none,none,none,none,.empty,.empty⟩,
    none,some [⟨none,.id [ch 'x'] (some 0) 1⟩],pLimit,pOffset,.datasrc,.empty,none⟩

/-- The surroundings of a statement, over collections of three documents. -/
def threeDocuments : Ctx Int := ⟨[],.select,fun _ => [[ch '3'],[ch '1'],[ch '2']]⟩

theorem orderedRows_initial {pLimit pOffset : Option (Expr Int)} (hl : optionInitial pLimit) (ho : optionInitial pOffset) :
    (orderedRows pLimit pOffset).Initial := by
  simp [orderedRows,Query.Initial,QueryU.Initial,SimpleQuery.Initial,DataSrc.Initial,Expr.Initial,optionInitial,
    itemsOptionInitial,itemsInitial,aggsOptionInitial,hl,ho]

theorem ok_of_outcome {α β : Type} {x : Exec (α × β)} {a : α} (h : Prod.fst <$> x = .ok a) : ∃ b, x = .ok (a,b) := by
  cases x with
  | ok y =>
    cases h
    exact ⟨y.2,rfl⟩
  | stop _ => cases h
  | more => cases h

theorem stop_of_outcome {α β : Type} {x : Exec (α × β)} {s : Stop} (h : Prod.fst <$> x = .stop s) : x = .stop s := by
  cases x with
  | ok y => cases h
  | stop _ =>
    cases h
    rfl
  | more => cases h

end Xjd1
