import Xjd1.Query.Initial
import Xjd1.Query.Stream

/-! What stepping and reading leave behind. An evaluation leaves its expression
as it was, reading a document leaves its query as it was, and whatever a step
changes in a query or a data source is undone by rewinding it. -/
namespace Xjd1

open Fueled Fueled.Run

variable {R : Type}

/-- Rewinding the query makes it as it was initialised. -/
def Query.Clean (p : Query R) : Prop := (xjd1QueryRewind p).Initial

def DataSrc.Clean (d : DataSrc R) : Prop := (xjd1DataSrcRewind d).Initial

/-- The calls leave behind only what rewinding undoes. -/
structure Interp.Neutral (I : Interp R) : Prop where
  exprEval : ∀ ctx e v e', e.Initial → I.xjd1ExprEval ctx e = .ok (v,e') → e' = e
  dataSrcStep : ∀ ctx d rc d', d.Clean → I.xjd1DataSrcStep ctx d = .ok (rc,d') →
    xjd1DataSrcRewind d' = xjd1DataSrcRewind d
  stepCompounded : ∀ ctx p rc p', p.Clean → I.selectStepCompounded ctx p = .ok (rc,p') →
    xjd1QueryRewind p' = xjd1QueryRewind p
  queryStep : ∀ ctx p rc p', p.Clean → I.xjd1QueryStep ctx p = .ok (rc,p') →
    xjd1QueryRewind p' = xjd1QueryRewind p
  queryDoc : ∀ ctx p k v p', p.Clean → I.xjd1QueryDoc ctx p k = .ok (v,p') → p' = p

section Expr
variable {I : Interp R} (hI : I.Neutral) (ctx : Ctx R)
include hI

theorem evalOption_neutral {e e' : Option (Expr R)} {v : JsonNode R} (hi : optionInitial e)
    (h : evalOption I ctx e = .ok (v,e')) : e' = e := by
  cases e with
  | none =>
    cases h
    rfl
  | some e =>
    obtain ⟨⟨w,e1⟩,he,h⟩ := bind_eq_ok.mp h
    cases h
    rw [hI.exprEval ctx e v e1 hi he]

theorem evalItems_neutral {es es' : List (ExprItem R)} {vs : List (JsonNode R)} (hi : itemsInitial es)
    (h : evalItems I ctx es = .ok (vs,es')) : es' = es := by
  induction es generalizing vs es' with
  | nil =>
    cases h
    rfl
  | cons pItem es ih =>
    obtain ⟨z,e⟩ := pItem
    rw [itemsInitial] at hi
    obtain ⟨⟨v,e1⟩,he,h⟩ := bind_eq_ok.mp h
    obtain ⟨⟨ws,es1⟩,hes,h⟩ := bind_eq_ok.mp h
    cases h
    rw [hI.exprEval ctx e v e1 hi.1 he,ih hi.2 hes]

variable [CDouble R]

theorem exprTrue_neutral {e e' : Expr R} {b : Bool} (hi : e.Initial)
    (h : xjd1ExprTrue I ctx e = .ok (b,e')) : e' = e := by
  obtain ⟨⟨v,e1⟩,he,h⟩ := bind_eq_ok.mp h
  have he1 := hI.exprEval ctx e v e1 hi he
  simp only at h
  split at h
  · cases h
    exact he1
  · obtain ⟨c,_,h⟩ := bind_eq_ok.mp h
    cases h
    exact he1

theorem functionEval_neutral {f : Function} {args : List (ExprItem R)} {i : ℕ} {v : JsonNode R}
    {e' : Expr R} (hi : itemsInitial args) (h : xjd1FunctionEval I ctx f args i = .ok (v,e')) :
    e' = .func f args i := by
  cases f with
  | length =>
    obtain ⟨⟨vs,as⟩,hargs,h⟩ := bind_eq_ok.mp h
    have ha := evalItems_neutral hI ctx hi hargs
    simp only at h
    split at h
    · obtain ⟨w,_,h⟩ := bind_eq_ok.mp h
      cases h
      rw [ha]
    · cases h
  | _ =>
    simp only [xjd1FunctionEval] at h
    split at h <;> cases h
    rfl

theorem exprEvalBi_neutral {op : BiOp} {l : Expr R} {r : Option (Expr R)} {v : JsonNode R} {e' : Expr R}
    (hl : l.Initial) (hr : optionInitial r) (h : exprEvalBi I ctx op l r = .ok (v,e')) :
    e' = .bi op l r := by
  unfold exprEvalBi at h
  split at h
  case h_1 | h_2 =>
    obtain ⟨⟨a,l1⟩,ha,h⟩ := bind_eq_ok.mp h
    obtain ⟨b,_,h⟩ := bind_eq_ok.mp h
    have hl1 := hI.exprEval ctx l a l1 hl ha
    simp only at h
    split at h
    · cases h
      rw [hl1]
    · obtain ⟨⟨w,r1⟩,hw,h⟩ := bind_eq_ok.mp h
      cases h
      rw [hl1,evalOption_neutral hI ctx hr hw]
  case h_3 =>
    obtain ⟨⟨b,l1⟩,hb,h⟩ := bind_eq_ok.mp h
    cases h
    rw [exprTrue_neutral hI ctx hl hb]
  case h_4 =>
    obtain ⟨⟨a,l1⟩,ha,h⟩ := bind_eq_ok.mp h
    obtain ⟨i,_,h⟩ := bind_eq_ok.mp h
    cases h
    rw [hI.exprEval ctx l a l1 hl ha]
  case h_5 =>
    obtain ⟨⟨a,l1⟩,ha,h⟩ := bind_eq_ok.mp h
    cases h
    rw [hI.exprEval ctx l a l1 hl ha]
  case h_6 | h_7 => cases h
  case h_8 | h_9 | h_10 | h_11 | h_12 =>
    cases h
    rfl
  case h_13 =>
    obtain ⟨⟨a,l1⟩,ha,h⟩ := bind_eq_ok.mp h
    obtain ⟨⟨b,r1⟩,hb,h⟩ := bind_eq_ok.mp h
    obtain ⟨c,_,h⟩ := bind_eq_ok.mp h
    cases h
    rw [hI.exprEval ctx l a l1 hl ha,evalOption_neutral hI ctx hr hb]

theorem exprEval_neutral {e e' : Expr R} {v : JsonNode R} (hi : e.Initial)
    (h : exprEval I ctx e = .ok (v,e')) : e' = e := by
  cases e with
  | jvalue p =>
    cases h
    rfl
  | dot l z =>
    rw [Expr.Initial] at hi
    obtain ⟨⟨a,l1⟩,ha,h⟩ := bind_eq_ok.mp h
    cases h
    rw [hI.exprEval ctx l a l1 hi ha]
  | bi op l r =>
    rw [Expr.Initial] at hi
    exact exprEvalBi_neutral hI ctx hi.1 hi.2 h
  | tri t a b =>
    rw [Expr.Initial] at hi
    obtain ⟨⟨c,t1⟩,hc,h⟩ := bind_eq_ok.mp h
    have ht := exprTrue_neutral hI ctx hi.1 hc
    cases c with
    | true =>
      obtain ⟨⟨w,a1⟩,ha,h⟩ := bind_eq_ok.mp h
      cases h
      rw [ht,hI.exprEval ctx a v a1 hi.2.1 ha]
    | false =>
      obtain ⟨⟨w,b1⟩,hb,h⟩ := bind_eq_ok.mp h
      cases h
      rw [ht,hI.exprEval ctx b v b1 hi.2.2 hb]
  | id z q i =>
    simp only [exprEval] at h
    split at h
    · split at h
      · obtain ⟨w,_,h⟩ := bind_eq_ok.mp h
        cases h
        rfl
      · cases h
    · cases h
      rfl
    · cases h
  | struct st =>
    rw [Expr.Initial] at hi
    obtain ⟨⟨vs,es⟩,hes,h⟩ := bind_eq_ok.mp h
    cases h
    rw [evalItems_neutral hI ctx hi hes]
  | array ar =>
    rw [Expr.Initial] at hi
    obtain ⟨⟨vs,es⟩,hes,h⟩ := bind_eq_ok.mp h
    cases h
    rw [evalItems_neutral hI ctx hi hes]
  | func f args i =>
    rw [Expr.Initial] at hi
    exact functionEval_neutral hI ctx hi h
  | subq p =>
    rw [Expr.Initial] at hi
    have hp : xjd1QueryRewind p = p := queryRewind_initial p hi
    have hc : p.Clean := by rwa [Query.Clean,hp]
    obtain ⟨⟨rc,p1⟩,h1,h⟩ := bind_eq_ok.mp h
    have hr := hI.queryStep ctx p rc p1 hc h1
    have hc1 : p1.Clean := by rwa [Query.Clean,hr]
    cases rc with
    | row =>
      obtain ⟨⟨w,p2⟩,h2,h⟩ := bind_eq_ok.mp h
      have hp2 := hI.queryDoc ctx p1 0 w p2 hc1 h2
      cases h
      rw [hp2,hr,hp]
    | done =>
      cases h
      rw [hr,hp]

theorem aggregateStep_neutral {l l' : List (AggExpr R)} {b : Bool} (hi : aggsInitial (l.map AggExpr.clear))
    (h : xjd1AggregateStep I ctx l = .ok (l',b)) : l'.map AggExpr.clear = l.map AggExpr.clear := by
  induction l generalizing l' b with
  | nil =>
    cases h
    rfl
  | cons a l ih =>
    obtain ⟨f,args,v,c⟩ := a
    rw [List.map_cons,AggExpr.clear,aggsInitial] at hi
    obtain ⟨⟨a1,save⟩,h1,h⟩ := bind_eq_ok.mp h
    obtain ⟨⟨l1,save'⟩,h2,h⟩ := bind_eq_ok.mp h
    obtain ⟨⟨vs,as⟩,h3,h1⟩ := bind_eq_ok.mp h1
    obtain ⟨⟨c1,save1⟩,_,h1⟩ := bind_eq_ok.mp h1
    cases h
    cases h1
    rw [List.map_cons,List.map_cons,ih hi.2 h2]
    simp only [AggExpr.clear]
    rw [evalItems_neutral hI ctx hi.1.1 h3]

end Expr

@[simp] theorem aggregateFinalize_clear [CDouble R] (l : List (AggExpr R)) :
    (xjd1AggregateFinalize l).map AggExpr.clear = l.map AggExpr.clear := by
  simp [xjd1AggregateFinalize,AggExpr.clear]

section DataSrc
variable {I : Interp R} (hI : I.Neutral) (ctx : Ctx R) (n : ℕ)
include hI

theorem DataSrc.Clean.step {d d' : DataSrc R} {rc : Rc} (hd : d.Clean)
    (h : I.xjd1DataSrcStep ctx d = .ok (rc,d')) :
    xjd1DataSrcRewind d' = xjd1DataSrcRewind d ∧ d'.Clean := by
  have hr := hI.dataSrcStep ctx d rc d' hd h
  exact ⟨hr,by rwa [DataSrc.Clean,hr]⟩

theorem joinStep_neutral {l r d' : DataSrc R} {rc : Rc} (hl : l.Clean) (hr : r.Clean)
    (h : joinStep I ctx l r = .ok (rc,d')) :
    xjd1DataSrcRewind d' = xjd1DataSrcRewind (.comma true l r) := by
  obtain ⟨⟨rc1,r1⟩,h1,h⟩ := bind_eq_ok.mp h
  obtain ⟨hr1,hc1⟩ := hr.step hI ctx h1
  cases rc1 with
  | row =>
    cases h
    rw [xjd1DataSrcRewind,xjd1DataSrcRewind,hr1]
  | done =>
    obtain ⟨⟨rc2,l1⟩,h2,h⟩ := bind_eq_ok.mp h
    obtain ⟨hl1,_⟩ := hl.step hI ctx h2
    cases rc2 with
    | done =>
      cases h
      rw [xjd1DataSrcRewind,xjd1DataSrcRewind,hr1,hl1]
    | row =>
      obtain ⟨⟨rc3,r2⟩,h3,h⟩ := bind_eq_ok.mp h
      cases h
      have hrr : xjd1DataSrcRewind (xjd1DataSrcRewind r1) = xjd1DataSrcRewind r1 :=
        dataSrcRewind_initial _ hc1
      have hcr : (xjd1DataSrcRewind r1).Clean := by rwa [DataSrc.Clean,hrr]
      rw [xjd1DataSrcRewind,xjd1DataSrcRewind,(hcr.step hI ctx h3).1,hrr,hr1,hl1]

theorem flattenLoop_neutral [CDouble R] {op : UInt8} {e : Expr R} {m : ℕ} {p : DataSrc R}
    {it : Option (FlattenIter R)} {r : Rc × DataSrc R × Option (FlattenIter R)} (hp : p.Clean)
    (h : Run.loop (flattenTurn I n ctx op e) m (p,it) = .ok r) : xjd1DataSrcRewind r.2.1 = xjd1DataSrcRewind p := by
  refine loop_inv (P := fun s => xjd1DataSrcRewind s.1 = xjd1DataSrcRewind p)
    (Q := fun r => xjd1DataSrcRewind r.2.1 = xjd1DataSrcRewind p) ?_ rfl h
  intro s r hs hb
  have hcs : s.1.Clean := by rw [DataSrc.Clean,hs]; exact hp
  obtain ⟨⟨rc2,it2⟩,_,hb⟩ := bind_eq_ok.mp hb
  cases rc2 with
  | row =>
    cases hb
    exact ⟨fun b hb => by cases hb; exact hs,fun s' hs' => by cases hs'⟩
  | done =>
    obtain ⟨⟨rc3,p3⟩,h3,hb⟩ := bind_eq_ok.mp hb
    obtain ⟨hp3,_⟩ := hcs.step hI ctx h3
    cases rc3 with
    | done =>
      cases hb
      exact ⟨fun b hb => by cases hb; exact hp3.trans hs,fun s' hs' => by cases hs'⟩
    | row =>
      obtain ⟨it4,_,hb⟩ := bind_eq_ok.mp hb
      cases hb
      exact ⟨fun b hb => (by cases hb),fun s' hs' => by cases hs'; exact hp3.trans hs⟩

theorem pathArray_neutral {e e' : Expr R} {a a' : JsonNode R} (he : e.Initial)
    (h : pathArray I ctx e a = .ok (a',e')) : e' = e := by
  unfold pathArray at h
  split at h
  · exact hI.exprEval ctx e a' e' he h
  · cases h
    rfl

theorem dataSrcStep_neutral [CDouble R] {d d' : DataSrc R} {rc : Rc} (hd : d.Clean)
    (h : dataSrcStep I n ctx d = .ok (rc,d')) : xjd1DataSrcRewind d' = xjd1DataSrcRewind d := by
  cases d with
  | comma b l r =>
    rw [DataSrc.Clean,xjd1DataSrcRewind,DataSrc.Initial] at hd
    obtain ⟨_,hl,hr⟩ := hd
    simp only [dataSrcStep] at h
    split at h
    · rw [joinStep_neutral hI ctx hl hr h,xjd1DataSrcRewind,xjd1DataSrcRewind]
    · obtain ⟨⟨rc1,l1⟩,h1,h⟩ := bind_eq_ok.mp h
      obtain ⟨hl1,hcl⟩ := DataSrc.Clean.step hI ctx hl h1
      cases rc1 with
      | row => rw [joinStep_neutral hI ctx hcl hr h,xjd1DataSrcRewind,xjd1DataSrcRewind,hl1]
      | done =>
        cases h
        rw [xjd1DataSrcRewind,xjd1DataSrcRewind,hl1]
  | subq z v q =>
    rw [DataSrc.Clean,xjd1DataSrcRewind,DataSrc.Initial] at hd
    obtain ⟨⟨rc1,q1⟩,h1,h⟩ := bind_eq_ok.mp h
    obtain ⟨⟨w,q2⟩,h2,h⟩ := bind_eq_ok.mp h
    have hq1 := hI.queryStep _ q rc1 q1 hd.2 h1
    have hc1 : q1.Clean := by rw [Query.Clean,hq1]; exact hd.2
    have hq2 := hI.queryDoc _ q1 0 w q2 hc1 h2
    cases h
    rw [xjd1DataSrcRewind,xjd1DataSrcRewind,hq2,hq1]
  | tab z v name k =>
    simp only [dataSrcStep] at h
    split at h <;> cases h <;> rw [xjd1DataSrcRewind,xjd1DataSrcRewind]
  | flatten v p op e as it =>
    rw [DataSrc.Clean,xjd1DataSrcRewind,DataSrc.Initial] at hd
    obtain ⟨⟨rc1,p1,it1⟩,h1,h⟩ := bind_eq_ok.mp h
    have hp1 := flattenLoop_neutral hI ctx n hd.2.1 h1
    simp only at h
    split at h
    · obtain ⟨⟨k,w⟩,_,h⟩ := bind_eq_ok.mp h
      obtain ⟨x,_,h⟩ := bind_eq_ok.mp h
      cases h
      rw [xjd1DataSrcRewind,xjd1DataSrcRewind,hp1]
    · cases h
    · cases h
      rw [xjd1DataSrcRewind,xjd1DataSrcRewind,hp1]
  | path z v e a i =>
    rw [DataSrc.Clean,xjd1DataSrcRewind,DataSrc.Initial] at hd
    obtain ⟨⟨a1,e1⟩,h1,h⟩ := bind_eq_ok.mp h
    have he := pathArray_neutral hI ctx hd.2.1 h1
    simp only at h
    split at h
    · split at h <;> cases h <;> rw [xjd1DataSrcRewind,xjd1DataSrcRewind,he]
    · cases h
      rw [xjd1DataSrcRewind,xjd1DataSrcRewind,he]
  | null b =>
    cases h
    rw [xjd1DataSrcRewind,xjd1DataSrcRewind]

end DataSrc

theorem rewind_setSimple {p : Query R} {s t : SimpleQuery R} (hp : p.u = .simple s)
    (h : simpleRewind t = simpleRewind s) : xjd1QueryRewind (p.setSimple t) = xjd1QueryRewind p := by
  rw [queryRewind_eq,queryRewind_eq p,hp,queryURewind,← h]
  rfl

theorem rewind_eDocFrom (p : Query R) (d : DocFrom) :
    xjd1QueryRewind { p with eDocFrom := d } = xjd1QueryRewind p := by
  rw [queryRewind_eq,queryRewind_eq p]

theorem Query.Clean.of_rewind {p q : Query R} (hp : p.Clean) (h : xjd1QueryRewind q = xjd1QueryRewind p) :
    q.Clean := by rwa [Query.Clean,h]

theorem Query.Clean.simple {p : Query R} {s : SimpleQuery R} (h : p.Clean) (hp : p.u = .simple s) :
    (simpleRewind s).Initial := by
  rw [Query.Clean,queryRewind_eq,queryInitial_iff,hp,queryURewind,QueryU.Initial] at h
  exact h.1

section Select
variable [CDouble R] {I : Interp R} (hI : I.Neutral) (ctx : Ctx R) (n : ℕ)

section Where
include hI

theorem whereTurn_neutral {p : Query R} (hp : p.Clean) {r : (Rc × Query R) ⊕ Query R}
    (h : whereTurn I ctx p = .ok r) :
    (∀ b, r = .inl b → xjd1QueryRewind b.2 = xjd1QueryRewind p) ∧
    (∀ q, r = .inr q → xjd1QueryRewind q = xjd1QueryRewind p) := by
  obtain ⟨s,hs,h⟩ := bind_eq_ok.mp h
  rw [Query.simple_eq_ok] at hs
  have hsi := (simpleInitial_iff _).mp (hp.simple hs)
  rw [simpleRewind_eq] at hsi
  obtain ⟨⟨rc,pFrom⟩,hf,h⟩ := bind_eq_ok.mp h
  have hf1 := hI.dataSrcStep ctx _ rc pFrom hsi.2.1 hf
  have hset : ∀ w, w = s.pWhere → xjd1QueryRewind (p.setSimple { s with pFrom := pFrom, pWhere := w }) =
      xjd1QueryRewind p := by
    rintro w rfl
    refine rewind_setSimple hs ?_
    rw [simpleRewind_eq,simpleRewind_eq s]
    simp only [hf1]
  simp only at h
  split at h
  · rename_i pWhere hw
    obtain ⟨⟨b,w⟩,hb,h'⟩ := bind_eq_ok.mp h
    rw [hw] at hsi
    have hwi : pWhere.Initial := hsi.2.2.1
    have hw1 := exprTrue_neutral hI _ hwi hb
    rw [hw1] at h'
    cases h'
    cases b
    · exact ⟨nofun,fun q hq => by cases hq; exact hset _ hw.symm⟩
    · exact ⟨fun q hq => by cases hq; exact hset _ hw.symm,nofun⟩
  · cases h
    exact ⟨fun b hb => by cases hb; exact hset _ rfl,nofun⟩

theorem whered_neutral {p q : Query R} {rc : Rc} (hp : p.Clean)
    (h : selectStepWhered I n ctx p = .ok (rc,q)) : xjd1QueryRewind q = xjd1QueryRewind p := by
  refine loop_inv (P := fun q => xjd1QueryRewind q = xjd1QueryRewind p)
    (Q := fun r => xjd1QueryRewind r.2 = xjd1QueryRewind p) (fun s r hs hr => ?_) rfl h
  have ht := whereTurn_neutral hI ctx (hp.of_rewind hs) hr
  exact ⟨fun b hb => (ht.1 b hb).trans hs,fun q hq => (ht.2 q hq).trans hs⟩

theorem queryAggregateStep_neutral {p q : Query R} {b : Bool} (hp : p.Clean)
    (h : queryAggregateStep I ctx p = .ok (b,q)) : xjd1QueryRewind q = xjd1QueryRewind p := by
  obtain ⟨s,hs,h⟩ := bind_eq_ok.mp h
  rw [Query.simple_eq_ok] at hs
  have hsi := (simpleInitial_iff _).mp (hp.simple hs)
  rw [simpleRewind_eq] at hsi
  obtain ⟨⟨l,save⟩,hl,h⟩ := bind_eq_ok.mp h
  cases h
  refine rewind_setSimple hs ?_
  rw [simpleRewind_eq,simpleRewind_eq s]
  cases ha : s.pAgg with
  | none => rfl
  | some l0 =>
    simp only [ha,Option.map_some,aggsOptionInitial] at hsi
    rw [ha,Option.getD_some] at hl
    simp only [Option.map_some,aggregateStep_neutral hI _ hsi.2.2.2.2.2.1 hl]

end Where

omit [CDouble R] in
theorem setGrouped_neutral {p q : Query R} {l : ResultList R} (h : setGrouped p l = .ok q) :
    xjd1QueryRewind q = xjd1QueryRewind p := by
  obtain ⟨s,hs,h⟩ := bind_eq_ok.mp h
  rw [Query.simple_eq_ok] at hs
  cases h
  refine rewind_setSimple hs ?_
  rw [simpleRewind_eq,simpleRewind_eq s]

omit [CDouble R] in
theorem setDistincted_neutral {p q : Query R} {l : ResultList R} (h : setDistincted p l = .ok q) :
    xjd1QueryRewind q = xjd1QueryRewind p := by
  obtain ⟨s,hs,h⟩ := bind_eq_ok.mp h
  rw [Query.simple_eq_ok] at hs
  cases h
  refine rewind_setSimple hs ?_
  rw [simpleRewind_eq,simpleRewind_eq s]

theorem queryAggregateFinalize_neutral {p q : Query R} (h : queryAggregateFinalize p = .ok q) :
    xjd1QueryRewind q = xjd1QueryRewind p := by
  obtain ⟨s,hs,h⟩ := bind_eq_ok.mp h
  rw [Query.simple_eq_ok] at hs
  cases h
  refine rewind_setSimple hs ?_
  rw [simpleRewind_eq,simpleRewind_eq s]
  cases s.pAgg with
  | none => rfl
  | some l => simp only [Option.map_some,aggregateFinalize_clear]

section Grouped
include hI

theorem plainAggStep_neutral {p q : Query R} {rc : Rc} (hp : p.Clean)
    (h : plainAggStep I n ctx p = .ok (rc,q)) : xjd1QueryRewind q = xjd1QueryRewind p := by
  obtain ⟨s,hs,h⟩ := bind_eq_ok.mp h
  split at h
  · cases h
  · split at h
    · cases h
      rfl
    · obtain ⟨p1,h1,h⟩ := bind_eq_ok.mp h
      obtain ⟨⟨a,p2⟩,h2,h⟩ := bind_eq_ok.mp h
      obtain ⟨s2,_,h⟩ := bind_eq_ok.mp h
      obtain ⟨p3,h3,h⟩ := bind_eq_ok.mp h
      obtain ⟨p4,h4,h⟩ := bind_eq_ok.mp h
      cases h
      have hp1 := setGrouped_neutral h1
      have hp2 : xjd1QueryRewind p2 = xjd1QueryRewind p := by
        refine loop_inv (P := fun st => xjd1QueryRewind st.2 = xjd1QueryRewind p)
          (Q := fun st => xjd1QueryRewind st.2 = xjd1QueryRewind p) (fun st r hst hr => ?_) hp1 h2
        obtain ⟨⟨rc1,q1⟩,hq1,hr⟩ := bind_eq_ok.mp hr
        have e1 := (whered_neutral hI ctx n (hp.of_rewind hst) hq1).trans hst
        cases rc1 with
        | done =>
          cases hr
          exact ⟨fun b hb => by cases hb; exact e1,nofun⟩
        | row =>
          obtain ⟨⟨b,q2⟩,hq2,hr⟩ := bind_eq_ok.mp hr
          obtain ⟨s3,_,hr⟩ := bind_eq_ok.mp hr
          have e2 := (queryAggregateStep_neutral hI ctx (hp.of_rewind e1) hq2).trans e1
          split at hr <;> cases hr <;> exact ⟨nofun,fun q hq => by cases hq; exact e2⟩
      rw [rewind_eDocFrom,queryAggregateFinalize_neutral h4,setGrouped_neutral h3,hp2]

omit [CDouble R] in
theorem groupBy_neutral {p : Query R} {s : SimpleQuery R} (hp : p.Clean) (hs : p.u = .simple s) {c : Ctx R}
    {keys : List (JsonNode R)} {es : List (ExprItem R)} (h : evalItems I c (s.pGroupBy.getD []) = .ok (keys,es)) :
    (s.pGroupBy.map fun _ => es) = s.pGroupBy := by
  have hsi := (simpleInitial_iff _).mp (hp.simple hs)
  rw [simpleRewind_eq] at hsi
  cases hg : s.pGroupBy with
  | none => rfl
  | some es1 =>
    rw [hg] at h hsi
    rw [Option.map_some,evalItems_neutral hI c hsi.2.2.2.1 h]

theorem groupFill_neutral {p q : Query R} (hp : p.Clean) (h : groupFill I n ctx p = .ok q) :
    xjd1QueryRewind q = xjd1QueryRewind p := by
  obtain ⟨s,_,h⟩ := bind_eq_ok.mp h
  obtain ⟨p1,h1,h⟩ := bind_eq_ok.mp h
  obtain ⟨p2,h2,h⟩ := bind_eq_ok.mp h
  obtain ⟨s2,_,h⟩ := bind_eq_ok.mp h
  obtain ⟨l,_,h⟩ := bind_eq_ok.mp h
  have hp2 : xjd1QueryRewind p2 = xjd1QueryRewind p := by
    refine loop_inv (P := fun q => xjd1QueryRewind q = xjd1QueryRewind p)
      (Q := fun q => xjd1QueryRewind q = xjd1QueryRewind p) (fun q r hq hr => ?_)
      (setGrouped_neutral h1) h2
    obtain ⟨⟨rc1,q1⟩,hq1,hr⟩ := bind_eq_ok.mp hr
    have e1 := (whered_neutral hI ctx n (hp.of_rewind hq) hq1).trans hq
    cases rc1 with
    | done =>
      cases hr
      exact ⟨fun b hb => by cases hb; exact e1,nofun⟩
    | row =>
      obtain ⟨s1,hs1,hr⟩ := bind_eq_ok.mp hr
      rw [Query.simple_eq_ok] at hs1
      obtain ⟨⟨keys,es⟩,hes,hr⟩ := bind_eq_ok.mp hr
      cases hr
      refine ⟨nofun,fun q' hq' => ?_⟩
      cases hq'
      refine (rewind_setSimple hs1 ?_).trans e1
      have hg := groupBy_neutral hI (hp.of_rewind e1) hs1 hes
      rw [simpleRewind_eq,simpleRewind_eq s1,hg]
  rw [setGrouped_neutral h,hp2]

theorem groupAdvance_neutral {p q : Query R} (hp : p.Clean) (h : groupAdvance I n ctx p = .ok q) :
    xjd1QueryRewind q = xjd1QueryRewind p := by
  obtain ⟨s,_,h⟩ := bind_eq_ok.mp h
  split at h
  · exact setGrouped_neutral h
  · exact groupFill_neutral hI ctx n hp h

theorem groupTurn_neutral {p : Query R} (hp : p.Clean) {r : Query R ⊕ Query R}
    (h : groupTurn I ctx p = .ok r) :
    (∀ b, r = .inl b → xjd1QueryRewind b = xjd1QueryRewind p) ∧
    (∀ q, r = .inr q → xjd1QueryRewind q = xjd1QueryRewind p) := by
  obtain ⟨s,_,h⟩ := bind_eq_ok.mp h
  split at h
  · cases h
  · obtain ⟨⟨b,p1⟩,h1,h⟩ := bind_eq_ok.mp h
    have e1 := queryAggregateStep_neutral hI ctx hp h1
    simp only at h
    split at h
    all_goals
      obtain ⟨p2,h2,h⟩ := bind_eq_ok.mp h
      have e2 := (setGrouped_neutral h2).trans e1
      cases h
    · exact ⟨fun q hq => by cases hq; exact e2,nofun⟩
    · exact ⟨nofun,fun q hq => by cases hq; exact e2⟩

theorem groupNext_neutral {p q : Query R} {rc : Rc} (hp : p.Clean)
    (h : groupNext I n ctx p = .ok (rc,q)) : xjd1QueryRewind q = xjd1QueryRewind p := by
  obtain ⟨p1,h1,h⟩ := bind_eq_ok.mp h
  obtain ⟨s,_,h⟩ := bind_eq_ok.mp h
  have e1 := (rewind_eDocFrom p1 .grouped).trans (groupAdvance_neutral hI ctx n hp h1)
  split at h
  · cases h
    exact e1
  · obtain ⟨p2,h2,h⟩ := bind_eq_ok.mp h
    obtain ⟨p3,h3,h⟩ := bind_eq_ok.mp h
    cases h
    have e2 : xjd1QueryRewind p2 = xjd1QueryRewind p := by
      refine loop_inv (P := fun q => xjd1QueryRewind q = xjd1QueryRewind p)
        (Q := fun q => xjd1QueryRewind q = xjd1QueryRewind p) (fun q r hq hr => ?_) e1 h2
      have ht := groupTurn_neutral hI ctx (hp.of_rewind hq) hr
      exact ⟨fun b hb => (ht.1 b hb).trans hq,fun q' hq' => (ht.2 q' hq').trans hq⟩
    rw [queryAggregateFinalize_neutral h3,e2]

theorem havingTurn_neutral {p : Query R} (hp : p.Clean) {r : (Rc × Query R) ⊕ Query R}
    (h : havingTurn I n ctx p = .ok r) :
    (∀ b, r = .inl b → xjd1QueryRewind b.2 = xjd1QueryRewind p) ∧
    (∀ q, r = .inr q → xjd1QueryRewind q = xjd1QueryRewind p) := by
  obtain ⟨⟨rc,p1⟩,h1,h⟩ := bind_eq_ok.mp h
  obtain ⟨s,hs,h⟩ := bind_eq_ok.mp h
  have e1 := groupNext_neutral hI ctx n hp h1
  rw [Query.simple_eq_ok] at hs
  have hsi := (simpleInitial_iff _).mp ((hp.of_rewind e1).simple hs)
  rw [simpleRewind_eq] at hsi
  simp only at h
  split at h
  · rename_i pHaving hh _
    obtain ⟨⟨b,w⟩,hb,h'⟩ := bind_eq_ok.mp h
    have hsi' : optionInitial s.pHaving := hsi.2.2.2.2.1
    rw [hh] at hsi'
    rw [exprTrue_neutral hI _ hsi' hb,← hh,SimpleQuery.eta] at h'
    have e2 : xjd1QueryRewind (p1.setSimple s) = xjd1QueryRewind p := (rewind_setSimple hs rfl).trans e1
    cases h'
    cases b
    · refine ⟨nofun,fun q hq => ?_⟩
      cases hq
      exact e2
    · refine ⟨fun q hq => ?_,nofun⟩
      cases hq
      exact e2
  · cases h
    exact ⟨fun b hb => by cases hb; exact e1,nofun⟩

theorem grouped_neutral {p q : Query R} {rc : Rc} (hp : p.Clean)
    (h : selectStepGrouped I n ctx p = .ok (rc,q)) : xjd1QueryRewind q = xjd1QueryRewind p := by
  obtain ⟨s,_,h⟩ := bind_eq_ok.mp h
  split at h
  · exact whered_neutral hI ctx n hp h
  · exact plainAggStep_neutral hI ctx n hp h
  · refine loop_inv (P := fun q => xjd1QueryRewind q = xjd1QueryRewind p)
      (Q := fun r => xjd1QueryRewind r.2 = xjd1QueryRewind p) (fun q r hq hr => ?_) rfl h
    have ht := havingTurn_neutral hI ctx n (hp.of_rewind hq) hr
    exact ⟨fun b hb => (ht.1 b hb).trans hq,fun q' hq' => (ht.2 q' hq').trans hq⟩

theorem distinctFill_neutral {p q : Query R} (hp : p.Clean) (h : distinctFill I n ctx p = .ok q) :
    xjd1QueryRewind q = xjd1QueryRewind p := by
  obtain ⟨s,_,h⟩ := bind_eq_ok.mp h
  obtain ⟨p1,h1,h⟩ := bind_eq_ok.mp h
  obtain ⟨p2,h2,h⟩ := bind_eq_ok.mp h
  obtain ⟨s2,_,h⟩ := bind_eq_ok.mp h
  obtain ⟨l,_,h⟩ := bind_eq_ok.mp h
  obtain ⟨p3,h3,h⟩ := bind_eq_ok.mp h
  cases h
  have e2 : xjd1QueryRewind p2 = xjd1QueryRewind p := by
    refine loop_inv (P := fun q => xjd1QueryRewind q = xjd1QueryRewind p)
      (Q := fun q => xjd1QueryRewind q = xjd1QueryRewind p) (fun q r hq hr => ?_)
      (setDistincted_neutral h1) h2
    obtain ⟨⟨rc1,q1⟩,hq1,hr⟩ := bind_eq_ok.mp hr
    have e1 := (grouped_neutral hI ctx n (hp.of_rewind hq) hq1).trans hq
    cases rc1 with
    | done =>
      cases hr
      exact ⟨fun b hb => by cases hb; exact e1,nofun⟩
    | row =>
      obtain ⟨⟨v,q2⟩,hq2,hr⟩ := bind_eq_ok.mp hr
      obtain ⟨s1,_,hr⟩ := bind_eq_ok.mp hr
      obtain ⟨q3,hq3,hr⟩ := bind_eq_ok.mp hr
      cases hr
      have h12 := hI.queryDoc ctx q1 0 v q2 (hp.of_rewind e1) hq2
      refine ⟨nofun,fun q' hq' => ?_⟩
      cases hq'
      rw [setDistincted_neutral hq3,h12,e1]
  rw [rewind_eDocFrom,setDistincted_neutral h3,e2]

theorem distinct_neutral {p q : Query R} {rc : Rc} (hp : p.Clean)
    (h : selectStepDistinct I n ctx p = .ok (rc,q)) : xjd1QueryRewind q = xjd1QueryRewind p := by
  obtain ⟨s,_,h⟩ := bind_eq_ok.mp h
  split at h
  · split at h
    · obtain ⟨p1,h1,h⟩ := bind_eq_ok.mp h
      cases h
      exact setDistincted_neutral h1
    · obtain ⟨p1,h1,h⟩ := bind_eq_ok.mp h
      cases h
      exact distinctFill_neutral hI ctx n hp h1
  · exact grouped_neutral hI ctx n hp h

end Grouped

omit [CDouble R] in
theorem Query.Clean.compound {p : Query R} {c : CompoundQuery R} (h : p.Clean) (hp : p.u = .compound c) :
    c.pLeft.Clean ∧ c.pRight.Clean := by
  rw [Query.Clean,queryRewind_eq,queryInitial_iff,hp,queryURewind,QueryU.Initial,compoundRewind_eq,
    compoundInitial_iff] at h
  exact ⟨h.1.1,h.1.2.1⟩

section Compound
include hI

omit [CDouble R] in
theorem operandStep_neutral {p q : Query R} {rc : Rc} {v : JsonNode R} (hp : p.Clean)
    (h : operandStep I ctx p = .ok (rc,v,q)) : xjd1QueryRewind q = xjd1QueryRewind p := by
  obtain ⟨⟨rc1,p1⟩,h1,h⟩ := bind_eq_ok.mp h
  have e1 := hI.stepCompounded ctx p rc1 p1 hp h1
  cases rc1 with
  | done =>
    cases h
    exact e1
  | row =>
    obtain ⟨⟨w,p2⟩,h2,h⟩ := bind_eq_ok.mp h
    cases h
    rw [hI.queryDoc ctx p1 0 v q (hp.of_rewind e1) h2,e1]

theorem cacheQuery_neutral {p q : Query R} {l : ResultList R} (hp : p.Clean)
    (h : cacheQuery I n ctx p = .ok (l,q)) : xjd1QueryRewind q = xjd1QueryRewind p := by
  obtain ⟨⟨l1,p1⟩,h1,h⟩ := bind_eq_ok.mp h
  obtain ⟨l2,_,h⟩ := bind_eq_ok.mp h
  cases h
  refine loop_inv (P := fun st => xjd1QueryRewind st.2 = xjd1QueryRewind p)
    (Q := fun st => xjd1QueryRewind st.2 = xjd1QueryRewind p) (fun st r hst hr => ?_) rfl h1
  obtain ⟨⟨rc,v,p2⟩,h2,hr⟩ := bind_eq_ok.mp hr
  have e2 := (operandStep_neutral hI ctx (hp.of_rewind hst) h2).trans hst
  cases rc <;> cases hr
  · exact ⟨nofun,fun q hq => by cases hq; exact e2⟩
  · exact ⟨fun b hb => by cases hb; exact e2,nofun⟩

omit [CDouble R] in
theorem allRightStep_neutral {c d : CompoundQuery R} {rc : Rc} (hr : c.pRight.Clean)
    (h : allRightStep I ctx c = .ok (rc,d)) : compoundRewind d = compoundRewind c := by
  obtain ⟨⟨rc1,v,p1⟩,h1,h⟩ := bind_eq_ok.mp h
  cases h
  rw [compoundRewind_eq,compoundRewind_eq c]
  simp only [operandStep_neutral hI ctx hr h1]

omit [CDouble R] in
theorem allStep_neutral {c d : CompoundQuery R} {rc : Rc} (hl : c.pLeft.Clean) (hr : c.pRight.Clean)
    (h : allStep I ctx c = .ok (rc,d)) : compoundRewind d = compoundRewind c := by
  unfold allStep at h
  split at h
  · exact allRightStep_neutral hI ctx hr h
  · obtain ⟨⟨rc1,v,p1⟩,h1,h⟩ := bind_eq_ok.mp h
    have e1 : compoundRewind { c with pLeft := p1 } = compoundRewind c := by
      rw [compoundRewind_eq,compoundRewind_eq c]
      simp only [operandStep_neutral hI ctx hl h1]
    cases rc1 with
    | row =>
      cases h
      rw [compoundRewind_eq,compoundRewind_eq c]
      simp only [operandStep_neutral hI ctx hl h1]
    | done => exact (allRightStep_neutral hI ctx (c := { c with pLeft := p1 }) hr h).trans e1

theorem setOpFill_neutral {c d : CompoundQuery R} (hl : c.pLeft.Clean) (hr : c.pRight.Clean)
    (h : setOpFill I n ctx c = .ok d) : compoundRewind d = compoundRewind c := by
  unfold setOpFill at h
  split at h
  · cases h
    rfl
  · obtain ⟨⟨l1,p1⟩,h1,h⟩ := bind_eq_ok.mp h
    obtain ⟨⟨l2,p2⟩,h2,h⟩ := bind_eq_ok.mp h
    cases h
    rw [compoundRewind_eq,compoundRewind_eq c]
    simp only [cacheQuery_neutral hI ctx n hl h1,cacheQuery_neutral hI ctx n hr h2]

theorem compoundStep_neutral {c d : CompoundQuery R} {rc : Rc} (hl : c.pLeft.Clean) (hr : c.pRight.Clean)
    (h : compoundStep I n ctx c = .ok (rc,d)) : compoundRewind d = compoundRewind c := by
  unfold compoundStep at h
  split at h
  · exact allStep_neutral hI ctx hl hr h
  · obtain ⟨c1,h1,h⟩ := bind_eq_ok.mp h
    cases h
    rw [← setOpFill_neutral hI ctx n hl hr h1,compoundRewind_eq,compoundRewind_eq c1]

theorem stepCompounded_neutral {p q : Query R} {rc : Rc} (hp : p.Clean)
    (h : stepCompounded I n ctx p = .ok (rc,q)) : xjd1QueryRewind q = xjd1QueryRewind p := by
  unfold stepCompounded at h
  split at h
  · exact distinct_neutral hI ctx n hp h
  · rename_i c hc
    obtain ⟨⟨rc1,c1⟩,h1,h⟩ := bind_eq_ok.mp h
    cases h
    obtain ⟨hl,hr⟩ := hp.compound hc
    rw [queryRewind_eq,queryRewind_eq p,hc,queryURewind,queryURewind,compoundStep_neutral hI ctx n hl hr h1]

theorem orderFillTurn_neutral {p : Query R} (hp : p.Clean) {r : Query R ⊕ Query R}
    (h : orderFillTurn I n ctx p = .ok r) :
    (∀ b, r = .inl b → xjd1QueryRewind b = xjd1QueryRewind p) ∧
    (∀ q, r = .inr q → xjd1QueryRewind q = xjd1QueryRewind p) := by
  obtain ⟨⟨rc,p1⟩,h1,h⟩ := bind_eq_ok.mp h
  have e1 := stepCompounded_neutral hI ctx n hp h1
  cases rc with
  | done =>
    cases h
    exact ⟨fun b hb => by cases hb; exact e1,nofun⟩
  | row =>
    obtain ⟨⟨keys,es⟩,h2,h⟩ := bind_eq_ok.mp h
    have hc := (queryInitial_iff _).mp (hp.of_rewind e1)
    rw [queryRewind_eq] at hc
    have hes : p1.pOrderBy.map (fun _ => es) = p1.pOrderBy := by
      cases ho : p1.pOrderBy with
      | none => rfl
      | some es1 =>
        rw [ho] at h2 hc
        rw [Option.map_some,evalItems_neutral hI _ hc.2.1 h2]
    obtain ⟨⟨v,p2⟩,h3,h⟩ := bind_eq_ok.mp h
    rw [hes,Query.eta] at h3
    have e3 := hI.queryDoc ctx p1 0 v p2 (hp.of_rewind e1) h3
    cases h
    refine ⟨nofun,fun q hq => ?_⟩
    cases hq
    rw [e3,queryRewind_eq,← e1,queryRewind_eq p1]

theorem orderFill_neutral {p q : Query R} (hp : p.Clean) (h : orderFill I n ctx p = .ok q) :
    xjd1QueryRewind q = xjd1QueryRewind p := by
  obtain ⟨p1,h1,h⟩ := bind_eq_ok.mp h
  obtain ⟨l,_,h⟩ := bind_eq_ok.mp h
  cases h
  have e1 : xjd1QueryRewind p1 = xjd1QueryRewind p := by
    refine loop_inv (P := fun q => xjd1QueryRewind q = xjd1QueryRewind p)
      (Q := fun q => xjd1QueryRewind q = xjd1QueryRewind p) (fun q r hq hr => ?_) ?_ h1
    · have ht := orderFillTurn_neutral hI ctx n (hp.of_rewind hq) hr
      exact ⟨fun b hb => (ht.1 b hb).trans hq,fun q' hq' => (ht.2 q' hq').trans hq⟩
    · rw [queryRewind_eq,queryRewind_eq p]
  rw [queryRewind_eq,← e1,queryRewind_eq p1]

theorem ordered_neutral {p q : Query R} {rc : Rc} (hp : p.Clean)
    (h : selectStepOrdered I n ctx p = .ok (rc,q)) : xjd1QueryRewind q = xjd1QueryRewind p := by
  unfold selectStepOrdered orderAdvance at h
  split at h
  · exact stepCompounded_neutral hI ctx n hp h
  · obtain ⟨p1,h1,h⟩ := bind_eq_ok.mp h
    cases h
    split at h1
    · split at h1 <;> cases h1
      rw [queryRewind_eq,queryRewind_eq p]
    · exact orderFill_neutral hI ctx n hp h1

theorem offsetLoop_neutral {k : ℕ} {p q : Query R} {rc : Rc} (hp : p.Clean)
    (h : offsetLoop I n ctx k p = .ok (rc,q)) : xjd1QueryRewind q = xjd1QueryRewind p := by
  induction k generalizing p with
  | zero =>
    cases h
    rfl
  | succ k ih =>
    obtain ⟨⟨rc1,p1⟩,h1,h⟩ := bind_eq_ok.mp h
    have e1 := ordered_neutral hI ctx n hp h1
    cases rc1 with
    | done =>
      cases h
      exact e1
    | row => exact (ih (hp.of_rewind e1) h).trans e1

theorem applyOffset_loop {p q : Query R} {rc : Rc} (hp : p.Clean) (h : applyOffset I n ctx p = .ok (rc,q)) :
    ∃ k, offsetLoop I n ctx k p = .ok (rc,q) := by
  unfold applyOffset at h
  split at h
  · exact ⟨0,h⟩
  · rename_i pOffset ho
    obtain ⟨⟨v,e⟩,h1,h⟩ := bind_eq_ok.mp h
    obtain ⟨k,_,h⟩ := bind_eq_ok.mp h
    have hc := (queryInitial_iff _).mp hp
    rw [queryRewind_eq] at hc
    have ho' : optionInitial p.pOffset := hc.2.2.2.1
    rw [ho] at ho'
    rw [hI.exprEval _ pOffset v e ho' h1,← ho,Query.eta] at h
    exact ⟨_,h⟩

theorem applyOffset_neutral {p q : Query R} {rc : Rc} (hp : p.Clean)
    (h : applyOffset I n ctx p = .ok (rc,q)) : xjd1QueryRewind q = xjd1QueryRewind p := by
  obtain ⟨k,h⟩ := applyOffset_loop hI ctx n hp h
  exact offsetLoop_neutral hI ctx n hp h

theorem setLimit_neutral {p q : Query R} (hp : p.Clean) (h : setLimit I ctx p = .ok q) :
    xjd1QueryRewind q = xjd1QueryRewind p := by
  unfold setLimit at h
  split at h
  · cases h
    rw [queryRewind_eq,queryRewind_eq p]
  · rename_i pLimit hl
    obtain ⟨⟨v,e⟩,h1,h⟩ := bind_eq_ok.mp h
    obtain ⟨k,_,h⟩ := bind_eq_ok.mp h
    have hc := (queryInitial_iff _).mp hp
    rw [queryRewind_eq] at hc
    have hl' : optionInitial p.pLimit := hc.2.2.1
    rw [hl] at hl'
    rw [hI.exprEval _ pLimit v e hl' h1] at h
    cases h
    rw [queryRewind_eq,queryRewind_eq p]
    simp only [hl]

theorem limitStep_neutral {k : Int} {p q : Query R} {rc : Rc} (hp : p.Clean)
    (h : limitStep I n ctx k p = .ok (rc,q)) : xjd1QueryRewind q = xjd1QueryRewind p := by
  unfold limitStep at h
  split at h
  · cases h
    rfl
  · obtain ⟨⟨rc1,p1⟩,h1,h⟩ := bind_eq_ok.mp h
    cases h
    rw [← ordered_neutral hI ctx n hp h1]
    split
    · rw [queryRewind_eq,queryRewind_eq p1]
    · rfl

theorem queryStep_neutral {p q : Query R} {rc : Rc} (hp : p.Clean)
    (h : queryStep I n ctx p = .ok (rc,q)) : xjd1QueryRewind q = xjd1QueryRewind p := by
  unfold queryStep at h
  split at h
  · exact limitStep_neutral hI ctx n hp h
  · obtain ⟨⟨rc1,p1⟩,h1,h⟩ := bind_eq_ok.mp h
    obtain ⟨p2,h2,h⟩ := bind_eq_ok.mp h
    have e1 := applyOffset_neutral hI ctx n hp h1
    have e2 := (setLimit_neutral hI ctx (hp.of_rewind e1) h2).trans e1
    cases rc1 with
    | done =>
      cases h
      exact e2
    | row => exact (limitStep_neutral hI ctx n (hp.of_rewind e2) h).trans e2

omit [CDouble R] in
theorem resultDoc_neutral {p q : Query R} {s : SimpleQuery R} {pRes : Expr R} {v : JsonNode R}
    (hp : p.Clean) (hs : p.u = .simple s) (hr : s.pRes = some pRes)
    (h : resultDoc I ctx p s pRes = .ok (v,q)) : q = p := by
  obtain ⟨⟨w,e⟩,h1,h⟩ := bind_eq_ok.mp h
  have hsi := (simpleInitial_iff _).mp (hp.simple hs)
  rw [simpleRewind_eq] at hsi
  have hri : optionInitial s.pRes := hsi.1
  rw [hr] at hri
  rw [hI.exprEval _ pRes w e hri h1] at h
  cases h
  rw [← hr,SimpleQuery.eta,Query.setSimple,← hs,Query.eta]

omit [CDouble R] in
theorem simpleDoc_neutral {p q : Query R} {s : SimpleQuery R} {k : ℕ} {v : JsonNode R} (hp : p.Clean)
    (hs : p.u = .simple s) (h : simpleDoc I ctx p s k = .ok (v,q)) : q = p := by
  unfold simpleDoc at h
  split at h
  case h_1 => cases h
  case h_2 | h_4 =>
    obtain ⟨w,_,h⟩ := bind_eq_ok.mp h
    cases h
    rfl
  case h_3 | h_5 => exact resultDoc_neutral hI ctx hp hs (by assumption) h
  case h_6 =>
    cases h
    rfl

omit [CDouble R] in
theorem queryDoc_neutral {p q : Query R} {k : ℕ} {v : JsonNode R} (hp : p.Clean)
    (h : queryDoc I ctx p k = .ok (v,q)) : q = p := by
  unfold queryDoc at h
  split at h
  · split at h
    · obtain ⟨w,_,h⟩ := bind_eq_ok.mp h
      cases h
      rfl
    · cases h
  · split at h
    · exact simpleDoc_neutral hI ctx hp (by assumption) h
    · split at h <;> cases h
      rfl

end Compound

end Select

theorem Interp.next_neutral [CDouble R] {I : Interp R} (hI : I.Neutral) (n : ℕ) : (I.next n).Neutral where
  exprEval ctx _ _ _ he h := exprEval_neutral hI ctx he h
  dataSrcStep ctx _ _ _ hd h := dataSrcStep_neutral hI ctx n hd h
  stepCompounded ctx _ _ _ hp h := stepCompounded_neutral hI ctx n hp h
  queryStep ctx _ _ _ hp h := queryStep_neutral hI ctx n hp h
  queryDoc ctx _ _ _ _ hp h := queryDoc_neutral hI ctx hp h

theorem interp_neutral [CDouble R] : ∀ n, (interp n : Interp R).Neutral
  | 0 => ⟨nofun,nofun,nofun,nofun,nofun⟩
  | n+1 => Interp.next_neutral (interp_neutral n) n

end Xjd1
