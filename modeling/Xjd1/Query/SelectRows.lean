import Mathlib.Data.List.ReduceOption
import Xjd1.Query.Group
import Xjd1.Query.Join
import Xjd1.Query.Limit

/-! A SELECT without aggregates, from its sources to its documents: the rows of the sources that
WHERE accepts, in the order of ORDER BY, without those OFFSET drops and cut by LIMIT. -/
namespace Xjd1

open Fueled Fueled.Run Delivery SlotSort

variable {R : Type} [CDouble R]

/-- The states of the data sources at their rows. -/
def srcStates (ctx : Ctx R) : Stepper (DataSrc R) (DataSrc R) where
  row d v e := SrcSteps ctx d (.row,e) ∧ v = e
  done d e := SrcSteps ctx d (.done,e)

/-- Whether WHERE accepts the row that `q` is at. -/
def Accepts (ctx : Ctx R) (q : Query R) (b : Bool) : Option (Expr R) → Prop
  | none => b = true
  | some pWhere => ∃ e, Returns (fun n => xjd1ExprTrue (interp n) (q.scope (interp n) ctx) pWhere) (b,e)

/-- What the row that `q` is at gives: nothing if WHERE rejects it, else the values of the sort
keys and the document. -/
inductive RowGives (ctx : Ctx R) (q : Query R) (pWhere : Option (Expr R)) : Option (ResultItem R) → Prop
  | rejected (h : Accepts ctx q false pWhere) : RowGives ctx q pWhere none
  | accepted {keys : List (JsonNode R)} {es : List (ExprItem R)} {v : JsonNode R} {q' : Query R}
      (h : Accepts ctx q true pWhere)
      (hk : Returns (fun n => evalItems (interp n) (q.scope (interp n) ctx) (q.pOrderBy.getD [])) (keys,es))
      (hv : Reads0 ctx q (v,q')) : RowGives ctx q pWhere (some ⟨keys ++ [v]⟩)

def Query.atSources (p : Query R) (s : SimpleQuery R) (d : DataSrc R) : Query R := p.atFrom s d s.pWhere

section Where
variable {ctx : Ctx R} {p : Query R} {s : SimpleQuery R} {d e t : DataSrc R}

theorem whereTurn_mono (ctx : Ctx R) (n m : ℕ) (h : n ≤ m) (p : Query R) :
    whereTurn (interp n) ctx p ≤ whereTurn (interp m) ctx p := whereTurn_le (interp_le h) (Ctx.le_refl ctx) p

theorem whereTurn_row {b : Bool} (hw : optionInitial s.pWhere) (hd : SrcSteps ctx d (.row,e))
    (hb : Accepts ctx (p.atSources s e) b s.pWhere) : Returns (fun n => whereTurn (interp n) ctx (p.atSources s d))
      (if b then .inl (.row,p.atSources s e) else .inr (p.atSources s e)) := by
  cases hpw : s.pWhere with
  | none =>
    rw [hpw] at hb
    obtain rfl : b = true := hb
    filter_upwards [hd] with n hn
    simp only [whereTurn,Query.atSources,Query.atFrom,Query.simple,Query.setSimple,hpw,ok_bind,hn,if_true]
  | some pWhere =>
    rw [hpw] at hb hw
    obtain ⟨e',hb⟩ := hb
    filter_upwards [hd,hb] with n hn hb
    have he := exprTrue_neutral (interp_neutral n) _ hw hb
    simp only [Query.atSources,Query.atFrom,Query.setSimple,hpw] at hb
    simp only [whereTurn,Query.atSources,Query.atFrom,Query.simple,Query.setSimple,hpw,ok_bind,hn,hb,he]

theorem whereTurn_done (hd : SrcSteps ctx d (.done,t)) : Returns (fun n => whereTurn (interp n) ctx (p.atSources s d))
    (.inl (.done,p.atSources s t)) := by
  filter_upwards [hd] with n hn
  simp only [whereTurn,Query.atSources,Query.atFrom,Query.simple,Query.setSimple,ok_bind,hn]

theorem steps_plain (ha : s.pAgg = none) (hd : s.isDistinct = false) (r : Rc × Query R) :
    Steps stepCompounded ctx (p.atSources s d) r ↔
      Returns (fun n => Run.loop (whereTurn (interp n) ctx) n (p.atSources s d)) r := by
  have hu : (p.atSources s d).u = .simple { s with pFrom := d } := rfl
  have hs : (p.atSources s d).simple = .ok { s with pFrom := d } := rfl
  rw [Steps]
  simp only [stepCompounded,hu,selectStepDistinct,hs,ok_bind,hd,Bool.false_eq_true,if_false,selectStepGrouped,ha,
    selectStepWhered]

theorem select_orderRows {ds : List (DataSrc R)} {os : List (Option (ResultItem R))} (ha : s.pAgg = none)
    (hd : s.isDistinct = false) (hw : optionInitial s.pWhere) (hsrc : Delivers (srcStates ctx) d ds t)
    (hrows : List.Forall₂ (fun e o => RowGives ctx (p.atSources s e) s.pWhere o) ds os)
    (hp : (p.atSources s d).Clean) :
    Delivers (orderRows ctx) (p.atSources s d) os.reduceOption (p.atSources s t) := by
  induction hsrc generalizing os with
  | done h =>
    cases hrows
    exact .done ((steps_plain ha hd _).mpr (whereTurn_done h).loop_exit)
  | @row d _ _ e _ h _ ih =>
    obtain ⟨hstep,rfl⟩ := h
    cases hrows with
    | cons hrow hrows =>
      cases hrow with
      | rejected hb =>
        have hturn := whereTurn_row hw hstep hb
        have hrest := ih hrows (hp.of_rewind (by
          obtain ⟨n,hn⟩ := hturn.exists
          exact (whereTurn_neutral (interp_neutral n) ctx hp hn).2 _ rfl))
        -- the loop goes on, as if it had started at this row
        rw [List.reduceOption_cons_of_none]
        have hskip : ∀ r, Steps stepCompounded ctx (p.atSources s e) r → Steps stepCompounded ctx (p.atSources s d) r :=
          fun r hr => (steps_plain ha hd r).mpr
            (hturn.loop_turn (whereTurn_mono ctx) ((steps_plain ha hd r).mp hr))
        refine hrest.congr (fun v q h => ?_) fun q h => hskip _ h
        obtain ⟨p',keys,es,w,hs,hk,hv,rfl⟩ := h
        exact ⟨p',keys,es,w,hskip _ hs,hk,hv,rfl⟩
      | accepted hb hk hv =>
        have hturn := whereTurn_row hw hstep hb
        have hclean : (p.atSources s e).Clean := hp.of_rewind (by
          obtain ⟨n,hn⟩ := hturn.exists
          exact (whereTurn_neutral (interp_neutral n) ctx hp hn).1 _ rfl)
        obtain ⟨n,hn⟩ := hv.exists
        obtain rfl := (interp_neutral n).queryDoc ctx _ _ _ _ hclean hn
        rw [List.reduceOption_cons_of_some]
        exact .row ⟨_,_,_,_,(steps_plain ha hd _).mpr hturn.loop_exit,hk,hv,rfl⟩ (ih hrows hclean)

end Where

section Select
variable {ctx : Ctx R} {p t : Query R} {s : SimpleQuery R} {k n : Option Int}

theorem limited_delivers {ws : List (JsonNode R)} (hp : p.Initial) (h : Delivers (orderedStream ctx) p ws t)
    (hk : Gives ctx p p.pOffset k) (hn : Gives ctx p p.pLimit n) :
    ∃ u, Delivers (stream queryStep ctx) p (cut n (ws.drop (k.getD 0).toNat)) u := by
  have hnl : p.nLimit = none := ((queryInitial_iff p).mp hp).2.2.2.2.2.2
  have hp0 : p.withLimit none = p := by rw [Query.withLimit,← hnl,Query.eta]
  have hoffset := applyOffset_eq hp.clean hk
  have hrewind : ∀ {q : Query R} {rc : Rc}, Returns (fun m => offsetLoop (interp m) m ctx (k.getD 0).toNat p)
      (rc,q.withLimit none) → xjd1QueryRewind (q.withLimit none) = xjd1QueryRewind p := by
    intro q rc hq
    obtain ⟨m,hm⟩ := hq.exists
    exact offsetLoop_neutral (interp_neutral m) ctx m hp.clean hm
  rcases offsetLoop_delivers h (k.getD 0).toNat none with ⟨q,hq,hd⟩ | ⟨hnil,hq⟩
  · rw [hp0] at hq
    obtain ⟨u,hu⟩ := limitStep_delivers hd (n.getD (-1))
    rw [cut_getD] at hu
    have hfirst : ∀ r, Steps queryStep ctx (q.withLimit (some (n.getD (-1)))) r → Steps queryStep ctx p r := by
      intro r hr
      filter_upwards [hr,hoffset,setLimit_eq hp.clean hn (hrewind hq),hq] with m hr h1 h2 h3
      rw [← hr]
      simp only [queryStep,hnl,h1,h3,ok_bind,h2]
      rfl
    refine ⟨u,hu.congr (fun v w h => ?_) fun w h => hfirst _ h⟩
    obtain ⟨w,h1,h2⟩ := h
    exact ⟨w,hfirst _ h1,h2⟩
  · rw [hp0] at hq
    rw [hnil,cut_nil]
    refine ⟨(t.withLimit none).withLimit (some (n.getD (-1))),.done ?_⟩
    filter_upwards [hoffset,setLimit_eq hp.clean hn (hrewind hq),hq] with m h1 h2 h3
    simp only [queryStep,hnl,h1,h3,ok_bind,h2]

/-- The documents of a SELECT: the rows that WHERE accepts, in the order of ORDER BY, without the
first `k` and cut to `n`. -/
theorem select_stream {t : DataSrc R} {ds : List (DataSrc R)} {os : List (Option (ResultItem R))} (hp : p.Initial)
    (hs : p.u = .simple s) (ha : s.pAgg = none) (hd : s.isDistinct = false) (hsrc : Delivers (srcStates ctx) s.pFrom ds t)
    (hrows : List.Forall₂ (fun e o => RowGives ctx (p.atSources s e) s.pWhere o) ds os)
    (hkeys : KeysOrdered p.pOrderBy os.reduceOption) (hlen : p.pOrderBy.isSome → os.reduceOption.length < 2^nSlot)
    (hk : Gives ctx p p.pOffset k) (hn : Gives ctx p p.pLimit n) :
    ∃ S u, OrderedBy p.pOrderBy os.reduceOption S ∧
      Delivers (stream queryStep ctx) p (cut n ((S.map ResultItem.last).drop (k.getD 0).toNat)) u := by
  have hat : p.atSources s s.pFrom = p := by
    rw [Query.atSources,Query.atFrom,SimpleQuery.eta,Query.setSimple,← hs,Query.eta]
  have hw : optionInitial s.pWhere := by
    have hi := ((queryInitial_iff p).mp hp).1
    rw [hs,QueryU.Initial,simpleInitial_iff] at hi
    exact hi.2.2.1
  have hsel := select_orderRows ha hd hw hsrc hrows (hat.symm ▸ hp.clean)
  rw [hat] at hsel
  obtain ⟨S,u,hS,hdel⟩ := ordered_delivers hp hsel hkeys hlen
  obtain ⟨u,hu⟩ := limited_delivers hp hdel hk hn
  exact ⟨S,u,hS,hu⟩

end Select

end Xjd1
