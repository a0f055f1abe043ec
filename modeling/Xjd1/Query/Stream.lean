import Xjd1.Lib.Delivery
import Xjd1.Query.Initial
import Xjd1.Query.Overlay

/-! Steps of the engine with enough fuel, and the rows a stage of a query delivers. -/
namespace Xjd1

open Fueled Fueled.Run Delivery

variable {R : Type} [CDouble R]

abbrev Stage (R : Type) := Interp R → ℕ → Ctx R → Query R → Exec (Rc × Query R)

def Steps (f : Stage R) (ctx : Ctx R) (p : Query R) (r : Rc × Query R) : Prop :=
  Returns (fun n => f (interp n) n ctx p) r

def Stage.Mono (f : Stage R) : Prop :=
  ∀ ctx p, Run.Mono fun n => f (interp n) n ctx p

theorem Stage.Mono.steps {f : Stage R} (hf : f.Mono) {ctx : Ctx R} {p : Query R} {r : Rc × Query R} (n : ℕ)
    (h : f (interp n) n ctx p = .ok r) : Steps f ctx p r := Returns.of_ok (hf ctx p) h

theorem queryStep_mono : Stage.Mono (queryStep : Stage R) :=
  fun ctx p _ _ h => queryStep_le (interp_le h) (Ctx.le_refl ctx) h p

theorem grouped_mono : Stage.Mono (selectStepGrouped : Stage R) :=
  fun ctx p _ _ h => grouped_le (interp_le h) (Ctx.le_refl ctx) h p

theorem compounded_mono : Stage.Mono (stepCompounded : Stage R) :=
  fun ctx p _ _ h => stepCompounded_le (interp_le h) (Ctx.le_refl ctx) h p

def Reads0 (ctx : Ctx R) (p : Query R) (r : JsonNode R × Query R) : Prop :=
  Returns (fun n => (interp n).xjd1QueryDoc ctx p 0) r

def stream (f : Stage R) (ctx : Ctx R) : Stepper (Query R) (JsonNode R) where
  row p v q := ∃ p', Steps f ctx p (.row,p') ∧ Reads0 ctx p' (v,q)
  done p q := Steps f ctx p (.done,q)

theorem stream_functional (f : Stage R) (ctx : Ctx R) : (stream f ctx).Functional := by
  refine ⟨?_,fun p q q' h h' => ?_,?_⟩
  · rintro p v w q q' ⟨p1,h1,h2⟩ ⟨p2,h3,h4⟩
    have hp := h1.unique h3
    cases hp
    have hv := h2.unique h4
    cases hv
    exact ⟨rfl,rfl⟩
  · have hq := Returns.unique h h'
    cases hq
    rfl
  · rintro p v q q' ⟨p1,h1,_⟩ h'
    have hq := h1.unique h'
    cases hq

theorem queryDoc_mono (ctx : Ctx R) (p : Query R) (k : ℕ) :
    Run.Mono fun n => (interp n).xjd1QueryDoc ctx p k :=
  fun _ _ h => (interp_le h).queryDoc ctx ctx (Ctx.le_refl ctx) p k

omit [CDouble R] in
theorem Overlay.lift {α : Type} {o : Overlay R} {f g : ℕ → Exec (α × Query R)}
    (h : ∀ n, Rel o.UnderWith (f n) (g n)) {a : α} {q : Query R} (hf : Returns f (a,q)) :
    Returns g (a,q.overlay o) ∧ o.Free q := by
  have hg : ∀ n, f n = .ok (a,q) → g n = .ok (a,q.overlay o) ∧ o.Free q := by
    intro n hn
    obtain ⟨b,hb,h1,h2,h3⟩ := (h n).ok_left hn
    obtain ⟨b,q'⟩ := b
    cases h1
    cases h2
    exact ⟨hb,h3⟩
  obtain ⟨n,hn⟩ := hf.exists
  exact ⟨hf.mono fun n hn => (hg n hn).1,(hg n hn).2⟩

theorem Reads0.overlay {ctx : Ctx R} {p q : Query R} {v : JsonNode R} (h : Reads0 ctx p (v,q))
    {o : Overlay R} (ho : o.Free p) : Reads0 ctx (p.overlay o) (v,q.overlay o) ∧ o.Free q :=
  Overlay.lift (fun n => interp_inert n ctx o p 0 ho) h

theorem Steps.grouped_overlay {ctx : Ctx R} {p q : Query R} {rc : Rc}
    (h : Steps selectStepGrouped ctx p (rc,q)) {o : Overlay R} (ho : o.Free p) (hg : o.grouped = none) :
    Steps selectStepGrouped ctx (p.overlay o) (rc,q.overlay o) ∧ o.Free q :=
  Overlay.lift (fun n => grouped_under (interp_inert n) n ctx hg ⟨rfl,ho⟩) h

theorem Steps.compounded_overlay {ctx : Ctx R} {p q : Query R} {rc : Rc}
    (h : Steps stepCompounded ctx p (rc,q)) {o : Overlay R} (ho : o.Free p) (hg : o.grouped = none)
    (hd : o.distincted = none) :
    Steps stepCompounded ctx (p.overlay o) (rc,q.overlay o) ∧ o.Free q :=
  Overlay.lift (fun n => stepCompounded_under (interp_inert n) n ctx hg hd ⟨rfl,ho⟩) h

section Where
variable {I : Interp R} {n : ℕ} {ctx : Ctx R}

/-- The query, with other data sources and another WHERE clause. -/
def Query.atFrom (p : Query R) (s : SimpleQuery R) (pFrom : DataSrc R) (pWhere : Option (Expr R)) : Query R :=
  p.setSimple { s with pFrom := pFrom, pWhere := pWhere }

theorem whereTurn_frame {p : Query R} {s : SimpleQuery R} {pFrom : DataSrc R}
    {pWhere : Option (Expr R)} {r : (Rc × Query R) ⊕ Query R}
    (h : whereTurn I ctx (p.atFrom s pFrom pWhere) = .ok r) :
    (∀ b, r = .inl b → ∃ d w, b.2 = p.atFrom s d w) ∧ (∀ q, r = .inr q → ∃ d w, q = p.atFrom s d w) := by
  obtain ⟨s',h1,h⟩ := bind_eq_ok.mp h
  cases h1
  obtain ⟨⟨rc,d⟩,_,h⟩ := bind_eq_ok.mp h
  cases rc with
  | done =>
    cases h
    refine ⟨fun b hb => ?_,fun q hq => ?_⟩
    · cases hb
      exact ⟨d,pWhere,rfl⟩
    · cases hq
  | row =>
    cases pWhere with
    | none =>
      cases h
      refine ⟨fun b hb => ?_,fun q hq => ?_⟩
      · cases hb
        exact ⟨d,none,rfl⟩
      · cases hq
    | some w =>
      obtain ⟨⟨b,w'⟩,_,h⟩ := bind_eq_ok.mp h
      cases b
      · cases h
        refine ⟨fun b hb => ?_,fun q hq => ?_⟩
        · cases hb
        · cases hq
          exact ⟨d,some w',rfl⟩
      · cases h
        refine ⟨fun b hb => ?_,fun q hq => ?_⟩
        · cases hb
          exact ⟨d,some w',rfl⟩
        · cases hq

theorem whered_frame {p q : Query R} {s : SimpleQuery R} {rc : Rc} (hs : p.u = .simple s)
    (h : selectStepWhered I n ctx p = .ok (rc,q)) : ∃ d w, q = p.atFrom s d w := by
  have hp : p = p.atFrom s s.pFrom s.pWhere := by
    rw [Query.atFrom,SimpleQuery.eta,Query.setSimple,← hs,Query.eta]
  refine loop_inv (P := fun q => ∃ d w, q = p.atFrom s d w) (Q := fun b => ∃ d w, b.2 = p.atFrom s d w)
    (fun q r hq hr => ?_) ⟨_,_,hp⟩ h
  obtain ⟨d,w,rfl⟩ := hq
  exact whereTurn_frame hr

end Where

/-- `SELECT FROM zName ORDER BY pOrderBy` with its cursor past `k` rows, at the document `pValue`. -/
def selectFrom (zName : Bytes) (pOrderBy : Option (List (ExprItem R))) (pValue : JsonNode R) (k : ℕ) : Query R :=
  ⟨.simple ⟨false,none,.tab none pValue zName k,none,none,none,none,.empty,.empty⟩,none,pOrderBy,none,none,
    .datasrc,.empty,none⟩

/-- The surroundings of a query at the top level, over collections of `n` empty texts each. -/
def manyRows (R : Type) (n : ℕ) : Ctx R := ⟨[],.select,fun _ => List.replicate n []⟩

section SelectFrom
variable {ctx : Ctx R} {zName : Bytes} {pOrderBy : Option (List (ExprItem R))} {pValue : JsonNode R} {k : ℕ}

theorem selectFrom_step {zJson : Bytes} (h : (ctx.db zName)[k]? = some zJson) :
    Steps stepCompounded ctx (selectFrom zName pOrderBy pValue k)
      (.row,selectFrom zName pOrderBy (xjd1JsonParse zJson) (k+1)) := by
  refine compounded_mono.steps 1 ?_
  simp only [selectFrom,stepCompounded,selectStepDistinct,selectStepGrouped,selectStepWhered,loop,whereTurn,interp,
    Interp.next,dataSrcStep,Query.simple,ok_bind,h]
  rfl

theorem selectFrom_reads (pValue : JsonNode R) :
    Reads0 ctx (selectFrom zName pOrderBy pValue k) (pValue,selectFrom zName pOrderBy pValue k) :=
  Returns.of_ok (queryDoc_mono ctx _ 0) (n := 1) rfl

theorem selectFrom_done (h : (ctx.db zName)[k]? = none) :
    Steps stepCompounded ctx (selectFrom zName pOrderBy pValue k) (.done,selectFrom zName pOrderBy .nullptr 0) := by
  refine compounded_mono.steps 1 ?_
  simp only [selectFrom,stepCompounded,selectStepDistinct,selectStepGrouped,selectStepWhered,loop,whereTurn,interp,
    Interp.next,dataSrcStep,Query.simple,ok_bind,h]
  rfl

/-- The documents of a collection come in order, each parsed. -/
theorem selectFrom_delivers : Delivers (stream stepCompounded ctx) (selectFrom zName pOrderBy pValue k)
    (((ctx.db zName).drop k).map xjd1JsonParse) (selectFrom zName pOrderBy .nullptr 0) := by
  refine Delivers.positions (selectFrom zName pOrderBy) (fun v j z hz => ?_) (fun v j hz => ?_) pValue k
  · exact ⟨_,_,selectFrom_step hz,selectFrom_reads _⟩
  · exact selectFrom_done hz

end SelectFrom

end Xjd1
