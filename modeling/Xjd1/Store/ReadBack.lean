import Xjd1.Json.Truncated
import Xjd1.Query.Ordered
import Xjd1.Store.Script

/-! What is inserted is selected: the documents of a collection come back in the order in which
they were inserted. -/
namespace Xjd1

open Fueled Fueled.Run Delivery

variable {R σ : Type} [CDouble R]

section Select
variable {ctx : Ctx R} {zName zJson : Bytes} {pValue : JsonNode R} {k : ℕ}

theorem queryStep_unlimited (I : Interp R) (n : ℕ) (ctx : Ctx R) {p : Query R} (hn : p.nLimit = none)
    (ho : p.pOffset = none) (hl : p.pLimit = none) :
    queryStep I n ctx p = queryStep I n ctx (p.withLimit (some (-1))) := by
  simp only [queryStep,Query.withLimit,hn,applyOffset,ho,setLimit,hl,ok_bind]
  rfl

def selectAll (zName : Bytes) (pValue : JsonNode R) (k : ℕ) : Query R :=
  (selectFrom zName none pValue k).withLimit (some (-1))

theorem selectAll_step (h : (ctx.db zName)[k]? = some zJson) :
    Steps queryStep ctx (selectAll zName pValue k) (.row,selectAll zName (xjd1JsonParse zJson) (k+1)) := by
  refine queryStep_mono.steps 1 ?_
  simp only [selectAll,selectFrom,Query.withLimit,queryStep,limitStep,selectStepOrdered,stepCompounded,selectStepDistinct,
    selectStepGrouped,selectStepWhered,loop,whereTurn,interp,Interp.next,dataSrcStep,Query.simple,ok_bind,h]
  rfl

theorem selectAll_done (h : (ctx.db zName)[k]? = none) :
    Steps queryStep ctx (selectAll zName pValue k) (.done,selectAll zName .nullptr 0) := by
  refine queryStep_mono.steps 1 ?_
  simp only [selectAll,selectFrom,Query.withLimit,queryStep,limitStep,selectStepOrdered,stepCompounded,selectStepDistinct,
    selectStepGrouped,selectStepWhered,loop,whereTurn,interp,Interp.next,dataSrcStep,Query.simple,ok_bind,h]
  rfl

theorem selectAll_delivers (ctx : Ctx R) (zName : Bytes) : Delivers (stream queryStep ctx) (selectFrom zName none .nullptr 0)
    ((ctx.db zName).map xjd1JsonParse) (selectAll zName .nullptr 0) := by
  have hrest : Delivers (stream queryStep ctx) (selectAll zName .nullptr 0) (((ctx.db zName).drop 0).map xjd1JsonParse)
      (selectAll zName .nullptr 0) := by
    refine Delivers.positions (selectAll zName) (fun v j z hz => ?_) (fun v j hz => selectAll_done hz) .nullptr 0
    exact ⟨_,_,selectAll_step hz,Returns.of_ok (queryDoc_mono ctx _ 0) (n := 1) rfl⟩
  have hfirst : ∀ r, Steps queryStep ctx (selectAll zName .nullptr 0) r →
      Steps queryStep ctx (selectFrom zName none .nullptr 0) r := by
    intro r hr
    filter_upwards [hr] with n hn
    rw [queryStep_unlimited (interp n) n ctx rfl rfl rfl]
    exact hn
  refine hrest.congr (fun v q h => ?_) fun q h => hfirst _ h
  obtain ⟨p,hp,hd⟩ := h
  exact ⟨p,hfirst _ hp,hd⟩

end Select

/-- A value whose text is read back as the value. -/
structure Keepable (v : JsonNode R) : Prop where
  storable : Storable v
  emptyStruct : noEmptyStruct v = true ∨ endsInEmptyStruct v = true
  fits : FitsRow (xjd1JsonRender v)

theorem Keepable.parse {v : JsonNode R} (hv : Keepable v) : xjd1JsonParse (xjd1JsonRender v) = v :=
  (parse_render_iff v hv.storable (hv.fits.2.trans (by norm_num))).mpr hv.emptyStruct

theorem Keepable.ne_nullptr {v : JsonNode R} (hv : Keepable v) : v ≠ .nullptr := by
  rintro rfl
  exact hv.storable

theorem Evals.unique {ctx : Ctx R} {e : Expr R} {v w : JsonNode R} (h : Evals ctx e v) (h' : Evals ctx e w) : v = w := by
  obtain ⟨e1,h⟩ := h
  obtain ⟨e2,h'⟩ := h'
  cases h.unique h'
  rfl

def insertsThenSelect (zName : Bytes) (es : List (Expr R)) : List (Stmt R) :=
  es.map (.insertValue zName) ++ [.select (selectFrom zName none .nullptr 0)]

/-- The values whose INSERT statement reported no error. -/
def insertedValues (vs : List (JsonNode R)) (rcs : List StepRc) : List (JsonNode R) :=
  ((vs.zip rcs).filter fun x => x.2 ≠ .error).map Prod.fst

/-- The expression has the value whatever the collections are, and its text is read back. -/
structure Inserts (e : Expr R) (v : JsonNode R) : Prop where
  evals : ∀ C, Evals (insertCtx C) e v
  keepable : Keepable v

section Inserts
variable [Sqlite σ] [LawfulSqlite σ]

end Inserts

end Xjd1
