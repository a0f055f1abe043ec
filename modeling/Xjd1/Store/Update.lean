import Xjd1.Store.Delete

/-! UPDATE. The rows are tested and changed one after the other, and the expressions see the rows
before as they are by then. No right side puts a node of the document or of a literal below a
new one, so the changes are those of values. -/
namespace Xjd1

open Fueled Fueled.Run KeyedRows

variable {R σ : Type} [CDouble R]

section Neutral
variable {I : Interp R} (hI : I.Neutral) (ctx : Ctx R)
include hI

theorem findOrCreateJsonNode_neutral (pRoot : JsonNode R) : (e : Expr R) → e.Initial →
    ∀ {x}, findOrCreateJsonNode I ctx pRoot e = .ok x → x.2.2 = e
  | .dot pLeft zId, hi, x, h => by
    rw [Expr.Initial] at hi
    rw [findOrCreateJsonNode] at h
    obtain ⟨y,hy,h⟩ := bind_eq_ok.mp h
    cases h
    rw [findOrCreateJsonNode_neutral pRoot pLeft hi hy]
  | .bi op pLeft pRight, hi, x, h => by
    rw [Expr.Initial] at hi
    by_cases hop : op = .lb
    · subst hop
      rw [findOrCreateJsonNode] at h
      obtain ⟨⟨d,o,pLeft'⟩,hy,h⟩ := bind_eq_ok.mp h
      have hl := findOrCreateJsonNode_neutral pRoot pLeft hi.1 hy
      cases o with
      | none => cases h
      | some p =>
        simp only at h hl
        split at h
        · obtain ⟨⟨v,pRight'⟩,hv,h⟩ := bind_eq_ok.mp h
          cases h
          rw [hl,evalOption_neutral hI ctx hi.2 hv]
        · obtain ⟨⟨v,pRight'⟩,hv,h⟩ := bind_eq_ok.mp h
          obtain ⟨⟨d',o'⟩,_,h⟩ := bind_eq_ok.mp h
          cases h
          rw [hl,evalOption_neutral hI ctx hi.2 hv]
        · cases h
          rw [hl]
    · have hother : findOrCreateJsonNode I ctx pRoot (.bi op pLeft pRight) = .ok (pRoot,none,.bi op pLeft pRight) := by
        cases op <;> first
          | rfl
          | exact absurd rfl hop
      rw [hother] at h
      cases h
      rfl
  | .id zId pQuery iDatasrc, _, x, h => by
    cases h
    rfl
  | .jvalue _, _, x, h | .struct _, _, x, h | .array _, _, x, h | .func _ _ _, _, x, h | .subq _, _, x, h
  | .tri _ _ _, _, x, h => by
    cases h
    rfl

theorem reviseOneField_neutral {pDoc : JsonNode R} {pLvalue pValue : Expr R} (hl : pLvalue.Initial) (hv : pValue.Initial)
    {x : JsonNode R × Expr R × Expr R} (h : reviseOneField I ctx pDoc pLvalue pValue = .ok x) : x.2 = (pLvalue,pValue) := by
  obtain ⟨⟨d,o,pLvalue'⟩,hf,h⟩ := bind_eq_ok.mp h
  obtain rfl : pLvalue' = pLvalue := findOrCreateJsonNode_neutral hI ctx pDoc pLvalue hl hf
  cases o with
  | none =>
    cases h
    rfl
  | some p =>
    obtain ⟨⟨v,pValue'⟩,he,h⟩ := bind_eq_ok.mp h
    have hp := hI.exprEval ctx pValue v pValue' hv he
    simp only at h
    split at h <;> cases h
    rw [hp]

theorem reviseFields_neutral {pDoc : JsonNode R} {pChng : List (Expr R × Expr R)}
    (hi : ∀ c ∈ pChng, c.1.Initial ∧ c.2.Initial) {x : JsonNode R × List (Expr R × Expr R)}
    (h : reviseFields I ctx pDoc pChng = .ok x) : x.2 = pChng := by
  induction pChng generalizing pDoc x with
  | nil =>
    cases h
    rfl
  | cons c pChng ih =>
    obtain ⟨⟨d,pLvalue,pValue⟩,hc,h⟩ := bind_eq_ok.mp h
    obtain ⟨hl,hv⟩ := hi c List.mem_cons_self
    obtain ⟨rfl,rfl⟩ := Prod.mk.inj (reviseOneField_neutral hI ctx hl hv hc)
    obtain ⟨⟨d',pChng'⟩,hr,h⟩ := bind_eq_ok.mp h
    cases h
    exact congrArg (List.cons c) (ih (fun c hc => hi c (List.mem_cons_of_mem _ hc)) hr)

end Neutral

structure UpdateCmd.Initial (c : UpdateCmd R) : Prop where
  pWhere : optionInitial c.pWhere
  pChng : ∀ x ∈ c.pChng, x.1.Initial ∧ x.2.Initial
  pUpsert : optionInitial c.pUpsert

/-- With enough fuel the changes make `w` of the document `v`, and they can be made on values. -/
structure ChangesTo (ctx : Ctx R) (pChng : List (Expr R × Expr R)) (v w : JsonNode R) : Prop where
  unshared : ∀ x ∈ pChng, x.2.Unshared
  returns : ∃ x, Returns (fun n => reviseFields (interp n) ctx v pChng) (w,x)

/-- What the expressions see at a row, with the texts of its collection before and behind it. -/
def rowCtx (C : Collections) (zName : Bytes) (pre : List Bytes) (zJson : Bytes) (post : List Bytes) : Ctx R :=
  ⟨[],.doc (xjd1JsonParse zJson),(C.set zName (some (pre ++ zJson::post))).texts⟩

inductive UpdateRun (C : Collections) (c : UpdateCmd R) : List Bytes → List Bytes → List Bytes → ℕ → Prop
  | nil (pre : List Bytes) : UpdateRun C c pre [] [] 0
  | keep {pre post post' : List Bytes} {zJson : Bytes} {k : ℕ}
      (ht : TestGives (rowCtx C c.zName pre zJson post) c.pWhere false) (h : UpdateRun C c (pre ++ [zJson]) post post' k) :
      UpdateRun C c pre (zJson::post) (zJson::post') k
  | change {pre post post' : List Bytes} {zJson : Bytes} {k : ℕ} {v : JsonNode R}
      (ht : TestGives (rowCtx C c.zName pre zJson post) c.pWhere true)
      (hv : ChangesTo (rowCtx C c.zName pre zJson post) c.pChng (xjd1JsonParse zJson) v) (hf : FitsRow (xjd1JsonRender v))
      (h : UpdateRun C c (pre ++ [xjd1JsonRender v]) post post' k) :
      UpdateRun C c pre (zJson::post) (xjd1JsonRender v::post') (k+1)

/-- Where the expressions see no collection, every row becomes what its own document gives. -/
theorem UpdateRun.map {C : Collections} {c : UpdateCmd R} {b : Bytes → Bool} {f : Bytes → JsonNode R} {zs : List Bytes}
    (hb : ∀ z ∈ zs, ∀ db, TestGives (⟨[],.doc (xjd1JsonParse z),db⟩ : Ctx R) c.pWhere (b z))
    (hf : ∀ z ∈ zs, b z = true → ∀ db, ChangesTo (⟨[],.doc (xjd1JsonParse z),db⟩ : Ctx R) c.pChng (xjd1JsonParse z) (f z))
    (hr : ∀ z ∈ zs, b z = true → FitsRow (xjd1JsonRender (f z))) (pre : List Bytes) :
    UpdateRun C c pre zs (zs.map fun z => if b z then xjd1JsonRender (f z) else z) (zs.countP b) := by
  induction zs generalizing pre with
  | nil => exact .nil pre
  | cons z zs ih =>
    have hz : z ∈ z::zs := List.mem_cons_self
    have ih := ih (fun w hw => hb w (List.mem_cons_of_mem z hw)) (fun w hw => hf w (List.mem_cons_of_mem z hw))
      (fun w hw => hr w (List.mem_cons_of_mem z hw))
    cases h : b z with
    | true =>
      rw [List.map_cons,h,if_pos rfl,List.countP_cons_of_pos h]
      exact .change (h ▸ hb z hz _) (hf z hz h _) (hr z hz h) (ih _)
    | false =>
      rw [List.map_cons,h,if_neg Bool.false_ne_true,List.countP_cons_of_neg (by simp [h])]
      exact .keep (h ▸ hb z hz _) (ih _)

section Rows
variable [Sqlite σ] [LawfulSqlite σ] {c : UpdateCmd R} {s s' : σ} {l : List (Int × Bytes)} {zs : List Bytes} {k : ℕ}

/-- What holds while the rows are updated: the rows `pre` have been, and the rest of the run ends
with the texts `zs`, `k` of them new. -/
structure Updating (s : σ) (c : UpdateCmd R) (l : List (Int × Bytes)) (zs : List Bytes) (k : ℕ)
    (pre post : List (Int × Bytes)) (x : UpdateCmd R × ℕ × σ) : Prop where
  cmd : x.1 = c
  rows : table x.2.2 c.zName = some (pre ++ post)
  keys : (pre ++ post).map Prod.fst = l.map Prod.fst
  others : OthersKept c.zName s x.2.2
  mode : Sqlite.mode x.2.2 = Sqlite.mode s
  rest : ∃ zs' k', UpdateRun (collections s) c (pre.map Prod.snd) (post.map Prod.snd) zs' k' ∧
    pre.map Prod.snd ++ zs' = zs ∧ x.2.1 + k' = k

theorem stmtCtx_row {pre post : List (Int × Bytes)} {r : Int × Bytes} {zName : Bytes} (ho : OthersKept zName s s')
    (ht : table s' zName = some (pre ++ r::post)) : stmtCtx s' (.doc (xjd1JsonParse r.2 : JsonNode R)) =
      rowCtx (collections s) zName (pre.map Prod.snd) r.2 (post.map Prod.snd) := by
  rw [stmtCtx,rowCtx,dbTexts_eq,collections_set ho,collections_of_table ht,List.map_append,List.map_cons]

theorem Updating.turn {pre post : List (Int × Bytes)} {r : Int × Bytes} {x : UpdateCmd R × ℕ × σ} (hc : c.Initial)
    (h : Updating s c l zs k pre (r::post) x) :
    ∃ a x', Returns (fun n => updateTurn (interp n) (lastKey pre,x)) (.inr (some r.1,x')) ∧
      Updating s c l zs k (pre ++ [(r.1,a)]) post x' := by
  obtain ⟨c',nUpdate,s'⟩ := x
  obtain ⟨rfl,hrows,hkeys,hothers,hmode,zs',k',hrun,hzs,hk⟩ := h
  simp only at hrows hothers hmode hk
  rw [List.map_cons] at hrun
  have hctx := stmtCtx_row (R := R) hothers hrows
  cases hrun with
  | keep ht hrun =>
    refine ⟨r.2,(c',nUpdate,s'),?_,rfl,by simpa using hrows,by simpa using hkeys,hothers,hmode,_,_,
      by simpa using hrun,by simpa using hzs,hk⟩
    filter_upwards [ht.initial hc.pWhere] with n hn
    simp only [updateTurn,cursorStep_middle hrows,List.head?_cons,hctx,hn,ok_bind]
    rfl
  | @change _ _ post' _ k'' v ht hv hf hrun =>
    have htab : table (replaceRow c'.zName r.1 (xjd1JsonRender v) s') c'.zName =
        some (pre ++ (r.1,xjd1JsonRender v)::post) := by
      rw [LawfulSqlite.replaceRow_table _ _ _ _ hf,hrows,Option.map_some,
        replace_middle (LawfulSqlite.table_sorted s' c'.zName _ hrows)]
    refine ⟨xjd1JsonRender v,(c',nUpdate+1,replaceRow c'.zName r.1 (xjd1JsonRender v) s'),?_,rfl,by simpa using htab,
      by simpa using hkeys,fun z hz => ?_,(LawfulSqlite.replaceRow_mode _ _ _ _).trans hmode,post',k'',
      by simpa using hrun,by simpa using hzs,by simp only; omega⟩
    · obtain ⟨pChng,hv⟩ := hv.returns
      filter_upwards [ht.initial hc.pWhere,hv] with n hn hv
      obtain rfl : pChng = c'.pChng := reviseFields_neutral (interp_neutral n) _ hc.pChng hv
      simp only [updateTurn,cursorStep_middle hrows,List.head?_cons,hctx,hn,ok_bind,if_true,hv]
    · rw [LawfulSqlite.replaceRow_others _ _ _ _ z hz]
      exact hothers z hz

theorem updateLoop_spec (hc : c.Initial) (hl : table s c.zName = some l)
    (hrun : UpdateRun (collections s) c [] (l.map Prod.snd) zs k) :
    ∃ s' l', Returns (fun n => Run.loop (updateTurn (interp n)) n (none,c,0,s)) (c,k,s') ∧ table s' c.zName = some l' ∧
      l'.map Prod.fst = l.map Prod.fst ∧ l'.map Prod.snd = zs ∧ OthersKept c.zName s s' ∧ mode s' = mode s := by
  obtain ⟨⟨c',k',s'⟩,hloop,l',h⟩ : ∃ x : UpdateCmd R × ℕ × σ,
      Loops (fun n => updateTurn (interp n)) (none,c,0,s) x ∧ ∃ l', Updating s c l zs k l' [] x := by
    refine walk (Updating s c l zs k) (fun pre x h => ?_) (fun pre r post x h => h.turn hc)
      (⟨rfl,hl,rfl,fun z hz => rfl,rfl,zs,k,hrun,rfl,Nat.zero_add k⟩ : Updating s c l zs k [] l (c,0,s))
    refine ⟨x,.of_forall fun n => ?_,pre,h⟩
    obtain ⟨c',nUpdate,s'⟩ := x
    obtain rfl : c' = c := h.cmd
    simp only [updateTurn,cursorStep_middle h.rows]
    rfl
  obtain ⟨rfl,hrows,hkeys,hothers,hmode,zs',k'',hrun,hzs,hk⟩ := h
  cases hrun
  simp only [List.append_nil,Nat.add_zero] at hrows hkeys hzs hk
  subst hk
  exact ⟨s',l',hloop.returns,hrows,hkeys,hzs,hothers,hmode⟩

def upsertCtx (C : Collections) (zName : Bytes) (zs : List Bytes) : Ctx R := ⟨[],.doc .nullptr,(C.set zName (some zs)).texts⟩

/-- The tests, the changes and, if no row is changed, the value of ELSE INSERT have values. -/
def UpdateDefined (C : Collections) (c : UpdateCmd R) (zs : List Bytes) : Prop :=
  ∃ zs' k, UpdateRun C c [] zs zs' k ∧
    (k = 0 → ∀ e ∈ c.pUpsert, ∃ v, Evals (upsertCtx C c.zName zs') e v ∧ FitsRow (xjd1JsonRender v))

/-- What an UPDATE makes of the texts of its collection. -/
inductive UpdatesTo (C : Collections) (c : UpdateCmd R) (zs : List Bytes) : List Bytes → Prop
  | rows {zs' : List Bytes} {k : ℕ} (h : UpdateRun C c [] zs zs' k) (hu : c.pUpsert = none ∨ k ≠ 0) : UpdatesTo C c zs zs'
  | inserted {zs' : List Bytes} {e : Expr R} {v : JsonNode R} (h : UpdateRun C c [] zs zs' 0) (he : c.pUpsert = some e)
      (hv : Evals (upsertCtx C c.zName zs') e v) : UpdatesTo C c zs (zs' ++ [xjd1JsonRender v])
  /-- SQLite did not insert the value; nobody is told. -/
  | refused {zs' : List Bytes} {e : Expr R} (h : UpdateRun C c [] zs zs' 0) (he : c.pUpsert = some e) : UpdatesTo C c zs zs'

omit [CDouble R] in
theorem upsert_collections (c : UpdateCmd R) (s : σ) :
    collections (if c.pUpsert.isSome then beginUpsert s else s) = collections s := by
  funext z
  split
  · rw [collections,collections,LawfulSqlite.beginUpsert_table]
  · rfl

theorem commit_collections (s : σ) : collections (commitUpsert s) = collections s := by
  funext z
  rw [collections,collections,LawfulSqlite.commitUpsert_table]

theorem Evals.initial {ctx : Ctx R} {e : Expr R} {v : JsonNode R} (h : Evals ctx e v) (hi : e.Initial) :
    Returns (fun n => (interp n).xjd1ExprEval ctx e) (v,e) := by
  obtain ⟨e',h⟩ := h
  refine h.mono fun n hn => ?_
  rw [hn,(interp_neutral n).exprEval ctx e v e' hi hn]

theorem upsertStep_spec {e : Expr R} {C : Collections} {zs0 : List Bytes} (hc : c.Initial) (he : c.pUpsert = some e)
    (hrun : UpdateRun C c [] zs0 zs k) (hs : collections s = C.set c.zName (some zs))
    (hd : k = 0 → ∃ v, Evals (upsertCtx C c.zName zs) e v ∧ FitsRow (xjd1JsonRender v)) :
    ∃ s' zs', Returns (fun n => upsertStep (interp n) c e k s) (c,s') ∧
      collections s' = C.set c.zName (some zs') ∧ UpdatesTo C c zs0 zs' ∧ (mode s = .upserting → mode s' = .idle) := by
  by_cases hk : k = 0
  · subst hk
    obtain ⟨v,hv,hf⟩ := hd rfl
    have hi : e.Initial := by simpa [he,optionInitial] using hc.pUpsert
    have hctx : (stmtCtx s (.doc .nullptr) : Ctx R) = upsertCtx C c.zName zs := by rw [stmtCtx,dbTexts_eq,hs,upsertCtx]
    have hcmd : { c with pUpsert := some e } = c := by rw [← he]
    have hret : Returns (fun n => upsertStep (interp n) c e 0 s)
        (c,commitUpsert (insertInto c.zName (xjd1JsonRender v) s).2) := by
      filter_upwards [hv.initial hi] with n hn
      simp only [upsertStep,if_true,hctx,hn,ok_bind,hcmd]
    have hmode := fun h : mode s = .upserting => LawfulSqlite.commitUpsert_mode (insertInto c.zName (xjd1JsonRender v) s).2
      ((LawfulSqlite.insertInto_mode c.zName (xjd1JsonRender v) s).trans h)
    obtain ⟨hok,herr⟩ := insertInto_collections c.zName s hf
    by_cases hins : (insertInto c.zName (xjd1JsonRender v) s).1 = none
    · obtain ⟨zs',hzs,hC⟩ := hok hins
      rw [hs,Collections.set,if_pos rfl,Option.some.injEq] at hzs
      subst hzs
      refine ⟨_,_,hret,?_,.inserted hrun he hv,hmode⟩
      rw [commit_collections,hC,hs]
      funext z
      by_cases hz : foldName z = foldName c.zName <;> simp [Collections.set,hz]
    · exact ⟨_,_,hret,by rw [commit_collections,herr hins,hs],.refused hrun he,hmode⟩
  · refine ⟨_,_,.of_forall fun n => ?_,(commit_collections s).trans hs,.rows hrun (.inr hk),
      LawfulSqlite.commitUpsert_mode s⟩
    simp only [upsertStep,if_neg hk]

/-- An UPDATE of a collection whose expressions have values ends, leaves the other collections
as they are, and leaves no transaction open. -/
theorem xjd1UpdateStep_spec {zs0 : List Bytes} (hc : c.Initial) (hl : collections s c.zName = some zs0)
    (hd : UpdateDefined (collections s) c zs0) :
    ∃ s' zs', Returns (fun n => xjd1UpdateStep (interp n) n c s) (c,s') ∧
      collections s' = (collections s).set c.zName (some zs') ∧ UpdatesTo (collections s) c zs0 zs' ∧
      (mode s = .idle → mode s' = .idle) := by
  obtain ⟨zs,k,hrun,hd⟩ := hd
  let s0 : σ := if c.pUpsert.isSome then beginUpsert s else s
  have hs0 : collections s0 = collections s := upsert_collections c s
  obtain ⟨l,htab,rfl⟩ : ∃ l, table s0 c.zName = some l ∧ l.map Prod.snd = zs0 := by
    rw [← hs0] at hl
    exact Option.map_eq_some_iff.mp hl
  obtain ⟨s1,l',hloop,htab1,_,rfl,hothers,hmode⟩ := updateLoop_spec hc htab (by rwa [hs0])
  have hs1 : collections s1 = (collections s).set c.zName (some (l'.map Prod.snd)) := by
    rw [collections_set hothers,hs0,collections_of_table htab1]
  have hsome : (table s0 c.zName).isSome = true := by rw [htab]; rfl
  cases he : c.pUpsert with
  | none =>
    have hs : s0 = s := if_neg (by rw [he]; exact Bool.false_ne_true)
    refine ⟨s1,_,?_,hs1,.rows hrun (.inl he),fun h => ?_⟩
    swap
    · rw [hmode,hs,h]
    filter_upwards [hloop] with n hn
    simp only [xjd1UpdateStep]
    rw [if_pos hsome,hn,ok_bind]
    simp only [he]
  | some e =>
    obtain ⟨s',zs',hret,hC,hto,hidle⟩ := upsertStep_spec hc he hrun hs1 fun hk => hd hk e he
    have hs : s0 = beginUpsert s := if_pos (by rw [he]; rfl)
    refine ⟨s',zs',?_,hC,hto,fun h => hidle ?_⟩
    swap
    · rw [hmode,hs,LawfulSqlite.beginUpsert_mode s h]
    filter_upwards [hloop,hret] with n hn hret
    simp only [xjd1UpdateStep]
    rw [if_pos hsome,hn,ok_bind]
    simp only [he]
    exact hret

end Rows

/-- The document `{"k":r}`. -/
def withKey (r : Int) : JsonNode Int := .struct [([ch 'k'],.real r)]

theorem parse_withKey_zero : xjd1JsonParse (xjd1JsonRender (withKey 0)) = withKey 0 := rfl

theorem parse_withKey_one : xjd1JsonParse (xjd1JsonRender (withKey 1)) = withKey 1 := rfl

/-- `UPDATE c SET c.a = c.k + 1 WHERE c.k` -/
def updateNext : UpdateCmd Int :=
  ⟨[ch 'c'],some (.dot (.id [ch 'c'] none 0) [ch 'k']),
    [(.dot (.id [ch 'c'] none 0) [ch 'a'],.bi .plus (.dot (.id [ch 'c'] none 0) [ch 'k']) (some (.jvalue (.real 1))))],none⟩

end Xjd1
