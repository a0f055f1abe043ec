import Xjd1.Json.Order
import Xjd1.Lib.Groups
import Xjd1.Query.Ordered

/-! OFFSET and LIMIT over the ordered rows: some rows are stepped over, the
others counted down to the limit. -/
namespace Xjd1

open Fueled Fueled.Run Delivery SlotSort

variable {R : Type} [CDouble R]

/-- The first `n` of a list; all of it if there is no `n` or if it is negative. -/
def cut {α : Type} : Option Int → List α → List α
  | none, l => l
  | some n, l => if n < 0 then l else l.take n.toNat

@[simp] theorem cut_nil {α : Type} (n : Option Int) : cut n ([] : List α) = [] := by
  cases n <;> simp [cut]

@[simp] theorem cut_zero {α : Type} (l : List α) : cut (some 0) l = [] := by simp [cut]

theorem cut_getD {α : Type} (n : Option Int) (l : List α) : cut (some (n.getD (-1))) l = cut n l := by
  cases n <;> simp [cut]

theorem cut_cons {α : Type} {n : Int} (hn : n ≠ 0) (a : α) (l : List α) :
    cut (some n) (a::l) = a :: cut (some (if 0 < n then n-1 else n)) l := by
  rcases Int.lt_or_lt_of_ne hn with h | h
  · simp [cut,h,Int.not_lt.mpr (Int.le_of_lt h)]
  · have hk : n.toNat = (n-1).toNat + 1 := by omega
    have hk' : ¬ n-1 < 0 := by omega
    rw [cut,cut,if_neg (Int.not_lt.mpr (Int.le_of_lt h)),if_pos h,if_neg hk',hk,List.take_succ_cons]

section Limit
variable {ctx : Ctx R} {p q t : Query R} {ws : List (JsonNode R)}

theorem limitStep_delivers (h : Delivers (orderedStream ctx) q ws t) (c : Int) :
    ∃ u, Delivers (stream queryStep ctx) (q.withLimit (some c)) (cut (some c) ws) u := by
  have hzero : ∀ q : Query R, Steps queryStep ctx (q.withLimit (some 0)) (.done,q.withLimit (some 0)) :=
    fun q => Filter.Eventually.of_forall fun n => rfl
  have hstep : ∀ (q t : Query R) (c : Int) rc, c ≠ 0 →
      Steps selectStepOrdered ctx (q.withLimit (some c)) (rc,t.withLimit (some c)) →
      Steps queryStep ctx (q.withLimit (some c)) (rc,t.withLimit (some (if 0 < c then c-1 else c))) := by
    intro q t c rc hc hs
    filter_upwards [hs] with n hn
    simp only [queryStep,Query.withLimit,limitStep,if_neg hc] at hn ⊢
    rw [hn]
    split <;> rfl
  induction h generalizing c with
  | done h =>
    rw [cut_nil]
    by_cases hc : c = 0
    · subst hc
      exact ⟨_,.done (hzero _)⟩
    · exact ⟨_,.done (hstep _ _ c .done hc (h _))⟩
  | row h _ ih =>
    by_cases hc : c = 0
    · subst hc
      rw [cut_zero]
      exact ⟨_,.done (hzero _)⟩
    · obtain ⟨u,hu⟩ := ih (if 0 < c then c-1 else c)
      rw [cut_cons hc]
      exact ⟨u,.row ⟨_,hstep _ _ c .row hc (h _).1,(h _).2⟩ hu⟩

theorem offsetLoop_delivers (h : Delivers (orderedStream ctx) p ws t) (k : ℕ) (m : Option Int) :
    (∃ q, Returns (fun n => offsetLoop (interp n) n ctx k (p.withLimit m)) (.row,q.withLimit m) ∧
      Delivers (orderedStream ctx) q (ws.drop k) t) ∨
    (ws.drop k = [] ∧ Returns (fun n => offsetLoop (interp n) n ctx k (p.withLimit m)) (.done,t.withLimit m)) := by
  induction k generalizing p ws with
  | zero => exact .inl ⟨p,Filter.Eventually.of_forall fun n => rfl,h⟩
  | succ k ih =>
    cases h with
    | done h =>
      refine .inr ⟨List.drop_nil,?_⟩
      filter_upwards [h m] with n hn
      rw [offsetLoop,hn,ok_bind]
    | @row _ p' _ _ _ h hs =>
      have hstep : ∀ {r}, Returns (fun n => offsetLoop (interp n) n ctx k (p'.withLimit m)) r →
          Returns (fun n => offsetLoop (interp n) n ctx (k+1) (p.withLimit m)) r := by
        intro r hr
        filter_upwards [(h m).1,hr] with n hn hr
        rw [offsetLoop,hn,ok_bind]
        exact hr
      rcases ih hs with ⟨q,hq,hd⟩ | ⟨hnil,hq⟩
      · exact .inl ⟨q,hstep hq,hd⟩
      · exact .inr ⟨hnil,hstep hq⟩

end Limit

/-- The integer a LIMIT or OFFSET expression gives, whatever row the query is
at: `none` if there is no expression or its value is no number. -/
def Gives (ctx : Ctx R) (p : Query R) (pExpr : Option (Expr R)) (k : Option Int) : Prop :=
  match pExpr with
  | none => k = none
  | some e => ∃ v, limitValue v = .ok k ∧ ∀ q, xjd1QueryRewind q = xjd1QueryRewind p →
    ∃ e', Returns (fun n => (interp n).xjd1ExprEval (q.scope (interp n) ctx) e) (v,e')

omit [CDouble R] in
theorem pLimit_of_rewind {p q : Query R} (h : xjd1QueryRewind q = xjd1QueryRewind p) :
    q.pLimit = p.pLimit ∧ q.pOffset = p.pOffset := by
  rw [queryRewind_eq,queryRewind_eq p,Query.mk.injEq] at h
  exact ⟨h.2.2.2.1,h.2.2.2.2.1⟩

section First
variable {ctx : Ctx R} {p q : Query R} {k c : Option Int}

theorem applyOffset_eq (hp : p.Clean) (ho : Gives ctx p p.pOffset k) :
    ∀ᶠ n in Filter.atTop, applyOffset (interp n) n ctx p = offsetLoop (interp n) n ctx (k.getD 0).toNat p := by
  cases hof : p.pOffset with
  | none =>
    rw [hof] at ho
    obtain rfl : k = none := ho
    refine Filter.Eventually.of_forall fun n => ?_
    rw [applyOffset,hof]
    rfl
  | some e =>
    rw [hof] at ho
    obtain ⟨v,hv,he⟩ := ho
    obtain ⟨e',he⟩ := he p rfl
    have hi : optionInitial p.pOffset := by
      rw [Query.Clean,queryRewind_eq,queryInitial_iff] at hp
      exact hp.2.2.2.1
    rw [hof,optionInitial] at hi
    filter_upwards [he] with n hn
    obtain rfl := (interp_neutral n).exprEval _ e v e' hi hn
    simp only [applyOffset,hof,hn,ok_bind,hv]
    rw [← hof,Query.eta]

theorem setLimit_eq (hp : p.Clean) (hl : Gives ctx p p.pLimit c) (hq : xjd1QueryRewind q = xjd1QueryRewind p) :
    ∀ᶠ n in Filter.atTop, setLimit (interp n) ctx q = .ok (q.withLimit (some (c.getD (-1)))) := by
  have hql := (pLimit_of_rewind hq).1
  cases hpl : p.pLimit with
  | none =>
    rw [hpl] at hl hql
    obtain rfl : c = none := hl
    refine Filter.Eventually.of_forall fun n => ?_
    simp only [setLimit,hql]
    rw [Query.withLimit,← hql]
    rfl
  | some e =>
    rw [hpl] at hl hql
    obtain ⟨v,hv,he⟩ := hl
    obtain ⟨e',he⟩ := he q hq
    have hi : optionInitial p.pLimit := by
      rw [Query.Clean,queryRewind_eq,queryInitial_iff] at hp
      exact hp.2.2.1
    rw [hpl,optionInitial] at hi
    filter_upwards [he] with n hn
    obtain rfl := (interp_neutral n).exprEval _ e v e' hi hn
    simp only [setLimit,hql,hn,ok_bind,hv]
    rw [Query.withLimit,← hql]

/-- The documents are those of the ordered rows, without the first `k` and cut to `n`. -/
theorem queryStep_delivers {n : Option Int} {rows : List (ResultItem R)} (hp : p.Initial)
    (h : Delivers (orderRows ctx) p rows q) (hkeys : KeysOrdered p.pOrderBy rows)
    (hlen : p.pOrderBy.isSome → rows.length < 2^nSlot) (hk : Gives ctx p p.pOffset k)
    (hn : Gives ctx p p.pLimit n) :
    ∃ S t, OrderedBy p.pOrderBy rows S ∧
      Delivers (stream queryStep ctx) p (cut n ((S.map ResultItem.last).drop (k.getD 0).toNat)) t := by
  obtain ⟨S,t,hS,hd⟩ := ordered_delivers hp h hkeys hlen
  have hp0 : p.withLimit none = p := by
    rw [Query.withLimit,← ((queryInitial_iff p).mp hp).2.2.2.2.2.2,Query.eta]
  have hnl : p.nLimit = none := ((queryInitial_iff p).mp hp).2.2.2.2.2.2
  refine ⟨S,?_⟩
  rcases offsetLoop_delivers hd (k.getD 0).toNat none with ⟨q',hq,hd⟩ | ⟨hnil,hq⟩
  · rw [hp0] at hq
    have e1 : xjd1QueryRewind (q'.withLimit none) = xjd1QueryRewind p := by
      obtain ⟨m,hm⟩ := hq.exists
      exact offsetLoop_neutral (interp_neutral m) ctx m hp.clean hm
    obtain ⟨u,hu⟩ := limitStep_delivers hd (n.getD (-1))
    rw [cut_getD] at hu
    have hfirst : ∀ᶠ m in Filter.atTop, queryStep (interp m) m ctx (q'.withLimit (some (n.getD (-1)))) =
        queryStep (interp m) m ctx p := by
      filter_upwards [applyOffset_eq hp.clean hk,setLimit_eq hp.clean hn e1,hq] with m h1 h2 h3
      simp only [queryStep,hnl,h1,h3,ok_bind,h2]
      rfl
    have hcong : ∀ r, Steps queryStep ctx (q'.withLimit (some (n.getD (-1)))) r → Steps queryStep ctx p r :=
      fun r hr => by filter_upwards [hr,hfirst] with m h1 h2; rw [← h2,h1]
    exact ⟨u,hS,hu.congr (fun v u ⟨w,h1,h2⟩ => ⟨w,hcong _ h1,h2⟩) fun u h1 => hcong _ h1⟩
  · rw [hp0] at hq
    have e1 : xjd1QueryRewind (t.withLimit none) = xjd1QueryRewind p := by
      obtain ⟨m,hm⟩ := hq.exists
      exact offsetLoop_neutral (interp_neutral m) ctx m hp.clean hm
    rw [hnil,cut_nil]
    refine ⟨(t.withLimit none).withLimit (some (n.getD (-1))),hS,.done ?_⟩
    filter_upwards [applyOffset_eq hp.clean hk,setLimit_eq hp.clean hn e1,hq] with m h1 h2 h3
    simp only [queryStep,hnl,h1,h3,ok_bind,h2]

end First

def byOne : Option (List (ExprItem Int)) := some [⟨none,.jvalue (.real 1)⟩]

theorem selectFrom_initial : (selectFrom [] byOne .nullptr 0).Initial := by
  simp [selectFrom,byOne,Query.Initial,QueryU.Initial,SimpleQuery.Initial,DataSrc.Initial,Expr.Initial,optionInitial,
    itemsInitial,itemsOptionInitial,aggsOptionInitial]

theorem selectFrom_orderRows (ctx : Ctx Int) (v : JsonNode Int) (k : ℕ) :
    Delivers (orderRows ctx) (selectFrom [] byOne v k)
      (((ctx.db []).drop k).map fun z => ⟨[.real 1,xjd1JsonParse z]⟩) (selectFrom [] byOne .nullptr 0) := by
  have hkeys : ∀ (w : JsonNode Int) j, Returns (fun n => evalItems (interp n)
      ((selectFrom [] byOne w j).scope (interp n) ctx) (byOne.getD [])) ([.real 1],byOne.getD []) := fun _ _ =>
    Returns.of_ok (fun _ _ h => evalItems_le (interp_le h) (scope_le (interp_le h) (Ctx.le_refl ctx) _) _)
      (n := 1) rfl
  refine Delivers.positions (selectFrom [] byOne) (fun w j z hz => ?_) (fun w j hz => ?_) v k
  · exact ⟨_,_,_,_,_,selectFrom_step hz,hkeys _ _,selectFrom_reads _,rfl⟩
  · exact selectFrom_done hz

theorem keysOrdered_one (l : List Bytes) :
    KeysOrdered byOne (l.map fun z => (⟨[.real 1,xjd1JsonParse z]⟩ : ResultItem Int)) := by
  intro j hj
  obtain rfl : j = 0 := Nat.lt_one_iff.mp hj
  have hone : ∀ v : JsonNode Int, (∃ i ∈ l.map fun z => (⟨[.real 1,xjd1JsonParse z]⟩ : ResultItem Int),
      i.apKey[0]? = some v) → v = .real 1 := by
    rintro v ⟨i,hi,hv⟩
    obtain ⟨z,_,rfl⟩ := List.mem_map.mp hi
    cases hv
    rfl
  refine Ordered.of_eq fun a b ha hb => ?_
  rw [hone a ha,hone b hb]
  decide

/-- The surroundings of a query over collections of the documents [1,2,0], [2,1,1], [1,1,2], [2,1,3] and [1,2,4]. -/
def keyed : Ctx Int := ⟨[],.select,fun _ => [[ch '[',ch '1',ch ',',ch '2',ch ',',ch '0',ch ']'],
  [ch '[',ch '2',ch ',',ch '1',ch ',',ch '1',ch ']'],[ch '[',ch '1',ch ',',ch '1',ch ',',ch '2',ch ']'],
  [ch '[',ch '2',ch ',',ch '1',ch ',',ch '3',ch ']'],[ch '[',ch '1',ch ',',ch '2',ch ',',ch '4',ch ']']]⟩

/-- `SELECT FROM c ORDER BY c[0] DESC, c[1] LIMIT 3 OFFSET 1` -/
def selectKeyed : Query Int :=
  ⟨.simple ⟨false,none,.tab none .nullptr [ch 'c'] 0,none,none,none,none,.empty,.empty⟩,none,
    some [⟨some [ch 'D'],element 0⟩,⟨none,element 1⟩],some (.jvalue (.real 3)),some (.jvalue (.real 1)),.datasrc,.empty,
    none⟩

/-- The row of `selectKeyed` for a document: the keys and the document. -/
def keyedRow (a b c : Int) : ResultItem Int := ⟨[.real a,.real b,.array [.real a,.real b,.real c]]⟩

def keyedRows : List (ResultItem Int) :=
  [keyedRow 1 2 0,keyedRow 2 1 1,keyedRow 1 1 2,keyedRow 2 1 3,keyedRow 1 2 4]

theorem selectKeyed_rows : ∃ q, Delivers (orderRows keyed) selectKeyed keyedRows q := by
  have h : ∃ q1 q2 q3 q4 q5 q6 es, (stepCompounded (interp 6) 6 keyed selectKeyed = .ok (.row,q1) ∧
      evalItems (interp 6) (q1.scope (interp 6) keyed) (q1.pOrderBy.getD []) = .ok ([.real 1,.real 2],es) ∧
      (interp 6).xjd1QueryDoc keyed q1 0 = .ok (.array [.real 1,.real 2,.real 0],q1)) ∧
      (stepCompounded (interp 6) 6 keyed q1 = .ok (.row,q2) ∧
      evalItems (interp 6) (q2.scope (interp 6) keyed) (q2.pOrderBy.getD []) = .ok ([.real 2,.real 1],es) ∧
      (interp 6).xjd1QueryDoc keyed q2 0 = .ok (.array [.real 2,.real 1,.real 1],q2)) ∧
      (stepCompounded (interp 6) 6 keyed q2 = .ok (.row,q3) ∧
      evalItems (interp 6) (q3.scope (interp 6) keyed) (q3.pOrderBy.getD []) = .ok ([.real 1,.real 1],es) ∧
      (interp 6).xjd1QueryDoc keyed q3 0 = .ok (.array [.real 1,.real 1,.real 2],q3)) ∧
      (stepCompounded (interp 6) 6 keyed q3 = .ok (.row,q4) ∧
      evalItems (interp 6) (q4.scope (interp 6) keyed) (q4.pOrderBy.getD []) = .ok ([.real 2,.real 1],es) ∧
      (interp 6).xjd1QueryDoc keyed q4 0 = .ok (.array [.real 2,.real 1,.real 3],q4)) ∧
      (stepCompounded (interp 6) 6 keyed q4 = .ok (.row,q5) ∧
      evalItems (interp 6) (q5.scope (interp 6) keyed) (q5.pOrderBy.getD []) = .ok ([.real 1,.real 2],es) ∧
      (interp 6).xjd1QueryDoc keyed q5 0 = .ok (.array [.real 1,.real 2,.real 4],q5)) ∧
      stepCompounded (interp 6) 6 keyed q5 = .ok (.done,q6) :=
    ⟨_,_,_,_,_,_,_,⟨rfl,rfl,rfl⟩,⟨rfl,rfl,rfl⟩,⟨rfl,rfl,rfl⟩,⟨rfl,rfl,rfl⟩,⟨rfl,rfl,rfl⟩,rfl⟩
  obtain ⟨q1,q2,q3,q4,q5,q6,es,h1,h2,h3,h4,h5,h6⟩ := h
  have hrow {p q : Query Int} {a b c : Int} (h : stepCompounded (interp 6) 6 keyed p = .ok (.row,q) ∧
      evalItems (interp 6) (q.scope (interp 6) keyed) (q.pOrderBy.getD []) = .ok ([.real a,.real b],es) ∧
      (interp 6).xjd1QueryDoc keyed q 0 = .ok (.array [.real a,.real b,.real c],q)) :
      (orderRows keyed).row p (keyedRow a b c) q :=
    ⟨q,_,_,_,compounded_mono.steps 6 h.1,Returns.of_ok (fun _ _ h => evalItems_le (interp_le h)
      (scope_le (interp_le h) (Ctx.le_refl keyed) _) _) h.2.1,Returns.of_ok (queryDoc_mono _ _ 0) h.2.2,rfl⟩
  exact ⟨q6,.row (hrow h1) (.row (hrow h2) (.row (hrow h3) (.row (hrow h4) (.row (hrow h5)
    (.done (compounded_mono.steps 6 h6))))))⟩

/-- Two keys with ties among five rows, of which one is dropped and three are kept. -/
theorem queryStep_delivers_keyed : ∃ t, Delivers (stream queryStep keyed) selectKeyed
    [.array [.real 2,.real 1,.real 3],.array [.real 1,.real 1,.real 2],.array [.real 1,.real 2,.real 0]] t := by
  obtain ⟨q,hq⟩ := selectKeyed_rows
  have hi : selectKeyed.Initial := by
    simp [selectKeyed,element,firstDoc,Query.Initial,QueryU.Initial,SimpleQuery.Initial,DataSrc.Initial,Expr.Initial,
      optionInitial,itemsInitial,itemsOptionInitial,aggsOptionInitial]
  have hkeys : KeysOrdered selectKeyed.pOrderBy keyedRows := by
    intro j hj
    refine (ordered_xjd1JsonCompare numbers_int).mono ?_
    rintro v ⟨i,hi,hv⟩
    have hj : j = 0 ∨ j = 1 := Nat.le_one_iff_eq_zero_or_eq_one.mp (Nat.lt_succ_iff.mp hj)
    simp only [keyedRows,keyedRow,List.mem_cons,List.not_mem_nil,or_false] at hi
    rcases hj with rfl | rfl <;> rcases hi with rfl | rfl | rfl | rfl | rfl <;> cases hv <;> trivial
  have hgives (k : Int) (hk : limitValue (.real k) = .ok (some k)) :
      Gives keyed selectKeyed (some (.jvalue (.real k))) (some k) :=
    ⟨.real k,hk,fun q _ => ⟨_,Returns.of_ok (fun _ _ h => (interp_le h).exprEval _ _ (scope_le (interp_le h) (Ctx.le_refl keyed) _) _)
      (n := 1) rfl⟩⟩
  have hsorted : StableSort (cmpResultItem selectKeyed.pOrderBy) keyedRows
      [keyedRow 2 1 1,keyedRow 2 1 3,keyedRow 1 1 2,keyedRow 1 2 0,keyedRow 1 2 4] := by
    refine ⟨?_,by decide,?_⟩
    · exact .trans (List.perm_middle : ([_,_,_] ++ _ :: _).Perm _)
        (.cons _ (.cons _ (.trans (.swap _ _ _) (.cons _ (.refl _)))))
    · simp only [keyedRows,List.forall_mem_cons]
      exact ⟨rfl,rfl,rfl,rfl,rfl,fun _ h => absurd h List.not_mem_nil⟩
  obtain ⟨S,t,hS,hd⟩ := queryStep_delivers hi hq hkeys (fun _ => by decide) (hgives 1 rfl) (hgives 3 rfl)
  have hlong : ∀ i ∈ keyedRows, i ∈ keyedRows ∧ 2 ≤ i.apKey.length := by simp [keyedRows,keyedRow]
  obtain rfl := StableSort.unique (ordered_cmpResultItem_some _ hkeys) hlong hS hsorted
  exact ⟨t,hd⟩

/-- `2^40` rows cannot be ordered: the sort runs off its slots. -/
theorem queryStep_manyRows : ∃ (p q : Query Int) (rows : List (ResultItem Int)), p.Initial ∧
    Delivers (orderRows (manyRows Int (2^nSlot))) p rows q ∧ KeysOrdered p.pOrderBy rows ∧
    Gives (manyRows Int (2^nSlot)) p p.pOffset none ∧ Gives (manyRows Int (2^nSlot)) p p.pLimit none ∧
    ¬ ∃ S t, OrderedBy p.pOrderBy rows S ∧ Delivers (stream queryStep (manyRows Int (2^nSlot))) p
      (cut none ((S.map ResultItem.last).drop 0)) t := by
  have h := selectFrom_orderRows (manyRows Int (2^nSlot)) .nullptr 0
  refine ⟨_,_,_,selectFrom_initial,h,keysOrdered_one _,rfl,rfl,?_⟩
  have hlen : 2^nSlot ≤ (orderFillList (selectFrom [] byOne .nullptr 0)
      (((manyRows Int (2^nSlot)).db [] |>.drop 0).map fun z => ⟨[.real 1,xjd1JsonParse z]⟩)).pItem.length := by
    rw [orderFillList,List.length_reverse,List.length_map,List.drop_zero]
    exact (List.length_replicate).ge
  have hf : Faults (fun n => queryStep (interp n) n (manyRows Int (2^nSlot)) (selectFrom [] byOne .nullptr 0))
      .slots := by
    filter_upwards [selectStepOrdered_first selectFrom_initial rfl h (some (-1))] with n hn
    rw [sortResultList_overflow _ _ false hlen,stop_bind] at hn
    have hq : queryStep (interp n) n (manyRows Int (2^nSlot)) (selectFrom [] byOne .nullptr 0) =
        limitStep (interp n) n (manyRows Int (2^nSlot)) (-1)
          ((selectFrom [] byOne .nullptr 0).withLimit (some (-1))) := rfl
    rw [hq,limitStep,if_neg (by decide),hn,stop_bind]
  rintro ⟨S,t,_,hd⟩
  generalize cut none _ = ws at hd
  cases hd with
  | done hd => exact hd.not_faults hf
  | row hd _ => exact hd.choose_spec.1.not_faults hf

end Xjd1
