import Xjd1.Query.SelectRows
import Xjd1.Store.Script

/-! What a SELECT statement shows. -/
namespace Xjd1

open Fueled Fueled.Run Delivery SlotSort

variable {R σ : Type} [CDouble R] [Sqlite σ]

/-- A SELECT statement without aggregates shows the rows of its sources that WHERE accepts, in the
order of ORDER BY, without the first `k` and cut to `n`. The connection is as it was, but for a
cursor of a join that may stay at a row. -/
theorem select_shows {p : Query R} {s : SimpleQuery R} {pConn : Conn σ} {t : DataSrc R} {ds : List (DataSrc R)}
    {os : List (Option (ResultItem R))} {k n : Option Int} (hp : p.Initial) (hs : p.u = .simple s) (ha : s.pAgg = none)
    (hd : s.isDistinct = false) (hsrc : Delivers (srcStates (topCtx (collections pConn.db))) s.pFrom ds t)
    (hrows : List.Forall₂ (fun e o => RowGives (topCtx (collections pConn.db)) (p.atSources s e) s.pWhere o) ds os)
    (hkeys : KeysOrdered p.pOrderBy os.reduceOption) (hlen : p.pOrderBy.isSome → os.reduceOption.length < 2^nSlot)
    (hk : Gives (topCtx (collections pConn.db)) p p.pOffset k) (hn : Gives (topCtx (collections pConn.db)) p p.pLimit n) :
    ∃ S, ∃ u : Query R, OrderedBy p.pOrderBy os.reduceOption S ∧
      Returns (fun m => processOneStatement (interp m) m (.select p) pConn)
        ((cut n ((S.map ResultItem.last).drop (k.getD 0).toNat)).map xjd1JsonRender,.done,
          stmtDelete (.select u) pConn) := by
  obtain ⟨S,u,hS,hdel⟩ := select_stream hp hs ha hd hsrc hrows hkeys hlen hk hn
  exact ⟨S,u,hS,select_returns hdel⟩

/-- `SELECT FROM c WHERE c ORDER BY 1 LIMIT 1` -/
def selectTrue : Query Int :=
  ⟨.simple ⟨false,none,.tab none .nullptr [ch 'c'] 0,some (.id [ch 'c'] (some 0) 1),none,none,none,.empty,.empty⟩,none,
    byOne,some (.jvalue (.real 1)),none,.datasrc,.empty,none⟩

/-- The collection `c` of the documents 0, 5 and 3. -/
def zeroFiveThree : Tables :=
  [[ch '0'],[ch '5'],[ch '3']].foldl (fun s z => (insertInto [ch 'c'] z s).2) (createTable false [ch 'c'] Tables.empty).2

theorem select_shows_five :
    let pConn : Conn Tables := ⟨zeroFiveThree,.ok,[]⟩
    ∃ S, ∃ u : Query Int, OrderedBy byOne [⟨[.real 1,.real 5]⟩,⟨[.real 1,.real 3]⟩] S ∧
      Returns (fun m => processOneStatement (interp m) m (.select selectTrue) pConn)
        ((cut (some 1) ((S.map ResultItem.last).drop 0)).map xjd1JsonRender,.done,
          stmtDelete (.select u) pConn) := by
  intro pConn
  let ctx : Ctx Int := topCtx (collections pConn.db)
  let d (v : JsonNode Int) (k : ℕ) : DataSrc Int := .tab none v [ch 'c'] k
  let s : SimpleQuery Int := ⟨false,none,d .nullptr 0,some (.id [ch 'c'] (some 0) 1),none,none,none,.empty,.empty⟩
  have hsrc : Delivers (srcStates ctx) s.pFrom [d (.real 0) 1,d (.real 5) 2,d (.real 3) 3] (d .nullptr 0) :=
    .row ⟨tab_row rfl,rfl⟩ (.row ⟨tab_row rfl,rfl⟩ (.row ⟨tab_row rfl,rfl⟩ (.done (tab_done rfl))))
  have hscope (q : Query Int) (n m : ℕ) (h : n ≤ m) : q.scope (interp n) ctx ≤ q.scope (interp m) ctx :=
    scope_le (interp_le h) (Ctx.le_refl ctx) q
  have htest (k : ℕ) (v : JsonNode Int) (b : Bool) (h : xjd1ExprTrue (interp 3)
      ((selectTrue.atSources s (d v k)).scope (interp 3) ctx) (.id [ch 'c'] (some 0) 1) = .ok (b,.id [ch 'c'] (some 0) 1)) :
      Accepts ctx (selectTrue.atSources s (d v k)) b s.pWhere :=
    ⟨_,Returns.of_ok (fun n m h => exprTrue_le (interp_le h) (hscope _ n m h) _) h⟩
  have hrow (k : ℕ) (v : JsonNode Int) (h : Accepts ctx (selectTrue.atSources s (d v k)) true s.pWhere) :
      RowGives ctx (selectTrue.atSources s (d v k)) s.pWhere (some ⟨[.real 1] ++ [v]⟩) :=
    .accepted h (Returns.of_ok (fun n m h => evalItems_le (interp_le h) (hscope _ n m h) _) (n := 3) rfl)
      (Returns.of_ok (queryDoc_mono ctx _ 0) (n := 3) rfl)
  have hone : KeysOrdered byOne [(⟨[.real 1,.real 5]⟩ : ResultItem Int),⟨[.real 1,.real 3]⟩] := by
    intro j hj
    obtain rfl : j = 0 := Nat.lt_one_iff.mp hj
    refine Ordered.of_eq fun a b ha hb => ?_
    obtain ⟨i,hi,ha⟩ := ha
    obtain ⟨l,hl,hb⟩ := hb
    rcases List.mem_pair.mp hi with rfl | rfl <;> rcases List.mem_pair.mp hl with rfl | rfl <;> cases ha <;> cases hb <;> rfl
  have hinit : selectTrue.Initial := by
    simp [selectTrue,byOne,Query.Initial,QueryU.Initial,SimpleQuery.Initial,DataSrc.Initial,Expr.Initial,optionInitial,
      itemsInitial,itemsOptionInitial,aggsOptionInitial]
  exact select_shows hinit rfl rfl rfl hsrc (.cons (.rejected (htest 1 _ _ rfl)) (.cons (hrow 2 _ (htest 2 _ _ rfl))
    (.cons (hrow 3 _ (htest 3 _ _ rfl)) .nil))) hone (fun _ => by decide) (k := none) rfl
    ⟨.real 1,rfl,fun _ _ => ⟨_,Returns.succ_iff.mp (.of_forall fun _ => rfl)⟩⟩

end Xjd1
