import Xjd1.Query.Neutral
import Xjd1.Store.Collections

/-! DELETE with a WHERE clause. All rows are tested before any is deleted, and the rows that are
left are the ones the test is not true of. -/
namespace Xjd1

open Fueled Fueled.Run KeyedRows

variable {R σ : Type}

section Tests
variable [CDouble R] {ctx : Ctx R} {pWhere : Option (Expr R)} {b : Bool}

def TestGives (ctx : Ctx R) (pWhere : Option (Expr R)) (b : Bool) : Prop :=
  ∃ e, Returns (fun n => testRow (interp n) ctx pWhere) (b,e)

theorem TestGives.initial (h : TestGives ctx pWhere b) (hi : optionInitial pWhere) :
    Returns (fun n => testRow (interp n) ctx pWhere) (b,pWhere) := by
  obtain ⟨o,h⟩ := h
  cases pWhere with
  | none =>
    refine h.mono fun n hn => ?_
    cases hn
    rfl
  | some e =>
    refine h.mono fun n hn => ?_
    obtain ⟨⟨c,e'⟩,he,hn⟩ := bind_eq_ok.mp hn
    cases hn
    obtain rfl := exprTrue_neutral (interp_neutral n) ctx hi he
    simp only [testRow,he,ok_bind]

end Tests

section Delete
variable [CDouble R] [Sqlite σ] [LawfulSqlite σ] {zName : Bytes} {e : Expr R} {s s' : σ} {b : Bytes → Bool}
  {pre post : List (Int × Bytes)}

theorem cursorStep_middle (ht : table s zName = some (pre ++ post)) : cursorStep s zName (lastKey pre) = post.head? := by
  rw [cursorStep,ht]
  exact next_middle (LawfulSqlite.table_sorted s zName _ ht)

/-- What holds while the rows are tested: `pre` have been, and the ones to be deleted are noted. -/
structure Deleting (s : σ) (zName : Bytes) (b : Bytes → Bool) (pre post : List (Int × Bytes)) (s' : σ) : Prop where
  rows : table s' zName = some (pre ++ post)
  mode : Sqlite.mode s' = .deleting
  others : OthersKept tempName s s'
  shadowed : Sqlite.shadowed s' = table s tempName
  noted : ∀ k, k ∈ Sqlite.noted s' ↔ k ∈ (pre.filter fun r => b r.2).map Prod.fst

theorem Deleting.turn {r : Int × Bytes} (hd : Deleting s zName b pre (r::post) s') (hz : foldName zName ≠ tempName) :
    Deleting s zName b (pre ++ [r]) post (if b r.2 then noteRow r.1 s' else s') := by
  have hrows : pre ++ [r] ++ post = pre ++ r::post := by simp
  cases hb : b r.2 with
  | false =>
    refine ⟨hrows ▸ hd.rows,hd.mode,hd.others,hd.shadowed,fun k => ?_⟩
    rw [List.filter_append,List.filter_cons_of_neg (by simp [hb]),List.filter_nil,List.append_nil]
    exact hd.noted k
  | true =>
    simp only [if_true]
    refine ⟨?_,(LawfulSqlite.noteRow_mode r.1 s').trans hd.mode,fun z h => ?_,?_,fun k => ?_⟩
    · rw [LawfulSqlite.noteRow_others r.1 s' zName hz,hrows]
      exact hd.rows
    · rw [LawfulSqlite.noteRow_others r.1 s' z h]
      exact hd.others z h
    · rw [LawfulSqlite.noteRow_shadowed]
      exact hd.shadowed
    · rw [LawfulSqlite.noteRow_noted r.1 s' hd.mode,hd.noted,List.filter_append,List.filter_cons_of_pos (by simpa using hb),
        List.filter_nil,List.map_append,List.mem_append,List.map_singleton,List.mem_singleton]
      exact or_comm

theorem Deleting.finish (hd : Deleting s zName b pre [] s') (hz : foldName zName ≠ tempName) :
    table (deleteNoted zName s') zName = some (pre.filter fun r => !b r.2) ∧ OthersKept zName s (deleteNoted zName s') ∧
      Sqlite.mode (deleteNoted zName s') = .idle := by
  have hrows : table s' zName = some pre := by simpa using hd.rows
  have hthere : table s' zName ≠ none := by
    rw [hrows]
    exact Option.some_ne_none pre
  refine ⟨?_,?_,LawfulSqlite.deleteNoted_mode zName s' hd.mode hz hthere⟩
  · have hfilter : pre.filter (fun r => decide (r.1 ∉ Sqlite.noted s')) = pre.filter fun r => !b r.2 := by
      simp only [hd.noted]
      exact filter_keys (LawfulSqlite.table_sorted s' zName _ hrows) fun r => b r.2
    rw [LawfulSqlite.deleteNoted_table zName s' hd.mode hz,hrows,Option.map_some,hfilter]
  · intro z h
    by_cases ht : foldName z = tempName
    · have htemp : foldName z = foldName tempName := ht
      rw [LawfulSqlite.table_fold s z tempName htemp,LawfulSqlite.table_fold _ z tempName htemp,
        LawfulSqlite.deleteNoted_shadowed zName s' hd.mode hz hthere]
      exact hd.shadowed
    · rw [LawfulSqlite.deleteNoted_others zName s' z h ht]
      exact hd.others z ht

/-- A DELETE whose test has a value on every row deletes the rows it is true of and no others,
and leaves the other collections as they are, if no transaction is open and no cursor at a row.
The test sees the rows that will be deleted, but no collection that has the name of the
temporary table. -/
theorem xjd1DeleteStep_spec {l : List (Int × Bytes)} (hm : mode s = .idle) (hz : foldName zName ≠ tempName) (he : e.Initial)
    (hl : table s zName = some l)
    (hb : ∀ r ∈ l, ∀ db : Bytes → List Bytes, (∀ z, foldName z ≠ tempName → db z = dbTexts s z) →
      TestGives (⟨[],.doc (xjd1JsonParse r.2),db⟩ : Ctx R) (some e) (b r.2)) :
    ∃ s', Returns (fun n => xjd1DeleteStep (interp n) n zName (some e) s) (some e,s') ∧
      table s' zName = some (l.filter fun r => !b r.2) ∧ OthersKept zName s s' ∧ mode s' = .idle := by
  let I (pre post : List (Int × Bytes)) (x : Expr R × σ) : Prop := x.1 = e ∧ pre ++ post = l ∧ Deleting s zName b pre post x.2
  have hstart : Deleting s zName b [] l (beginDelete s) := by
    refine ⟨?_,LawfulSqlite.beginDelete_mode s hm,LawfulSqlite.beginDelete_others s,
      LawfulSqlite.beginDelete_shadowed s hm,fun k => ?_⟩
    · rw [LawfulSqlite.beginDelete_others s zName hz]
      exact hl
    · rw [LawfulSqlite.beginDelete_noted s hm]
      rfl
  obtain ⟨⟨e1,s1⟩,hloop,rfl,hdel⟩ : ∃ x : Expr R × σ,
      Loops (fun n => deleteTurn (interp n) zName) (none,e,beginDelete s) x ∧
      x.1 = e ∧ Deleting s zName b l [] x.2 := by
    refine walk I (fun pre x hI => ?_) (fun pre r post x hI => ?_)
      (⟨rfl,rfl,hstart⟩ : I [] l (e,beginDelete s))
    · obtain ⟨e1,s1⟩ := x
      obtain ⟨rfl,rfl,hd⟩ := hI
      refine ⟨_,.of_forall fun n => ?_,rfl,by simpa using hd⟩
      simp only [deleteTurn,cursorStep_middle hd.rows]
      rfl
    · obtain ⟨e1,s1⟩ := x
      obtain ⟨rfl,rfl,hd⟩ := hI
      refine ⟨r.2,(_,if b r.2 then noteRow r.1 s1 else s1),?_,rfl,by simp,hd.turn hz⟩
      have htest := (hb r (by simp) (dbTexts s1) fun z h => by rw [dbTexts,dbTexts,hd.others z h]).initial he
      filter_upwards [htest] with n hn
      obtain ⟨⟨c,e2⟩,hc,hn⟩ := bind_eq_ok.mp hn
      cases hn
      simp only [deleteTurn,cursorStep_middle hd.rows,List.head?_cons,stmtCtx,hc,ok_bind]
  obtain ⟨htab,hothers,hidle⟩ := hdel.finish hz
  have hsome : (table (beginDelete s) zName).isSome = true := by
    rw [hstart.rows]
    rfl
  refine ⟨_,?_,htab,hothers,hidle⟩
  filter_upwards [hloop.returns] with n hn
  simp only [xjd1DeleteStep,hsome,if_true]
  rw [hn]
  rfl

end Delete

end Xjd1
