import Xjd1.Query.Stream
import Xjd1.Store.Update

/-! Scripts: what the statements of a shell session do with the collections. -/
namespace Xjd1

open Fueled Fueled.Run Delivery KeyedRows

variable {R σ : Type} [CDouble R]

/-- What the expressions of a SELECT and of an INSERT see. -/
def topCtx (C : Collections) : Ctx R := ⟨[],.select,C.texts⟩

def insertCtx (C : Collections) : Ctx R := ⟨[],.insert,C.texts⟩

/-- The test of a DELETE on these texts, whatever is in the temporary table. -/
def DeleteTest (C : Collections) (pWhere : Expr R) (zs : List Bytes) (b : Bytes → Bool) : Prop :=
  ∀ zJson ∈ zs, ∀ db : Bytes → List Bytes, (∀ z, foldName z ≠ tempName → db z = C.texts z) →
    TestGives (⟨[],.doc (xjd1JsonParse zJson),db⟩ : Ctx R) (some pWhere) (b zJson)

/-- What a statement may do with the collections, the rows it shows, its return code, and whether
it leaves a cursor at a row. SQLite may refuse to create, to drop and to insert. -/
inductive Acts (C : Collections) : Stmt R → List Bytes → StepRc → Bool → Collections → Prop
  | created {b : Bool} {zName : Bytes} (h : C zName = none ∨ b = true) :
      Acts C (.createCollection b zName) [] .done false (C.set zName (some (C.texts zName)))
  | notCreated {b : Bool} {zName : Bytes} (h : C zName = none ∨ b = false) : Acts C (.createCollection b zName) [] .error false C
  | dropped {b : Bool} {zName : Bytes} (h : C zName ≠ none ∨ b = true) :
      Acts C (.dropCollection b zName) [] .done false (C.set zName none)
  | notDropped {b : Bool} {zName : Bytes} (h : C zName ≠ none ∨ b = false) : Acts C (.dropCollection b zName) [] .error false C
  | inserted {zName : Bytes} {e : Expr R} {v : JsonNode R} {zs : List Bytes} (hz : C zName = some zs)
      (hv : Evals (insertCtx C) e v) (hn : v ≠ .nullptr) :
      Acts C (.insertValue zName e) [] .done false (C.set zName (some (zs ++ [xjd1JsonRender v])))
  | notInserted {zName : Bytes} {e : Expr R} {v : JsonNode R} (hv : Evals (insertCtx C) e v) (hn : v ≠ .nullptr) :
      Acts C (.insertValue zName e) [] .error false C
  | insertedNothing {zName : Bytes} {e : Expr R} (hv : Evals (insertCtx C) e .nullptr) :
      Acts C (.insertValue zName e) [] .done false C
  | notImplemented {zName : Bytes} {q : Query R} : Acts C (.insertSelect zName q) [] .done false C
  | selected {q t : Query R} {vs : List (JsonNode R)} (h : Delivers (stream queryStep (topCtx C)) q vs t) :
      Acts C (.select q) (vs.map xjd1JsonRender) .done t.leavesRow C
  | emptied {zName : Bytes} : Acts C (.delete zName none) [] .ok false (C.set zName ((C zName).map fun _ => []))
  | deleted {zName : Bytes} {e : Expr R} {zs : List Bytes} {b : Bytes → Bool} (hz : C zName = some zs)
      (hb : DeleteTest C e zs b) : Acts C (.delete zName (some e)) [] .ok false (C.set zName (some (zs.filter fun z => !b z)))
  | updated {c : UpdateCmd R} {zs zs' : List Bytes} (hz : C c.zName = some zs) (h : UpdatesTo C c zs zs') :
      Acts C (.update c) [] .ok false (C.set c.zName (some zs'))

/-- The expressions of the statement have values, what it writes fits, and what it drops is a
collection by its name. A DELETE with a test needs a connection with nothing open. -/
def Stmt.Defined (reserved : Bytes → Prop) (idle : Prop) (C : Collections) : Stmt R → Prop
  | .createCollection _ _ | .insertSelect _ _ | .delete _ none => True
  | .dropCollection _ zName => ¬ reserved zName
  | .insertValue _ e => ∃ v, Evals (insertCtx C) e v ∧ FitsRow (xjd1JsonRender v)
  | .select q => ∃ vs t, Delivers (stream queryStep (topCtx C)) q vs t
  | .delete zName (some e) => idle ∧ e.Initial ∧ foldName zName ≠ tempName ∧ ∃ zs b, C zName = some zs ∧ DeleteTest C e zs b
  | .update c => c.Initial ∧ ∃ zs, C c.zName = some zs ∧ UpdateDefined C c zs

section Statements
variable [Sqlite σ] [LawfulSqlite σ] {s : σ} {zName : Bytes} {b : Bool}

omit [CDouble R] [LawfulSqlite σ] in
theorem stmtCtx_select (s : σ) : (stmtCtx s .select : Ctx R) = topCtx (collections s) := by
  rw [stmtCtx,topCtx,dbTexts_eq]

omit [CDouble R] [LawfulSqlite σ] in
theorem stmtCtx_insert (s : σ) : (stmtCtx s .insert : Ctx R) = insertCtx (collections s) := by
  rw [stmtCtx,insertCtx,dbTexts_eq]

omit [CDouble R] [LawfulSqlite σ] in
theorem collections_eq_none : collections s zName = none ↔ table s zName = none := Option.map_eq_none_iff

/-- CREATE and DROP act as they should if SQLite takes them, and else do nothing. -/
theorem createTable_acts (s : σ) : (createTable b zName s).1 = none ∧ Acts (R := R) (collections s)
      (.createCollection b zName) [] .done false (collections (createTable b zName s).2) ∨
    (createTable b zName s).1 ≠ none ∧ Acts (R := R) (collections s) (.createCollection b zName) [] .error false
      (collections (createTable b zName s).2) := by
  have hthere := LawfulSqlite.createTable_there b zName s
  by_cases h : (createTable b zName s).1 = none
  · refine .inl ⟨h,?_⟩
    have hC : collections (createTable b zName s).2 =
        (collections s).set zName (some ((collections s).texts zName)) := by
      rw [collections_set (LawfulSqlite.createTable_others b zName s),
        collections_of_table (LawfulSqlite.createTable_ok b zName s h),← dbTexts_eq,dbTexts]
    rw [hC]
    refine .created ?_
    rw [collections_eq_none]
    by_contra hc
    rw [not_or] at hc
    exact hc.2 ((hthere hc.1).mp h)
  · refine .inr ⟨h,?_⟩
    rw [collections_same (LawfulSqlite.createTable_others b zName s) (LawfulSqlite.createTable_error b zName s h)]
    refine .notCreated ?_
    rw [collections_eq_none]
    by_contra hc
    rw [not_or] at hc
    exact h ((hthere hc.1).mpr (by simpa using hc.2))

theorem dropTable_acts (s : σ) (hr : ¬ Sqlite.reserved σ zName) : (dropTable b zName s).1 = none ∧ Acts (R := R) (collections s)
      (.dropCollection b zName) [] .done false (collections (dropTable b zName s).2) ∨
    (dropTable b zName s).1 ≠ none ∧ Acts (R := R) (collections s) (.dropCollection b zName) [] .error false
      (collections (dropTable b zName s).2) := by
  have hmissing := LawfulSqlite.dropTable_missing b zName s hr
  by_cases h : (dropTable b zName s).1 = none
  · refine .inl ⟨h,?_⟩
    have hC : collections (dropTable b zName s).2 = (collections s).set zName none := by
      rw [collections_set (LawfulSqlite.dropTable_others b zName s),collections_eq_none.mpr
        (LawfulSqlite.dropTable_ok b zName s h)]
    rw [hC]
    refine .dropped ?_
    rw [Ne,collections_eq_none]
    by_contra hc
    rw [not_or,not_not] at hc
    exact hc.2 ((hmissing hc.1).mp h)
  · refine .inr ⟨h,?_⟩
    rw [collections_same (LawfulSqlite.dropTable_others b zName s) (LawfulSqlite.dropTable_error b zName s h)]
    refine .notDropped ?_
    rw [Ne,collections_eq_none]
    by_contra hc
    rw [not_or,not_not] at hc
    exact h ((hmissing hc.1).mpr (by simpa using hc.2))

/-- The loop ends, and what the statement did is one of the things it may do. Nothing is open
after it if nothing was before and no cursor is left. -/
def Processed (p : Stmt R) (pConn : Conn σ) : Prop :=
  ∃ zOut rc left pConn', Returns (fun n => processOneStatement (interp n) n p pConn) (zOut,rc,pConn') ∧
    Acts (collections pConn.db) p zOut rc left (collections pConn'.db) ∧
    (mode pConn.db = .idle → left = false → mode pConn'.db = .idle)

section One
variable {p : Stmt R} {pConn : Conn σ}

omit [LawfulSqlite σ] in
theorem Processed.step (p' : Stmt R) (rc : StepRc) (pConn' : Conn σ)
    (hstep : Returns (fun n => xjd1StmtStep (interp n) n p pConn) (rc,none,p',pConn'))
    (hrc : rc ≠ .row) (hleft : p'.leavesRow = false) (ha : Acts (collections pConn.db) p [] rc false (collections pConn'.db))
    (hm : mode pConn.db = .idle → mode pConn'.db = .idle) : Processed p pConn := by
  have hloop : Loops (fun n => processTurn (interp n) n) ([],p,pConn) ([],rc,p',pConn') := by
    refine .exit ?_
    filter_upwards [hstep] with n hn
    cases rc with
    | row => exact absurd rfl hrc
    | _ => simp only [processTurn,hn,ok_bind]
  refine ⟨[],rc,false,pConn',?_,ha,fun h _ => hm h⟩
  filter_upwards [hloop.returns] with n hn
  rw [processOneStatement,hn,ok_bind]
  simp only [stmtDelete,hleft,Bool.false_eq_true,if_false]

omit [LawfulSqlite σ] in
theorem Processed.report (p' : Stmt R) (r : Option Bytes × σ)
    (hstep : Returns (fun n => xjd1StmtStep (interp n) n p pConn) ((reportStep r pConn).1,none,p',(reportStep r pConn).2))
    (hleft : p'.leavesRow = false) (h : r.1 = none ∧ Acts (collections pConn.db) p [] .done false (collections r.2) ∨
      r.1 ≠ none ∧ Acts (collections pConn.db) p [] .error false (collections r.2))
    (hm : mode r.2 = mode pConn.db) : Processed p pConn := by
  obtain ⟨zErr,s⟩ := r
  rcases h with ⟨rfl,ha⟩ | ⟨h,ha⟩
  · exact .step p' _ _ hstep (fun h => by cases h) hleft ha hm.trans
  · cases zErr with
    | none => exact absurd rfl h
    | some zErr => exact .step p' _ _ hstep (fun h => by cases h) hleft ha hm.trans

omit [Sqlite σ] [LawfulSqlite σ] in
theorem Steps.top {ctx : Ctx R} {q : Query R} {r : Rc × Query R} (h : Steps queryStep ctx q r) :
    Returns (fun n => (interp n).xjd1QueryStep ctx q) r := Returns.succ_iff.mp h

omit [LawfulSqlite σ] in
theorem select_loops {q t : Query R} {vs : List (JsonNode R)}
    (h : Delivers (stream queryStep (topCtx (collections pConn.db))) q vs t) (zOut : List Bytes) :
    Loops (fun n => processTurn (interp n) n) (zOut,.select q,pConn)
      (zOut ++ vs.map xjd1JsonRender,.done,.select t,pConn) := by
  have hctx := stmtCtx_select (R := R) pConn.db
  induction h generalizing zOut with
  | done h =>
    refine .exit ?_
    filter_upwards [Steps.top h] with n hn
    simp only [processTurn,xjd1StmtStep,hctx,hn,ok_bind,List.map_nil,List.append_nil]
  | @row _ _ _ v _ h _ ih =>
    obtain ⟨q',hstep,hdoc⟩ := h
    have ih := ih (zOut ++ [xjd1JsonRender v])
    rw [List.append_assoc] at ih
    refine .turn ?_ ih
    filter_upwards [Steps.top hstep,hdoc] with n hn hdoc
    simp only [processTurn,xjd1StmtStep,hctx,hn,hdoc,ok_bind,Option.toList_some]

omit [LawfulSqlite σ] in
/-- A SELECT shows the rows and leaves the collections as they are, whatever cursor stays open. -/
theorem select_returns {q t : Query R} {vs : List (JsonNode R)}
    (h : Delivers (stream queryStep (topCtx (collections pConn.db))) q vs t) :
    Returns (fun n => processOneStatement (interp n) n (.select q) pConn)
      (vs.map xjd1JsonRender,.done,stmtDelete (.select t) pConn) := by
  filter_upwards [(select_loops h []).returns] with n hn
  rw [processOneStatement,hn,ok_bind,List.nil_append]

omit [CDouble R] in
theorem stmtDelete_collections (p : Stmt R) (pConn : Conn σ) :
    collections (stmtDelete p pConn).db = collections pConn.db := by
  funext z
  rw [stmtDelete]
  split
  · rw [collections,collections,LawfulSqlite.leaveRow_table]
  · rfl

theorem insertValue_processed {e : Expr R} {v : JsonNode R} (hv : Evals (insertCtx (collections pConn.db)) e v)
    (hf : FitsRow (xjd1JsonRender v)) : Processed (.insertValue zName e) pConn := by
  obtain ⟨e',he⟩ := id hv
  by_cases hn : v = .nullptr
  · subst hn
    refine .step (.insertValue zName e') .done pConn ?_ (by decide) rfl (.insertedNothing hv) id
    filter_upwards [he] with n hn
    simp only [xjd1StmtStep,stmtCtx_insert,hn,ok_bind]
  · refine .report (.insertValue zName e') (insertInto zName (xjd1JsonRender v) pConn.db) ?_ rfl ?_
      (LawfulSqlite.insertInto_mode zName (xjd1JsonRender v) pConn.db)
    · filter_upwards [he] with n hen
      cases v with
      | nullptr => exact absurd rfl hn
      | _ => simp only [xjd1StmtStep,stmtCtx_insert,hen,ok_bind]
    · obtain ⟨hok,herr⟩ := insertInto_collections zName pConn.db hf
      by_cases h : (insertInto zName (xjd1JsonRender v) pConn.db).1 = none
      · obtain ⟨zs,hz,hC⟩ := hok h
        exact .inl ⟨h,hC ▸ .inserted hz hv hn⟩
      · exact .inr ⟨h,(herr h).symm ▸ .notInserted hv hn⟩

theorem delete_processed {e : Expr R} {zs : List Bytes} {b : Bytes → Bool} (hm : mode pConn.db = .idle) (he : e.Initial)
    (hz : foldName zName ≠ tempName) (hC : collections pConn.db zName = some zs)
    (hb : DeleteTest (collections pConn.db) e zs b) : Processed (.delete zName (some e)) pConn := by
  obtain ⟨l,hl,rfl⟩ := Option.map_eq_some_iff.mp hC
  obtain ⟨s',hret,htab,hothers,hidle⟩ := xjd1DeleteStep_spec hm hz he hl fun r hr db hdb =>
    hb r.2 (List.mem_map_of_mem hr) db (by simpa only [dbTexts_eq] using hdb)
  refine .step (.delete zName (some e)) .ok { pConn with db := s' } ?_ (by decide) rfl ?_ fun _ => hidle
  · filter_upwards [hret] with n hn
    simp only [xjd1StmtStep,hn,ok_bind]
  · have hC' : collections s' = (collections pConn.db).set zName (some ((l.map Prod.snd).filter fun z => !b z)) := by
      rw [collections_set hothers,collections_of_table htab,List.filter_map]
      rfl
    exact hC' ▸ .deleted hC hb

/-- A statement whose expressions have values does what it may do. -/
theorem processOneStatement_spec {idle : Prop} (hi : idle → mode pConn.db = .idle)
    (hd : p.Defined (Sqlite.reserved σ) idle (collections pConn.db)) : Processed p pConn := by
  cases p with
  | createCollection b zName =>
    exact .report (.createCollection b zName) _ (.of_forall fun _ => rfl) rfl (createTable_acts pConn.db)
      (LawfulSqlite.createTable_mode b zName pConn.db)
  | dropCollection b zName =>
    exact .report (.dropCollection b zName) _ (.of_forall fun _ => rfl) rfl (dropTable_acts pConn.db hd)
      (LawfulSqlite.dropTable_mode b zName pConn.db)
  | insertValue zName e =>
    obtain ⟨v,hv,hf⟩ := hd
    exact insertValue_processed hv hf
  | insertSelect zName q =>
    exact .step (.insertSelect zName q) .done (xjd1Error insertSelectError pConn) (.of_forall fun _ => rfl)
      (by decide) rfl .notImplemented id
  | select q =>
    obtain ⟨vs,t,h⟩ := hd
    refine ⟨_,_,t.leavesRow,_,select_returns h,?_,fun hi hleft => ?_⟩
    · rw [stmtDelete_collections]
      exact .selected h
    · rw [stmtDelete,if_neg (by rw [Stmt.leavesRow,hleft]; exact Bool.false_ne_true)]
      exact hi
  | delete zName pWhere =>
    cases pWhere with
    | none =>
      refine .step (.delete zName none) .ok { pConn with db := deleteFrom zName pConn.db } (.of_forall fun _ => rfl)
        (by decide) rfl ?_ (LawfulSqlite.deleteFrom_mode zName pConn.db).trans
      have hC : collections (deleteFrom zName pConn.db) =
          (collections pConn.db).set zName ((collections pConn.db zName).map fun _ => []) := by
        rw [collections_set (LawfulSqlite.deleteFrom_others zName pConn.db),collections,collections,
          LawfulSqlite.deleteFrom_table,Option.map_map,Option.map_map]
        rfl
      exact hC ▸ .emptied
    | some e =>
      obtain ⟨hidle,he,hz,zs,b,hC,hb⟩ := hd
      exact delete_processed (hi hidle) he hz hC hb
  | update c =>
    obtain ⟨hc,zs,hC,hdef⟩ := hd
    obtain ⟨s',zs',hret,hC',hto,hidle⟩ := xjd1UpdateStep_spec hc hC hdef
    refine .step (.update c) .ok { pConn with db := s' } ?_ (by decide) rfl (hC' ▸ .updated hC hto) hidle
    filter_upwards [hret] with n hn
    simp only [xjd1StmtStep,hn,ok_bind]

end One

/-- What a script may do, with the rows and the return code of every statement. -/
inductive ActsAll : Collections → List (Stmt R) → List (List Bytes × StepRc) → Collections → Prop
  | nil (C : Collections) : ActsAll C [] [] C
  | cons {C C' C'' : Collections} {p : Stmt R} {ps : List (Stmt R)} {zOut : List Bytes} {rc : StepRc} {left : Bool}
      {outs : List (List Bytes × StepRc)} (h : Acts C p zOut rc left C') (hs : ActsAll C' ps outs C'') :
      ActsAll C (p::ps) ((zOut,rc)::outs) C''

/-- Every statement is defined when its turn comes. Once a cursor is left at a row, the
connection is no longer idle. -/
def DefinedAll (reserved : Bytes → Prop) : Prop → Collections → List (Stmt R) → Prop
  | _, _, [] => True
  | idle, C, p::ps => p.Defined reserved idle C ∧ ∀ zOut rc left C', Acts C p zOut rc left C' →
      DefinedAll reserved (idle ∧ left = false) C' ps

end Statements

/-- `INSERT INTO c VALUE 7; UPDATE c SET c = 8; DELETE FROM c WHERE c`. -/
def sampleScript : List (Stmt Int) :=
  [.insertValue [ch 'c'] (.jvalue (.real 7)),
    .update ⟨[ch 'c'],none,[(.id [ch 'c'] none 0,.jvalue (.real 8))],none⟩,
    .delete [ch 'c'] (some (.jvalue .true))]

/-- `SET c = 8` on a document, if it is one. -/
def eightFor : JsonNode Int → JsonNode Int
  | .nullptr => .nullptr
  | _ => .real 8

theorem eightFor_changesTo (v : JsonNode Int) (ctx : Ctx Int) :
    ChangesTo ctx [(.id [ch 'c'] none 0,.jvalue (.real 8))] v (eightFor v) := by
  refine ⟨fun x hx => ?_,?_⟩
  · rw [List.mem_singleton.mp hx]
    exact .borrowed (.jvalue _)
  · cases v <;> exact ⟨_,Returns.succ_iff.mp (.of_forall fun _ => rfl)⟩

theorem eightFor_fits (v : JsonNode Int) : FitsRow (xjd1JsonRender (eightFor v)) := by
  have height : FitsRow (xjd1JsonRender (.real 8 : JsonNode Int)) := ⟨by decide,by decide⟩
  cases v with
  | nullptr => exact ⟨by decide,by decide⟩
  | _ => exact height

theorem sampleScript_defined {C : Collections} {zs : List Bytes} (hC : C [ch 'c'] = some zs) :
    DefinedAll (fun _ => False) True C sampleScript := by
  refine ⟨⟨.real 7,⟨_,Returns.succ_iff.mp (.of_forall fun _ => rfl)⟩,by decide,by decide⟩,fun _ _ left1 C1 h1 => ?_⟩
  obtain ⟨⟨zs1,hC1⟩,rfl⟩ : (∃ zs1, C1 [ch 'c'] = some zs1) ∧ left1 = false := by
    cases h1 with
    | inserted _ _ _ => exact ⟨⟨_,if_pos rfl⟩,rfl⟩
    | notInserted _ _ => exact ⟨⟨zs,hC⟩,rfl⟩
    | insertedNothing _ => exact ⟨⟨zs,hC⟩,rfl⟩
  refine ⟨⟨⟨trivial,by simp [Expr.Initial],trivial⟩,zs1,hC1,_,_,.map (f := fun z => eightFor (xjd1JsonParse z))
    (b := fun _ => true) (fun _ _ _ => ⟨_,.of_forall fun _ => rfl⟩) (fun z _ _ _ => eightFor_changesTo _ _)
    (fun z _ _ => eightFor_fits _) [],fun _ _ h => by cases h⟩,fun _ _ left2 C2 h2 => ?_⟩
  obtain ⟨⟨zs2,hC2⟩,rfl⟩ : (∃ zs2, C2 [ch 'c'] = some zs2) ∧ left2 = false := by
    cases h2 with
    | updated _ _ => exact ⟨⟨_,if_pos rfl⟩,rfl⟩
  refine ⟨⟨⟨⟨trivial,rfl⟩,rfl⟩,trivial,by decide,zs2,fun _ => true,hC2,fun z _ db _ => ?_⟩,fun _ _ _ _ _ => trivial⟩
  exact ⟨_,Returns.succ_iff.mp (.of_forall fun _ => rfl)⟩

end Xjd1
