import Mathlib.Logic.Function.Basic
import Xjd1.Json.Text
import Xjd1.Lib.Rows

/-! The SQLite database below a connection. A collection is a table with one column `x`, and a
row of it the text of a document. -/
namespace Xjd1

open KeyedRows

/-- The name of a table, in which the case of letters does not count. -/
def foldName (zName : Bytes) : Bytes := zName.map fun c => if 65 ≤ c ∧ c ≤ 90 then c + 32 else c

def tempName : Bytes := [ch '_',ch 't',ch '1']

/-- A text that SQLite takes as a value and inside a statement. -/
def FitsRow (zJson : Bytes) : Prop := 0 ∉ zJson ∧ zJson.length < 2^28

/-- What is open on a connection: nothing, the transaction of a DELETE or of an UPDATE, or
something that nothing closes. -/
inductive Mode
  | idle | deleting | upserting | stuck
  deriving DecidableEq

/-- What the statements do with a database, in SQL. -/
class Sqlite (σ : Type) where
  /-- `SELECT rowid, x FROM "zName"`, if it can be prepared. -/
  table : σ → Bytes → Option (List (Int × Bytes))
  mode : σ → Mode
  /-- The names that SQLite keeps for tables of its own, such as `sqlite_master`. -/
  reserved : Bytes → Prop
  /-- The rows of the temporary table `_t1`. -/
  noted : σ → List Int
  /-- The table whose name the temporary one has. -/
  shadowed : σ → Option (List (Int × Bytes))
  /-- `CREATE TABLE "zName"(x)`, with the message if it fails. -/
  createTable (ifNotExists : Bool) (zName : Bytes) : σ → Option Bytes × σ
  /-- `DROP TABLE "zName"` -/
  dropTable (ifExists : Bool) (zName : Bytes) : σ → Option Bytes × σ
  /-- `INSERT INTO "zName" VALUES('zJson')` -/
  insertInto (zName zJson : Bytes) : σ → Option Bytes × σ
  /-- `DELETE FROM "zName"` -/
  deleteFrom (zName : Bytes) : σ → σ
  /-- `BEGIN; CREATE TEMP TABLE _t1(x INTEGER PRIMARY KEY)` -/
  beginDelete : σ → σ
  /-- `INSERT INTO _t1(x) VALUES(rowid)` -/
  noteRow (rowid : Int) : σ → σ
  /-- `DELETE FROM "zName" WHERE rowid IN _t1; DROP TABLE _t1; COMMIT` -/
  deleteNoted (zName : Bytes) : σ → σ
  /-- `BEGIN` -/
  beginUpsert : σ → σ
  /-- `COMMIT` -/
  commitUpsert : σ → σ
  /-- `UPDATE "zName" SET x=zJson WHERE rowid=rowid` -/
  replaceRow (zName : Bytes) (rowid : Int) (zJson : Bytes) : σ → σ
  /-- A cursor that is at a row is forgotten. -/
  leaveRow : σ → σ

export Sqlite (table mode noted shadowed createTable dropTable insertInto deleteFrom beginDelete noteRow deleteNoted
  beginUpsert commitUpsert replaceRow leaveRow)

/-- All tables but the one with the name are as they were. -/
def OthersKept {σ : Type} [Sqlite σ] (zName : Bytes) (s s' : σ) : Prop :=
  ∀ z, foldName z ≠ foldName zName → table s' z = table s z

/-- How the SQL acts, on a database that only the engine has written, as long as no file fails.
A transaction cannot begin within another, and no table is dropped while a cursor is at a row. -/
class LawfulSqlite (σ : Type) [Sqlite σ] : Prop where
  table_sorted (s : σ) (z : Bytes) : ∀ l ∈ table s z, Sorted l
  table_fold (s : σ) (z z' : Bytes) : foldName z = foldName z' → table s z = table s z'
  createTable_mode (b : Bool) (z : Bytes) (s : σ) : mode (createTable b z s).2 = mode s
  createTable_others (b : Bool) (z : Bytes) (s : σ) : OthersKept z s (createTable b z s).2
  createTable_ok (b : Bool) (z : Bytes) (s : σ) : (createTable b z s).1 = none →
    table (createTable b z s).2 z = some ((table s z).getD [])
  createTable_error (b : Bool) (z : Bytes) (s : σ) : (createTable b z s).1 ≠ none → table (createTable b z s).2 z = table s z
  createTable_there (b : Bool) (z : Bytes) (s : σ) : table s z ≠ none → ((createTable b z s).1 = none ↔ b = true)
  dropTable_mode (b : Bool) (z : Bytes) (s : σ) : mode (dropTable b z s).2 = mode s
  dropTable_others (b : Bool) (z : Bytes) (s : σ) : OthersKept z s (dropTable b z s).2
  dropTable_ok (b : Bool) (z : Bytes) (s : σ) : (dropTable b z s).1 = none → table (dropTable b z s).2 z = none
  dropTable_error (b : Bool) (z : Bytes) (s : σ) : (dropTable b z s).1 ≠ none → table (dropTable b z s).2 z = table s z
  dropTable_missing (b : Bool) (z : Bytes) (s : σ) : ¬ Sqlite.reserved σ z → table s z = none →
    ((dropTable b z s).1 = none ↔ b = true)
  insertInto_mode (z zJson : Bytes) (s : σ) : mode (insertInto z zJson s).2 = mode s
  insertInto_others (z zJson : Bytes) (s : σ) : OthersKept z s (insertInto z zJson s).2
  insertInto_ok (z zJson : Bytes) (s : σ) : FitsRow zJson → (insertInto z zJson s).1 = none →
    ∃ l k, table s z = some l ∧ (∀ r ∈ l, r.1 < k) ∧ table (insertInto z zJson s).2 z = some (l ++ [(k,zJson)])
  insertInto_error (z zJson : Bytes) (s : σ) : (insertInto z zJson s).1 ≠ none → table (insertInto z zJson s).2 z = table s z
  deleteFrom_mode (z : Bytes) (s : σ) : mode (deleteFrom z s) = mode s
  deleteFrom_others (z : Bytes) (s : σ) : OthersKept z s (deleteFrom z s)
  deleteFrom_table (z : Bytes) (s : σ) : table (deleteFrom z s) z = (table s z).map fun _ => []
  beginDelete_mode (s : σ) : mode s = .idle → mode (beginDelete s) = .deleting
  beginDelete_others (s : σ) : OthersKept tempName s (beginDelete s)
  beginDelete_noted (s : σ) : mode s = .idle → noted (beginDelete s) = []
  beginDelete_shadowed (s : σ) : mode s = .idle → shadowed (beginDelete s) = table s tempName
  noteRow_mode (k : Int) (s : σ) : mode (noteRow k s) = mode s
  noteRow_others (k : Int) (s : σ) : OthersKept tempName s (noteRow k s)
  noteRow_noted (k : Int) (s : σ) : mode s = .deleting → ∀ j, j ∈ noted (noteRow k s) ↔ j = k ∨ j ∈ noted s
  noteRow_shadowed (k : Int) (s : σ) : shadowed (noteRow k s) = shadowed s
  deleteNoted_others (z : Bytes) (s : σ) (z' : Bytes) : foldName z' ≠ foldName z → foldName z' ≠ tempName →
    table (deleteNoted z s) z' = table s z'
  deleteNoted_table (z : Bytes) (s : σ) : mode s = .deleting → foldName z ≠ tempName →
    table (deleteNoted z s) z = (table s z).map (List.filter fun r => decide (r.1 ∉ noted s))
  /-- Where the deletion fails, the temporary table and the transaction stay. -/
  deleteNoted_shadowed (z : Bytes) (s : σ) : mode s = .deleting → foldName z ≠ tempName → table s z ≠ none →
    table (deleteNoted z s) tempName = shadowed s
  deleteNoted_mode (z : Bytes) (s : σ) : mode s = .deleting → foldName z ≠ tempName → table s z ≠ none →
    mode (deleteNoted z s) = .idle
  beginUpsert_mode (s : σ) : mode s = .idle → mode (beginUpsert s) = .upserting
  beginUpsert_table (s : σ) (z : Bytes) : table (beginUpsert s) z = table s z
  commitUpsert_mode (s : σ) : mode s = .upserting → mode (commitUpsert s) = .idle
  commitUpsert_table (s : σ) (z : Bytes) : table (commitUpsert s) z = table s z
  replaceRow_mode (z : Bytes) (k : Int) (zJson : Bytes) (s : σ) : mode (replaceRow z k zJson s) = mode s
  replaceRow_others (z : Bytes) (k : Int) (zJson : Bytes) (s : σ) : OthersKept z s (replaceRow z k zJson s)
  replaceRow_table (z : Bytes) (k : Int) (zJson : Bytes) (s : σ) : FitsRow zJson →
    table (replaceRow z k zJson s) z = (table s z).map (replace k zJson)
  leaveRow_table (s : σ) (z : Bytes) : table (leaveRow s) z = table s z

/-- A database as tables by their folded names, and the rows noted. Where a statement fails, its
message is only the name. -/
structure Tables where
  main : Bytes → Option { l : List (Int × Bytes) // Sorted l }
  noted : List Int
  mode : Mode

namespace Tables

def empty : Tables := ⟨fun _ => none,[],.idle⟩

def set (t : Tables) (z : Bytes) (o : Option { l : List (Int × Bytes) // Sorted l }) : Tables :=
  { t with main := Function.update t.main (foldName z) o }

def newRowid (l : List (Int × Bytes)) : Int := (lastKey l).elim 1 (· + 1)

theorem lt_newRowid {l : List (Int × Bytes)} (hl : Sorted l) : ∀ r ∈ l, r.1 < newRowid l := by
  intro r hr
  induction l using List.reverseRecOn with
  | nil => cases hr
  | append_singleton l s _ =>
    rw [newRowid,lastKey_concat,Option.elim]
    rcases List.mem_append.mp hr with hr | hr
    · exact ((List.pairwise_append.mp hl).2.2 r hr s List.mem_cons_self).trans (Int.lt_succ s.1)
    · rw [List.mem_singleton.mp hr]
      exact Int.lt_succ s.1

instance : Sqlite Tables where
  table t z := (t.main (foldName z)).map Subtype.val
  mode t := t.mode
  reserved _ := False
  noted t := t.noted
  shadowed t := (t.main tempName).map Subtype.val
  createTable b z t := match t.main (foldName z) with
    | some _ => (if b then none else some z,t)
    | none => (none,t.set z (some ⟨[],List.Pairwise.nil⟩))
  dropTable b z t := match t.main (foldName z) with
    | some _ => (none,t.set z none)
    | none => (if b then none else some z,t)
  insertInto z zJson t := match t.main (foldName z) with
    | some l => (none,t.set z (some ⟨_,l.2.concat (lt_newRowid l.2) zJson⟩))
    | none => (some z,t)
  deleteFrom z t := t.set z ((t.main (foldName z)).map fun _ => ⟨[],List.Pairwise.nil⟩)
  beginDelete t := if t.mode = .idle then { t with noted := [], mode := .deleting } else t
  noteRow k t := { t with noted := k :: t.noted }
  deleteNoted z t := { t.set z ((t.main (foldName z)).map fun l => ⟨_,l.2.filter fun r => decide (r.1 ∉ t.noted)⟩) with
    noted := [], mode := if t.mode = .deleting then .idle else t.mode }
  beginUpsert t := if t.mode = .idle then { t with mode := .upserting } else t
  commitUpsert t := if t.mode = .upserting then { t with mode := .idle } else t
  replaceRow z k zJson t := t.set z ((t.main (foldName z)).map fun l => ⟨_,l.2.replace k zJson⟩)
  leaveRow t := { t with mode := .stuck }

section Laws
variable {t : Tables} {z z' : Bytes} {o : Option { l : List (Int × Bytes) // Sorted l }}

theorem table_eq (t : Tables) (z : Bytes) : table t z = (t.main (foldName z)).map Subtype.val := rfl

theorem table_set : table (t.set z o) z = o.map Subtype.val :=
  congrArg (Option.map Subtype.val) (Function.update_self _ _ _)

theorem set_others (h : foldName z' ≠ foldName z) : table (t.set z o) z' = table t z' :=
  congrArg (Option.map Subtype.val) (Function.update_of_ne h _ _)

end Laws

instance : LawfulSqlite Tables where
  table_sorted t z l hl := by
    obtain ⟨m,_,rfl⟩ := Option.map_eq_some_iff.mp hl
    exact m.2
  table_fold t z z' h := by rw [table_eq,table_eq,h]
  createTable_mode b z t := by
    simp only [createTable]
    split <;> rfl
  createTable_others b z t z' h := by
    simp only [createTable]
    split
    · rfl
    · exact set_others h
  createTable_ok b z t := by
    simp only [createTable]
    split
    · rename_i l hl
      intro _
      simp [table_eq,hl]
    · rename_i hl
      intro _
      rw [table_set,table_eq,hl]
      rfl
  createTable_error b z t := by
    simp only [createTable]
    split
    · exact fun _ => rfl
    · exact fun h => absurd rfl h
  createTable_there b z t h := by
    simp only [createTable]
    split
    · cases b <;> simp
    · rename_i hl
      simp [table_eq,hl] at h
  dropTable_mode b z t := by
    simp only [dropTable]
    split <;> rfl
  dropTable_others b z t z' h := by
    simp only [dropTable]
    split
    · exact set_others h
    · rfl
  dropTable_ok b z t := by
    simp only [dropTable]
    split
    · exact fun _ => table_set
    · rename_i hl
      intro _
      simp [table_eq,hl]
  dropTable_error b z t := by
    simp only [dropTable]
    split
    · exact fun h => absurd rfl h
    · exact fun _ => rfl
  dropTable_missing b z t _ h := by
    simp only [dropTable]
    split
    · rename_i hl
      simp [table_eq,hl] at h
    · cases b <;> simp
  insertInto_mode z zJson t := by
    simp only [insertInto]
    split <;> rfl
  insertInto_others z zJson t z' h := by
    simp only [insertInto]
    split
    · exact set_others h
    · rfl
  insertInto_ok z zJson t _ := by
    simp only [insertInto]
    split
    · rename_i l hl
      exact fun _ => ⟨l.1,newRowid l.1,by simp [table_eq,hl],lt_newRowid l.2,table_set⟩
    · exact fun h => by cases h
  insertInto_error z zJson t := by
    simp only [insertInto]
    split
    · exact fun h => absurd rfl h
    · exact fun _ => rfl
  deleteFrom_mode z t := rfl
  deleteFrom_others z t z' h := set_others h
  deleteFrom_table z t := by
    refine table_set.trans ?_
    rw [table_eq,Option.map_map,Option.map_map]
    rfl
  beginDelete_mode t h := congrArg Tables.mode (if_pos h)
  beginDelete_others t z' h := by
    simp only [beginDelete]
    split <;> rfl
  beginDelete_noted t h := congrArg Tables.noted (if_pos h)
  beginDelete_shadowed t h := by
    simp only [beginDelete]
    split <;> rfl
  noteRow_mode k t := rfl
  noteRow_others k t z' h := rfl
  noteRow_noted k t _ j := List.mem_cons
  noteRow_shadowed k t := rfl
  deleteNoted_others z t z' h _ := set_others h
  deleteNoted_table z t _ _ := by
    refine table_set.trans ?_
    rw [table_eq,Option.map_map,Option.map_map]
    rfl
  deleteNoted_shadowed z t _ h _ := set_others (show foldName tempName ≠ foldName z from Ne.symm h)
  deleteNoted_mode z t h _ _ := if_pos h
  beginUpsert_mode t h := congrArg Tables.mode (if_pos h)
  beginUpsert_table t z := by
    simp only [beginUpsert]
    split <;> rfl
  commitUpsert_mode t h := congrArg Tables.mode (if_pos h)
  commitUpsert_table t z := by
    simp only [commitUpsert]
    split <;> rfl
  replaceRow_mode z k zJson t := rfl
  replaceRow_others z k zJson t z' h := set_others h
  replaceRow_table z k zJson t _ := by
    refine table_set.trans ?_
    rw [table_eq,Option.map_map,Option.map_map]
    rfl
  leaveRow_table t z := rfl

end Tables
end Xjd1
