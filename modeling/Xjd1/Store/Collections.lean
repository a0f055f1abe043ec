import Xjd1.Store.Step

/-! A database as its collections. The rowids do not count here. -/
namespace Xjd1

open KeyedRows

variable {σ : Type}

/-- The collections of a database, each as its texts from the first row to the last. -/
abbrev Collections := Bytes → Option (List Bytes)

def collections [Sqlite σ] (s : σ) : Collections := fun z => (table s z).map (List.map Prod.snd)

def Collections.texts (C : Collections) (z : Bytes) : List Bytes := (C z).getD []

def Collections.set (C : Collections) (zName : Bytes) (o : Option (List Bytes)) : Collections :=
  fun z => if foldName z = foldName zName then o else C z

section Collections
variable [Sqlite σ] {s s' : σ} {zName zJson : Bytes} {l : List (Int × Bytes)}

theorem dbTexts_eq (s : σ) : dbTexts s = (collections s).texts := by
  funext z
  rw [dbTexts,Collections.texts,collections]
  cases table s z <;> rfl

theorem collections_of_table (h : table s zName = some l) : collections s zName = some (l.map Prod.snd) := by
  rw [collections,h]
  rfl

section Lawful
variable [LawfulSqlite σ]

theorem collections_fold (s : σ) {z z' : Bytes} (h : foldName z = foldName z') : collections s z = collections s z' :=
  congrArg (Option.map (List.map Prod.snd)) (LawfulSqlite.table_fold s z z' h)

theorem collections_set (ho : OthersKept zName s s') : collections s' = (collections s).set zName (collections s' zName) := by
  funext z
  by_cases hz : foldName z = foldName zName
  · rw [Collections.set,if_pos hz,collections_fold s' hz]
  · rw [Collections.set,if_neg hz,collections,collections,ho z hz]

theorem set_self (s : σ) (zName : Bytes) : (collections s).set zName (collections s zName) = collections s :=
  (collections_set fun _ _ => rfl).symm

theorem collections_same (ho : OthersKept zName s s') (ht : table s' zName = table s zName) :
    collections s' = collections s := by
  rw [collections_set ho,collections,ht]
  exact set_self s zName

theorem insertInto_collections (zName : Bytes) (s : σ) (hf : FitsRow zJson) :
    ((insertInto zName zJson s).1 = none → ∃ zs, collections s zName = some zs ∧
      collections (insertInto zName zJson s).2 = (collections s).set zName (some (zs ++ [zJson]))) ∧
    ((insertInto zName zJson s).1 ≠ none → collections (insertInto zName zJson s).2 = collections s) := by
  constructor
  · intro h
    obtain ⟨l,k,hl,_,htab⟩ := LawfulSqlite.insertInto_ok zName zJson s hf h
    refine ⟨l.map Prod.snd,collections_of_table hl,?_⟩
    rw [collections_set (LawfulSqlite.insertInto_others zName zJson s),collections_of_table htab,List.map_append]
    rfl
  · intro h
    exact collections_same (LawfulSqlite.insertInto_others zName zJson s) (LawfulSqlite.insertInto_error zName zJson s h)

end Lawful

end Collections

end Xjd1
