import Xjd1.Stmt.Cut

/-! The keywords. `keywordCode` looks a word up by its hash in tables that the generator
`mkkeywordhash.c` has made from a plain list of the words. -/
namespace Xjd1

def aKeywordTable : List (String × Tk) := [
  ("ALL",.all),("ASCENDING",.ascending),("ASC",.ascending),("AS",.asTk),("ASYNCHRONOUS",.async),("ASYNC",.async),
  ("BEGIN",.begin),("BY",.byTk),("COLLATE",.collate),("COLLECTION",.collection),("COMMIT",.commit),
  ("CREATE",.create),("DISTINCT",.distinct),("DELETE",.delete),("DESCENDING",.descending),("DESC",.descending),
  ("DROP",.drop),("EACH",.flattenop),("ELSE",.elseTk),("EXCEPT",.except),("EXISTS",.existsTk),("false",.false),
  ("FLATTEN",.flattenop),("FROM",.fromTk),("GLOB",.likeop),("GROUP",.group),("HAVING",.having),("IF",.ifTk),
  ("INSERT",.insert),("INTERSECT",.intersect),("in",.inTk),("INTO",.into),("LIKE",.likeop),("LIMIT",.limit),
  ("NOT",.notTk),("NULL",.null),("null",.null),("OFFSET",.offset),("ORDER",.order),("PRAGMA",.pragma),
  ("ROLLBACK",.rollback),("SELECT",.select),("SET",.setTk),("SYNC",.sync),("SYNCHRONOUS",.sync),("true",.true),
  ("UNION",.union),("UPDATE",.update),("VALUE",.value),("WHERE",.whereTk),("WITHIN",.within)]

def spelling (w : String) : Bytes := w.toList.map ch

/-- The code that the list has for a word, or `TK_ID`. -/
def keywordSearch (z : Bytes) : Tk :=
  match aKeywordTable.find? fun p => spelling p.1 = z with
  | some p => p.2
  | none => .id

theorem keywordSearch_unlisted {z : Bytes} (h : ∀ p ∈ aKeywordTable, spelling p.1 ≠ z) : keywordSearch z = .id := by
  rw [keywordSearch,List.find?_eq_none.mpr fun p hp => by simp [h p hp]]

def entryText (i : ℕ) : Bytes := (zText.drop ((aOffset[i]?).getD 0)).take ((aLen[i]?).getD 0)

theorem entryText_listed : ∀ i < 51, ∃ p ∈ aKeywordTable, spelling p.1 = entryText i := by
  decide +kernel

/-- Every word of the list is found. -/
theorem keywordCode_listed : ∀ p ∈ aKeywordTable, keywordCode (spelling p.1) = some (keywordSearch (spelling p.1)) := by
  decide +kernel

/-- A walk that meets no entry with the word gives `TK_ID`, if it gives anything. -/
theorem keywordWalk_unlisted {z : Bytes} (h : ∀ i < 51, entryText i ≠ z) {m k : ℕ} {tk : Tk} (hk : k ≤ 51)
    (hw : keywordWalk z m k = some tk) : tk = .id := by
  induction m generalizing k with
  | zero =>
    cases k with
    | zero => exact (Option.some.inj hw).symm
    | succ i => cases hw
  | succ m ih =>
    cases k with
    | zero => exact (Option.some.inj hw).symm
    | succ i =>
      have hnext : ∀ i < 51, (aNext[i]?).getD 0 ≤ i := by decide
      have hlen : i < aLen.length := hk
      have hoff : i < aOffset.length := hk
      have hi : i < aNext.length := hk
      have hle := hnext i hk
      have htext := h i hk
      rw [entryText,List.getElem?_eq_getElem hlen,List.getElem?_eq_getElem hoff] at htext
      rw [List.getElem?_eq_getElem hi,Option.getD_some] at hle
      simp only [keywordWalk,List.getElem?_eq_getElem hlen,List.getElem?_eq_getElem hoff,
        List.getElem?_eq_getElem hi,Option.bind_eq_bind,Option.bind_some] at hw
      rw [if_neg fun hz => htext (by rw [← hz.1] at *; exact hz.2)] at hw
      exact ih (by omega) hw

/-- A lookup with a result gives the code of the list. -/
theorem keywordCode_eq_search {z : Bytes} {tk : Tk} (h : keywordCode z = some tk) : tk = keywordSearch z := by
  by_cases hz : ∃ p ∈ aKeywordTable, spelling p.1 = z
  · obtain ⟨p,hp,rfl⟩ := hz
    rw [keywordCode_listed p hp] at h
    exact (Option.some.inj h).symm
  · push Not at hz
    rw [keywordSearch_unlisted hz]
    have htext : ∀ i < 51, entryText i ≠ z := by
      intro i hi
      obtain ⟨p,hp,ht⟩ := entryText_listed i hi
      exact ht ▸ hz p hp
    rw [keywordCode] at h
    split at h
    · exact (Option.some.inj h).symm
    split at h
    · cases h
    obtain ⟨k,hk,hw⟩ := Option.bind_eq_some_iff.mp h
    have hmem : ∀ x ∈ aHash, x ≤ 51 := by decide
    exact keywordWalk_unlisted htext (hmem k (List.mem_of_getElem? hk)) hw

def Negative (c : UInt8) : Prop := 128 ≤ c

instance (c : UInt8) : Decidable (Negative c) := inferInstanceAs (Decidable (128 ≤ c))

/-- What the hash is the remainder of. -/
def keywordBits (z : Bytes) : BitVec 32 :=
  BitVec.ofInt 32 (signedChar (z.headD 0) * 4) ^^^ BitVec.ofInt 32 (signedChar (z.getLastD 0) * 3) ^^^
    BitVec.ofNat 32 z.length

theorem signedChar_bounds (c : UInt8) : -128 ≤ signedChar c ∧ signedChar c < 128 := by
  have hc := c.toNat_lt
  rw [signedChar]
  split
  · rename_i h
    have h : c.toNat < 128 := UInt8.lt_iff_toNat_lt.mp h
    omega
  · rename_i h
    have h : ¬ c.toNat < 128 := fun h' => h (UInt8.lt_iff_toNat_lt.mpr h')
    omega

theorem signedChar_neg (c : UInt8) : signedChar c < 0 ↔ Negative c := by
  have hc := c.toNat_lt
  rw [signedChar,Negative,← UInt8.not_lt]
  split
  · rename_i h
    exact iff_of_false (by omega) fun h' => h' h
  · rename_i h
    exact iff_of_true (by omega) h

theorem msb_signedChar (c : UInt8) {k : Int} (hk : k = 3 ∨ k = 4) :
    (BitVec.ofInt 32 (signedChar c * k)).msb = decide (Negative c) := by
  obtain ⟨h1,h2⟩ := signedChar_bounds c
  rw [BitVec.msb_eq_toInt,BitVec.toInt_ofInt,decide_eq_decide,← signedChar_neg]
  rcases hk with rfl | rfl
  · rw [Int.bmod_eq_of_le (by omega) (by omega)]
    omega
  · rw [Int.bmod_eq_of_le (by omega) (by omega)]
    omega

theorem msb_keywordBits (z : Bytes) : (keywordBits z).msb =
    ((decide (Negative (z.headD 0)) ^^ decide (Negative (z.getLastD 0))) ^^ z.length.testBit 31) := by
  rw [keywordBits,BitVec.msb_xor,BitVec.msb_xor,msb_signedChar _ (Or.inr rfl),msb_signedChar _ (Or.inl rfl),
    BitVec.msb_eq_getLsbD_last,BitVec.getLsbD_ofNat]
  rfl

theorem keywordHash_nonneg (z : Bytes) :
    0 ≤ keywordHash z ↔ (keywordBits z).msb = false ∨ 97 ∣ (keywordBits z).toInt := by
  rw [keywordHash,← keywordBits]
  cases h : (keywordBits z).msb with
  | false => exact iff_of_true (Int.tmod_nonneg _ (BitVec.toInt_nonneg_of_msb_false h)) (Or.inl rfl)
  | true =>
    have hneg := BitVec.toInt_neg_of_msb_true h
    generalize (keywordBits z).toInt = i at hneg ⊢
    obtain ⟨j,rfl⟩ : ∃ j, i = -j := ⟨-i,by omega⟩
    have hj : 0 < j := by omega
    rw [Int.neg_tmod,Int.dvd_neg,Int.tmod_eq_emod_of_nonneg hj.le,or_iff_right (by decide)]
    omega

/-- The table of hashes has an index for the word: the signs of its first and its last byte
agree, or those bytes and the length have 0 as their hash. -/
def Indexed (z : Bytes) : Prop :=
  z.length < 2 ∨ ((Negative (z.headD 0) ↔ Negative (z.getLastD 0)) ↔ z.length.testBit 31 = false) ∨
    97 ∣ (BitVec.ofInt 32 (signedChar (z.headD 0) * 4) ^^^ BitVec.ofInt 32 (signedChar (z.getLastD 0) * 3) ^^^
      BitVec.ofNat 32 z.length).toInt

/-- The hashed lookup agrees with a search of the list for every word that has an index, and for no others. -/
theorem keywordCode_search_iff (z : Bytes) : keywordCode z = some (keywordSearch z) ↔ Indexed z := by
  have hsome : keywordCode z = some (keywordSearch z) ↔ (keywordCode z).isSome := by
    rw [Option.isSome_iff_exists]
    exact ⟨fun h => ⟨_,h⟩,fun ⟨tk,h⟩ => by rw [h,keywordCode_eq_search h]⟩
  rw [hsome,keywordCode_isSome,keywordHash_nonneg,msb_keywordBits,Indexed,← keywordBits]
  refine or_congr Iff.rfl (or_congr ?_ Iff.rfl)
  by_cases h1 : Negative (z.headD 0) <;> by_cases h2 : Negative (z.getLastD 0) <;>
    simp only [h1,h2,decide_true,decide_false] <;> cases z.length.testBit 31 <;> decide

/-- The identifier `éa`, in UTF-8. -/
theorem keywordCode_search_acute :
    xjd1GetToken [0xc3,0xa9,ch 'a'] = none ∧ keywordCode [0xc3,0xa9,ch 'a'] ≠ some (keywordSearch [0xc3,0xa9,ch 'a']) := by
  decide +kernel

end Xjd1
