import Mathlib.Data.List.TakeWhile
import Xjd1.Json.RoundTrip

/-! JSON values as they are written: the texts of their tokens, and the texts with white space between
the tokens. The tokenizer takes every token of such a text as it stands. -/
namespace Xjd1

def DigitRun (ds : Bytes) : Prop := ds ≠ [] ∧ ∀ c ∈ ds, xjd1Isdigit c

inductive IntPart : Bytes → Prop
  | zero : IntPart [ch '0']
  | digits {ds : Bytes} (h : DigitRun ds) (h0 : ds.head? ≠ some (ch '0')) : IntPart ds

inductive FractionPart : Bytes → Prop
  | none : FractionPart []
  | digits {ds : Bytes} (h : DigitRun ds) : FractionPart (ch '.'::ds)

inductive ExponentPart : Bytes → Prop
  | none : ExponentPart []
  | plain {c : UInt8} {ds : Bytes} (hc : c = ch 'e' ∨ c = ch 'E') (h : DigitRun ds) : ExponentPart (c::ds)
  | signed {c d : UInt8} {ds : Bytes} (hc : c = ch 'e' ∨ c = ch 'E') (hd : d = ch '-' ∨ d = ch '+')
    (h : DigitRun ds) : ExponentPart (c::d::ds)

inductive JsonNumber : Bytes → Prop
  | plain {i f e : Bytes} (hi : IntPart i) (hf : FractionPart f) (he : ExponentPart e) : JsonNumber (i ++ (f ++ e))
  | minus {i f e : Bytes} (hi : IntPart i) (hf : FractionPart f) (he : ExponentPart e) :
    JsonNumber (ch '-'::(i ++ (f ++ e)))

inductive StringBody : Bytes → Prop
  | nil : StringBody []
  | byte {c : UInt8} {t : Bytes} (h0 : c ≠ 0) (hq : c ≠ ch '"') (hb : c ≠ ch '\\') (h : StringBody t) :
    StringBody (c::t)
  | escape {c : UInt8} {t : Bytes} (h0 : c ≠ 0) (h : StringBody t) : StringBody (ch '\\'::c::t)

def JsonString (t : Bytes) : Prop := ∃ body, StringBody body ∧ t = ch '"'::(body ++ [ch '"'])

def JsonTok.mark : JsonTok → Option UInt8
  | .beginArray => some (ch '[')
  | .endArray => some (ch ']')
  | .beginStruct => some (ch '\x7b')
  | .endStruct => some (ch '\x7d')
  | .comma => some (ch ',')
  | .colon => some (ch ':')
  | _ => none

inductive TokenText : JsonTok × Bytes → Prop
  | true : TokenText (.true,zTrue)
  | false : TokenText (.false,zFalse)
  | null : TokenText (.null,zNull)
  | number {t : Bytes} (h : JsonNumber t) : TokenText (.real,t)
  | string {t : Bytes} (h : JsonString t) : TokenText (.string,t)
  | mark {ty : JsonTok} {c : UInt8} (h : ty.mark = some c) : TokenText (ty,[c])

def JsonTok.isWord (ty : JsonTok) : Bool := ty = .true || ty = .false || ty = .null || ty = .real

def isBreak (c : UInt8) : Bool := !(xjd1Isident c || c == ch '.' || c == ch '-' || c == ch '+')

def Breaks (s : Bytes) : Prop := ∀ c ∈ s.head?, isBreak c

theorem Breaks.not {p : UInt8 → Bool} (hp : ∀ c, p c = true → isBreak c = false) {s : Bytes} (h : Breaks s) :
    s.head?.any p = false := by
  cases s with
  | nil => rfl
  | cons c t =>
    have hc : isBreak c = true := h c rfl
    cases hpc : p c with
    | false => simpa using hpc
    | true =>
      rw [hp c hpc] at hc
      cases hc

theorem isBreak_of_ident {c : UInt8} (h : xjd1Isident c = true) : isBreak c = false := by
  rw [isBreak,h]
  rfl

theorem ident_of_digit {c : UInt8} (h : xjd1Isdigit c = true) : xjd1Isident c = true := by
  rw [xjd1Isident,h]
  simp

theorem Breaks.not_ident {s : Bytes} (h : Breaks s) : s.head?.any xjd1Isident = false :=
  h.not fun _ => isBreak_of_ident

theorem Breaks.not_digit {s : Bytes} (h : Breaks s) : s.head?.any xjd1Isdigit = false :=
  h.not fun _ hc => isBreak_of_ident (ident_of_digit hc)

theorem digits_run {ds s : Bytes} (h : DigitRun ds) (hs : s.head?.any xjd1Isdigit = false) :
    digits (ds ++ s) = ds.length := by
  rw [digits,takeWhile_append_of_head ds s hs,List.takeWhile_eq_self_iff.mpr h.2]

theorem DigitRun.head {ds : Bytes} (h : DigitRun ds) : ∃ c t, ds = c::t ∧ xjd1Isdigit c = true := by
  obtain ⟨c,t,rfl⟩ := List.exists_cons_of_ne_nil h.1
  exact ⟨c,t,rfl,h.2 c List.mem_cons_self⟩

theorem ExponentPart.head {e s : Bytes} (h : ExponentPart e) (hs : Breaks s) :
    (e ++ s).head?.any xjd1Isdigit = false ∧ (e ++ s).head? ≠ some (ch '.') := by
  have hcase (c : UInt8) (t : Bytes) (hc : c = ch 'e' ∨ c = ch 'E') :
      (c::t).head?.any xjd1Isdigit = false ∧ (c::t).head? ≠ some (ch '.') := by
    rcases hc with rfl | rfl
    · exact ⟨rfl,fun h => absurd (Option.some.inj h) (by decide)⟩
    · exact ⟨rfl,fun h => absurd (Option.some.inj h) (by decide)⟩
  cases h with
  | none => exact ⟨hs.not_digit,fun h => absurd (hs _ h) (by decide)⟩
  | plain hc _ => exact hcase _ _ hc
  | signed hc _ _ => exact hcase _ _ hc

theorem ExponentPart.scan {e s : Bytes} (h : ExponentPart e) (hs : Breaks s) : scanExponent (e ++ s) = e.length := by
  have hletter (c : UInt8) (hc : c = ch 'e' ∨ c = ch 'E') : (c == ch 'e' || c == ch 'E') = true := by
    rcases hc with rfl | rfl <;> rfl
  cases h with
  | none =>
    have he : isExp s = false := by
      match s, hs with
      | [], _ => rfl
      | [c], _ => rfl
      | c::d::t, hs =>
        have hc : isBreak c = true := hs c rfl
        have hn : (c == ch 'e' || c == ch 'E') = false := by
          rw [Bool.or_eq_false_iff,beq_eq_false_iff_ne,beq_eq_false_iff_ne]
          exact ⟨fun h => by rw [h] at hc; exact absurd hc (by decide),
            fun h => by rw [h] at hc; exact absurd hc (by decide)⟩
        rw [isExp,hn,Bool.false_and]
    rw [List.nil_append,scanExponent,he]
    rfl
  | @plain c ds hc h =>
    obtain ⟨d,t,rfl,hd⟩ := h.head
    have he : isExp (c::d::t ++ s) = true := by
      rw [List.cons_append,List.cons_append,isExp,hletter c hc,hd]
      rfl
    have hall : ∀ x ∈ t, xjd1Isdigit x := fun x hx => h.2 x (List.mem_cons_of_mem _ hx)
    have hrun : digits (t ++ s) = t.length := by
      rw [digits,takeWhile_append_of_head t s hs.not_digit,List.takeWhile_eq_self_iff.mpr hall]
    rw [scanExponent,he,if_pos rfl]
    show 2 + digits (t ++ s) = t.length + 1 + 1
    rw [hrun]
    omega
  | @signed c d ds hc hd h =>
    have hsign : (d == ch '-' || d == ch '+') = true := by
      rcases hd with rfl | rfl <;> rfl
    obtain ⟨x,t,hx,hxd⟩ := h.head
    have he : isExp (c::d::ds ++ s) = true := by
      rw [List.cons_append,List.cons_append,isExp,hletter c hc,hsign,hx]
      simp [hxd]
    rw [scanExponent,he,if_pos rfl]
    show 2 + digits (ds ++ s) = ds.length + 1 + 1
    rw [digits_run h hs.not_digit]
    omega

theorem scanFraction_zero {s : Bytes} (h : s.head? ≠ some (ch '.')) : scanFraction s = 0 := by
  match s, h with
  | [], _ => rfl
  | [c], _ => rfl
  | c::d::t, h => exact if_neg fun hc => h (congrArg some hc.1)

theorem scanUnsigned_number {i f e s : Bytes} (hi : IntPart i) (hf : FractionPart f) (he : ExponentPart e)
    (hs : Breaks s) : scanUnsigned (i ++ (f ++ e) ++ s) = (i ++ (f ++ e)).length := by
  obtain ⟨hed,hep⟩ := he.head hs
  have hfrac : scanFraction (f ++ (e ++ s)) = f.length ∧ (f ++ (e ++ s)).head?.any xjd1Isdigit = false := by
    cases hf with
    | none => exact ⟨scanFraction_zero hep,hed⟩
    | @digits ds h =>
      obtain ⟨d,t,hd,hdd⟩ := h.head
      refine ⟨?_,rfl⟩
      have hrun := digits_run h hed
      rw [hd] at hrun ⊢
      rw [List.cons_append] at hrun ⊢
      rw [List.cons_append,scanFraction,if_pos ⟨rfl,hdd⟩,hrun,Nat.add_comm]
      rfl
  have hint : (if (i ++ (f ++ (e ++ s))).head? = some (ch '0') then 1 else digits (i ++ (f ++ (e ++ s)))) =
      i.length := by
    cases hi with
    | zero => exact if_pos rfl
    | digits h h0 =>
      obtain ⟨d,t,rfl,_⟩ := h.head
      rw [if_neg (fun h => h0 (by simpa using h)),digits_run h hfrac.2]
  rw [List.append_assoc,List.append_assoc]
  simp only [scanUnsigned]
  rw [hint,List.drop_left,hfrac.1,← List.drop_drop,List.drop_left,List.drop_left,he.scan hs,List.length_append,
    List.length_append,Nat.add_assoc]

theorem IntPart.head {i : Bytes} (h : IntPart i) : ∃ c t, i = c::t ∧ xjd1Isdigit c = true := by
  cases h with
  | zero => exact ⟨_,_,rfl,rfl⟩
  | digits h _ => exact h.head

theorem lexToken_number {t s : Bytes} (h : JsonNumber t) (hs : Breaks s) : lexToken (t ++ s) = (.real,t.length) := by
  cases h with
  | plain hi hf he =>
    obtain ⟨c,t,rfl,hc⟩ := hi.head
    have hu := scanUnsigned_number hi hf he hs
    rw [List.cons_append,List.cons_append] at hu ⊢
    rw [lexToken_digit c _ hc,hu]
  | @minus i f e hi hf he =>
    have hu := scanUnsigned_number hi hf he hs
    have hd : (i ++ (f ++ e) ++ s).head?.any xjd1Isdigit = true := by
      obtain ⟨c,t,rfl,hc⟩ := hi.head
      simpa using hc
    rw [List.cons_append,lexToken_minus _ hd,hu,List.length_cons,Nat.add_comm]

theorem StringBody.scan {body : Bytes} (h : StringBody body) (s : Bytes) :
    scanString (body ++ ch '"'::s) = (body.length,true) := by
  induction h with
  | nil => rw [List.nil_append,scanString.eq_def]; rfl
  | @byte c t h0 hq hb _ ih =>
    rw [List.cons_append,scanString.eq_def]
    simp only [if_neg h0,if_neg hq,if_neg hb,ih]
    rfl
  | @escape c t h0 _ ih =>
    rw [List.cons_append,List.cons_append,scanString.eq_def]
    simp only [ih]
    rfl

theorem StringBody.scan_take {body : Bytes} (h : StringBody body) {j : ℕ} (hj : j ≤ body.length) :
    scanString (body.take j) = (j,false) := by
  induction h generalizing j with
  | nil =>
    obtain rfl : j = 0 := Nat.le_zero.mp hj
    rw [List.take_nil,scanString.eq_def]
  | @byte c t h0 hq hb _ ih =>
    cases j with
    | zero => rw [List.take_zero,scanString.eq_def]
    | succ j =>
      rw [List.take_succ_cons,scanString.eq_def]
      simp only [if_neg h0,if_neg hq,if_neg hb,ih (Nat.le_of_succ_le_succ hj)]
  | @escape c t h0 _ ih =>
    match j, hj with
    | 0, _ => rw [List.take_zero,scanString.eq_def]
    | 1, _ =>
      rw [List.take_succ_cons,List.take_zero,scanString.eq_def]
      rfl
    | j+2, hj =>
      rw [List.take_succ_cons,List.take_succ_cons,scanString.eq_def]
      simp only [ih (Nat.le_of_succ_le_succ (Nat.le_of_succ_le_succ hj))]
      rfl

/-- The tokenizer takes the token as it stands; a word has to be followed by a break. -/
theorem TokenText.lex {ty : JsonTok} {t s : Bytes} (h : TokenText (ty,t)) (hs : ty.isWord → Breaks s) :
    lexToken (t ++ s) = (ty,t.length) := by
  cases h with
  | true => exact lexToken_true (hs rfl).not_ident
  | false => exact lexToken_false (hs rfl).not_ident
  | null => exact lexToken_null (hs rfl).not_ident
  | number h => exact lexToken_number h (hs rfl)
  | string h =>
    obtain ⟨body,hb,rfl⟩ := h
    have hscan := hb.scan s
    rw [List.cons_append,List.append_assoc,List.singleton_append]
    simp only [lexToken,hscan,List.length_cons,List.length_append,List.length_nil]
    rfl
  | @mark _ c h =>
    cases ty <;> simp only [JsonTok.mark,Option.some.injEq,reduceCtorEq] at h <;> subst h <;> rfl

def Solid (c : UInt8) : Prop := xjd1Isspace c = Bool.false ∧ c ≠ ch '"'

instance (c : UInt8) : Decidable (Solid c) := inferInstanceAs (Decidable (_ ∧ _))

theorem forall_of_all {p : UInt8 → Prop} [DecidablePred p] {l : Bytes} (h : l.all fun c => decide (p c)) : ∀ c ∈ l, p c :=
  fun c hc => of_decide_eq_true (List.all_eq_true.mp h c hc)

theorem solid_of_digit {c : UInt8} (h : xjd1Isdigit c) : Solid c := by
  have hc : 48 ≤ c.toNat ∧ c.toNat ≤ 57 := by
    simpa [xjd1Isdigit,UInt8.le_iff_toNat_le] using h
  refine ⟨?_,fun hq => absurd hc (by rw [hq]; decide)⟩
  have hs : ¬ (c.toNat ≤ 13) := by omega
  have h32 : ¬ c.toNat = 32 := by omega
  simp [xjd1Isspace,UInt8.le_iff_toNat_le,← UInt8.toNat_inj,hs,h32]

theorem JsonNumber.solid {t : Bytes} (h : JsonNumber t) : ∀ c ∈ t, Solid c := by
  have hrun {ds : Bytes} (h : DigitRun ds) : ∀ c ∈ ds, Solid c := fun c hc => solid_of_digit (h.2 c hc)
  have hint {i : Bytes} (h : IntPart i) : ∀ c ∈ i, Solid c := by
    cases h with
    | zero => exact forall_of_all (by decide)
    | digits h _ => exact hrun h
  have hfrac {f : Bytes} (h : FractionPart f) : ∀ c ∈ f, Solid c := by
    cases h with
    | none => exact fun _ h => absurd h List.not_mem_nil
    | digits h => exact List.forall_mem_cons.mpr ⟨by decide,hrun h⟩
  have hletter {c : UInt8} (h : c = ch 'e' ∨ c = ch 'E') : Solid c := by
    rcases h with rfl | rfl <;> decide
  have hexp {e : Bytes} (h : ExponentPart e) : ∀ c ∈ e, Solid c := by
    cases h with
    | none => exact fun _ h => absurd h List.not_mem_nil
    | plain hc h => exact List.forall_mem_cons.mpr ⟨hletter hc,hrun h⟩
    | @signed _ d _ hc hd h =>
      have hsign : Solid d := by rcases hd with rfl | rfl <;> decide
      exact List.forall_mem_cons.mpr ⟨hletter hc,List.forall_mem_cons.mpr ⟨hsign,hrun h⟩⟩
  have hall {i f e : Bytes} (hi : IntPart i) (hf : FractionPart f) (he : ExponentPart e) :
      ∀ c ∈ i ++ (f ++ e), Solid c :=
    List.forall_mem_append.mpr ⟨hint hi,List.forall_mem_append.mpr ⟨hfrac hf,hexp he⟩⟩
  cases h with
  | plain hi hf he => exact hall hi hf he
  | minus hi hf he => exact List.forall_mem_cons.mpr ⟨by decide,hall hi hf he⟩

theorem JsonNumber.ne_nil {t : Bytes} (h : JsonNumber t) : t ≠ [] := by
  cases h with
  | plain hi _ _ =>
    obtain ⟨c,u,rfl,_⟩ := hi.head
    exact List.cons_ne_nil _ _
  | minus => exact List.cons_ne_nil _ _

theorem TokenText.solid_or_string {ty : JsonTok} {t : Bytes} (h : TokenText (ty,t)) :
    (t ≠ [] ∧ ∀ c ∈ t, Solid c) ∨ JsonString t := by
  cases h with
  | true => exact Or.inl ⟨nofun,forall_of_all (by decide)⟩
  | false => exact Or.inl ⟨nofun,forall_of_all (by decide)⟩
  | null => exact Or.inl ⟨nofun,forall_of_all (by decide)⟩
  | number h => exact Or.inl ⟨h.ne_nil,h.solid⟩
  | string h => exact Or.inr h
  | @mark _ c h =>
    refine Or.inl ⟨nofun,List.forall_mem_singleton.mpr ?_⟩
    cases ty <;> simp only [JsonTok.mark,Option.some.injEq,reduceCtorEq] at h <;> subst h <;> decide

theorem TokenText.head {ty : JsonTok} {t : Bytes} (h : TokenText (ty,t)) :
    ∃ c u, t = c::u ∧ xjd1Isspace c = Bool.false := by
  rcases h.solid_or_string with ⟨hne,hs⟩ | ⟨body,_,rfl⟩
  · obtain ⟨c,u,rfl⟩ := List.exists_cons_of_ne_nil hne
    exact ⟨c,u,rfl,(hs c List.mem_cons_self).1⟩
  · exact ⟨_,_,rfl,rfl⟩

theorem TokenText.last {ty : JsonTok} {t : Bytes} (h : TokenText (ty,t)) :
    ∃ u c, t = u ++ [c] ∧ xjd1Isspace c = Bool.false := by
  rcases h.solid_or_string with ⟨hne,hs⟩ | ⟨body,_,rfl⟩
  · exact ⟨_,_,(List.dropLast_concat_getLast hne).symm,(hs _ (List.getLast_mem hne)).1⟩
  · exact ⟨ch '"'::body,_,rfl,rfl⟩

theorem TokenText.known {ty : JsonTok} {t : Bytes} (h : TokenText (ty,t)) : ty ≠ .eof ∧ ty ≠ .error := by
  cases h with
  | @mark _ c h => constructor <;> (rintro rfl; cases h)
  | _ => exact ⟨nofun,nofun⟩

inductive JsonText
  | true | false | null
  | number (t : { t : Bytes // JsonNumber t })
  | string (t : { t : Bytes // JsonString t })
  | array (elems : List JsonText)
  | struct (members : List ({ t : Bytes // JsonString t } × JsonText))

mutual
def JsonText.toks : JsonText → List (JsonTok × Bytes)
  | .true => [(.true,zTrue)]
  | .false => [(.false,zFalse)]
  | .null => [(.null,zNull)]
  | .number t => [(.real,t.1)]
  | .string t => [(.string,t.1)]
  | .array [] => [(.beginArray,[ch '[']),(.endArray,[ch ']'])]
  | .array (v::vs) => (.beginArray,[ch '[']) :: (v.toks ++ elemTexts vs)
  | .struct [] => [(.beginStruct,[ch '\x7b']),(.endStruct,[ch '\x7d'])]
  | .struct ((k,v)::ms) =>
    (.beginStruct,[ch '\x7b']) :: (.string,k.1) :: (.colon,[ch ':']) :: (v.toks ++ memberTexts ms)

def elemTexts : List JsonText → List (JsonTok × Bytes)
  | [] => [(.endArray,[ch ']'])]
  | v::vs => (.comma,[ch ',']) :: (v.toks ++ elemTexts vs)

def memberTexts : List ({ t : Bytes // JsonString t } × JsonText) → List (JsonTok × Bytes)
  | [] => [(.endStruct,[ch '\x7d'])]
  | (k,v)::ms => (.comma,[ch ',']) :: (.string,k.1) :: (.colon,[ch ':']) :: (v.toks ++ memberTexts ms)
end

def JsonText.text (v : JsonText) : Bytes := v.toks.flatMap (·.2)

def lead (f : Bool) : List (JsonTok × Bytes) → List (Bool × JsonTok × Bytes)
  | [] => []
  | t::ts => (f,t) :: ts.map (Bool.false,·)

/-- The tokens of some values, the first of each value marked if another value is in front of it. -/
def marked : List JsonText → List (Bool × JsonTok × Bytes)
  | [] => []
  | v::vs => lead Bool.false v.toks ++ vs.flatMap fun v => lead Bool.true v.toks

def White (w : Bytes) : Prop := ∀ c ∈ w, xjd1Isspace c

/-- Tokens with white space in front of each and behind the last. In front of a marked token there is some. -/
inductive Spaced : List (Bool × JsonTok × Bytes) → Bytes → Prop
  | nil {w : Bytes} (hw : White w) : Spaced [] w
  | cons {w z t : Bytes} {f : Bool} {ty : JsonTok} {ts : List (Bool × JsonTok × Bytes)} (hw : White w)
    (hf : f → w ≠ []) (h : Spaced ts z) : Spaced ((f,ty,t)::ts) (w ++ (t ++ z))

/-- The values `vs` are written in the text `z`, with white space between any of their tokens, and at least
one byte of it between two values. -/
def WrittenAs (vs : List JsonText) (z : Bytes) : Prop := Spaced (marked vs) z

/-- The tokens have their texts, and behind a word is a marked token or one that is a break;
`word` says that a word is in front of them. -/
def Chained (word : Bool) : List (Bool × JsonTok × Bytes) → Prop
  | [] => True
  | (f,ty,t)::ts => TokenText (ty,t) ∧ (word → f ∨ ty.mark.isSome) ∧ Chained ty.isWord ts

theorem Chained.of_word {ts : List (Bool × JsonTok × Bytes)} (h : Chained true ts) (word : Bool) : Chained word ts := by
  cases ts with
  | nil => exact h
  | cons x ts => exact ⟨h.1,fun _ => h.2.1 rfl,h.2.2⟩

theorem lead_false (ts : List (JsonTok × Bytes)) : lead false ts = ts.map (false,·) := by
  cases ts <;> rfl

mutual
theorem toks_chained (v : JsonText) {word f : Bool} {rest : List (Bool × JsonTok × Bytes)} (hf : word → f)
    (hr : Chained true rest) : Chained word (lead f v.toks ++ rest) :=
  match v with
  | .true => ⟨.true,fun h => Or.inl (hf h),hr⟩
  | .false => ⟨.false,fun h => Or.inl (hf h),hr⟩
  | .null => ⟨.null,fun h => Or.inl (hf h),hr⟩
  | .number t => ⟨.number t.2,fun h => Or.inl (hf h),hr⟩
  | .string t => ⟨.string t.2,fun h => Or.inl (hf h),hr.of_word _⟩
  | .array [] => ⟨.mark rfl,fun h => Or.inl (hf h),.mark rfl,nofun,hr.of_word _⟩
  | .array (v::vs) => by
    have h : Chained false (lead false v.toks ++ ((elemTexts vs).map (false,·) ++ rest)) :=
      toks_chained v nofun (elems_chained vs hr)
    rw [lead_false,← List.append_assoc,← List.map_append] at h
    exact ⟨.mark rfl,fun h => Or.inl (hf h),h⟩
  | .struct [] => ⟨.mark rfl,fun h => Or.inl (hf h),.mark rfl,nofun,hr.of_word _⟩
  | .struct ((k,v)::ms) => by
    have h : Chained false (lead false v.toks ++ ((memberTexts ms).map (false,·) ++ rest)) :=
      toks_chained v nofun (members_chained ms hr)
    rw [lead_false,← List.append_assoc,← List.map_append] at h
    exact ⟨.mark rfl,fun h => Or.inl (hf h),.string k.2,nofun,.mark rfl,nofun,h⟩

theorem elems_chained (vs : List JsonText) {rest : List (Bool × JsonTok × Bytes)} (hr : Chained true rest) :
    Chained true ((elemTexts vs).map (false,·) ++ rest) :=
  match vs with
  | [] => ⟨.mark rfl,fun _ => Or.inr rfl,hr.of_word _⟩
  | v::vs => by
    have h : Chained false (lead false v.toks ++ ((elemTexts vs).map (false,·) ++ rest)) :=
      toks_chained v nofun (elems_chained vs hr)
    rw [lead_false,← List.append_assoc,← List.map_append] at h
    exact ⟨.mark rfl,fun _ => Or.inr rfl,h⟩

theorem members_chained (ms : List ({ t : Bytes // JsonString t } × JsonText))
    {rest : List (Bool × JsonTok × Bytes)} (hr : Chained true rest) :
    Chained true ((memberTexts ms).map (false,·) ++ rest) :=
  match ms with
  | [] => ⟨.mark rfl,fun _ => Or.inr rfl,hr.of_word _⟩
  | (k,v)::ms => by
    have h : Chained false (lead false v.toks ++ ((memberTexts ms).map (false,·) ++ rest)) :=
      toks_chained v nofun (members_chained ms hr)
    rw [lead_false,← List.append_assoc,← List.map_append] at h
    exact ⟨.mark rfl,fun _ => Or.inr rfl,.string k.2,nofun,.mark rfl,nofun,h⟩
end

theorem values_chained (vs : List JsonText) : Chained true (vs.flatMap fun v => lead true v.toks) := by
  induction vs with
  | nil => trivial
  | cons v vs ih => exact toks_chained v (fun _ => rfl) ih

theorem marked_chained (vs : List JsonText) : Chained false (marked vs) := by
  cases vs with
  | nil => trivial
  | cons v vs => exact toks_chained v nofun (values_chained vs)

theorem isBreak_of_space {c : UInt8} (h : xjd1Isspace c) : isBreak c = true := by
  have hc : (9 ≤ c.toNat ∧ c.toNat ≤ 13) ∨ c.toNat = 32 := by
    simpa [xjd1Isspace,UInt8.le_iff_toNat_le,← UInt8.toNat_inj] using h
  have hcs : c ∈ [9,10,11,12,13,32] := by
    simp only [List.mem_cons,List.not_mem_nil,← UInt8.toNat_inj,UInt8.toNat_ofNat]
    omega
  have hall : ∀ c ∈ [9,10,11,12,13,32], isBreak c = true := forall_of_all (by decide)
  exact hall c hcs

theorem TokenText.mark_break {ty : JsonTok} {t s : Bytes} (h : TokenText (ty,t)) (hm : ty.mark.isSome) :
    Breaks (t ++ s) := by
  cases h with
  | @mark _ c h =>
    rintro x ⟨⟩
    cases ty <;> simp only [JsonTok.mark,Option.some.injEq,reduceCtorEq] at h <;> subst h <;> rfl
  | _ => cases hm

theorem Spaced.breaks {ts : List (Bool × JsonTok × Bytes)} {z : Bytes} (h : Spaced ts z) (hc : Chained true ts) :
    Breaks z := by
  have hwhite {w s : Bytes} (hw : White w) (hne : w ≠ []) : Breaks (w ++ s) := by
    obtain ⟨c,u,rfl⟩ := List.exists_cons_of_ne_nil hne
    rintro x ⟨⟩
    exact isBreak_of_space (hw c List.mem_cons_self)
  cases h with
  | nil hw =>
    intro c hc
    exact isBreak_of_space (hw c (List.mem_of_mem_head? hc))
  | @cons w z t f ty ts hw hf h =>
    by_cases hne : w = []
    · subst hne
      rcases hc.2.1 rfl with hm | hm
      · exact absurd rfl (hf hm)
      · exact hc.1.mark_break hm
    · exact hwhite hw hne

end Xjd1
