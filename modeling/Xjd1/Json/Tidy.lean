import Mathlib.Data.List.Infix
import Xjd1.Json.Written

/-! `xjd1JsonTidy` copies the tokens of a text one after the other. It puts a space in front of a token met
outside of all brackets, unless the type of the token before it is 0, which should say that there is none,
but is also the type of `false`. -/
namespace Xjd1

/-- What is appended for the current token, and the tokenizer behind it. A word that is not JSON is read
to its end and put between quotes. -/
def tidyToken (x : JsonStr) : Bytes × JsonStr :=
  if x.eType = .error ∧ (tokenString x).head?.any xjd1Isalpha then
    let n := x.n + (((tokenString x).drop x.n).takeWhile xjd1Isalpha).length
    (ch '"'::((tokenString x).take n ++ [ch '"']),{ x with n := n })
  else ((tokenString x).take x.n,x)

/-- The loop of `xjd1JsonTidy`. No result means that the fuel ran out. -/
def tidyLoop : ℕ → Bytes → Int → JsonStr → Option Bytes
  | 0,_,_,_ => none
  | m+1,pOut,nOpen,x =>
    let ePrev := x.eType
    let x := tokenNext x
    if x.eType = .eof then some pOut
    else
      -- the code of `false` is 0
      let pOut := if ePrev ≠ .false ∧ nOpen = 0 then pOut ++ [ch ' '] else pOut
      let nOpen := if x.eType = .beginArray ∨ x.eType = .beginStruct then nOpen + 1 else nOpen
      let nOpen := if x.eType = .endArray ∨ x.eType = .endStruct then nOpen - 1 else nOpen
      tidyLoop m (pOut ++ (tidyToken x).1) nOpen (tidyToken x).2

/-- `xjd1JsonTidy`, on the text of the string `pOut`. A turn for each byte and two more are enough. -/
def xjd1JsonTidy (pOut zIn : Bytes) : Option Bytes :=
  tidyLoop (xjd1Strlen30 zIn + 2) pOut 0 (jsonStr zIn (xjd1Strlen30 zIn))

def tidied (vs : List JsonText) : Bytes := [ch ' '].intercalate (vs.map JsonText.text)

def sepOf (ePrev : JsonTok) (nOpen : Int) : Bytes := if ePrev ≠ .false ∧ nOpen = 0 then [ch ' '] else []

def JsonTok.opens (ty : JsonTok) : Int :=
  if ty = .beginArray ∨ ty = .beginStruct then 1 else if ty = .endArray ∨ ty = .endStruct then -1 else 0

/-- From the tokenizer `x` on, with `nOpen` open brackets, the loop appends the text. -/
inductive Appends : Int → JsonStr → Bytes → Prop
  | stop {nOpen : Int} {x : JsonStr} (he : (tokenNext x).eType = .eof) : Appends nOpen x []
  | turn {nOpen : Int} {x : JsonStr} {o : Bytes} (he : (tokenNext x).eType ≠ .eof)
    (h : Appends (nOpen + (tokenNext x).eType.opens) (tidyToken (tokenNext x)).2 o) :
    Appends nOpen x (sepOf x.eType nOpen ++ ((tidyToken (tokenNext x)).1 ++ o))

theorem left_tidyToken (x : JsonStr) : (tidyToken x).2.left ≤ x.left := by
  rw [tidyToken]
  split
  · rw [JsonStr.left,JsonStr.left]
    split
    · exact Nat.zero_le _
    · simp only [JsonStr.unread,List.length_drop]
      omega
  · exact Nat.le_refl _

theorem tidyToken_eType (x : JsonStr) : (tidyToken x).2.eType = x.eType := by
  rw [tidyToken]
  split <;> rfl

theorem tidyLoop_turn {m : ℕ} {pOut : Bytes} {nOpen : Int} {x : JsonStr} (he : (tokenNext x).eType ≠ .eof) :
    tidyLoop (m+1) pOut nOpen x = tidyLoop m (pOut ++ sepOf x.eType nOpen ++ (tidyToken (tokenNext x)).1)
      (nOpen + (tokenNext x).eType.opens) (tidyToken (tokenNext x)).2 := by
  have hout : (if x.eType ≠ .false ∧ nOpen = 0 then pOut ++ [ch ' '] else pOut) = pOut ++ sepOf x.eType nOpen := by
    rw [sepOf]
    split
    · rfl
    · rw [List.append_nil]
  have hopen : (if (tokenNext x).eType = .endArray ∨ (tokenNext x).eType = .endStruct then
      (if (tokenNext x).eType = .beginArray ∨ (tokenNext x).eType = .beginStruct then nOpen + 1 else nOpen) - 1
      else if (tokenNext x).eType = .beginArray ∨ (tokenNext x).eType = .beginStruct then nOpen + 1 else nOpen) =
      nOpen + (tokenNext x).eType.opens := by
    cases (tokenNext x).eType <;> simp [JsonTok.opens] <;> rfl
  rw [tidyLoop]
  simp only
  rw [if_neg he,hout,hopen]

/-- The loop ends on every text. -/
theorem tidyLoop_appends {m : ℕ} (nOpen : Int) {x : JsonStr} (he : x.eType ≠ .eof) (hm : x.left < m) :
    ∃ o, Appends nOpen x o ∧ ∀ pOut, tidyLoop m pOut nOpen x = some (pOut ++ o) := by
  induction m generalizing nOpen x with
  | zero => exact absurd hm (Nat.not_lt_zero _)
  | succ m ih =>
    by_cases hy : (tokenNext x).eType = .eof
    · refine ⟨[],.stop hy,fun pOut => ?_⟩
      rw [tidyLoop,List.append_nil]
      exact if_pos hy
    · have h1 := left_tokenNext x he
      have h2 := left_tidyToken (tokenNext x)
      obtain ⟨o,ho,heq⟩ := ih (nOpen + (tokenNext x).eType.opens) (by rw [tidyToken_eType]; exact hy) (by omega)
      refine ⟨_,.turn hy ho,fun pOut => ?_⟩
      rw [tidyLoop_turn hy,heq,List.append_assoc,List.append_assoc]

structure OnNext (y : JsonStr) (s : Bytes) : Prop where
  eType : y.eType = (lexToken s).1
  n : y.n = (lexToken s).2
  str : s <+: tokenString y
  unread : y.unread = s.drop (lexToken s).2

section OnNext
variable {x y : JsonStr} {w s u : Bytes} {c : UInt8} {nOpen : Int} {o : Bytes}

theorem White.dropWhile (hw : White w) (s : Bytes) : (w ++ s).dropWhile xjd1Isspace = s.dropWhile xjd1Isspace := by
  rw [List.dropWhile_append_of_pos hw]

theorem tokenNext_white (hu : x.unread = w) (hw : White w) : (tokenNext x).eType = .eof := by
  have hd := hw.dropWhile []
  rw [List.append_nil] at hd
  rw [tokenNext,hu,hd]
  rfl

theorem tokenNext_onNext (hu : x.unread = w ++ c::u) (hw : White w) (hc : xjd1Isspace c = false) :
    OnNext (tokenNext x) (c::u) := by
  have hd : x.unread.dropWhile xjd1Isspace = c::u := by
    rw [hu,hw.dropWhile,List.dropWhile_cons_of_neg (by rw [hc]; exact Bool.false_ne_true)]
  have ht : x.unread.takeWhile xjd1Isspace = w := by
    have h := List.takeWhile_append_dropWhile (p := xjd1Isspace) (l := x.unread)
    rw [hd,hu] at h
    rw [hu]
    exact List.append_cancel_right h
  have hi : (x.zIn.take x.mxIn).drop (x.iCur + x.n + w.length) = c::u := by
    rw [← List.drop_drop]
    show x.unread.drop _ = _
    rw [hu,List.drop_left]
  have hy : tokenNext x =
      { x with iCur := x.iCur + x.n + w.length, n := (lexToken (c::u)).2, eType := (lexToken (c::u)).1 } := by
    rw [tokenNext,hd,ht]
    rfl
  rw [hy]
  refine ⟨rfl,rfl,?_,?_⟩
  · rw [tokenString,← hi]
    exact List.IsPrefix.drop (List.take_prefix _ _) _
  · rw [JsonStr.unread]
    simp only
    rw [← List.drop_drop,hi]

theorem Appends.of_white (h : Appends nOpen x o) (hu : x.unread = w) (hw : White w) : o = [] := by
  cases h with
  | stop => rfl
  | turn he _ => exact absurd (tokenNext_white hu hw) he

theorem OnNext.token (h : OnNext y s) (hs : ¬ (y.eType = .error ∧ s.head?.any xjd1Isalpha))
    (hn : (lexToken s).2 ≤ s.length) (hne : s ≠ []) : tidyToken y = (s.take (lexToken s).2,y) := by
  obtain ⟨t,ht⟩ := h.str
  have hhead : (tokenString y).head? = s.head? := by
    rw [← ht,List.head?_append_of_ne_nil _ hne]
  rw [tidyToken,hhead,if_neg hs,h.n,← ht,List.take_append_of_le_length hn]

/-- The text `o`, appended where `u` is all that can be read, is not what a longer text makes: it is empty, or
it goes on behind the space differently, and with another byte than a space. -/
def CutOff (x : JsonStr) (nOpen : Int) (u o : Bytes) : Prop :=
  o = [] ∨ ∃ r, o = sepOf x.eType nOpen ++ r ∧ r.head? ≠ some (ch ' ') ∧ ∀ v, v ≠ [] → r ≠ u ++ v

theorem CutOff.ne (h : CutOff x nOpen u o) (hu : ∀ c ∈ u.head?, c ≠ ch ' ') (hne : u ≠ []) {v : Bytes} (hv : v ≠ []) :
    o ≠ u ++ v := by
  rcases h with rfl | ⟨r,rfl,_,hr⟩
  · exact fun h => hv (List.append_eq_nil_iff.mp h.symm).2
  · rw [sepOf]
    split
    · obtain ⟨c,u,rfl⟩ := List.exists_cons_of_ne_nil hne
      exact fun h => hu c rfl (List.cons.inj h).1.symm
    · exact hr v hv

theorem solid_ne_space (hc : Solid c) : c ≠ ch ' ' := by
  rintro rfl
  exact absurd hc.1 (by decide)

theorem Appends.cut_solid (h : Appends nOpen x o) (hu : x.unread = w ++ u) (hw : White w) (hs : ∀ c ∈ u, Solid c)
    (hne : u ≠ []) : CutOff x nOpen u o := by
  induction h generalizing w u with
  | stop => exact Or.inl rfl
  | @turn nOpen x o he h ih =>
    obtain ⟨c,t,rfl⟩ := List.exists_cons_of_ne_nil hne
    have hc := hs c List.mem_cons_self
    have hy := tokenNext_onNext hu hw hc.1
    have hn := (lexToken_extent c t).le
    refine Or.inr ⟨_,rfl,?_⟩
    by_cases hq : (tokenNext x).eType = .error ∧ (c::t).head?.any xjd1Isalpha
    · -- the word is put between quotes
      have hquote : ∃ r, (tidyToken (tokenNext x)).1 ++ o = ch '"'::r := by
        obtain ⟨v,hv⟩ := hy.str
        have hhead : (tokenString (tokenNext x)).head? = (c::t).head? := by
          rw [← hv,List.head?_append_of_ne_nil _ hne]
        rw [tidyToken,hhead,if_pos hq]
        exact ⟨_,rfl⟩
      obtain ⟨r,hr⟩ := hquote
      rw [hr]
      exact ⟨fun h => absurd (Option.some.inj h) (by decide),fun v _ h => hc.2 (List.cons.inj h).1.symm⟩
    · rw [hy.eType] at he
      have hpos := lexToken_pos c t he
      have htok := hy.token hq hn hne
      rw [htok] at h ih ⊢
      have hdrop : ∀ d ∈ (c::t).drop (lexToken (c::t)).2, Solid d := fun d hd => hs d (List.mem_of_mem_drop hd)
      have hrest (v : Bytes) (hv : v ≠ []) : o ≠ (c::t).drop (lexToken (c::t)).2 ++ v := by
        by_cases hempty : (c::t).drop (lexToken (c::t)).2 = []
        · rw [h.of_white (hy.unread.trans hempty) (fun _ h => absurd h List.not_mem_nil),hempty]
          exact hv.symm
        · have hcut := ih (w := []) hy.unread (fun _ h => absurd h List.not_mem_nil) hdrop hempty
          exact hcut.ne (fun d hd => solid_ne_space (hdrop d (List.mem_of_mem_head? hd))) hempty hv
      refine ⟨?_,fun v hv heq => hrest v hv ?_⟩
      · obtain ⟨n,hn⟩ := Nat.exists_eq_succ_of_ne_zero (Nat.ne_of_gt hpos)
        rw [hn]
        exact fun h => solid_ne_space hc (Option.some.inj h)
      · rw [← List.append_cancel_left_eq ((c::t).take (lexToken (c::t)).2),← List.append_assoc,List.take_append_drop]
        exact heq

theorem Appends.cut_string {body : Bytes} {j : ℕ} (h : Appends nOpen x o) (hu : x.unread = w ++ ch '"'::body.take j)
    (hw : White w) (hb : StringBody body) (hj : j ≤ body.length) : CutOff x nOpen (ch '"'::body.take j) o := by
  cases h with
  | stop => exact Or.inl rfl
  | turn he h =>
    have hlex : lexToken (ch '"'::body.take j) = (.error,j+1) := by
      simp only [lexToken,hb.scan_take hj]
      rfl
    have hlen : (ch '"'::body.take j).length = j + 1 := by
      rw [List.length_cons,List.length_take,Nat.min_eq_left hj]
    have hy := tokenNext_onNext hu hw rfl
    have htok := hy.token (fun h => Bool.false_ne_true h.2) (by rw [hlex,hlen]) (List.cons_ne_nil _ _)
    have hread : (tokenNext x).unread = [] := by
      rw [hy.unread,hlex,← hlen,List.drop_length]
    rw [htok] at h ⊢
    rw [h.of_white hread fun _ h => absurd h List.not_mem_nil,List.append_nil,hlex,← hlen,List.take_length]
    refine Or.inr ⟨_,rfl,fun h => absurd (Option.some.inj h) (by decide),fun v hv h => hv ?_⟩
    exact List.self_eq_append_right.mp h

theorem Appends.cut {ty : JsonTok} {t : Bytes} {j : ℕ} (h : Appends nOpen x o) (ht : TokenText (ty,t))
    (hu : x.unread = w ++ t.take j) (hw : White w) (h0 : 0 < j) (hj : j < t.length) : CutOff x nOpen (t.take j) o := by
  rcases ht.solid_or_string with ⟨_,hs⟩ | ⟨body,hb,rfl⟩
  · refine h.cut_solid hu hw (fun c hc => hs c (List.mem_of_mem_take hc)) (List.ne_nil_of_length_pos ?_)
    rw [List.length_take]
    omega
  · obtain ⟨j,rfl⟩ := Nat.exists_eq_succ_of_ne_zero (Nat.ne_of_gt h0)
    rw [List.length_cons,List.length_append,List.length_singleton] at hj
    have hjb : j ≤ body.length := by omega
    rw [List.take_succ_cons,List.take_append_of_le_length hjb] at hu ⊢
    exact h.cut_string hu hw hb hjb

end OnNext

/-- The tokens without the white space, and one space in front of each marked token. -/
def laid : List (Bool × JsonTok × Bytes) → Bytes
  | [] => []
  | (f,_,t)::ts => (if f then [ch ' '] else []) ++ (t ++ laid ts)

def SpacesMatch : JsonTok → Int → List (Bool × JsonTok × Bytes) → Prop
  | _,_,[] => True
  | ePrev,nOpen,(f,ty,_)::ts => (ePrev ≠ .false ∧ nOpen = 0 ↔ f) ∧ SpacesMatch ty (nOpen + ty.opens) ts

theorem sep_append_iff {ePrev : JsonTok} {nOpen : Int} {f : Bool} {r s : Bytes} (hr : r.head? ≠ some (ch ' '))
    (hs : s.head? ≠ some (ch ' ')) : sepOf ePrev nOpen ++ r = (if f then [ch ' '] else []) ++ s ↔
      (ePrev ≠ .false ∧ nOpen = 0 ↔ f) ∧ r = s := by
  by_cases hp : ePrev ≠ .false ∧ nOpen = 0
  · rw [sepOf,if_pos hp]
    cases f with
    | true =>
      rw [if_pos rfl]
      exact ⟨fun h => ⟨iff_of_true hp rfl,List.append_cancel_left h⟩,fun h => congrArg _ h.2⟩
    | false =>
      refine ⟨fun h => absurd ?_ hs,fun h => absurd (h.1.mp hp) Bool.false_ne_true⟩
      exact (congrArg List.head? h).symm
  · rw [sepOf,if_neg hp]
    cases f with
    | true =>
      refine ⟨fun h => absurd ?_ hr,fun h => absurd (h.1.mpr rfl) hp⟩
      exact congrArg List.head? h
    | false => exact ⟨fun h => ⟨iff_of_false hp Bool.false_ne_true,h⟩,fun h => h.2⟩

theorem Breaks.take {s : Bytes} (h : Breaks s) (k : ℕ) : Breaks (s.take k) := by
  cases k with
  | zero => exact nofun
  | succ k =>
    cases s with
    | nil => exact nofun
    | cons c s => exact h

section Token
variable {ty : JsonTok} {t : Bytes} (ht : TokenText (ty,t))
include ht

theorem TokenText.head_append (v : Bytes) : (t ++ v).head? ≠ some (ch ' ') := by
  obtain ⟨c,u,rfl,hc⟩ := ht.head
  intro h
  obtain rfl := Option.some.inj h
  exact absurd hc (by decide)

theorem TokenText.laid_ne_nil (f : Bool) (ts : List (Bool × JsonTok × Bytes)) : laid ((f,ty,t)::ts) ≠ [] := by
  obtain ⟨c,u,rfl,_⟩ := ht.head
  rw [laid]
  exact List.append_ne_nil_of_right_ne_nil _ (List.cons_ne_nil _ _)

theorem TokenText.not_white {j : ℕ} (hj : j < t.length) (z : Bytes) : ¬ White (t.drop j ++ z) := by
  obtain ⟨v,d,rfl,hd⟩ := ht.last
  rw [List.length_append,List.length_singleton] at hj
  have hmem : d ∈ (v ++ [d]).drop j ++ z := by
    rw [List.drop_append_of_le_length (by omega)]
    simp
  intro h
  rw [h d hmem] at hd
  cases hd

theorem CutOff.ne_laid {x : JsonStr} {nOpen : Int} {j : ℕ} {o : Bytes} (h : CutOff x nOpen (t.take j) o)
    (hj : j < t.length) (f : Bool) (ts : List (Bool × JsonTok × Bytes)) : o ≠ laid ((f,ty,t)::ts) := by
  rcases h with rfl | ⟨r,rfl,hr,hne⟩
  · exact (ht.laid_ne_nil f ts).symm
  · have hrest : t.drop j ++ laid ts ≠ [] := by
      refine List.append_ne_nil_of_left_ne_nil (List.ne_nil_of_length_pos ?_) _
      rw [List.length_drop]
      omega
    have hcut := hne _ hrest
    rw [← List.append_assoc,List.take_append_drop] at hcut
    rw [laid]
    exact fun heq => hcut ((sep_append_iff hr (ht.head_append _)).mp heq).2

end Token

/-- Of the text `s`, which has the tokens `ts`, the first `k` bytes are read. The loop appends what it should just
if only white space is behind them and the spaces are the right ones. -/
theorem appends_iff {ts : List (Bool × JsonTok × Bytes)} {s : Bytes} (hs : Spaced ts s) {word : Bool}
    (hc : Chained word ts) {x : JsonStr} {k : ℕ} (hu : x.unread = s.take k) {nOpen : Int} {o : Bytes}
    (h : Appends nOpen x o) : o = laid ts ↔ White (s.drop k) ∧ SpacesMatch x.eType nOpen ts := by
  induction hs generalizing word x k nOpen o with
  | nil hw =>
    have ho := h.of_white hu fun c hc => hw c (List.mem_of_mem_take hc)
    exact iff_of_true ho ⟨fun c hc => hw c (List.mem_of_mem_drop hc),trivial⟩
  | @cons w z t f ty ts hw hf hz ih =>
    obtain ⟨ht,_,hc'⟩ := hc
    rcases Nat.lt_or_ge w.length k with hk | hk
    · obtain ⟨j,rfl⟩ := Nat.exists_eq_add_of_lt hk
      rw [Nat.add_assoc] at hu ⊢
      rw [List.take_length_add_append] at hu
      rw [List.drop_length_add_append]
      rcases Nat.lt_or_ge (j+1) t.length with hj | hj
      · -- the token is cut off
        rw [List.take_append_of_le_length (Nat.le_of_lt hj)] at hu
        rw [List.drop_append_of_le_length (Nat.le_of_lt hj)]
        have hcut := h.cut ht hu hw (Nat.succ_pos j) hj
        exact iff_of_false (hcut.ne_laid ht hj f ts) fun hr => ht.not_white hj z hr.1
      · -- the token is read
        obtain ⟨i,hi⟩ := Nat.exists_eq_add_of_le hj
        rw [hi] at hu ⊢
        rw [List.take_length_add_append] at hu
        rw [List.drop_length_add_append]
        have hlex : lexToken (t ++ z.take i) = (ty,t.length) :=
          ht.lex fun hword => (hz.breaks (by rwa [hword] at hc')).take i
        obtain ⟨c,u,htc,hsp⟩ := ht.head
        have hy : OnNext (tokenNext x) (t ++ z.take i) := by
          rw [htc] at hu ⊢
          exact tokenNext_onNext hu hw hsp
        have hety : (tokenNext x).eType = ty := by rw [hy.eType,hlex]
        cases h with
        | stop he => exact absurd (hety.symm.trans he) ht.known.1
        | turn he h =>
          have htok := hy.token (fun h => ht.known.2 (hety.symm.trans h.1)) (by rw [hlex]; simp)
            (by rw [htc]; exact List.cons_ne_nil _ _)
          have hread : (tokenNext x).unread = z.take i := by rw [hy.unread,hlex,List.drop_left]
          rw [htok,hety] at h
          rw [htok,hlex,List.take_left,laid,sep_append_iff (ht.head_append _) (ht.head_append _),
            List.append_cancel_left_eq,ih hc' hread h,hety,SpacesMatch]
          exact and_left_comm
    · -- the token is not reached
      rw [List.take_append_of_le_length hk] at hu
      rw [h.of_white hu fun c hc => hw c (List.mem_of_mem_take hc),List.drop_append_of_le_length hk]
      obtain ⟨c,u,htc,_⟩ := ht.head
      have hpos : 0 < t.length := by
        rw [htc]
        exact Nat.succ_pos _
      exact iff_of_false (ht.laid_ne_nil f ts).symm fun hr =>
        ht.not_white hpos z fun c hc => hr.1 c (List.mem_append_right _ hc)

def JsonText.lastType : JsonText → JsonTok
  | .true => .true
  | .false => .false
  | .null => .null
  | .number _ => .real
  | .string _ => .string
  | .array _ => .endArray
  | .struct _ => .endStruct

theorem JsonText.lastType_ne (v : JsonText) : v.lastType ≠ .false ↔ v ≠ .false := by
  cases v with
  | «false» => exact iff_of_false (fun h => h rfl) (fun h => h rfl)
  | _ => exact iff_of_true nofun nofun

section Agree
variable {ePrev ty : JsonTok} {nOpen : Int} {f : Bool} {t : Bytes} {ts : List (Bool × JsonTok × Bytes)}

theorem scalar_agrees (ho : ty.opens = 0) :
    SpacesMatch ePrev nOpen ((f,ty,t)::ts) ↔ (ePrev ≠ .false ∧ nOpen = 0 ↔ f) ∧ SpacesMatch ty nOpen ts := by
  rw [SpacesMatch,ho,Int.add_zero]

/-- Inside of brackets no space is put in front of a token, and none should be. -/
theorem not_apart (h : 0 ≤ nOpen) : ePrev ≠ .false ∧ nOpen + 1 = 0 ↔ (false : Bool) :=
  iff_of_false (fun h' => absurd h'.2 (by omega)) Bool.false_ne_true

theorem inside_agrees (h : 0 ≤ nOpen) (ho : ty.opens = 0) :
    SpacesMatch ePrev (nOpen + 1) ((false,ty,t)::ts) ↔ SpacesMatch ty (nOpen + 1) ts := by
  rw [scalar_agrees ho]
  exact and_iff_right (not_apart h)

theorem close_agrees (h : 0 ≤ nOpen) (ho : ty.opens = -1) :
    SpacesMatch ePrev (nOpen + 1) ((false,ty,t)::ts) ↔ SpacesMatch ty nOpen ts := by
  rw [SpacesMatch,ho,Int.add_neg_cancel_right]
  exact and_iff_right (not_apart h)

theorem open_agrees (ho : ty.opens = 1) :
    SpacesMatch ePrev nOpen ((f,ty,t)::ts) ↔ (ePrev ≠ .false ∧ nOpen = 0 ↔ f) ∧ SpacesMatch ty (nOpen + 1) ts := by
  rw [SpacesMatch,ho]

end Agree

mutual
/-- The brackets of a value are closed at its end. -/
theorem toks_agrees (v : JsonText) {ePrev : JsonTok} {nOpen : Int} {f : Bool} {ts : List (Bool × JsonTok × Bytes)}
    (h : 0 ≤ nOpen) : SpacesMatch ePrev nOpen (lead f v.toks ++ ts) ↔
      (ePrev ≠ .false ∧ nOpen = 0 ↔ f) ∧ SpacesMatch v.lastType nOpen ts :=
  match v with
  | .true => scalar_agrees rfl
  | .false => scalar_agrees rfl
  | .null => scalar_agrees rfl
  | .number _ => scalar_agrees rfl
  | .string _ => scalar_agrees rfl
  | .array [] => (open_agrees rfl).trans (and_congr_right' (close_agrees h rfl))
  | .array (v::vs) => by
    have hv : SpacesMatch .beginArray (nOpen + 1) ((v.toks ++ elemTexts vs).map (false,·) ++ ts) ↔
        SpacesMatch .endArray nOpen ts := by
      rw [List.map_append,List.append_assoc,← lead_false,toks_agrees v (Int.le_add_one h),elems_agrees vs h]
      exact and_iff_right (not_apart h)
    exact (open_agrees rfl).trans (and_congr_right' hv)
  | .struct [] => (open_agrees rfl).trans (and_congr_right' (close_agrees h rfl))
  | .struct ((_,v)::ms) => by
    have hv : SpacesMatch .colon (nOpen + 1) ((v.toks ++ memberTexts ms).map (false,·) ++ ts) ↔
        SpacesMatch .endStruct nOpen ts := by
      rw [List.map_append,List.append_assoc,← lead_false,toks_agrees v (Int.le_add_one h),members_agrees ms h]
      exact and_iff_right (not_apart h)
    exact (open_agrees rfl).trans (and_congr_right' ((inside_agrees h rfl).trans ((inside_agrees h rfl).trans hv)))

theorem elems_agrees (vs : List JsonText) {ePrev : JsonTok} {nOpen : Int} {ts : List (Bool × JsonTok × Bytes)}
    (h : 0 ≤ nOpen) : SpacesMatch ePrev (nOpen + 1) ((elemTexts vs).map (false,·) ++ ts) ↔ SpacesMatch .endArray nOpen ts :=
  match vs with
  | [] => close_agrees h rfl
  | v::vs => by
    have hv : SpacesMatch .comma (nOpen + 1) ((v.toks ++ elemTexts vs).map (false,·) ++ ts) ↔
        SpacesMatch .endArray nOpen ts := by
      rw [List.map_append,List.append_assoc,← lead_false,toks_agrees v (Int.le_add_one h),elems_agrees vs h]
      exact and_iff_right (not_apart h)
    exact (inside_agrees h rfl).trans hv

theorem members_agrees (ms : List ({ t : Bytes // JsonString t } × JsonText)) {ePrev : JsonTok} {nOpen : Int}
    {ts : List (Bool × JsonTok × Bytes)} (h : 0 ≤ nOpen) :
    SpacesMatch ePrev (nOpen + 1) ((memberTexts ms).map (false,·) ++ ts) ↔ SpacesMatch .endStruct nOpen ts :=
  match ms with
  | [] => close_agrees h rfl
  | (_,v)::ms => by
    have hv : SpacesMatch .colon (nOpen + 1) ((v.toks ++ memberTexts ms).map (false,·) ++ ts) ↔
        SpacesMatch .endStruct nOpen ts := by
      rw [List.map_append,List.append_assoc,← lead_false,toks_agrees v (Int.le_add_one h),members_agrees ms h]
      exact and_iff_right (not_apart h)
    exact (inside_agrees h rfl).trans ((inside_agrees h rfl).trans ((inside_agrees h rfl).trans hv))
end

theorem forall_dropLast_cons {α : Type} {p : α → Prop} (v : α) (vs : List α) :
    (∀ u ∈ (v::vs).dropLast, p u) ↔ (vs ≠ [] → p v) ∧ ∀ u ∈ vs.dropLast, p u := by
  cases vs with
  | nil =>
    have hnone : ∀ u ∈ ([] : List α), p u := fun _ h => absurd h List.not_mem_nil
    exact iff_of_true hnone ⟨fun h => absurd rfl h,hnone⟩
  | cons u us =>
    rw [List.dropLast_cons_cons,List.forall_mem_cons]
    exact and_congr_left' ⟨fun h _ => h,fun h => h (List.cons_ne_nil _ _)⟩

/-- Between two values there is a space unless the first is `false`. -/
theorem values_agree {ePrev : JsonTok} {vs : List JsonText} :
    SpacesMatch ePrev 0 (vs.flatMap fun v => lead true v.toks) ↔
      (vs ≠ [] → ePrev ≠ .false) ∧ ∀ v ∈ vs.dropLast, v ≠ .false := by
  induction vs generalizing ePrev with
  | nil => exact iff_of_true trivial ⟨fun h => absurd rfl h,fun _ h => absurd h List.not_mem_nil⟩
  | cons v vs ih =>
    have hp : (ePrev ≠ .false ∧ (0 : Int) = 0 ↔ (true : Bool)) ↔ (v::vs ≠ [] → ePrev ≠ .false) :=
      ⟨fun h _ => (h.mpr rfl).1,fun h => iff_of_true ⟨h (List.cons_ne_nil _ _),rfl⟩ rfl⟩
    rw [List.flatMap_cons,toks_agrees v (Int.le_refl 0),ih,v.lastType_ne,hp,forall_dropLast_cons]

theorem marked_agrees (vs : List JsonText) : SpacesMatch .false 0 (marked vs) ↔ ∀ v ∈ vs.dropLast, v ≠ .false := by
  cases vs with
  | nil => exact iff_of_true trivial fun _ h => absurd h List.not_mem_nil
  | cons v vs =>
    have hp : ((JsonTok.false ≠ .false ∧ (0 : Int) = 0) ↔ (false : Bool)) ↔ True :=
      iff_true_intro (iff_of_false (fun h => h.1 rfl) Bool.false_ne_true)
    rw [marked,toks_agrees v (Int.le_refl 0),values_agree,v.lastType_ne,hp,true_and,forall_dropLast_cons]

theorem laid_append (ts us : List (Bool × JsonTok × Bytes)) : laid (ts ++ us) = laid ts ++ laid us := by
  induction ts with
  | nil => rfl
  | cons x ts ih => rw [List.cons_append,laid,laid,ih,List.append_assoc,List.append_assoc]

theorem laid_inside (ts : List (JsonTok × Bytes)) : laid (ts.map (false,·)) = ts.flatMap (·.2) := by
  induction ts with
  | nil => rfl
  | cons t ts ih =>
    rw [List.map_cons,laid,ih,List.flatMap_cons]
    rfl

theorem toks_ne_nil (v : JsonText) : v.toks ≠ [] := by
  match v with
  | .true | .false | .null | .number _ | .string _ => exact List.cons_ne_nil _ _
  | .array [] | .array (_::_) | .struct [] | .struct (_::_) => exact List.cons_ne_nil _ _

theorem laid_lead (f : Bool) (v : JsonText) : laid (lead f v.toks) = (if f then [ch ' '] else []) ++ v.text := by
  have hne := toks_ne_nil v
  rw [JsonText.text]
  cases hv : v.toks with
  | nil => exact absurd hv hne
  | cons t ts => rw [lead,laid,laid_inside,List.flatMap_cons]

theorem laid_values (vs : List JsonText) :
    laid (vs.flatMap fun v => lead true v.toks) = vs.flatMap fun v => ch ' '::v.text := by
  induction vs with
  | nil => rfl
  | cons v vs ih =>
    rw [List.flatMap_cons,laid_append,laid_lead,ih,List.flatMap_cons]
    rfl

theorem laid_marked (vs : List JsonText) : laid (marked vs) = tidied vs := by
  cases vs with
  | nil => rfl
  | cons v vs =>
    rw [marked,laid_append,laid_lead,laid_values,tidied]
    show v.text ++ _ = _
    induction vs generalizing v with
    | nil => rw [List.flatMap_nil,List.append_nil,List.map_singleton,List.intercalate_singleton]
    | cons u us ih =>
      rw [List.flatMap_cons,List.cons_append,ih u,List.map_cons,List.map_cons,List.map_cons,
        List.intercalate_cons_cons,List.append_assoc]
      rfl

/-- On a text that has the values `vs`, `xjd1JsonTidy` appends their texts, with one space between them, just if none
but the last is `false` and nothing but white space is behind the part of the text that it reads. -/
theorem xjd1JsonTidy_iff {vs : List JsonText} {z : Bytes} (h : WrittenAs vs z) (pOut : Bytes) :
    xjd1JsonTidy pOut z = some (pOut ++ tidied vs) ↔
      (∀ v ∈ vs.dropLast, v ≠ .false) ∧ White (z.drop (xjd1Strlen30 z)) := by
  have hne : (jsonStr z (xjd1Strlen30 z)).eType ≠ .eof := nofun
  obtain ⟨o,ho,heq⟩ := tidyLoop_appends 0 hne (Nat.lt_succ_of_le (jsonStr_left z (xjd1Strlen30 z)))
  rw [xjd1JsonTidy,heq,Option.some.injEq,List.append_cancel_left_eq,← laid_marked,
    appends_iff h (marked_chained vs) rfl ho,and_comm]
  exact and_congr_left' (marked_agrees vs)

theorem xjd1JsonTidy_iff_tab : xjd1JsonTidy [] (zTrue ++ 9::zFalse) = some ([] ++ tidied [.true,.false]) ↔
    (∀ v ∈ [JsonText.true,.false].dropLast, v ≠ .false) ∧
      White ((zTrue ++ 9::zFalse).drop (xjd1Strlen30 (zTrue ++ 9::zFalse))) := by
  have hw : White [] := fun _ h => absurd h List.not_mem_nil
  have h9 : White [9] := List.forall_mem_singleton.mpr rfl
  have h : WrittenAs [.true,.false] (zTrue ++ 9::zFalse) :=
    @Spaced.cons [] (9::zFalse) zTrue false .true _ hw nofun
      (@Spaced.cons [9] [] zFalse true .false _ h9 nofun (.nil hw))
  exact xjd1JsonTidy_iff h []

/-- The values `false` and `true` run together. -/
theorem xjd1JsonTidy_false_true : WrittenAs [.false,.true] (zFalse ++ ch ' '::zTrue) ∧
    xjd1JsonTidy [] (zFalse ++ ch ' '::zTrue) = some (zFalse ++ zTrue) ∧
    xjd1JsonTidy [] (zFalse ++ ch ' '::zTrue) ≠ some ([] ++ tidied [.false,.true]) := by
  have hw : White [] := fun _ h => absurd h List.not_mem_nil
  have hs : White [ch ' '] := List.forall_mem_singleton.mpr rfl
  exact ⟨@Spaced.cons [] (ch ' '::zTrue) zFalse false .false _ hw nofun
    (@Spaced.cons [ch ' '] [] zTrue true .true _ hs nofun (.nil hw)),by decide +kernel,by decide +kernel⟩

end Xjd1
