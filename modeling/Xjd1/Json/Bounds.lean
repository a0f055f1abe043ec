import Xjd1.Json.Reads

/-! The advances of the JSON parser: `parseJson` again, with the reads of `Json.Reads` and with every call
of `tokenNext` written down. No call is made at the end of the text, which would move the cursor
back, so there is at most one for each byte, and one at the end. -/
namespace Xjd1
open Fueled

variable {R : Type}

namespace Bounded

/-- The tokenizer, and the states before and after each call of `tokenNext`, the last call first. -/
structure Cursor where
  str : JsonStr
  calls : List (JsonStr × JsonStr)

section Parse
variable [CDouble R] (m : ℕ) (junk : ℕ → UInt8)

def Cursor.next (c : Cursor) : Run ReadFault Cursor := do
  let p ← tokenNext m (junk c.calls.length) c.str
  .ok ⟨p,(c.str,p)::c.calls⟩

def atof (p : JsonStr) : Run ReadFault R :=
  if p.iCur ≤ p.zIn.length then .ok (CDouble.atof (tokenString p)) else .stop .outOfBounds

mutual
def parseJson : ℕ → Cursor → Run ReadFault (JsonNode R × Cursor)
  | 0,_ => .more
  | n+1,c =>
    match c.str.eType with
    | .beginStruct => do
      let c ← c.next m junk
      if c.str.eType = .endStruct then .ok (.struct [],c) else parseMembers n c []
    | .beginArray => do
      let c ← c.next m junk
      if c.str.eType = .endArray then return (.array [],← c.next m junk) else parseElems n c []
    | .string => do
      let z ← tokenDequoteString m c.str
      return (.string z,← c.next m junk)
    | .real => do
      let r ← atof c.str
      return (.real r,← c.next m junk)
    | .true => return (.true,← c.next m junk)
    | .false => return (.false,← c.next m junk)
    | .null => return (.null,← c.next m junk)
    | _ => .ok (.nullptr,c)

def parseMembers : ℕ → Cursor → List (Bytes × JsonNode R) → Run ReadFault (JsonNode R × Cursor)
  | 0,_,_ => .more
  | n+1,c,st =>
    if c.str.eType = .string then do
      let z ← tokenDequoteString m c.str
      let c ← c.next m junk
      if c.str.eType = .colon then
        let c ← c.next m junk
        let (v,c) ← parseJson n c
        match c.str.eType with
        | .comma =>
          let c ← c.next m junk
          parseMembers n c (st ++ [(z,v)])
        | .endStruct => return (.struct (st ++ [(z,v)]),← c.next m junk)
        | _ => .ok (.nullptr,c)
      else .ok (.nullptr,c)
    else .ok (.nullptr,c)

def parseElems : ℕ → Cursor → List (JsonNode R) → Run ReadFault (JsonNode R × Cursor)
  | 0,_,_ => .more
  | n+1,c,ar => do
    let (v,c) ← parseJson n c
    match c.str.eType with
    | .comma =>
      let c ← c.next m junk
      parseElems n c (ar ++ [v])
    | .endArray => return (.array (ar ++ [v]),← c.next m junk)
    | _ => .ok (.nullptr,c)
end

/-- `xjd1JsonParse( zIn, -1 )`, and the calls of `tokenNext` that it makes. -/
def xjd1JsonParse (zIn : Bytes) : Run ReadFault (JsonNode R × List (JsonStr × JsonStr)) := do
  let n ← strlen zIn m 0
  let c ← Cursor.next m junk ⟨jsonStr zIn (n % 2^30),[]⟩
  let (v,c) ← parseJson m junk m c
  .ok (v,c.calls)

end Parse

theorem At.getElem? {z s : Bytes} {mx i k : ℕ} (h : At z mx i s) (hk : k < s.length) : z[i+k]? = s[k]? := by
  have hl := h.length
  rw [← h.drop,List.getElem?_drop,List.getElem?_take_of_lt (by omega)]

structure Moves (p q : JsonStr) : Prop where
  zIn : q.zIn = p.zIn
  mxIn : q.mxIn = p.mxIn
  within : q.iCur + q.n ≤ p.mxIn
  forward : q.eType ≠ .eof → p.iCur + p.n < q.iCur + q.n
  quoted : q.eType = .string → Quoted q

theorem tokenNext_moves {p : JsonStr} (hle : p.mxIn ≤ p.zIn.length) (hi : p.iCur + p.n ≤ p.mxIn) :
    Moves p (Xjd1.tokenNext p) := by
  have h : At p.zIn p.mxIn (p.iCur + p.n) p.unread := ⟨hle,hi,rfl⟩
  have hs := h.skip (List.takeWhile_prefix xjd1Isspace (l := p.unread)).length_le
  rw [show p.unread.drop (p.unread.takeWhile xjd1Isspace).length = p.unread.dropWhile xjd1Isspace from
    (congrArg (List.drop _) List.takeWhile_append_dropWhile.symm).trans List.drop_left] at hs
  rw [Xjd1.tokenNext]
  cases hu : p.unread.dropWhile xjd1Isspace with
  | nil => exact ⟨rfl,rfl,Nat.le_trans (Nat.le_add_right _ p.n) hi,fun h => absurd rfl h,fun h => absurd h (by decide : JsonTok.eof ≠ .string)⟩
  | cons c t =>
    rw [hu] at hs
    have hlen := hs.length
    obtain ⟨hext,hquote⟩ := lexToken_extent c t
    simp only [List.isEmpty_cons,Bool.false_eq_true,if_false]
    refine ⟨rfl,rfl,by simp only; omega,fun he => ?_,fun hq => ?_⟩
    · have hpos := lexToken_pos c t he
      simp only
      omega
    · obtain ⟨h2,h0,h1⟩ := hquote hq
      have hlast := hs.getElem? (k := (Xjd1.lexToken (c::t)).2 - 1) (by omega)
      rw [h1,← Nat.add_sub_assoc (by omega)] at hlast
      exact ⟨h2,(hs.getElem? (k := 0) (by omega)).trans h0,hlast⟩

/-- A call of `tokenNext` is not made at the end of the text, and moves the end of the token forward
if there is another token. -/
structure Advance (z : Bytes) (p q : JsonStr) : Prop where
  before : p.eType ≠ .eof
  forward : q.eType ≠ .eof → p.iCur + p.n < q.iCur + q.n ∧ q.iCur + q.n ≤ z.length

/-- The tokenizer is on a token of the text, and each call of `tokenNext` so far has taken at least one byte. -/
structure Cursor.Sane (z : Bytes) (c : Cursor) : Prop where
  zIn : c.str.zIn = z
  mxIn : c.str.mxIn ≤ z.length
  within : c.str.iCur + c.str.n ≤ c.str.mxIn
  quoted : c.str.eType = .string → Quoted c.str
  calls : ∀ pq ∈ c.calls, Advance z pq.1 pq.2
  count : c.calls.length ≤ if c.str.eType = .eof then c.str.mxIn + 1 else c.str.iCur + c.str.n

variable {z : Bytes} {m : ℕ} {c : Cursor} (junk : ℕ → UInt8)

theorem Cursor.Sane.next (h : c.Sane z) (he : c.str.eType ≠ .eof) (hm : z.length < m) :
    ∃ d, c.next m junk = .ok d ∧ d.str = Xjd1.tokenNext c.str ∧ d.Sane z := by
  have hle : c.str.mxIn ≤ c.str.zIn.length := h.zIn ▸ h.mxIn
  have hmx := h.mxIn
  have hw := h.within
  have hc := h.count
  rw [if_neg he] at hc
  obtain ⟨hz,hx,hin,hf,hq⟩ := tokenNext_moves hle hw
  refine ⟨⟨Xjd1.tokenNext c.str,(c.str,Xjd1.tokenNext c.str)::c.calls⟩,?_,rfl,?_⟩
  · rw [Cursor.next,tokenNext_eq hle hw (by omega)]
    rfl
  · refine ⟨hz.trans h.zIn,hx ▸ hmx,hx ▸ hin,hq,?_,?_⟩
    · intro pq hpq
      rcases List.mem_cons.mp hpq with rfl | hpq
      · exact ⟨he,fun hne => ⟨hf hne,by simp only; omega⟩⟩
      · exact h.calls pq hpq
    · rw [List.length_cons,hx]
      split
      · omega
      · have hlt := hf ‹_›
        simp only
        omega

section Parse

def Ends (z : Bytes) (v : JsonNode R) (q : JsonStr) (x : Run ReadFault (JsonNode R × Cursor)) : Prop :=
  ∃ d, x = .ok (v,d) ∧ d.str = q ∧ d.Sane z

theorem Cursor.Sane.dequote (h : c.Sane z) (hz : 0 ∉ z) (he : c.str.eType = .string) (hm : z.length < m) :
    tokenDequoteString m c.str = .ok (Xjd1.tokenDequoteString c.str) := by
  have hmx := h.mxIn
  have hw := h.within
  exact tokenDequoteString_eq (h.zIn ▸ hz) (by rw [h.zIn]; omega) (h.quoted he) (by omega)

theorem Cursor.Sane.ends (h : c.Sane z) (he : c.str.eType ≠ .eof) (hm : z.length < m) (v : JsonNode R) :
    Ends z v (Xjd1.tokenNext c.str) (do return (v,← c.next m junk)) := by
  obtain ⟨d,hd,hq,hs⟩ := h.next junk he hm
  exact ⟨d,by rw [hd]; rfl,hq,hs⟩

variable [CDouble R]

section Follow
variable (R) (z m) (n : ℕ)

def FollowsJson : Prop := ∀ (c : Cursor) (v : JsonNode R) (q : JsonStr), c.Sane z →
  Xjd1.parseJson n c.str = some (v,q) → Ends z v q (parseJson m junk n c)

def FollowsMembers : Prop := ∀ (c : Cursor) (st : List (Bytes × JsonNode R)) (v : JsonNode R) (q : JsonStr),
  c.Sane z → Xjd1.parseMembers n c.str st = some (v,q) → Ends z v q (parseMembers m junk n c st)

def FollowsElems : Prop := ∀ (c : Cursor) (ar : List (JsonNode R)) (v : JsonNode R) (q : JsonStr),
  c.Sane z → Xjd1.parseElems n c.str ar = some (v,q) → Ends z v q (parseElems m junk n c ar)

end Follow

variable {n : ℕ} {junk}

theorem followsElems_succ (hm : z.length < m) (hJson : FollowsJson R z m junk n) (hElems : FollowsElems R z m junk n) :
    FollowsElems R z m junk (n+1) := by
  intro c ar v q h hp
  rw [Xjd1.parseElems] at hp
  cases ho : Xjd1.parseJson (R := R) n c.str with
  | none => simp [ho] at hp
  | some o =>
    obtain ⟨w,p⟩ := o
    simp only [ho] at hp
    obtain ⟨d,hd,rfl,hs⟩ := hJson c w p h ho
    rw [parseElems,hd,Run.ok_bind]
    simp only
    cases hc : d.str.eType
    case comma =>
      simp only [hc] at hp
      obtain ⟨e,he,hq,hs'⟩ := hs.next junk (by simp [hc]) hm
      rw [← hq] at hp
      show Ends z v q (d.next m junk >>= _)
      rw [he,Run.ok_bind]
      exact hElems e _ v q hs' hp
    case endArray =>
      simp only [hc] at hp
      cases hp
      exact hs.ends junk (by simp [hc]) hm _
    all_goals
      simp only [hc] at hp
      cases hp
      exact ⟨d,rfl,rfl,hs⟩

theorem followsMembers_succ (hz : 0 ∉ z) (hm : z.length < m) (hJson : FollowsJson R z m junk n)
    (hMembers : FollowsMembers R z m junk n) : FollowsMembers R z m junk (n+1) := by
  intro c st v q h hp
  rw [Xjd1.parseMembers] at hp
  rw [parseMembers]
  by_cases hstr : c.str.eType = .string
  · rw [if_pos hstr] at hp
    obtain ⟨c₁,hc₁,hq₁,hs₁⟩ := h.next junk (by simp [hstr]) hm
    rw [if_pos hstr,h.dequote hz hstr hm,Run.ok_bind,hc₁,Run.ok_bind]
    rw [← hq₁] at hp
    by_cases hcolon : c₁.str.eType = .colon
    · obtain ⟨c₂,hc₂,hq₂,hs₂⟩ := hs₁.next junk (by simp [hcolon]) hm
      rw [if_pos hcolon,← hq₂] at hp
      rw [if_pos hcolon,hc₂,Run.ok_bind]
      cases ho : Xjd1.parseJson (R := R) n c₂.str with
      | none => simp [ho] at hp
      | some o =>
        obtain ⟨w,p⟩ := o
        simp only [ho] at hp
        obtain ⟨d,hd,rfl,hs⟩ := hJson c₂ w p hs₂ ho
        rw [hd,Run.ok_bind]
        simp only
        cases hc : d.str.eType
        case comma =>
          simp only [hc] at hp
          obtain ⟨e,he,hq,hs'⟩ := hs.next junk (by simp [hc]) hm
          rw [← hq] at hp
          show Ends z v q (d.next m junk >>= _)
          rw [he,Run.ok_bind]
          exact hMembers e _ v q hs' hp
        case endStruct =>
          simp only [hc] at hp
          cases hp
          exact hs.ends junk (by simp [hc]) hm _
        all_goals
          simp only [hc] at hp
          cases hp
          exact ⟨d,rfl,rfl,hs⟩
    · rw [if_neg hcolon] at hp
      cases hp
      rw [if_neg hcolon]
      exact ⟨c₁,rfl,rfl,hs₁⟩
  · rw [if_neg hstr] at hp
    cases hp
    rw [if_neg hstr]
    exact ⟨c,rfl,rfl,h⟩

theorem followsJson_succ (hz : 0 ∉ z) (hm : z.length < m) (hMembers : FollowsMembers R z m junk n)
    (hElems : FollowsElems R z m junk n) : FollowsJson R z m junk (n+1) := by
  intro c v q h hp
  rw [Xjd1.parseJson] at hp
  rw [parseJson]
  have hnext (he : c.str.eType ≠ .eof) (w : JsonNode R) : Ends z w (Xjd1.tokenNext c.str) (do return (w,← c.next m junk)) :=
    h.ends junk he hm w
  cases he : c.str.eType
  case beginStruct =>
    simp only [he] at hp
    obtain ⟨d,hd,hq,hs⟩ := h.next junk (by simp [he]) hm
    rw [← hq] at hp
    show Ends z v q (c.next m junk >>= _)
    rw [hd,Run.ok_bind]
    by_cases hend : d.str.eType = .endStruct
    · rw [if_pos hend] at hp
      cases hp
      rw [if_pos hend]
      exact ⟨d,rfl,rfl,hs⟩
    · rw [if_neg hend] at hp
      rw [if_neg hend]
      exact hMembers d [] v q hs hp
  case beginArray =>
    simp only [he] at hp
    obtain ⟨d,hd,hq,hs⟩ := h.next junk (by simp [he]) hm
    rw [← hq] at hp
    show Ends z v q (c.next m junk >>= _)
    rw [hd,Run.ok_bind]
    by_cases hend : d.str.eType = .endArray
    · rw [if_pos hend] at hp
      cases hp
      rw [if_pos hend]
      exact hs.ends junk (by simp [hend]) hm _
    · rw [if_neg hend] at hp
      rw [if_neg hend]
      exact hElems d [] v q hs hp
  case string =>
    simp only [he] at hp
    cases hp
    show Ends z _ _ (tokenDequoteString m c.str >>= _)
    rw [h.dequote hz he hm,Run.ok_bind]
    exact hnext (by simp [he]) _
  case real =>
    simp only [he] at hp
    cases hp
    have hmx := h.mxIn
    have hw := h.within
    show Ends z _ _ (atof c.str >>= _)
    rw [atof,if_pos (by rw [h.zIn]; omega),Run.ok_bind]
    exact hnext (by simp [he]) _
  case true =>
    simp only [he] at hp
    cases hp
    exact hnext (by simp [he]) _
  case false =>
    simp only [he] at hp
    cases hp
    exact hnext (by simp [he]) _
  case null =>
    simp only [he] at hp
    cases hp
    exact hnext (by simp [he]) _
  all_goals
    simp only [he] at hp
    cases hp
    exact ⟨c,rfl,rfl,h⟩

theorem parse_follows (hz : 0 ∉ z) (hm : z.length < m) (n : ℕ) :
    FollowsJson R z m junk n ∧ FollowsMembers R z m junk n ∧ FollowsElems R z m junk n := by
  induction n with
  | zero =>
    refine ⟨fun c v q _ h => ?_,fun c st v q _ h => ?_,fun c ar v q _ h => ?_⟩
    · rw [Xjd1.parseJson] at h
      cases h
    · rw [Xjd1.parseMembers] at h
      cases h
    · rw [Xjd1.parseElems] at h
      cases h
  | succ n ih =>
    obtain ⟨hJson,hMembers,hElems⟩ := ih
    exact ⟨followsJson_succ hz hm hMembers hElems,followsMembers_succ hz hm hJson hMembers,
      followsElems_succ hm hJson hElems⟩

end Parse

end Bounded

/-- Whatever the text, the parser ends, reads only the text and its terminator, makes each call of `tokenNext`
before the end of the text, with the end of the token moving forward, and makes no more of them than
the text has bytes, and one. -/
theorem xjd1JsonParse_bounded [CDouble R] {z : Bytes} (hz : 0 ∉ z) (junk : ℕ → UInt8) {m : ℕ}
    (hm : 2*z.length + 2 ≤ m) : ∃ calls, Bounded.xjd1JsonParse m junk z = .ok ((xjd1JsonParse z : JsonNode R),calls) ∧
      (∀ pq ∈ calls, Bounded.Advance z pq.1 pq.2) ∧ calls.length ≤ z.length + 1 := by
  have hmx : xjd1Strlen30 z ≤ z.length := Nat.mod_le _ _
  have hlen : Bounded.strlen z m 0 = .ok z.length := Bounded.strlen_eq hz List.drop_zero (Nat.zero_le _) (by omega)
  have hstart : Bounded.Cursor.Sane z ⟨jsonStr z (xjd1Strlen30 z),[]⟩ :=
    ⟨rfl,hmx,Nat.zero_le _,nofun,fun _ h => absurd h List.not_mem_nil,Nat.zero_le _⟩
  obtain ⟨c,hc,hq,hs⟩ := hstart.next junk nofun (by omega : z.length < m)
  have hleft := left_jsonStr z (xjd1Strlen30 z)
  obtain ⟨o,ho,_⟩ := (parse_total (R := R) (2*xjd1Strlen30 z + 2)).1 _ (by omega : 2*(tokenNext
    (jsonStr z (xjd1Strlen30 z))).left + 1 ≤ _)
  have hv : xjd1JsonParse z = o.1 := by rw [xjd1JsonParse,ho]
  have hom := parseJson_le (by omega : 2*xjd1Strlen30 z + 2 ≤ m) ho
  rw [← hq] at hom
  obtain ⟨d,hd,_,hs'⟩ := (Bounded.parse_follows hz (by omega : z.length < m) m).1 c o.1 o.2 hs hom
  refine ⟨d.calls,?_,hs'.calls,?_⟩
  · rw [Bounded.xjd1JsonParse,hlen,Run.ok_bind,← xjd1Strlen30,hc,Run.ok_bind,hd,hv]
    rfl
  · have hcount := hs'.count
    have hmx' := hs'.mxIn
    have hw := hs'.within
    split at hcount <;> omega

theorem xjd1JsonParse_bounded_broken : ∃ calls,
    Bounded.xjd1JsonParse 10 (fun _ => ch '"') [ch '[',ch '"',ch '\\',ch '"'] =
      .ok ((xjd1JsonParse [ch '[',ch '"',ch '\\',ch '"'] : JsonNode Int),calls) ∧
    (∀ pq ∈ calls, Bounded.Advance [ch '[',ch '"',ch '\\',ch '"'] pq.1 pq.2) ∧ calls.length ≤ 5 :=
  xjd1JsonParse_bounded (by decide) (fun _ => ch '"') (by decide)

end Xjd1
