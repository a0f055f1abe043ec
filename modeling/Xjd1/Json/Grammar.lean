import Xjd1.Json.RoundTrip

/-! The texts that are JSON, over the tokens of the tokenizer: one value, and
nothing after it. -/
namespace Xjd1

variable {R : Type}

/-- The tokens of a text, up to its end or a NUL byte. -/
def tokensIn : ℕ → Bytes → List JsonTok
  | 0, _ => []
  | n+1, s =>
    let s := s.dropWhile xjd1Isspace
    if (lexToken s).1 = .eof then [] else (lexToken s).1 :: tokensIn n (s.drop (lexToken s).2)

def tokens (s : Bytes) : List JsonTok := tokensIn (s.length+1) s

def JsonStr.ahead (p : JsonStr) : List JsonTok :=
  if p.eType = .eof then [] else p.eType :: tokens p.unread

theorem length_after_token {s : Bytes} (h : (lexToken (s.dropWhile xjd1Isspace)).1 ≠ .eof) :
    ((s.dropWhile xjd1Isspace).drop (lexToken (s.dropWhile xjd1Isspace)).2).length < s.length := by
  have hle := (List.dropWhile_suffix (l := s) xjd1Isspace).length_le
  cases hd : s.dropWhile xjd1Isspace with
  | nil =>
    rw [hd] at h
    exact absurd rfl h
  | cons c t =>
    rw [hd] at h hle
    have hpos := lexToken_pos c t h
    rw [List.length_drop]
    simp only [List.length_cons] at hle ⊢
    omega

theorem tokensIn_eq {n m : ℕ} {s : Bytes} (hn : s.length < n) (hm : s.length < m) : tokensIn n s = tokensIn m s := by
  induction n generalizing m s with
  | zero => omega
  | succ n ih =>
    cases m with
    | zero => omega
    | succ m =>
      rw [tokensIn,tokensIn]
      split
      · rfl
      · rename_i heof
        have hlen := length_after_token heof
        exact congrArg _ (ih (by omega) (by omega))

theorem tokens_eq (s : Bytes) : tokens s =
    if (lexToken (s.dropWhile xjd1Isspace)).1 = .eof then []
    else (lexToken (s.dropWhile xjd1Isspace)).1 ::
      tokens ((s.dropWhile xjd1Isspace).drop (lexToken (s.dropWhile xjd1Isspace)).2) := by
  rw [tokens,tokensIn]
  split
  · rfl
  · rename_i heof
    have hlen := length_after_token heof
    rw [tokens,tokensIn_eq hlen (Nat.lt_succ_self _)]

/-- `tokenNext` steps to the next token of the text. -/
theorem ahead_tokenNext (p : JsonStr) : (tokenNext p).ahead = tokens p.unread := by
  rw [tokens_eq,tokenNext]
  have hw := List.takeWhile_append_dropWhile (p := xjd1Isspace) (l := p.unread)
  cases hd : p.unread.dropWhile xjd1Isspace with
  | nil => simp [JsonStr.ahead,lexToken]
  | cons c t =>
    simp only [List.isEmpty_cons,Bool.false_eq_true,if_false,JsonStr.ahead]
    split
    · rfl
    · congr 2
      rw [hd] at hw
      have hdrop : p.unread.drop (p.unread.takeWhile xjd1Isspace).length = c::t :=
        (congrArg (List.drop _) hw).symm.trans List.drop_left
      rw [← hdrop,List.drop_drop]
      simp only [JsonStr.unread,List.drop_drop]
      congr 1
      omega

theorem ahead_eq {p : JsonStr} (h : p.eType ≠ .eof) : p.ahead = p.eType :: (tokenNext p).ahead := by
  rw [ahead_tokenNext,JsonStr.ahead,if_neg h]

def JsonTok.isAtom : JsonTok → Bool
  | .false | .true | .real | .null | .string => Bool.true
  | _ => Bool.false

/-- The JSON values, without what the tokens stand for. The members of a struct
are given by their values, as every label is a string. -/
inductive JsonTree
  | atom (t : JsonTok) (ht : t.isAtom)
  | array (elems : List JsonTree)
  | struct (members : List JsonTree)

mutual
def JsonTree.toks : JsonTree → List JsonTok
  | .atom t _ => [t]
  | .array [] => [.beginArray,.endArray]
  | .array (v::vs) => .beginArray :: (v.toks ++ elemToks vs)
  | .struct [] => [.beginStruct,.endStruct]
  | .struct (v::vs) => .beginStruct :: .string :: .colon :: (v.toks ++ memberToks vs)

def elemToks : List JsonTree → List JsonTok
  | [] => [.endArray]
  | v::vs => .comma :: (v.toks ++ elemToks vs)

def memberToks : List JsonTree → List JsonTok
  | [] => [.endStruct]
  | v::vs => .comma :: .string :: .colon :: (v.toks ++ memberToks vs)
end

/-- The text is one JSON value with optional white space around its tokens. -/
def IsJson (z : Bytes) : Prop := ∃ v : JsonTree, tokens z = v.toks

end Xjd1
