import Xjd1.Json.Lexing
import Xjd1.Stmt.Tokenize

/-! Rendered strings as literals of a statement. The renderer puts a backslash
before a quote, but the statement tokenizer knows only doubled quotes. -/
namespace Xjd1

theorem escape_ne_quote {c d : UInt8} (hc : c ≠ ch '"') (h : d ∈ escape c) : d ≠ ch '"' := by
  rw [escape] at h
  split at h
  · rcases List.mem_cons.mp h with rfl | h
    · decide
    · rwa [List.mem_singleton.mp h]
  · rwa [List.mem_singleton.mp h]

theorem escape_ne_zero {c d : UInt8} (hc : c ≠ 0) (h : d ∈ escape c) : d ≠ 0 := by
  rw [escape] at h
  split at h
  · rcases List.mem_cons.mp h with rfl | h
    · decide
    · rwa [List.mem_singleton.mp h]
  · rwa [List.mem_singleton.mp h]

theorem escape_head (c : UInt8) (s t : Bytes) : ((c::s).flatMap escape ++ t).head? ≠ some (ch '"') := by
  rw [List.flatMap_cons,escape]
  split
  · exact fun h => by cases h
  · rename_i h
    push Not at h
    exact fun hc => h.1 (Option.some.inj hc)

theorem scanQuoted_append {a : Bytes} (h : ∀ c ∈ a, c ≠ 0 ∧ c ≠ ch '"') (t : Bytes) :
    scanQuoted (a ++ t) = a.length + scanQuoted t := by
  induction a with
  | nil => simp
  | cons c a ih =>
    obtain ⟨⟨h0,hq⟩,h⟩ := List.forall_mem_cons.mp h
    rw [List.cons_append,scanQuoted.eq_def]
    simp only [if_neg h0,if_neg hq,ih h,List.length_cons]
    omega

theorem scanQuoted_quote {t : Bytes} (h : t.head? ≠ some (ch '"')) : scanQuoted (ch '"' :: t) = 0 := by
  cases t with
  | nil => rfl
  | cons d t =>
    have hd : d ≠ ch '"' := fun hd => h (congrArg some hd)
    rw [scanQuoted.eq_def]
    simp only [if_neg (show ch '"' ≠ 0 by decide),if_true,if_neg hd]

theorem scanQuoted_render {s t : Bytes} (hs : 0 ∉ s) (ht : t.head? ≠ some (ch '"')) (hq : ch '"' ∉ s) :
    scanQuoted (s.flatMap escape ++ ch '"' :: t) = (s.flatMap escape).length := by
  rw [scanQuoted_append,scanQuoted_quote ht,Nat.add_zero]
  intro d hd
  obtain ⟨c,hc,hd⟩ := List.mem_flatMap.mp hd
  exact ⟨escape_ne_zero (fun e => hs (e ▸ hc)) hd,escape_ne_quote (fun e => hq (e ▸ hc)) hd⟩

/-- With a quote in the string, the scan ends at it or runs past the closing quote. -/
theorem scanQuoted_ne {s : Bytes} (t : Bytes) (hs : 0 ∉ s) (hq : ch '"' ∈ s) :
    scanQuoted (s.flatMap escape ++ ch '"' :: t) ≠ (s.flatMap escape).length := by
  induction s with
  | nil => cases hq
  | cons c s ih =>
    rw [List.flatMap_cons,List.append_assoc,List.length_append]
    have hs' : 0 ∉ s := fun h => hs (List.mem_cons_of_mem c h)
    by_cases hc : c = ch '"'
    · subst hc
      have hback : ∀ c ∈ [ch '\\'], c ≠ 0 ∧ c ≠ ch '"' := List.forall_mem_singleton.mpr ⟨by decide,by decide⟩
      have hscan := scanQuoted_append hback (ch '"' :: (s.flatMap escape ++ ch '"' :: t))
      have hcat : escape (ch '"') ++ (s.flatMap escape ++ ch '"' :: t) =
          [ch '\\'] ++ ch '"' :: (s.flatMap escape ++ ch '"' :: t) := rfl
      rw [hcat,hscan]
      cases s with
      | nil =>
        have hpair : scanQuoted (ch '"' :: ch '"' :: t) = scanQuoted t + 2 := rfl
        have hlen : (escape (ch '"')).length = 2 := rfl
        simp only [List.flatMap_nil,List.nil_append,hpair,hlen,List.length_nil,List.length_singleton]
        omega
      | cons d s =>
        have hlen : (escape (ch '"')).length = 2 := rfl
        rw [scanQuoted_quote (escape_head d s _),hlen,List.length_singleton]
        omega
    · have hm : ch '"' ∈ s := (List.mem_cons.mp hq).resolve_left fun h => hc h.symm
      have hc0 : c ≠ 0 := fun h => hs (h ▸ List.mem_cons_self)
      rw [scanQuoted_append fun d hd => ⟨escape_ne_zero hc0 hd,escape_ne_quote hc hd⟩]
      exact fun h => ih hs' hm (Nat.add_left_cancel h)

/-- A rendered string reads back as a literal exactly when it has no quote in it. -/
theorem renderString_literal_iff (s t : Bytes) (hs : 0 ∉ s) (ht : t.head? ≠ some (ch '"')) :
    (xjd1GetToken (renderString s ++ t) = some (.string,(renderString s).length) ∧
      tokenStr ((renderString s ++ t).take (renderString s).length) = s) ↔ ch '"' ∉ s := by
  have hlen : (renderString s).length = (s.flatMap escape).length + 2 := by simp [renderString]
  have htok : xjd1GetToken (renderString s ++ t) =
      some (.string,scanQuoted (s.flatMap escape ++ ch '"' :: t) + 2) := by
    rw [renderString,List.cons_append,List.append_assoc,xjd1GetToken]
    rfl
  have hscan : xjd1GetToken (renderString s ++ t) = some (.string,(renderString s).length) ↔
      scanQuoted (s.flatMap escape ++ ch '"' :: t) = (s.flatMap escape).length := by
    rw [htok,hlen,Option.some.injEq,Prod.mk.injEq,Nat.add_right_cancel_iff]
    exact and_iff_right rfl
  rw [hscan]
  constructor
  · rintro ⟨h,_⟩ hq
    exact scanQuoted_ne t hs hq h
  · intro hq
    refine ⟨scanQuoted_render hs ht hq,?_⟩
    rw [List.take_left,tokenStr,renderString,List.head?_cons,if_pos rfl,List.drop_one,List.tail_cons]
    exact dequote_escape s

/-- `a"b` is printed as a literal that ends after its `a`. -/
theorem renderString_literal_quote : ¬ (xjd1GetToken (renderString [ch 'a',ch '"',ch 'b'] ++ []) =
      some (.string,(renderString [ch 'a',ch '"',ch 'b']).length) ∧
    tokenStr ((renderString [ch 'a',ch '"',ch 'b'] ++ []).take (renderString [ch 'a',ch '"',ch 'b']).length) =
      [ch 'a',ch '"',ch 'b']) := by
  decide

/-- `a\b` is printed as a literal that reads back, also before a semicolon. -/
theorem renderString_literal_backslash :
    (xjd1GetToken (renderString [ch 'a',ch '\\',ch 'b'] ++ [ch ';']) =
        some (.string,(renderString [ch 'a',ch '\\',ch 'b']).length) ∧
      tokenStr ((renderString [ch 'a',ch '\\',ch 'b'] ++ [ch ';']).take
        (renderString [ch 'a',ch '\\',ch 'b']).length) = [ch 'a',ch '\\',ch 'b']) ↔
      ch '"' ∉ [ch 'a',ch '\\',ch 'b'] :=
  renderString_literal_iff _ _ (by decide) (by decide)

end Xjd1
