import Mathlib.Computability.ContextFreeGrammar
import Mathlib.Data.List.Sections

/-! Context-free grammars whose productions offer a choice of symbols at each place,
and what is read of an input by them. The value of a production is computed once the
token after it is known, which is the order in which a parser with one token of
lookahead computes it. -/
namespace Grammar

structure Production (α : Type) where
  lhs : α
  rhs : List (List α)

variable {α σ V : Type}

/-- What is done when a production is complete, and when the next token is seen. -/
structure Attribution (α σ V : Type) where
  act : ℕ → List V → σ → V × σ
  see : σ → α × V → σ

abbrev Config (α σ V : Type) := σ × List (α × V)

/-- A string of symbols is read between two configurations, with a value for each symbol. -/
inductive Reads (P : List (Production α)) (A : Attribution α σ V) :
    List α → Config α σ V → List V → Config α σ V → Prop
  | nil (c : Config α σ V) : Reads P A [] c [] c
  | token {Γ : List α} {c : Config α σ V} {vs : List V} {s : σ} {a : α} {v : V} {t : α × V} {ts : List (α × V)}
      (h : Reads P A Γ c vs (s,(a,v)::t::ts)) : Reads P A (Γ ++ [a]) c (vs ++ [v]) (A.see s t,t::ts)
  | production {Γ Δ : List α} {c c' : Config α σ V} {vs ws : List V} {s : σ} {ts : List (α × V)} {r : ℕ}
      {p : Production α} (h : Reads P A Γ c vs c') (hΔ : Reads P A Δ c' ws (s,ts)) (hr : P[r]? = some p)
      (hp : List.Forall₂ (· ∈ ·) Δ p.rhs) :
      Reads P A (Γ ++ [p.lhs]) c (vs ++ [(A.act r ws s).1]) ((A.act r ws s).2,ts)

namespace Reads

variable {P : List (Production α)} {A : Attribution α σ V} {Γ Δ : List α} {c c' : Config α σ V} {vs : List V}

theorem length_eq (h : Reads P A Γ c vs c') : vs.length = Γ.length := by
  induction h with
  | nil => rfl
  | token _ ih => rw [List.length_append,List.length_append,ih]; rfl
  | production _ _ _ _ ih _ => rw [List.length_append,List.length_append,ih]; rfl

/-- What is read by two strings one after the other. -/
theorem split (h : Reads P A (Γ ++ Δ) c vs c') :
    ∃ vs₁ vs₂ c₁, vs = vs₁ ++ vs₂ ∧ Reads P A Γ c vs₁ c₁ ∧ Reads P A Δ c₁ vs₂ c' := by
  generalize hΘ : Γ ++ Δ = Θ at h
  induction h generalizing Δ with
  | nil c =>
    obtain ⟨rfl,rfl⟩ := List.append_eq_nil_iff.mp hΘ
    exact ⟨[],[],c,rfl,.nil c,.nil c⟩
  | @token Θ c vs s a v t ts h ih =>
    rcases List.eq_nil_or_concat Δ with rfl | ⟨Δ,b,rfl⟩
    · rw [List.append_nil] at hΘ
      subst hΘ
      exact ⟨_,[],_,(List.append_nil _).symm,.token h,.nil _⟩
    · rw [List.concat_eq_append,← List.append_assoc] at hΘ
      obtain ⟨rfl,hb⟩ := List.append_inj' hΘ rfl
      cases hb
      obtain ⟨vs₁,vs₂,c₁,rfl,h₁,h₂⟩ := ih rfl
      refine ⟨vs₁,vs₂ ++ [v],c₁,List.append_assoc _ _ _,h₁,?_⟩
      rw [List.concat_eq_append]
      exact .token h₂
  | @production Θ Δ' c c'' vs ws s ts r p h hΔ hr hp ih _ =>
    rcases List.eq_nil_or_concat Δ with rfl | ⟨Δ,b,rfl⟩
    · rw [List.append_nil] at hΘ
      subst hΘ
      exact ⟨_,[],_,(List.append_nil _).symm,.production h hΔ hr hp,.nil _⟩
    · rw [List.concat_eq_append,← List.append_assoc] at hΘ
      obtain ⟨rfl,hb⟩ := List.append_inj' hΘ rfl
      cases hb
      obtain ⟨vs₁,vs₂,c₁,rfl,h₁,h₂⟩ := ih rfl
      refine ⟨vs₁,vs₂ ++ [_],c₁,List.append_assoc _ _ _,h₁,?_⟩
      rw [List.concat_eq_append]
      exact .production h₂ hΔ hr hp

end Reads

section Language
variable [DecidableEq α] (P : List (Production α)) (isTerminal : α → Bool)

def symbol (a : α) : Symbol α α := if isTerminal a then .terminal a else .nonterminal a

/-- The grammar in which each choice of symbols is a rule of its own. -/
abbrev toContextFree (start : α) : ContextFreeGrammar α where
  NT := α
  initial := start
  rules := (P.flatMap fun p => p.rhs.sections.map fun w => ⟨p.lhs,w.map (symbol isTerminal)⟩).toFinset

variable {P isTerminal} {A : Attribution α σ V} {start : α}

theorem produces (start : α) {r : ℕ} {p : Production α} {Δ : List α} (hr : P[r]? = some p)
    (hl : isTerminal p.lhs = false) (hp : List.Forall₂ (· ∈ ·) Δ p.rhs) :
    (toContextFree P isTerminal start).Produces [symbol isTerminal p.lhs] (Δ.map (symbol isTerminal)) := by
  refine ⟨⟨p.lhs,Δ.map (symbol isTerminal)⟩,?_,?_⟩
  · exact List.mem_toFinset.mpr (List.mem_flatMap.mpr
      ⟨p,List.mem_of_getElem? hr,List.mem_map.mpr ⟨Δ,List.mem_sections.mpr hp,rfl⟩⟩)
  · rw [symbol,hl,if_neg Bool.false_ne_true]
    have h := ContextFreeRule.Rewrites.head (r := ⟨p.lhs,Δ.map (symbol isTerminal)⟩) []
    rwa [List.append_nil] at h

/-- The symbols derive the tokens that are read by them. -/
theorem Reads.derives (start : α) {Γ : List α} {c c' : Config α σ V} {vs : List V} (h : Reads P A Γ c vs c')
    (hP : ∀ p ∈ P, isTerminal p.lhs = false) (hc : ∀ t ∈ c.2, isTerminal t.1) :
    ∃ w, c.2 = w ++ c'.2 ∧ (toContextFree P isTerminal start).Derives (Γ.map (symbol isTerminal))
      (w.map fun t => .terminal t.1) := by
  induction h with
  | nil c => exact ⟨[],rfl,.refl _⟩
  | @token Γ c vs s a v t ts _ ih =>
    obtain ⟨w,hw,hd⟩ := ih hc
    refine ⟨w ++ [(a,v)],by rw [hw,List.append_assoc]; rfl,?_⟩
    have ha : symbol isTerminal a = .terminal a := if_pos (hc (a,v) (hw ▸ by simp))
    rw [List.map_append,List.map_append,List.map_singleton,List.map_singleton,ha]
    exact hd.append_right _
  | @production Γ Δ c c' vs ws s ts r p _ _ hr hp ih ih' =>
    obtain ⟨w,hw,hd⟩ := ih hc
    obtain ⟨w',hw',hd'⟩ := ih' fun t ht => hc t (hw ▸ List.mem_append_right _ ht)
    refine ⟨w ++ w',by rw [hw,hw',List.append_assoc],?_⟩
    have hstep := produces start hr (hP p (List.mem_of_getElem? hr)) hp
    rw [List.map_append,List.map_append,List.map_singleton]
    exact (hd.append_right _).trans ((hstep.single.trans hd').append_left _)

/-- What the start symbol reads is a sentence. -/
theorem Reads.mem_language {c c' : Config α σ V} {vs : List V} (h : Reads P A [start] c vs c')
    (hP : ∀ p ∈ P, isTerminal p.lhs = false) (hs : isTerminal start = false)
    (hc : ∀ t ∈ c.2, isTerminal t.1) :
    ∃ w, c.2 = w ++ c'.2 ∧ w.map Prod.fst ∈ (toContextFree P isTerminal start).language := by
  obtain ⟨w,hw,hd⟩ := h.derives start hP hc
  refine ⟨w,hw,?_⟩
  rw [List.map_singleton,symbol,hs,if_neg Bool.false_ne_true] at hd
  rw [ContextFreeGrammar.mem_language_iff,List.map_map]
  exact hd

end Language

end Grammar
