import Xjd1.Parser.Driver

/-! What the parser has read when it accepts, and a check of its tables. -/
namespace Xjd1
namespace Lempar

open Fueled Fueled.Run Grammar ShiftReduce

section Turns
variable {σ V : Type} {T : Tables} {U : UserCode σ V} {P : List (Production ℕ)} {M : Automaton ℕ ℕ}
  {nterminal start : ℕ} {st es : List (StackEntry V)} {q : ℕ} {s : σ}

variable {see : σ → ℕ × V → σ}

/-- The code of the rules, and the caller who notes each token. -/
def attribution (U : UserCode σ V) (see : σ → ℕ × V → σ) : Attribution ℕ σ V := ⟨U.reduce,see⟩

/-- The symbols on the stack read the tokens from the configuration `c` on up to `ts`. -/
def Parsing (P : List (Production ℕ)) (M : Automaton ℕ ℕ) (A : Attribution ℕ σ V) (c : Config ℕ σ V)
    (pParser : YyParser σ V) (ts : List (ℕ × V)) : Prop :=
  ∃ es q, Stacked M pParser.yystack es q ∧
    Grammar.Reads P A (symbols (es.map key)) c (es.map StackEntry.minor).reverse (pParser.p,ts)

theorem minors_split (es : List (StackEntry V)) (d : ℕ) :
    (es.map StackEntry.minor).reverse = ((es.drop d).map StackEntry.minor).reverse ++ minors es d := by
  rw [minors,← List.reverse_append,← List.map_append,List.take_append_drop]

theorem minors_length {d : ℕ} (hd : d ≤ es.length) : (minors es d).length = d := by
  rw [minors,List.length_reverse,List.length_map,List.length_take,Nat.min_eq_left hd]

/-- The symbols below a reduction and its left-hand side read what the stack has read. -/
theorem reads_reduce (hE : Encodes T P M nterminal start) (h : Stacked M st es q) {r : ℕ} {p : Production ℕ}
    (hr : P[r]? = some p) (hi : M.items q r p.rhs.length) {c : Config ℕ σ V} {ts : List (ℕ × V)}
    (hc : Grammar.Reads P (attribution U see) (symbols (es.map key)) c (es.map StackEntry.minor).reverse
      (s,ts)) :
    Grammar.Reads P (attribution U see) (symbols ((es.drop p.rhs.length).map key) ++ [p.lhs]) c
      (((es.drop p.rhs.length).map StackEntry.minor).reverse ++ [(U.reduce r (minors es p.rhs.length) s).1])
      ((U.reduce r (minors es p.rhs.length) s).2,ts) := by
  obtain ⟨b,-,-,hpath⟩ := h
  obtain ⟨hd,q',vs₁,ws,hvs,hws,-,-,hread⟩ := hpath.reduce hE.valid hr hi hc
  rw [List.length_map] at hd
  rw [minors_split es p.rhs.length] at hvs
  obtain ⟨rfl,rfl⟩ := List.append_inj' hvs ((minors_length hd).trans hws.symm)
  rwa [List.map_drop]

def Leads (P : List (Production ℕ)) (M : Automaton ℕ ℕ) (A : Attribution ℕ σ V) (start : ℕ) (c : Config ℕ σ V)
    (t : ℕ × V) (ts : List (ℕ × V)) : Ended × YyParser σ V → Prop
  | (.shifted,pParser) => ∀ u us, ts = u::us → Parsing P M A c { pParser with p := A.see pParser.p u } ts
  | (.accepted,pParser) => ∃ v, Grammar.Reads P A [start] c [v] (pParser.p,t::ts)
  | _ => True

theorem turn_leads (hE : Encodes T P M nterminal start) {c : Config ℕ σ V} {pParser : YyParser σ V} {t : ℕ × V}
    {ts : List (ℕ × V)} (h : Parsing P M (attribution U see) c pParser (t::ts)) (ht : t.1 < nterminal)
    {r : (Ended × YyParser σ V) ⊕ YyParser σ V} (hr : parseTurn T U t.1 t.2 pParser = .ok r) :
    Sum.elim (Leads P M (attribution U see) start c t ts)
      (fun pParser => Parsing P M (attribution U see) c pParser (t::ts)) r := by
  obtain ⟨es,q,h,hc⟩ := h
  rcases turn_cases (U := U) (s := pParser.p) hE h ht t.2 with
    ⟨q',-,hn,he⟩ | ⟨r',p,q',-,hp,hi,hd,hq',⟨rfl,hl,he⟩ | ⟨q'',hn,he⟩⟩ | he
  · cases hr.symm.trans he
    rcases yyShift_cases T pParser q' t.1 t.2 with he | he
    · rw [Sum.elim_inl,he]
      trivial
    · rw [Sum.elim_inl,he]
      rintro u us rfl
      refine ⟨_,_,h.push t.2 hn,?_⟩
      rw [List.map_cons,symbols_cons,List.map_cons,List.reverse_cons]
      exact .token hc
  · cases hr.symm.trans he
    have hread := reads_reduce hE h hp hi hc
    have hnil := hq'.eq_nil hE.valid
    rw [← List.map_drop,List.map_eq_nil_iff] at hnil
    rw [hnil,hl] at hread
    exact ⟨_,hread⟩
  · cases hr.symm.trans he
    have hread := reads_reduce hE h hp hi hc
    have hdrop := h.drop hd hq'
    rcases whileStack_cases T _ q'' p.lhs _ with he | he
    · rw [he]
      trivial
    · rw [he]
      refine ⟨_,_,hdrop.push _ hn,?_⟩
      rw [List.map_cons,symbols_cons,List.map_cons,List.reverse_cons]
      exact hread
  · cases hr.symm.trans he
    trivial

theorem parse_leads (hE : Encodes T P M nterminal start) {c : Config ℕ σ V} {pParser : YyParser σ V} {t : ℕ × V}
    {ts : List (ℕ × V)} (h : Parsing P M (attribution U see) c (restart U pParser) (t::ts))
    (ht : t.1 < nterminal) {n : ℕ} {r : Ended × YyParser σ V} (hr : parse T U n t.1 t.2 pParser = .ok r) :
    Leads P M (attribution U see) start c t ts r := by
  refine Run.loop_inv (P := fun pParser => Parsing P M (attribution U see) c pParser (t::ts))
    (fun pParser r h hr => ?_) h hr
  have hl := turn_leads hE h ht hr
  refine ⟨?_,?_⟩
  · rintro b rfl
    exact hl
  · rintro s' rfl
    exact hl

theorem parseAll_append (T : Tables) (U : UserCode σ V) (see : σ → ℕ × V → σ) (n : ℕ) (ts us : List (ℕ × V))
    (pParser : YyParser σ V) : parseAll T U see n (ts ++ us) pParser =
      (parseAll T U see n ts pParser >>= fun r => parseAll T U see n us r.2 >>= fun r' => .ok (r.1 ++ r'.1,r'.2)) := by
  induction ts generalizing pParser with
  | nil =>
    rw [List.nil_append,parseAll,ok_bind]
    cases parseAll T U see n us pParser <;> rfl
  | cons t ts ih =>
    rw [List.cons_append,parseAll,parseAll]
    cases parse T U n t.1 t.2 { pParser with p := see pParser.p t } with
    | stop x => rfl
    | more => rfl
    | ok r =>
      simp only [ok_bind,ih]
      cases parseAll T U see n ts r.2 with
      | stop x => rfl
      | more => rfl
      | ok r' =>
        simp only [ok_bind]
        cases parseAll T U see n us r'.2 <;> rfl

theorem parseAll_safe (see : σ → ℕ × V → σ) (hE : Encodes T P M nterminal start) (e : Ended)
    {pParser : YyParser σ V} (h : Ready M e pParser) {ts : List (ℕ × V)} (hts : ∀ t ∈ ts, t.1 < nterminal) (n : ℕ) (x : Stop) :
    Avoids x (fun r => r.1.length = ts.length ∧ Ready M (r.1.getLastD e) r.2)
      (parseAll T U see n ts pParser) := by
  induction ts generalizing e pParser with
  | nil => exact ⟨rfl,h⟩
  | cons t ts ih =>
    have hnoted : Ready M e { pParser with p := see pParser.p t } := h
    rw [parseAll]
    refine (parse_safe hE e hnoted (hts t (List.mem_cons_self ..)) t.2 n x).bind fun r _ hr => ?_
    refine (ih r.1 hr fun t ht => hts t (List.mem_cons_of_mem _ ht)).bind fun r' _ hr' => ?_
    refine ⟨congrArg Nat.succ hr'.1,?_⟩
    rw [List.getLastD_cons]
    exact hr'.2

def isToken (nterminal a : ℕ) : Bool := decide (a < nterminal)

def noted (see : σ → ℕ × V → σ) (s : σ) : List (ℕ × V) → Config ℕ σ V
  | [] => (s,[])
  | t::ts => (see s t,t::ts)

theorem restart_stacked (h : OnPath M (⟨st,s⟩ : YyParser σ V)) : restart U ⟨st,s⟩ = ⟨st,s⟩ := by
  obtain ⟨es,q,h⟩ := h
  rw [restart,List.isEmpty_eq_false_iff.mpr h.ne_nil]
  rfl

/-- A run whose calls push every token but the last, for which the parser accepts. -/
theorem parseAll_reads (hE : Encodes T P M nterminal start) {c : Config ℕ σ V} {us : List (ℕ × V)} {t : ℕ × V}
    (hts : ∀ u ∈ us ++ [t], u.1 < nterminal) {n : ℕ} {pParser pParser' : YyParser σ V}
    (h : ∀ u us', us ++ [t] = u::us' →
      Parsing P M (attribution U see) c (restart U { pParser with p := see pParser.p u }) (u::us'))
    (hr : parseAll T U see n (us ++ [t]) pParser =
      .ok (List.replicate us.length .shifted ++ [.accepted],pParser')) :
    ∃ v, Grammar.Reads P (attribution U see) [start] c [v] (pParser'.p,[t]) := by
  induction us generalizing pParser with
  | nil =>
    obtain ⟨⟨e,p₁⟩,hcall,hrest⟩ := bind_eq_ok.mp hr
    have hl := parse_leads hE (h t [] rfl) (hts t (List.mem_singleton_self t)) hcall
    cases hrest
    exact hl
  | cons u us ih =>
    rw [List.cons_append] at hts h hr
    obtain ⟨⟨e,p₁⟩,hcall,hrest⟩ := bind_eq_ok.mp hr
    obtain ⟨⟨es,p₂⟩,htail,heq⟩ := bind_eq_ok.mp hrest
    rw [List.length_cons,List.replicate_succ,List.cons_append] at heq
    injection heq with heq
    injection heq with he hp
    injection he with he hes
    subst he hes hp
    have hl := parse_leads hE (h u (us ++ [t]) rfl) (hts u (List.mem_cons_self ..)) hcall
    refine ih (fun u hu => hts u (List.mem_cons_of_mem _ hu)) (fun u' us' hu => ?_) htail
    have hpar := hl u' us' hu
    rw [hu] at hpar
    have honpath : OnPath M (⟨p₁.yystack,see p₁.p u'⟩ : YyParser σ V) := by
      obtain ⟨es,q,hst,-⟩ := hpar
      exact ⟨es,q,hst⟩
    rw [restart_stacked honpath]
    exact hpar

/-- The driver never fails an assertion and reads nothing outside of its tables and its
stack, whatever the tokens are. Where it accepts, the tokens since its stack was last
emptied, the last one apart, are a sentence of the grammar, whose value and effects are
those of the rules in the order in which the sentence is read. -/
theorem parseAll_sentence (hE : Encodes T P M nterminal start) (U : UserCode σ V) (see : σ → ℕ × V → σ) (n : ℕ)
    (s : σ) (ts : List (ℕ × V)) (hts : ∀ t ∈ ts, t.1 < nterminal) :
    (∀ x, parseAll T U see n ts ⟨[],s⟩ ≠ .stop x) ∧
    ∀ ts₁ us t es₁ pParser, ts = ts₁ ++ (us ++ [t]) → es₁.length = ts₁.length →
      (∀ e ∈ es₁.getLast?, e.empties) → parseAll T U see n ts ⟨[],s⟩ =
        .ok (es₁ ++ (List.replicate us.length .shifted ++ [.accepted]),pParser) →
      ∃ p₁ v, parseAll T U see n ts₁ ⟨[],s⟩ = .ok (es₁,⟨[],p₁⟩) ∧
        Grammar.Reads P (attribution U see) [start] (noted see p₁ (us ++ [t])) [v] (pParser.p,[t]) ∧
        us.map Prod.fst ∈ (toContextFree P (isToken nterminal) start).language := by
  have hready : Ready M .accepted (⟨[],s⟩ : YyParser σ V) := rfl
  refine ⟨fun x => (parseAll_safe see hE _ hready hts n x).ne,?_⟩
  rintro ts₁ us t es₁ pParser rfl hlen hlast hr
  rw [parseAll_append] at hr
  obtain ⟨⟨es,p₁⟩,h₁,hr⟩ := bind_eq_ok.mp hr
  obtain ⟨⟨es',p₂⟩,h₂,hr⟩ := bind_eq_ok.mp hr
  injection hr with hr
  injection hr with hes hp
  subst hp
  have hsafe := parseAll_safe (U := U) see hE _ hready (fun t ht => hts t (List.mem_append_left _ ht)) n
    Stop.undefined
  rw [h₁] at hsafe
  obtain ⟨rfl,rfl⟩ := List.append_inj hes (hsafe.1.trans hlen.symm)
  have hnil : p₁.yystack = [] := by
    have hready' := hsafe.2
    rw [Ready] at hready'
    rwa [if_pos] at hready'
    cases hl : es.getLast? with
    | none =>
      rw [List.getLast?_eq_none_iff.mp hl]
      rfl
    | some e =>
      rw [List.getLastD_eq_getLast?,hl]
      exact hlast e hl
  obtain ⟨st,s₁⟩ := p₁
  cases hnil
  have hts' : ∀ u ∈ us ++ [t], u.1 < nterminal := fun u hu => hts u (List.mem_append_right _ hu)
  obtain ⟨v,hv⟩ := parseAll_reads (c := noted see s₁ (us ++ [t])) hE hts' (fun u us' hu => by
    rw [hu]
    exact ⟨[],M.init,⟨_,rfl,hE.init.symm,.nil⟩,.nil _⟩) h₂
  refine ⟨s₁,v,h₁,hv,?_⟩
  have hnoted : (noted see s₁ (us ++ [t])).2 = us ++ [t] := by
    cases us <;> rfl
  have hlhs : ∀ p ∈ P, isToken nterminal p.lhs = false :=
    fun p hp => decide_eq_false (Nat.not_lt.mpr (hE.lhs_ge p hp))
  obtain ⟨w,hw,hmem⟩ := hv.mem_language hlhs (decide_eq_false (Nat.not_lt.mpr hE.start_ge))
    (fun u hu => decide_eq_true (hts' u (hnoted ▸ hu)))
  rw [hnoted] at hw
  rwa [List.append_cancel_right hw]

end Turns

section Check
variable (T : Tables) (P : List (Production ℕ)) (edges items : List (ℕ × ℕ × ℕ))

def actionIs (q a act : ℕ) : Bool :=
  (decide (act < T.yyNState) && (decide (a ≠ 0) && decide ((ofLists 0 edges items).next q a = some act))) ||
  ((decide (T.yyNState ≤ act) && decide (act < T.yyNState + T.yyNRule)) &&
    (P[act - T.yyNState]?).any fun p => decide ((q,act - T.yyNState,p.rhs.length) ∈ items)) ||
  decide (act = T.yyNState + T.yyNRule)

def shiftIs (q a : ℕ) : Bool :=
  match yyFindShiftAction T q a with
  | .ok act => actionIs T P edges items q a act
  | _ => false

/-- The tables agree with the lists of an automaton: every condition can be evaluated. -/
structure CheckedTables (nterminal start : ℕ) : Prop where
  lists : Checked P start 0 edges items
  pos : 0 < T.yyNState
  next_lt : ∀ e ∈ edges, e.2.2 < T.yyNState
  lhs_ge : ∀ p ∈ P, nterminal ≤ p.lhs
  start_ge : nterminal ≤ start
  rules : T.yyRuleInfo = P.map fun p => (p.lhs,p.rhs.length)
  shift : ∀ q < T.yyNState, ∀ a < nterminal, shiftIs T P edges items q a
  goto : ∀ e ∈ edges, nterminal ≤ e.2.1 → yyFindReduceAction T e.1 e.2.1 = .ok e.2.2
  accept : yyFindReduceAction T 0 start = .ok (T.yyNState + T.yyNRule + 1)

variable {T P edges items}

theorem means_of_actionIs {q a act : ℕ} (h : actionIs T P edges items q a act) :
    Means T P (ofLists 0 edges items) q a act := by
  rcases Bool.or_eq_true_iff.mp h with h | h
  · rcases Bool.or_eq_true_iff.mp h with h | h
    · simp only [Bool.and_eq_true,decide_eq_true_eq] at h
      exact .shift h.2.1 h.2.2
    · simp only [Bool.and_eq_true,decide_eq_true_eq,Option.any_eq_true_iff_get] at h
      obtain ⟨⟨hle,hlt⟩,hsome,hmem⟩ := h
      have hr := Option.some_get hsome
      have hm : Means T P (ofLists 0 edges items) q a (T.yyNState + (act - T.yyNState)) :=
        .reduce hr.symm (by omega) hmem
      rwa [Nat.add_sub_cancel' hle] at hm
  · rw [of_decide_eq_true h]
    exact .error

theorem CheckedTables.encodes {nterminal start : ℕ} (h : CheckedTables T P edges items nterminal start) :
    Encodes T P (ofLists 0 edges items) nterminal start where
  valid := h.lists.valid
  init := rfl
  pos := h.pos
  next_lt q a q' hn := h.next_lt _ (mem_edges hn)
  lhs_ge := h.lhs_ge
  start_ge := h.start_ge
  rules r p hr := by rw [h.rules,List.getElem?_map,hr]; rfl
  shift q hq a ha := by
    have hs := h.shift q hq a ha
    rw [shiftIs] at hs
    split at hs
    · rename_i act hact
      exact ⟨act,hact,means_of_actionIs hs⟩
    · exact absurd hs Bool.false_ne_true
  goto q q' p hp hn := h.goto _ (mem_edges hn) (h.lhs_ge p hp)
  accept := h.accept

end Check

/-- A command `(((X;` of any depth: `input ::= cmd SEMI`, `cmd ::= LP cmd` and `cmd ::= ID`. -/
def nestedRules : List (Production ℕ) := [⟨4,[[5],[3]]⟩,⟨5,[[1],[5]]⟩,⟨5,[[2]]⟩]

def nestedEdges : List (ℕ × ℕ × ℕ) := [(0,1,1),(0,2,2),(0,5,3),(1,1,1),(1,2,2),(1,5,5),(3,3,4)]

def nestedItems : List (ℕ × ℕ × ℕ) :=
  [(0,0,0),(0,1,0),(0,2,0),(1,1,1),(1,1,0),(1,2,0),(2,2,1),(3,0,1),(4,0,2),(5,1,2)]

/-- Tables for it, with a stack of four entries. -/
def nestedTables : Tables where
  yyNoCode := 7
  yyNState := 6
  yyNRule := 3
  yyStackDepth := 4
  yyAction := [4,1,2,6,10,3,5]
  yyLookahead := [3,1,2,0,4,5,5]
  yyShiftUseDflt := -4
  yyShiftCount := 4
  yyShiftOfst := [0,0,-4,-3,3]
  yyReduceUseDflt := -1
  yyReduceCount := 1
  yyReduceOfst := [0,1]
  yyDefault := [9,9,8,9,9,7]
  yyRuleInfo := [(4,2),(5,2),(5,1)]

theorem nestedTables_checked : CheckedTables nestedTables nestedRules nestedEdges nestedItems 4 4 where
  lists := ⟨by decide,by decide,by decide,by decide⟩
  pos := by decide
  next_lt := by decide
  lhs_ge := by decide
  start_ge := by decide
  rules := by decide
  shift := by decide
  goto := by decide
  accept := by decide

def appliedRules : UserCode (List ℕ) ℕ where
  yyzerominor := 0
  reduce r _ s := (r,s ++ [r])
  syntaxError _ _ s := s

/-- The fourth `LP` empties the stack, and the parser accepts what comes after it. -/
theorem parseAll_sentence_nested :
    (∀ x, parseAll nestedTables appliedRules (fun s _ => s) 9
      [(1,0),(1,0),(1,0),(1,0),(2,0),(3,0),(0,0)] ⟨[],[]⟩ ≠ .stop x) ∧
    ∃ p₁ v, parseAll nestedTables appliedRules (fun s _ => s) 9 [(1,0),(1,0),(1,0),(1,0)] ⟨[],[]⟩ =
        .ok ([.shifted,.shifted,.shifted,.overflowed],⟨[],p₁⟩) ∧
      Grammar.Reads nestedRules (attribution appliedRules fun s _ => s) [4]
        (noted (fun s _ => s) p₁ [(2,0),(3,0),(0,0)]) [v] ([2,0],[(0,0)]) ∧
      [2,3] ∈ (toContextFree nestedRules (isToken 4) 4).language := by
  obtain ⟨hsafe,hread⟩ := parseAll_sentence nestedTables_checked.encodes appliedRules (fun s _ => s) 9 []
    [(1,0),(1,0),(1,0),(1,0),(2,0),(3,0),(0,0)] (by decide)
  exact ⟨hsafe,hread [(1,0),(1,0),(1,0),(1,0)] [(2,0),(3,0)] (0,0) [.shifted,.shifted,.shifted,.overflowed]
    ⟨[],[2,0]⟩ rfl rfl (by decide) rfl⟩

end Lempar
end Xjd1
