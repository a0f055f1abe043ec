import Mathlib.Data.List.DropRight
import Mathlib.Data.List.Sort
import Mathlib.Data.List.Zip
import Xjd1.Parser.ActTab
import Xjd1.Parser.Sentences

/-! The tables that `ReportTable` of `lemon.c` writes, and what the driver finds in them. -/
namespace Xjd1
namespace Generator

open Fueled Lempar Grammar ShiftReduce

/-- What an action does; the last is a conflict, or one that was resolved or compressed away. -/
inductive EAction
  | shift (stp : ℕ) | reduce (rp : ℕ) | error | accept | notUsed
  deriving DecidableEq, Repr

structure Action where
  sp : ℕ
  type : EAction
  deriving DecidableEq, Repr

/-- The states in their order, each with its actions. The symbol `nsymbol` is the one
that stands for the default action. -/
structure Lemon where
  nrule : ℕ
  nsymbol : ℕ
  nterminal : ℕ
  sorted : List (List Action)
  deriving DecidableEq, Repr

structure AxSet where
  stp : ℕ
  isTkn : Bool
  nAction : ℕ
  iOrder : ℕ
  deriving DecidableEq, Repr

variable (lemp : Lemon)

def Lemon.nstate : ℕ := lemp.sorted.length

def computeAction (ap : Action) : ℤ :=
  match ap.type with
  | .shift stp => stp
  | .reduce rp => rp + lemp.nstate
  | .error => lemp.nstate + lemp.nrule
  | .accept => lemp.nstate + lemp.nrule + 1
  | .notUsed => -1

/-- The number of actions on terminals or on nonterminals, as `ResortStates` counts them. -/
def countAct (isTkn : Bool) (ap : List Action) : ℕ :=
  ap.countP fun a => decide (0 ≤ computeAction lemp a ∧
    if isTkn then a.sp < lemp.nterminal else lemp.nterminal ≤ a.sp ∧ a.sp < lemp.nsymbol)

def iDflt (ap : List Action) : ℤ :=
  ap.foldl (fun d a => if 0 ≤ computeAction lemp a ∧ ¬ a.sp < lemp.nterminal ∧ ¬ a.sp < lemp.nsymbol
    then computeAction lemp a else d) (lemp.nstate + lemp.nrule)

def entered (isTkn : Bool) (ap : List Action) : List LookaheadAction :=
  (ap.filter fun a => decide (
    (if isTkn then a.sp < lemp.nterminal else lemp.nterminal ≤ a.sp ∧ a.sp ≠ lemp.nsymbol) ∧
    0 ≤ computeAction lemp a)).map fun a => ⟨a.sp,computeAction lemp a⟩

def axsetCompare (p₁ p₂ : AxSet) : ℤ :=
  if (p₂.nAction : ℤ) - p₁.nAction = 0 then (p₂.iOrder : ℤ) - p₁.iOrder else (p₂.nAction : ℤ) - p₁.nAction

def axsets : List AxSet :=
  lemp.sorted.zipIdx.flatMap fun s =>
    [⟨s.2,true,countAct lemp true s.1,2 * s.2⟩,⟨s.2,false,countAct lemp false s.1,2 * s.2 + 1⟩]

def ax : List AxSet :=
  ((axsets lemp).insertionSort fun p₁ p₂ => axsetCompare p₁ p₂ ≤ 0).takeWhile fun p => decide (0 < p.nAction)

def axActions (p : AxSet) : List LookaheadAction := entered lemp p.isTkn (lemp.sorted.getD p.stp [])

def pActtab : List ℤ × Acttab := packAll ((ax lemp).map (axActions lemp)) acttabAlloc

def allPlaced : Bool := findsAll ((ax lemp).map (axActions lemp)) acttabAlloc

def iOfst (isTkn : Bool) (i : ℕ) : Option ℤ :=
  (((ax lemp).zip (pActtab lemp).1).find? fun u => decide (u.1.stp = i ∧ u.1.isTkn = isTkn)).map Prod.snd

def mnOfst (isTkn : Bool) : ℤ :=
  ((((ax lemp).zip (pActtab lemp).1).filter fun u => u.1.isTkn == isTkn).map Prod.snd).foldl min 0

def offsets (isTkn : Bool) : List (Option ℤ) :=
  ((List.range lemp.nstate).map (iOfst lemp isTkn)).rdropWhile Option.isNone

def ofstTable (isTkn : Bool) : List ℤ := (offsets lemp isTkn).map fun o => o.getD (mnOfst lemp isTkn - 1)

def reportTable (yyStackDepth : ℕ) (yyRuleInfo : List (ℕ × ℕ)) : Tables where
  yyNoCode := lemp.nsymbol + 1
  yyNState := lemp.nstate
  yyNRule := lemp.nrule
  yyStackDepth := yyStackDepth
  yyAction := ((pActtab lemp).2.aAction.take (pActtab lemp).2.nAction).map fun u =>
    if u.action < 0 then lemp.nstate + lemp.nrule + 2 else u.action.toNat
  yyLookahead := ((pActtab lemp).2.aAction.take (pActtab lemp).2.nAction).map fun u =>
    if u.lookahead < 0 then lemp.nsymbol else u.lookahead.toNat
  yyShiftUseDflt := mnOfst lemp true - 1
  yyShiftCount := (offsets lemp true).length - 1
  yyShiftOfst := ofstTable lemp true
  yyReduceUseDflt := mnOfst lemp false - 1
  yyReduceCount := (offsets lemp false).length - 1
  yyReduceOfst := ofstTable lemp false
  yyDefault := lemp.sorted.map fun ap => (iDflt lemp ap).toNat
  yyRuleInfo := yyRuleInfo

def actionOn (ap : List Action) (la : ℕ) : ℕ :=
  match (entered lemp true ap).find? fun u => decide (u.lookahead = (la : ℤ)) with
  | some u => u.action.toNat
  | none => (iDflt lemp ap).toNat

/-- Once conflicts are resolved, one action at most is left for each symbol of a state. -/
structure Resolved : Prop where
  symbols : lemp.nterminal ≤ lemp.nsymbol
  sp_le : ∀ ap ∈ lemp.sorted, ∀ a ∈ ap, a.sp ≤ lemp.nsymbol
  single : ∀ ap ∈ lemp.sorted, ((ap.filter fun a => decide (0 ≤ computeAction lemp a)).map Action.sp).Nodup

section Sets
variable {lemp}

theorem mem_entered {isTkn : Bool} {ap : List Action} {u : LookaheadAction} :
    u ∈ entered lemp isTkn ap ↔ ∃ a ∈ ap,
      ((if isTkn then a.sp < lemp.nterminal else lemp.nterminal ≤ a.sp ∧ a.sp ≠ lemp.nsymbol) ∧
        0 ≤ computeAction lemp a) ∧ ⟨a.sp,computeAction lemp a⟩ = u := by
  simp only [entered,List.mem_map,List.mem_filter,decide_eq_true_eq,and_assoc]

theorem countAct_eq (hR : Resolved lemp) (isTkn : Bool) {ap : List Action} (hap : ap ∈ lemp.sorted) :
    countAct lemp isTkn ap = (entered lemp isTkn ap).length := by
  rw [countAct,entered,List.length_map,← List.countP_eq_length_filter]
  refine List.countP_congr fun a ha => ?_
  have hle := hR.sp_le ap hap a ha
  rw [decide_eq_true_eq,decide_eq_true_eq,and_comm]
  refine and_congr ?_ Iff.rfl
  cases isTkn with
  | true => exact Iff.rfl
  | false =>
    simp only [Bool.false_eq_true,if_false]
    omega

theorem entered_set (hR : Resolved lemp) {isTkn : Bool} {ap : List Action} (hap : ap ∈ lemp.sorted)
    (hne : entered lemp isTkn ap ≠ []) : ActionSet (entered lemp isTkn ap) := by
  refine ⟨hne,fun u hu => ?_,?_⟩
  · obtain ⟨a,-,-,rfl⟩ := mem_entered.mp hu
    exact Int.natCast_nonneg _
  · have hcast : ((ap.filter fun a => decide (0 ≤ computeAction lemp a)).map fun a => (a.sp : ℤ)).Nodup := by
      have h := (hR.single ap hap).map (f := fun n : ℕ => (n : ℤ)) Nat.cast_injective
      rwa [List.map_map] at h
    rw [entered,List.map_map]
    refine hcast.sublist (List.Sublist.map _ ?_)
    refine List.monotone_filter_right _ fun a ha => ?_
    simp only [decide_eq_true_eq] at ha ⊢
    exact ha.2

/-- Of a list with the largest counts first, a prefix has all that are not empty. -/
theorem mem_takeWhile {l : List AxSet} (h : l.Pairwise fun p₁ p₂ => axsetCompare p₁ p₂ ≤ 0) {p : AxSet} :
    p ∈ l.takeWhile (fun p => decide (0 < p.nAction)) ↔ p ∈ l ∧ 0 < p.nAction := by
  induction l with
  | nil => simp
  | cons q l ih =>
    obtain ⟨hq,hl⟩ := List.pairwise_cons.mp h
    by_cases h0 : 0 < q.nAction
    · rw [List.takeWhile_cons_of_pos (by simpa using h0),List.mem_cons,List.mem_cons,ih hl]
      constructor
      · rintro (rfl | ⟨hm,hp⟩)
        · exact ⟨.inl rfl,h0⟩
        · exact ⟨.inr hm,hp⟩
      · rintro ⟨rfl | hm,hp⟩
        · exact .inl rfl
        · exact .inr ⟨hm,hp⟩
    · rw [List.takeWhile_cons_of_neg (by simpa using h0)]
      refine ⟨fun hm => absurd hm List.not_mem_nil,fun ⟨hm,hp⟩ => ?_⟩
      rcases List.mem_cons.mp hm with rfl | hm
      · exact absurd hp h0
      · have hc := hq p hm
        rw [axsetCompare] at hc
        split at hc <;> omega

instance : Std.Total fun p₁ p₂ : AxSet => axsetCompare p₁ p₂ ≤ 0 where
  total p₁ p₂ := by
    simp only [axsetCompare]
    split_ifs <;> omega

instance : IsTrans AxSet fun p₁ p₂ => axsetCompare p₁ p₂ ≤ 0 where
  trans p₁ p₂ p₃ h₁ h₂ := by
    simp only [axsetCompare] at *
    split_ifs at * <;> omega

theorem mem_ax {p : AxSet} : p ∈ ax lemp ↔ p ∈ axsets lemp ∧ 0 < p.nAction := by
  rw [ax,mem_takeWhile (List.pairwise_insertionSort _ _),List.mem_insertionSort]

theorem mem_axsets {p : AxSet} : p ∈ axsets lemp ↔ ∃ ap, lemp.sorted[p.stp]? = some ap ∧
    p = ⟨p.stp,p.isTkn,countAct lemp p.isTkn ap,if p.isTkn then 2 * p.stp else 2 * p.stp + 1⟩ := by
  rw [axsets,List.mem_flatMap]
  constructor
  · rintro ⟨⟨ap,i⟩,hs,hp⟩
    have hi := List.mem_zipIdx_iff_getElem?.mp hs
    rcases List.mem_cons.mp hp with rfl | hp
    · exact ⟨ap,hi,rfl⟩
    · obtain rfl := List.mem_singleton.mp hp
      exact ⟨ap,hi,rfl⟩
  · rintro ⟨ap,hi,hp⟩
    refine ⟨(ap,p.stp),List.mem_zipIdx_iff_getElem?.mpr hi,?_⟩
    obtain ⟨stp,isTkn,n,o⟩ := p
    cases isTkn with
    | true => exact List.mem_cons.mpr (.inl hp)
    | false => exact List.mem_cons_of_mem _ (List.mem_singleton.mpr hp)

theorem axActions_eq {p : AxSet} {ap : List Action} (h : lemp.sorted[p.stp]? = some ap) :
    axActions lemp p = entered lemp p.isTkn ap := by
  rw [axActions,List.getD_eq_getElem?_getD,h,Option.getD_some]

theorem axActions_set (hR : Resolved lemp) {p : AxSet} (hp : p ∈ ax lemp) : ActionSet (axActions lemp p) := by
  obtain ⟨hp,h0⟩ := mem_ax.mp hp
  obtain ⟨ap,hs,heq⟩ := mem_axsets.mp hp
  have hap := List.mem_of_getElem? hs
  rw [heq,countAct_eq hR p.isTkn hap] at h0
  rw [axActions_eq hs]
  exact entered_set hR hap (List.ne_nil_of_length_pos h0)

theorem axSets (hR : Resolved lemp) : ∀ S ∈ (ax lemp).map (axActions lemp), ActionSet S := by
  intro S hS
  obtain ⟨p,hp,rfl⟩ := List.mem_map.mp hS
  exact axActions_set hR hp

theorem pActtab_length : (pActtab lemp).1.length = (ax lemp).length := by
  rw [pActtab,packAll_length,List.length_map]

theorem pActtab_packed (hR : Resolved lemp) (hf : allPlaced lemp = true) :
    Packed (pActtab lemp).2 ((pActtab lemp).1.zip ((ax lemp).map (axActions lemp))).reverse := by
  have h := packAll_packed _ acttabAlloc_packed rfl (axSets hR) hf
  rwa [List.append_nil] at h

variable {isTkn : Bool} {i : ℕ} {ap : List Action}

theorem iOfst_some {o : ℤ} (h : iOfst lemp isTkn i = some o) :
    ∃ p, (p,o) ∈ (ax lemp).zip (pActtab lemp).1 ∧ p.stp = i ∧ p.isTkn = isTkn := by
  obtain ⟨⟨p,o'⟩,hfind,rfl⟩ := Option.map_eq_some_iff.mp h
  have hp := List.find?_some hfind
  rw [decide_eq_true_eq] at hp
  exact ⟨p,List.mem_of_find?_eq_some hfind,hp⟩

theorem iOfst_placed (hi : lemp.sorted[i]? = some ap) {o : ℤ} (h : iOfst lemp isTkn i = some o) :
    (o,entered lemp isTkn ap) ∈ (pActtab lemp).1.zip ((ax lemp).map (axActions lemp)) := by
  obtain ⟨p,hp,rfl,rfl⟩ := iOfst_some h
  rw [List.zip_map_right,List.mem_map,← axActions_eq hi]
  refine ⟨(o,p),?_,rfl⟩
  rw [← List.zip_swap,List.mem_map]
  exact ⟨(p,o),hp,rfl⟩

theorem iOfst_none (hR : Resolved lemp) (hi : lemp.sorted[i]? = some ap) (h : iOfst lemp isTkn i = none) :
    entered lemp isTkn ap = [] := by
  by_contra hne
  let p : AxSet := ⟨i,isTkn,countAct lemp isTkn ap,if isTkn then 2 * i else 2 * i + 1⟩
  have hp : p ∈ ax lemp := by
    refine mem_ax.mpr ⟨mem_axsets.mpr ⟨ap,hi,rfl⟩,?_⟩
    dsimp only [p]
    rw [countAct_eq hR isTkn (List.mem_of_getElem? hi)]
    exact List.length_pos_iff.mpr hne
  obtain ⟨j,hj,hpj⟩ := List.getElem_of_mem hp
  have hj' : j < (pActtab lemp).1.length := by rwa [pActtab_length]
  have hnone := List.find?_eq_none.mp (Option.map_eq_none_iff.mp h) (p,(pActtab lemp).1[j]) (by
    rw [← hpj,← List.getElem_zip (h := by rw [List.length_zip]; omega)]
    exact List.getElem_mem _)
  exact hnone (decide_eq_true ⟨rfl,rfl⟩)

theorem foldl_min_le (l : List ℤ) (a : ℤ) : l.foldl min a ≤ a ∧ ∀ x ∈ l, l.foldl min a ≤ x := by
  induction l generalizing a with
  | nil => exact ⟨Int.le_refl _,fun _ h => absurd h List.not_mem_nil⟩
  | cons y l ih =>
    obtain ⟨h₁,h₂⟩ := ih (min a y)
    rw [List.foldl_cons]
    refine ⟨by omega,fun x hx => ?_⟩
    rcases List.mem_cons.mp hx with rfl | hx
    · omega
    · exact h₂ x hx

theorem mnOfst_le {o : ℤ} (h : iOfst lemp isTkn i = some o) : mnOfst lemp isTkn ≤ o := by
  obtain ⟨p,hp,-,hb⟩ := iOfst_some h
  refine (foldl_min_le _ _).2 o (List.mem_map.mpr ⟨(p,o),List.mem_filter.mpr ⟨hp,?_⟩,rfl⟩)
  exact beq_iff_eq.mpr hb

theorem offsets_spec (isTkn : Bool) (hi : i < lemp.nstate) :
    (offsets lemp isTkn)[i]? = some (iOfst lemp isTkn i) ∨
      (offsets lemp isTkn).length ≤ i ∧ iOfst lemp isTkn i = none := by
  have happ := List.rdropWhile_append_rtakeWhile (p := Option.isNone)
    (l := (List.range lemp.nstate).map (iOfst lemp isTkn))
  have hget : ((List.range lemp.nstate).map (iOfst lemp isTkn))[i]? = some (iOfst lemp isTkn i) := by
    rw [List.getElem?_map,List.getElem?_range hi,Option.map_some]
  rw [← happ,← offsets] at hget
  by_cases hlt : i < (offsets lemp isTkn).length
  · rw [List.getElem?_append_left hlt] at hget
    exact .inl hget
  · rw [List.getElem?_append_right (by omega)] at hget
    have hnone := List.mem_rtakeWhile_imp (List.mem_of_getElem? hget)
    exact .inr ⟨by omega,Option.isNone_iff_eq_none.mp hnone⟩

section Found
variable (depth : ℕ) (rules : List (ℕ × ℕ)) {k : ℤ}

theorem yyAction_length (hR : Resolved lemp) (hf : allPlaced lemp = true) :
    (reportTable lemp depth rules).yyAction.length = (pActtab lemp).2.nAction := by
  have hle := (pActtab_packed hR hf).le
  rw [reportTable,List.length_map,List.length_take]
  omega

theorem entry_slot (hR : Resolved lemp) (hf : allPlaced lemp = true)
    (h0 : 0 ≤ k) (hk : k < (pActtab lemp).2.nAction) :
    entry (reportTable lemp depth rules).yyLookahead k = .ok (if (slot (pActtab lemp).2.aAction k).lookahead < 0
      then lemp.nsymbol else (slot (pActtab lemp).2.aAction k).lookahead.toNat) ∧
    entry (reportTable lemp depth rules).yyAction k = .ok (if (slot (pActtab lemp).2.aAction k).action < 0
      then lemp.nstate + lemp.nrule + 2 else (slot (pActtab lemp).2.aAction k).action.toNat) := by
  have hle := (pActtab_packed hR hf).le
  have hget : ((pActtab lemp).2.aAction.take (pActtab lemp).2.nAction)[k.toNat]? =
      some (slot (pActtab lemp).2.aAction k) := by
    rw [List.getElem?_take_of_lt (by omega),slot,if_neg (by omega),List.getD_eq_getElem?_getD,
      List.getElem?_eq_getElem (by omega),Option.getD_some]
  simp only [entry,if_neg (Int.not_lt.mpr h0),reportTable,List.getElem?_map,hget,Option.map_some,
    Run.ofOption_some]
  trivial

/-- At the offset of a set the tables have the actions of the set and no other ones. -/
theorem entry_set (hR : Resolved lemp) (hf : allPlaced lemp = true)
    (hi : lemp.sorted[i]? = some ap) {o : ℤ} (ho : iOfst lemp isTkn i = some o) {la : ℕ}
    (hla : la < lemp.nsymbol) :
    (∀ u ∈ entered lemp isTkn ap, u.lookahead = la →
      ¬ (o + la < 0 ∨ (reportTable lemp depth rules).yyAction.length ≤ o + la) ∧
      entry (reportTable lemp depth rules).yyLookahead (o + la) = .ok la ∧
      entry (reportTable lemp depth rules).yyAction (o + la) = .ok u.action.toNat) ∧
    ((∀ u ∈ entered lemp isTkn ap, u.lookahead ≠ la) →
      ¬ (o + la < 0 ∨ (reportTable lemp depth rules).yyAction.length ≤ o + la) →
      ∃ la', entry (reportTable lemp depth rules).yyLookahead (o + la) = .ok la' ∧ la' ≠ la) := by
  have hin : ∀ {u : LookaheadAction}, 0 ≤ u.lookahead →
      (slot (pActtab lemp).2.aAction (o + u.lookahead) = u ↔ u ∈ entered lemp isTkn ap) :=
    packAll_lookup (axSets hR) hf (iOfst_placed hi ho)
  rw [yyAction_length depth rules hR hf]
  constructor
  · rintro u hu hul
    have hslot := (hin (by omega)).mpr hu
    rw [hul] at hslot
    have h0 : 0 ≤ o + la := slot_getElem (a := (pActtab lemp).2.aAction) (by rw [hslot]; omega)
    have hlt : o + la < (pActtab lemp).2.nAction := by
      by_contra hge
      have hfree := (pActtab_packed hR hf).free (o + la) (by omega)
      rw [hslot] at hfree
      omega
    have hact : 0 ≤ u.action := by
      obtain ⟨a,-,⟨-,hc⟩,rfl⟩ := mem_entered.mp hu
      exact hc
    obtain ⟨h₁,h₂⟩ := entry_slot depth rules hR hf h0 hlt
    rw [h₁,h₂,hslot,if_neg (by omega),if_neg (by omega),hul,Int.toNat_natCast]
    exact ⟨by omega,rfl,rfl⟩
  · intro hnone hin'
    obtain ⟨h₁,-⟩ := entry_slot depth rules (k := o + la) hR hf (by omega) (by omega)
    refine ⟨_,h₁,fun heq => ?_⟩
    split at heq
    · omega
    · -- A used slot at the offset is an entry of the set.
      rename_i hneg
      have hslot : (slot (pActtab lemp).2.aAction (o + la)).lookahead = la := by omega
      exact hnone _ ((hin (by omega)).mp (by rw [hslot])) hslot

end Found

/-- The driver finds in the tables the action of the state for each terminal, and after a
reduction that for the nonterminal, when every set found a place. -/
theorem reportTable_finds (lemp : Lemon) (yyStackDepth : ℕ) (yyRuleInfo : List (ℕ × ℕ)) (hR : Resolved lemp)
    (hf : allPlaced lemp = true) (i : ℕ) (ap : List Action)
    (hi : lemp.sorted[i]? = some ap) :
    (∀ la < lemp.nterminal,
      yyFindShiftAction (reportTable lemp yyStackDepth yyRuleInfo) i la = .ok (actionOn lemp ap la)) ∧
    ∀ a ∈ ap, 0 ≤ computeAction lemp a → lemp.nterminal ≤ a.sp → a.sp < lemp.nsymbol →
      yyFindReduceAction (reportTable lemp yyStackDepth yyRuleInfo) i a.sp = .ok
        (computeAction lemp a).toNat := by
  have hlt : i < lemp.nstate := (List.getElem?_eq_some_iff.mp hi).1
  have hdflt : entry (reportTable lemp yyStackDepth yyRuleInfo).yyDefault i = .ok (iDflt lemp ap).toNat := by
    simp only [entry,reportTable,if_neg (Int.not_lt.mpr (Int.natCast_nonneg i)),Int.toNat_natCast,
      List.getElem?_map,hi,
      Option.map_some,Run.ofOption_some]
  have hofst : ∀ isTkn {o}, (offsets lemp isTkn)[i]? = some o →
      entry (ofstTable lemp isTkn) i = .ok (o.getD (mnOfst lemp isTkn - 1)) := by
    intro isTkn o ho
    simp only [entry,ofstTable,if_neg (Int.not_lt.mpr (Int.natCast_nonneg i)),Int.toNat_natCast,
      List.getElem?_map,ho,
      Option.map_some,Run.ofOption_some]
  constructor
  · intro la hla
    have hsym := hR.symbols
    unfold yyFindShiftAction
    rw [hdflt]
    rcases offsets_spec true hlt with hin | ⟨hout,hnone⟩
    · have hlen := (List.getElem?_eq_some_iff.mp hin).1
      have hcount : ¬ (reportTable lemp yyStackDepth yyRuleInfo).yyShiftCount < i := by
        simp only [reportTable]
        omega
      rw [if_neg hcount]
      change (entry (ofstTable lemp true) i >>= _) = _
      rw [hofst true hin,Run.ok_bind]
      cases ho : iOfst lemp true i with
      | none =>
        have hdef : mnOfst lemp true - 1 = (reportTable lemp yyStackDepth yyRuleInfo).yyShiftUseDflt := rfl
        rw [Option.getD_none,if_pos hdef,actionOn,iOfst_none hR hi ho,List.find?_nil]
      | some o =>
        have hmn := mnOfst_le ho
        have hlt' : la < lemp.nsymbol := by omega
        obtain ⟨hmem,hnot⟩ := entry_set yyStackDepth yyRuleInfo hR hf hi ho hlt'
        have hdef : ¬ o = (reportTable lemp yyStackDepth yyRuleInfo).yyShiftUseDflt := by
          simp only [reportTable]
          omega
        have hcode : ¬ la = (reportTable lemp yyStackDepth yyRuleInfo).yyNoCode := by
          simp only [reportTable]
          omega
        rw [Option.getD_some,if_neg hdef,if_neg hcode,actionOn]
        cases hfind : (entered lemp true ap).find? fun u => decide (u.lookahead = (la : ℤ)) with
        | some u =>
          have hla' : u.lookahead = la := by simpa using List.find?_some hfind
          obtain ⟨hb,h₁,h₂⟩ := hmem u (List.mem_of_find?_eq_some hfind) hla'
          rw [if_neg hb,h₁,Run.ok_bind,if_pos rfl,h₂]
        | none =>
          split
          · rfl
          · rename_i hb
            obtain ⟨la',h₁,hne⟩ := hnot (fun u hu => by simpa using List.find?_eq_none.mp hfind u hu) hb
            rw [h₁,Run.ok_bind,if_neg hne]
    · have hcount : (reportTable lemp yyStackDepth yyRuleInfo).yyShiftCount < i := by
        simp only [reportTable]
        omega
      rw [if_pos hcount,actionOn,iOfst_none hR hi hnone,List.find?_nil]
  · intro a ha h0 hge hsp
    have hmem : (⟨a.sp,computeAction lemp a⟩ : LookaheadAction) ∈ entered lemp false ap :=
      mem_entered.mpr ⟨a,ha,⟨⟨hge,by omega⟩,h0⟩,rfl⟩
    have hne : iOfst lemp false i ≠ none := by
      intro hnone
      rw [iOfst_none hR hi hnone] at hmem
      exact absurd hmem List.not_mem_nil
    obtain ⟨o,ho⟩ := Option.ne_none_iff_exists'.mp hne
    have hin := (offsets_spec false hlt).resolve_right fun h => hne h.2
    have hlen := (List.getElem?_eq_some_iff.mp hin).1
    have hmn := mnOfst_le ho
    obtain ⟨hb,h₁,h₂⟩ := (entry_set yyStackDepth yyRuleInfo hR hf hi ho hsp).1 _ hmem rfl
    unfold yyFindReduceAction
    have hcount : ¬ (reportTable lemp yyStackDepth yyRuleInfo).yyReduceCount < i := by
      simp only [reportTable]
      omega
    have hcode : ¬ (o = (reportTable lemp yyStackDepth yyRuleInfo).yyReduceUseDflt ∨
        a.sp = (reportTable lemp yyStackDepth yyRuleInfo).yyNoCode) := by
      simp only [reportTable]
      omega
    rw [if_neg hcount]
    change (entry (ofstTable lemp false) i >>= _) = _
    rw [hofst false hin,Run.ok_bind,ho,Option.getD_some,if_neg hcode,if_neg hb,h₁,Run.ok_bind,if_pos rfl,h₂]

/-- The states are those of an automaton for the grammar `P`: what the actions do is what
the edges and the items say. -/
structure Describes (lemp : Lemon) (P : List (Production ℕ)) (M : Automaton ℕ ℕ) (start : ℕ) : Prop where
  valid : M.Valid P start
  init : M.init = 0
  pos : 0 < lemp.nstate
  nrule : P.length = lemp.nrule
  next_lt : ∀ q a q', M.next q a = some q' → q' < lemp.nstate
  lhs : ∀ p ∈ P, lemp.nterminal ≤ p.lhs ∧ p.lhs < lemp.nsymbol
  top : lemp.nterminal ≤ start ∧ start < lemp.nsymbol
  shift : ∀ q ap, lemp.sorted[q]? = some ap → ∀ a q', ⟨a,.shift q'⟩ ∈ ap → a < lemp.nterminal →
    a ≠ 0 ∧ M.next q a = some q'
  dflt : ∀ ap ∈ lemp.sorted, ∀ q', ⟨lemp.nsymbol,.shift q'⟩ ∉ ap
  reduce : ∀ q ap, lemp.sorted[q]? = some ap → ∀ a r, ⟨a,.reduce r⟩ ∈ ap →
    ∃ p, P[r]? = some p ∧ M.items q r p.rhs.length
  accept : ∀ ap ∈ lemp.sorted, ∀ a, ⟨a,.accept⟩ ∈ ap → lemp.nterminal ≤ a ∧ a < lemp.nsymbol
  goto : ∀ q q', ∀ p ∈ P, M.next q p.lhs = some q' → ∃ ap, lemp.sorted[q]? = some ap ∧ ⟨p.lhs,.shift q'⟩ ∈ ap
  done : ∃ ap, lemp.sorted[0]? = some ap ∧ ⟨start,.accept⟩ ∈ ap

section Describes
variable {P : List (Production ℕ)} {M : Automaton ℕ ℕ} {start q : ℕ} {ap : List Action} {depth : ℕ}
  {rules : List (ℕ × ℕ)}

/-- An action on a terminal or on the symbol for the default is what the automaton has. -/
theorem means_action (hR : Resolved lemp) (hD : Describes lemp P M start) (hq : lemp.sorted[q]? = some ap)
    {a : Action}
    (ha : a ∈ ap) (h0 : 0 ≤ computeAction lemp a) {la : ℕ} (hla : la < lemp.nterminal)
    (hsp : a.sp = la ∨ lemp.nsymbol ≤ a.sp) :
    Means (reportTable lemp depth rules) P M q la (computeAction lemp a).toNat := by
  have hmem := List.mem_of_getElem? hq
  have hsym := hR.symbols
  have hle := hR.sp_le ap hmem a ha
  obtain ⟨sp,type⟩ := a
  dsimp only at hsp hle
  cases type with
  | shift q' =>
    rcases hsp with rfl | hsp
    · obtain ⟨hne,hn⟩ := hD.shift q ap hq sp q' ha hla
      exact .shift hne hn
    · obtain rfl : sp = lemp.nsymbol := by omega
      exact absurd ha (hD.dflt ap hmem q')
  | reduce r =>
    obtain ⟨p,hp,hi⟩ := hD.reduce q ap hq sp r ha
    have hr : r < lemp.nrule := hD.nrule ▸ (List.getElem?_eq_some_iff.mp hp).1
    have heq : (computeAction lemp ⟨sp,.reduce r⟩).toNat = (reportTable lemp depth rules).yyNState + r := by
      simp only [computeAction,reportTable]
      omega
    rw [heq]
    exact .reduce hp hr hi
  | error =>
    have heq : (computeAction lemp ⟨sp,.error⟩).toNat =
        (reportTable lemp depth rules).yyNState + (reportTable lemp depth rules).yyNRule := by
      simp only [computeAction,reportTable]
      omega
    rw [heq]
    exact .error
  | accept =>
    have hacc := hD.accept ap hmem sp ha
    omega
  | notUsed => exact absurd h0 (by simp [computeAction])

/-- The default action is an error or one of the actions on the symbol for it. -/
theorem iDflt_cases (lemp : Lemon) (ap : List Action) : iDflt lemp ap = lemp.nstate + lemp.nrule ∨
    ∃ a ∈ ap, 0 ≤ computeAction lemp a ∧ lemp.nsymbol ≤ a.sp ∧ iDflt lemp ap = computeAction lemp a := by
  unfold iDflt
  induction ap using List.reverseRecOn with
  | nil => exact .inl rfl
  | append_singleton ap a ih =>
    rw [List.foldl_append,List.foldl_cons,List.foldl_nil]
    split
    · rename_i h
      exact .inr ⟨a,List.mem_append_right _ (List.mem_singleton_self a),h.1,Nat.not_lt.mp h.2.2,rfl⟩
    · rcases ih with ih | ⟨b,hb,hrest⟩
      · exact .inl ih
      · exact .inr ⟨b,List.mem_append_left _ hb,hrest⟩

theorem means_actionOn (hR : Resolved lemp) (hD : Describes lemp P M start) (hq : lemp.sorted[q]? = some ap)
    {la : ℕ}
    (hla : la < lemp.nterminal) : Means (reportTable lemp depth rules) P M q la (actionOn lemp ap la) := by
  unfold actionOn
  split
  · rename_i u hfind
    have hu : u.lookahead = la := by simpa using List.find?_some hfind
    obtain ⟨a,ha,⟨-,h0⟩,rfl⟩ := mem_entered.mp (List.mem_of_find?_eq_some hfind)
    exact means_action hR hD hq ha h0 hla (.inl (by dsimp only at hu; omega))
  · rcases iDflt_cases lemp ap with heq | ⟨a,ha,h0,hsp,heq⟩
    · have hnat : (iDflt lemp ap).toNat =
          (reportTable lemp depth rules).yyNState + (reportTable lemp depth rules).yyNRule := by
        simp only [heq,reportTable]
        omega
      rw [hnat]
      exact .error
    · rw [heq]
      exact means_action hR hD hq ha h0 hla (.inr hsp)

/-- The tables that are written for the states of an automaton encode it, when every set
of actions found a place in the action table. -/
theorem reportTable_encodes (hR : Resolved lemp) (hD : Describes lemp P M start)
    (hf : allPlaced lemp = true) (yyStackDepth : ℕ) :
    Encodes (reportTable lemp yyStackDepth (P.map fun p => (p.lhs,p.rhs.length))) P M lemp.nterminal start where
  valid := hD.valid
  init := hD.init
  pos := hD.pos
  next_lt := hD.next_lt
  lhs_ge p hp := (hD.lhs p hp).1
  start_ge := hD.top.1
  rules r p hp := by simp only [reportTable,List.getElem?_map,hp,Option.map_some]
  shift q hq a ha := by
    have hget : lemp.sorted[q]? = some lemp.sorted[q] := List.getElem?_eq_getElem hq
    exact ⟨_,(reportTable_finds lemp _ _ hR hf q _ hget).1 a ha,means_actionOn hR hD hget ha⟩
  goto q q' p hp hn := by
    obtain ⟨ap,hq,ha⟩ := hD.goto q q' p hp hn
    obtain ⟨hge,hlt⟩ := hD.lhs p hp
    exact (reportTable_finds lemp _ _ hR hf q ap hq).2 _ ha (Int.natCast_nonneg q') hge hlt
  accept := by
    obtain ⟨ap,hq,ha⟩ := hD.done
    have h := (reportTable_finds lemp yyStackDepth (P.map fun p => (p.lhs,p.rhs.length)) hR hf 0 ap hq).2 _ ha
      (by simp only [computeAction]; omega) hD.top.1 hD.top.2
    rw [h]
    congr 1

end Describes

/-- What the tables give the driver: for each state and terminal the action of the state or its
default, for each nonterminal after a reduction its action. Where the states are those of an
automaton for a grammar, the tables encode it. -/
theorem reportTable_gives (hR : Resolved lemp) (hf : allPlaced lemp = true) (yyStackDepth : ℕ) :
    (∀ yyRuleInfo i ap, lemp.sorted[i]? = some ap →
      (∀ la < lemp.nterminal,
        yyFindShiftAction (reportTable lemp yyStackDepth yyRuleInfo) i la = .ok (actionOn lemp ap la)) ∧
      ∀ a ∈ ap, 0 ≤ computeAction lemp a → lemp.nterminal ≤ a.sp → a.sp < lemp.nsymbol →
        yyFindReduceAction (reportTable lemp yyStackDepth yyRuleInfo) i a.sp = .ok
          (computeAction lemp a).toNat) ∧
    ∀ (P : List (Production ℕ)) (M : Automaton ℕ ℕ) (start : ℕ), Describes lemp P M start →
      Encodes (reportTable lemp yyStackDepth (P.map fun p => (p.lhs,p.rhs.length))) P M lemp.nterminal start :=
  ⟨fun rules i ap hi => reportTable_finds lemp yyStackDepth rules hR hf i ap hi,
    fun _ _ _ hD => reportTable_encodes hR hD hf yyStackDepth⟩

end Sets

/-- The states of the grammar of nested commands. -/
def nestedLemon : Lemon where
  nrule := 3
  nsymbol := 6
  nterminal := 4
  sorted := [[⟨1,.shift 1⟩,⟨2,.shift 2⟩,⟨4,.accept⟩,⟨5,.shift 3⟩],[⟨1,.shift 1⟩,⟨2,.shift 2⟩,⟨5,.shift 5⟩],
    [⟨6,.reduce 2⟩],[⟨3,.shift 4⟩],[⟨0,.reduce 0⟩],[⟨6,.reduce 1⟩]]

theorem nestedLemon_resolved : Resolved nestedLemon := ⟨by decide,by decide,by decide⟩

theorem nestedLemon_describes : Describes nestedLemon nestedRules (ofLists 0 nestedEdges nestedItems) 4 := by
  have hstates : ∀ s ∈ nestedLemon.sorted.zipIdx, ∀ a ∈ s.1, match a.type with
      | .shift q' =>
        a.sp < 6 ∧ (a.sp < 4 → a.sp ≠ 0 ∧ (ofLists 0 nestedEdges nestedItems).next s.2 a.sp = some q')
      | .reduce r => ∃ p ∈ nestedRules[r]?, (s.2,r,p.rhs.length) ∈ nestedItems
      | .accept => 4 ≤ a.sp ∧ a.sp < 6
      | _ => True := by
    simp only [nestedLemon,List.zipIdx_cons,List.zipIdx_nil,List.forall_mem_cons,List.not_mem_nil,false_implies,
      implies_true,and_true]
    and_intros <;> decide
  have hin : ∀ {q ap}, nestedLemon.sorted[q]? = some ap → (ap,q) ∈ nestedLemon.sorted.zipIdx :=
    fun h => List.mem_zipIdx_iff_getElem?.mpr h
  have hedges : ∀ e ∈ nestedEdges, e.2.2 < 6 ∧ (4 ≤ e.2.1 →
      ∃ ap ∈ nestedLemon.sorted[e.1]?, ⟨e.2.1,.shift e.2.2⟩ ∈ ap) := by decide
  have hlhs : ∀ p ∈ nestedRules, 4 ≤ p.lhs ∧ p.lhs < 6 := by decide
  constructor
  case valid => exact nestedTables_checked.lists.valid
  case init => rfl
  case pos => decide
  case nrule => rfl
  case next_lt => exact fun q a q' hn => (hedges _ (mem_edges hn)).1
  case lhs => exact hlhs
  case top => decide
  case shift => exact fun q ap hq a q' ha hlt => (hstates _ (hin hq) _ ha).2 hlt
  case dflt =>
    intro ap hap q' ha
    obtain ⟨q,hq⟩ := List.mem_iff_getElem?.mp hap
    exact absurd (hstates _ (hin hq) _ ha).1 (Nat.lt_irrefl 6)
  case reduce =>
    intro q ap hq a r ha
    obtain ⟨p,hp,hi⟩ := hstates _ (hin hq) _ ha
    exact ⟨p,hp,hi⟩
  case accept =>
    intro ap hap a ha
    obtain ⟨q,hq⟩ := List.mem_iff_getElem?.mp hap
    exact hstates _ (hin hq) _ ha
  case goto =>
    intro q q' p hp hn
    obtain ⟨ap,hq,ha⟩ := (hedges _ (mem_edges hn)).2 (hlhs p hp).1
    exact ⟨ap,hq,ha⟩
  case done => exact ⟨_,rfl,by decide⟩

theorem reportTable_gives_nested :
    allPlaced nestedLemon = true ∧
    (reportTable nestedLemon 4 [(4,2),(5,2),(5,1)]).yyAction = [1,2,10,3,6,4,5] ∧
    yyFindShiftAction (reportTable nestedLemon 4 [(4,2),(5,2),(5,1)]) 3 3 = .ok 4 ∧
    yyFindShiftAction (reportTable nestedLemon 4 [(4,2),(5,2),(5,1)]) 2 0 = .ok 8 ∧
    yyFindReduceAction (reportTable nestedLemon 4 [(4,2),(5,2),(5,1)]) 1 5 = .ok 5 ∧
    Encodes (reportTable nestedLemon 4 [(4,2),(5,2),(5,1)]) nestedRules
      (ofLists 0 nestedEdges nestedItems) 4 4 := by
  have h := reportTable_gives nestedLemon_resolved (by decide) 4
  exact ⟨by decide,by decide,(h.1 _ 3 _ rfl).1 3 (by decide),(h.1 _ 2 _ rfl).1 0 (by decide),
    (h.1 _ 1 _ rfl).2 ⟨5,.shift 5⟩ (by decide) (by decide) (by decide) (by decide),
    h.2 _ _ _ nestedLemon_describes⟩

end Generator
end Xjd1
