import Xjd1.Update.Revise

/-! Assignments that are to be ignored, and what the search for their node does to the
document before it comes to the step that is ignored. -/
namespace Xjd1

open Fueled Fueled.Run

variable {R : Type} [CDouble R]

def NotIndex (pIndex : JsonNode R) : Prop :=
  (xjd1JsonToReal pIndex).2 = true ∨ ∀ i : ℕ, CDouble.eq (CDouble.ofInt i) (xjd1JsonToReal pIndex).1 = false

inductive Existing : JsonNode R → LvalueStep R → JsonNode R → Prop
  | member {ms : List (Bytes × JsonNode R)} {step : LvalueStep R} {v : JsonNode R}
      (h : lookup ms step.label = some v) : Existing (.struct ms) step v
  | element {vs : List (JsonNode R)} {pIndex v : JsonNode R} {i : ℕ} (hi : subscript pIndex = .ok (some i))
      (h : vs[i]? = some v) : Existing (.array vs) (.elem pIndex) v

inductive Missing : JsonNode R → LvalueStep R → JsonNode R → Prop
  | member {ms : List (Bytes × JsonNode R)} {step : LvalueStep R} (h : lookup ms step.label = none) :
      Missing (.struct ms) step .false
  | overwritten {v : JsonNode R} (zId : Bytes) (hn : v ≠ .nullptr) (hs : ∀ ms, v ≠ .struct ms) :
      Missing v (.name zId) .false
  | element {vs : List (JsonNode R)} {pIndex : JsonNode R} {i : ℕ} (hi : subscript pIndex = .ok (some i))
      (h : vs.length ≤ i) : Missing (.array vs) (.elem pIndex) .null

/-- A subscript in the lvalue is applied to something that is neither a struct nor an
array, or is one of an array and no non-negative integer. -/
inductive IgnoredSubscript : JsonNode R → List (LvalueStep R) → Prop
  | scalar {v pIndex : JsonNode R} {ss : List (LvalueStep R)} (hs : ∀ ms, v ≠ .struct ms)
      (ha : ∀ vs, v ≠ .array vs) : IgnoredSubscript v (.elem pIndex::ss)
  | index {vs : List (JsonNode R)} {pIndex : JsonNode R} {ss : List (LvalueStep R)} (h : NotIndex pIndex) :
      IgnoredSubscript (.array vs) (.elem pIndex::ss)
  | existing {v u : JsonNode R} {step : LvalueStep R} {ss : List (LvalueStep R)} (hs : Existing v step u)
      (h : IgnoredSubscript u ss) : IgnoredSubscript v (step::ss)
  | missing {v u : JsonNode R} {step : LvalueStep R} {ss : List (LvalueStep R)} (hs : Missing v step u)
      (h : IgnoredSubscript u ss) : IgnoredSubscript v (step::ss)
  | nothing {zId : Bytes} {ss : List (LvalueStep R)} (h : IgnoredSubscript .nullptr ss) :
      IgnoredSubscript .nullptr (.name zId::ss)

/-- The assignments to be ignored: also a named property of a document that is a primitive or an array. -/
def ToIgnore (pDoc : JsonNode R) (ss : List (LvalueStep R)) : Prop :=
  IgnoredSubscript pDoc ss ∨
    ((∃ zId ss', ss = .name zId::ss') ∧ pDoc ≠ .nullptr ∧ ∀ ms, pDoc ≠ .struct ms)

def isName : LvalueStep R → Bool
  | .name _ => true
  | .elem _ => false

/-- The ignored subscript is reached over members and elements that are there, and is the
last subscript of the lvalue. -/
inductive Untouched : JsonNode R → List (LvalueStep R) → Prop
  | scalar {v pIndex : JsonNode R} {ss : List (LvalueStep R)} (hn : v ≠ .nullptr) (hs : ∀ ms, v ≠ .struct ms)
      (ha : ∀ vs, v ≠ .array vs) (hss : ∀ s ∈ ss, isName s) : Untouched v (.elem pIndex::ss)
  | index {vs : List (JsonNode R)} {pIndex : JsonNode R} {ss : List (LvalueStep R)} (h : NotIndex pIndex)
      (hint : (xjd1JsonToReal pIndex).2 = true ∨ (CDouble.toInt (xjd1JsonToReal pIndex).1).isSome)
      (hss : ∀ s ∈ ss, isName s) : Untouched (.array vs) (.elem pIndex::ss)
  | existing {v u : JsonNode R} {step : LvalueStep R} {ss : List (LvalueStep R)} (hs : Existing v step u)
      (hn : u ≠ .nullptr) (h : Untouched u ss) : Untouched v (step::ss)

theorem subscript_some {pIndex : JsonNode R} {i : ℕ} (h : subscript pIndex = .ok (some i)) : ¬ NotIndex pIndex := by
  rw [subscript] at h
  split at h
  · cases h
  · rename_i hreal
    obtain ⟨iIdx,_,h⟩ := bind_eq_ok.mp h
    split at h
    · rename_i hc
      obtain ⟨heq,hpos⟩ := Bool.and_eq_true_iff.mp hc
      rintro (hn | hn)
      · exact hreal hn
      · rw [← Int.toNat_of_nonneg (of_decide_eq_true hpos),hn] at heq
        cases heq
    · cases h

/-- A subscript that is no index is passed over, or its conversion to `int` is undefined. -/
theorem subscript_notIndex {pIndex : JsonNode R} (h : NotIndex pIndex) :
    subscript pIndex = if (xjd1JsonToReal pIndex).2 = true ∨ (CDouble.toInt (xjd1JsonToReal pIndex).1).isSome
      then .ok none else .stop .undefined := by
  cases hs : subscript pIndex with
  | more =>
    rw [subscript,toInt] at hs
    split at hs
    · cases hs
    · cases hto : CDouble.toInt (xjd1JsonToReal pIndex).1 <;> rw [hto] at hs <;> cases hs
  | ok o =>
    cases o with
    | some i => exact absurd h (subscript_some hs)
    | none =>
      rw [if_pos]
      rw [subscript,toInt] at hs
      by_contra hc
      push Not at hc
      rw [if_neg hc.1,Option.not_isSome_iff_eq_none.mp hc.2] at hs
      cases hs
  | stop s =>
    rw [subscript,toInt] at hs
    split at hs
    · cases hs
    · rename_i hreal
      cases hto : CDouble.toInt (xjd1JsonToReal pIndex).1 with
      | some i =>
        rw [hto] at hs
        cases hs
      | none =>
        rw [hto] at hs
        cases hs
        rw [if_neg (by simp [hreal])]

omit [CDouble R] in
theorem findIdx_of_lookup {ms : List (Bytes × JsonNode R)} {z : Bytes} {v : JsonNode R} (h : lookup ms z = some v) :
    ∃ pre post, ms = pre ++ (z,v)::post ∧ ms.findIdx? (fun m => m.1 = z) = some pre.length := by
  obtain ⟨pre,post,rfl,hpre⟩ := lookup_eq_some h
  have hnone : pre.findIdx? (fun m => m.1 = z) = none := by simpa using fun k w h => hpre (k,w) h
  refine ⟨pre,post,rfl,?_⟩
  rw [List.findIdx?_append,hnone,Option.none_or,List.findIdx?_cons]
  simp

omit [CDouble R] in
theorem findIdx_of_lookup_none {ms : List (Bytes × JsonNode R)} {z : Bytes} (h : lookup ms z = none) :
    ms.findIdx? (fun m => m.1 = z) = none := by
  simpa using fun k w hm => lookup_eq_none h (k,w) hm

section Step
variable {pRoot u : JsonNode R} {p : NodePath} {step : LvalueStep R}

theorem LvalueStep.find_existing (h : Existing (pRoot.nodeAt p) step u) :
    ∃ i, step.find (pRoot,some p) = .ok (pRoot,nodePointer pRoot (p ++ [i])) ∧ pRoot.nodeAt (p ++ [i]) = u := by
  generalize hv : pRoot.nodeAt p = v at h
  cases h with
  | @member ms _ _ h =>
    obtain ⟨pre,post,hms,hfind⟩ := findIdx_of_lookup h
    refine ⟨pre.length,?_,?_⟩
    · have hstruct : findStructElement pRoot (some p) step.label = (pRoot,nodePointer pRoot (p ++ [pre.length])) := by
        simp only [findStructElement,hv,structMembers,hfind]
      cases step with
      | name zId => exact congrArg Run.ok hstruct
      | elem pIndex =>
        simp only [find,hv]
        exact congrArg Run.ok hstruct
    · rw [JsonNode.nodeAt_append,hv,hms]
      exact JsonNode.child_member pre post step.label u
  | @element vs pIndex _ i hi h =>
    obtain ⟨hlt,hget⟩ := List.getElem?_eq_some_iff.mp h
    refine ⟨i,?_,?_⟩
    · simp only [find,hv,findArrayElement,hi,ok_bind,if_pos hlt]
    · rw [JsonNode.nodeAt_append,hv,JsonNode.nodeAt,JsonNode.child,JsonNode.children,h]
      rfl

omit [CDouble R] in
def shape (v : JsonNode R) : Option Int × ℕ := (v.eJType,v.children.length)

omit [CDouble R] in
theorem shape_setChild (v : JsonNode R) (i : ℕ) (w : JsonNode R) : shape (v.setChild i w) = shape v := by
  have htype : (v.setChild i w).eJType = v.eJType := by cases v <;> rfl
  rw [shape,shape,htype,JsonNode.children_setChild,List.length_set]

theorem LvalueStep.find_missing (h : Missing (pRoot.nodeAt p) step u) :
    step.find (pRoot,some p) = .stop .assertFail ∨ ∃ v' i,
      step.find (pRoot,some p) = .ok (pRoot.putAt p v',some (p ++ [i])) ∧ v'.child i = u ∧
        shape v' ≠ shape (pRoot.nodeAt p) := by
  generalize hv : pRoot.nodeAt p = v at h
  cases h with
  | @member ms _ h =>
    refine Or.inr ⟨.struct (ms ++ [(step.label,.false)]),ms.length,?_,JsonNode.child_member ms [] _ _,?_⟩
    · have hstruct : findStructElement pRoot (some p) step.label =
          (pRoot.putAt p (.struct (ms ++ [(step.label,.false)])),some (p ++ [ms.length])) := by
        simp only [findStructElement,hv,structMembers,findIdx_of_lookup_none h]
      cases step with
      | name zId => exact congrArg Run.ok hstruct
      | elem pIndex =>
        simp only [find,hv]
        exact congrArg Run.ok hstruct
    · simp [shape,JsonNode.children]
  | overwritten zId hn hs =>
    have hms : structMembers v = [] := by
      rcases structMembers_cases v with h | h
      · exact absurd h (hs _)
      · exact h.1
    refine Or.inr ⟨.struct [(zId,.false)],0,?_,rfl,?_⟩
    · simp only [find,findStructElement,hv,hms]
      rfl
    · intro he
      cases v with
      | struct ms => exact hs ms rfl
      | _ => cases (Prod.mk.inj he).1
  | @element vs pIndex i hi h =>
    have hge : ¬ i < vs.length := Nat.not_lt.mpr h
    by_cases hmax : i < 1024
    · obtain ⟨k,rfl⟩ := Nat.exists_eq_add_of_le h
      have hcount : vs.length + k + 1 - vs.length = k + 1 := by omega
      have hlen : vs.length + k = (vs ++ List.replicate k (.null : JsonNode R)).length := by simp
      refine Or.inr ⟨.array (vs ++ List.replicate k .null ++ [.null]),vs.length + k,?_,?_,?_⟩
      · simp only [find,hv,findArrayElement,hi,ok_bind,if_neg hge,if_pos hmax,hcount,List.replicate_succ',
          List.append_assoc]
      · rw [hlen]
        exact JsonNode.child_element _ [] _
      · simp [shape,JsonNode.children]
    · left
      simp only [find,hv,findArrayElement,hi,ok_bind,if_neg hge,if_neg hmax]

theorem LvalueStep.find_scalar {pIndex : JsonNode R} (hs : ∀ ms, pRoot.nodeAt p ≠ .struct ms)
    (ha : ∀ vs, pRoot.nodeAt p ≠ .array vs) : (LvalueStep.elem pIndex).find (pRoot,some p) = .ok (pRoot,none) := by
  generalize hv : pRoot.nodeAt p = v at hs ha
  cases v with
  | struct ms => exact absurd rfl (hs ms)
  | array vs => exact absurd rfl (ha vs)
  | _ => simp only [find,hv]

theorem LvalueStep.find_index {pIndex : JsonNode R} {vs : List (JsonNode R)} (hv : pRoot.nodeAt p = .array vs) :
    (LvalueStep.elem pIndex).find (pRoot,some p) = findArrayElement pRoot p vs pIndex := by
  simp only [find,hv]

theorem LvalueStep.find_nothing {pRoot' : JsonNode R} {pBase : Option NodePath}
    (h : step.find (pRoot,pBase) = .ok (pRoot',none)) : pRoot' = pRoot := by
  have hstruct {z : Bytes} (h : findStructElement pRoot pBase z = (pRoot',none)) : pRoot' = pRoot := by
    cases pBase with
    | none => exact (Prod.mk.inj h).1.symm
    | some p =>
      rw [findStructElement] at h
      split at h
      · exact (Prod.mk.inj h).1.symm
      · cases (Prod.mk.inj h).2
  cases step with
  | name zId => exact hstruct (Run.ok.inj h)
  | elem pIndex =>
    cases pBase with
    | none => cases h
    | some p =>
      rw [find] at h
      simp only at h
      split at h
      · exact hstruct (Run.ok.inj h)
      · obtain ⟨o,_,h⟩ := bind_eq_ok.mp h
        cases o with
        | none => exact (Prod.mk.inj (Run.ok.inj h)).1.symm
        | some i =>
          simp only at h
          split at h
          · exact (Prod.mk.inj (Run.ok.inj h)).1.symm
          · split at h
            · cases (Prod.mk.inj (Run.ok.inj h)).2
            · cases h
      · exact (Prod.mk.inj (Run.ok.inj h)).1.symm

end Step

def findFrom (s : JsonNode R × Option NodePath) (ss : List (LvalueStep R)) : Exec (JsonNode R × Option NodePath) :=
  ss.foldlM LvalueStep.find s

theorem findFrom_cons (s : JsonNode R × Option NodePath) (step : LvalueStep R) (ss : List (LvalueStep R)) :
    findFrom s (step::ss) = step.find s >>= fun s => findFrom s ss := rfl

theorem findFrom_names {pRoot : JsonNode R} {ss : List (LvalueStep R)} (h : ∀ s ∈ ss, isName s) :
    findFrom (pRoot,none) ss = .ok (pRoot,none) := by
  induction ss with
  | nil => rfl
  | cons step ss ih =>
    obtain ⟨hstep,hss⟩ := List.forall_mem_cons.mp h
    cases step with
    | name zId => exact ih hss
    | elem pIndex => cases hstep

theorem findFrom_none {pRoot : JsonNode R} {ss : List (LvalueStep R)} {o : JsonNode R × Option NodePath}
    (h : findFrom (pRoot,none) ss = .ok o) : ∀ s ∈ ss, isName s := by
  induction ss with
  | nil => exact List.forall_mem_nil _
  | cons step ss ih =>
    cases step with
    | name zId => exact List.forall_mem_cons.mpr ⟨rfl,ih h⟩
    | elem pIndex => cases h

theorem findFrom_below {pRoot pRoot' : JsonNode R} {p : NodePath} {ss : List (LvalueStep R)} {pNode : Option NodePath}
    (hp : pRoot.nodeAt p ≠ .nullptr) (h : findFrom (pRoot,some p) ss = .ok (pRoot',pNode)) :
    ∃ v, pRoot' = pRoot.putAt p v ∧ ∀ q, pNode = some q → ∃ q', q = p ++ q' := by
  induction ss generalizing pRoot p with
  | nil =>
    cases h
    refine ⟨_,(JsonNode.putAt_nodeAt _ _).symm,fun q hq => ⟨[],?_⟩⟩
    rw [List.append_nil]
    exact (Option.some.inj hq).symm
  | cons step ss ih =>
    rw [findFrom_cons] at h
    obtain ⟨⟨pRoot1,pNode1⟩,h1,h⟩ := bind_eq_ok.mp h
    cases pNode1 with
    | none =>
      rw [findFrom_names (findFrom_none h)] at h
      cases h
      rw [LvalueStep.find_nothing h1]
      exact ⟨_,(JsonNode.putAt_nodeAt _ _).symm,fun q hq => by cases hq⟩
    | some q =>
      obtain ⟨v',i,rfl,rfl,hleads⟩ := LvalueStep.find_leads h1
      have hnode : (pRoot.putAt p v').nodeAt (p ++ [i]) ≠ .nullptr := by
        rw [JsonNode.nodeAt_append,JsonNode.nodeAt_putAt hp]
        exact hleads.node
      obtain ⟨w,rfl,hq⟩ := ih hnode h
      refine ⟨v'.putAt [i] w,JsonNode.putAt_below hp v' [i] w,fun q hqe => ?_⟩
      obtain ⟨q',rfl⟩ := hq q hqe
      exact ⟨i::q',by rw [List.append_assoc]; rfl⟩

theorem Missing.ne_nullptr {v u : JsonNode R} {step : LvalueStep R} (h : Missing v step u) : u ≠ .nullptr := by
  cases h <;> exact fun h => by cases h

theorem IgnoredSubscript.subscripted {v : JsonNode R} {ss : List (LvalueStep R)} (h : IgnoredSubscript v ss) :
    ¬ ∀ s ∈ ss, isName s := by
  induction h with
  | scalar => exact fun h => by cases h _ List.mem_cons_self
  | index => exact fun h => by cases h _ List.mem_cons_self
  | existing _ _ ih => exact fun h => ih fun s hs => h s (List.mem_cons_of_mem _ hs)
  | missing _ _ ih => exact fun h => ih fun s hs => h s (List.mem_cons_of_mem _ hs)
  | nothing _ ih => exact fun h => ih fun s hs => h s (List.mem_cons_of_mem _ hs)

theorem Untouched.find {pRoot v : JsonNode R} {p : NodePath} {ss : List (LvalueStep R)} (h : Untouched v ss)
    (hv : pRoot.nodeAt p = v) : findFrom (pRoot,some p) ss = .ok (pRoot,none) := by
  induction h generalizing p with
  | scalar _ hs ha hss =>
    subst hv
    rw [findFrom_cons,LvalueStep.find_scalar hs ha]
    exact findFrom_names hss
  | index h hint hss =>
    rw [findFrom_cons,LvalueStep.find_index hv,findArrayElement,subscript_notIndex h,if_pos hint]
    exact findFrom_names hss
  | existing hs hn _ ih =>
    subst hv
    obtain ⟨i,hfind,hi⟩ := LvalueStep.find_existing hs
    have hpointer : nodePointer pRoot (p ++ [i]) = some (p ++ [i]) :=
      nodePointer_eq_some.mpr ⟨rfl,by rwa [hi]⟩
    rw [findFrom_cons,hfind,hpointer]
    exact ih hi

/-- If a subscript is to be ignored, the search ends without a node, if it ends; and it
has changed the document unless the subscript is reached over what is there. -/
theorem IgnoredSubscript.find {pRoot pRoot' v : JsonNode R} {p : NodePath} {ss : List (LvalueStep R)}
    {pNode : Option NodePath} (h : IgnoredSubscript v ss) (hv : pRoot.nodeAt p = v) (hn : v ≠ .nullptr)
    (hfind : findFrom (pRoot,some p) ss = .ok (pRoot',pNode)) :
    pNode = none ∧ (pRoot' = pRoot → Untouched v ss) := by
  induction h generalizing pRoot p with
  | scalar hs ha =>
    subst hv
    rw [findFrom_cons,LvalueStep.find_scalar hs ha,ok_bind] at hfind
    have hss := findFrom_none hfind
    rw [findFrom_names hss] at hfind
    cases hfind
    exact ⟨rfl,fun _ => .scalar hn hs ha hss⟩
  | index h =>
    rw [findFrom_cons,LvalueStep.find_index hv,findArrayElement,subscript_notIndex h] at hfind
    split at hfind
    · rename_i hint
      have hss : ∀ s ∈ _, isName s := findFrom_none hfind
      have hnames := (findFrom_names hss).symm.trans hfind
      cases hnames
      exact ⟨rfl,fun _ => .index h hint hss⟩
    · cases hfind
  | @existing v u step ss hs h ih =>
    subst hv
    obtain ⟨i,hstep,hi⟩ := LvalueStep.find_existing hs
    rw [findFrom_cons,hstep,ok_bind] at hfind
    by_cases hu : u = .nullptr
    · have hpointer : nodePointer pRoot (p ++ [i]) = none := by rw [nodePointer,hi,hu]
      rw [hpointer] at hfind
      exact absurd (findFrom_none hfind) h.subscripted
    · have hpointer : nodePointer pRoot (p ++ [i]) = some (p ++ [i]) :=
        nodePointer_eq_some.mpr ⟨rfl,by rwa [hi]⟩
      rw [hpointer] at hfind
      obtain ⟨hnone,huntouched⟩ := ih hi hu hfind
      exact ⟨hnone,fun he => .existing hs hu (huntouched he)⟩
  | @missing v u step ss hs h ih =>
    subst hv
    rcases LvalueStep.find_missing hs with hstop | ⟨v',i,hstep,hchild,hshape⟩
    · rw [findFrom_cons,hstop] at hfind
      cases hfind
    · rw [findFrom_cons,hstep,ok_bind] at hfind
      have hi : (pRoot.putAt p v').nodeAt (p ++ [i]) = u := by
        rw [JsonNode.nodeAt_append,JsonNode.nodeAt_putAt hn]
        exact hchild
      have hu := hs.ne_nullptr
      refine ⟨(ih hi hu hfind).1,fun he => absurd ?_ hshape⟩
      obtain ⟨w,hw,_⟩ := findFrom_below (hi ▸ hu) hfind
      rw [JsonNode.putAt_below hn] at hw
      have hnode := JsonNode.nodeAt_putAt hn (v'.putAt [i] w)
      rw [← hw,he] at hnode
      rw [hnode]
      exact (shape_setChild v' i _).symm
  | nothing => exact absurd rfl hn

theorem findFrom_overwritten {pDoc pRoot : JsonNode R} {zId : Bytes} {ss : List (LvalueStep R)}
    {pNode : Option NodePath} (hn : pDoc ≠ .nullptr) (hs : ∀ ms, pDoc ≠ .struct ms)
    (h : findFrom (pDoc,some []) (.name zId::ss) = .ok (pRoot,pNode)) :
    shape pRoot ≠ shape pDoc ∧ ∀ q v, pNode = some q → shape (pRoot.putAt q v) ≠ shape pDoc := by
  have hmissing : Missing (pDoc.nodeAt []) (.name zId) .false := .overwritten zId hn hs
  rcases LvalueStep.find_missing hmissing with hstop | ⟨v',i,hstep,hchild,hshape⟩
  · cases hstop
  · rw [findFrom_cons,hstep,ok_bind] at h
    have hi : (pDoc.putAt [] v').nodeAt ([] ++ [i]) ≠ .nullptr := by
      show v'.child i ≠ .nullptr
      rw [hchild]
      exact fun h => by cases h
    obtain ⟨w,rfl,hq⟩ := findFrom_below hi h
    have hput : (pDoc.putAt [] v').putAt ([] ++ [i]) w = v'.setChild i w := rfl
    refine ⟨by rwa [hput,shape_setChild],fun q v hqe => ?_⟩
    obtain ⟨q',rfl⟩ := hq q hqe
    have hbelow := JsonNode.putAt_below hi w q' v
    rw [hbelow]
    show shape (v'.setChild i _) ≠ _
    rwa [shape_setChild]

/-- An assignment that is to be ignored leaves the document as it was, and reads through
no null pointer, exactly when the ignored subscript is reached over what is there already
and no other subscript follows it. -/
theorem ignored_iff {ctx : Ctx R} {pDoc : JsonNode R} {e : Expr R} {ss : List (LvalueStep R)} (r : Expr R)
    (hl : Lvalue ctx e ss) (hi : ToIgnore pDoc ss) :
    (∃ f f', Returns (fun n => reviseOneField (interp n) ctx pDoc e r) (pDoc,f,f')) ↔ Untouched pDoc ss := by
  obtain ⟨e',hfind⟩ := hl.find pDoc
  have hsteps : findSteps pDoc ss = findFrom (pDoc,nodePointer pDoc []) ss := rfl
  constructor
  · rintro ⟨f,f',h⟩
    obtain ⟨n,h1,h2⟩ := (hfind.and h).exists
    obtain ⟨⟨pRoot,pNode,e1⟩,h3,h4⟩ := bind_eq_ok.mp h2
    obtain ⟨⟨pRoot1,pNode1⟩,hs,h5⟩ := bind_eq_ok.mp (h1.symm.trans h3)
    cases h5
    rw [hsteps] at hs
    by_cases hn : pDoc = .nullptr
    · subst hn
      rcases hi with hi | ⟨_,hn,_⟩
      · exact absurd (findFrom_none hs) hi.subscripted
      · exact absurd rfl hn
    have hpointer : nodePointer pDoc [] = some [] := nodePointer_eq_some.mpr ⟨rfl,hn⟩
    rw [hpointer] at hs
    rcases hi with hi | ⟨⟨zId,ss',rfl⟩,_,hother⟩
    · obtain ⟨rfl,huntouched⟩ := hi.find rfl hn hs
      exact huntouched (Prod.mk.inj (Run.ok.inj h4)).1
    · obtain ⟨hshape,hput⟩ := findFrom_overwritten hn hother hs
      cases pNode1 with
      | none => exact absurd (congrArg shape (Prod.mk.inj (Run.ok.inj h4)).1) hshape
      | some q =>
        obtain ⟨⟨pX,r'⟩,_,h4⟩ := bind_eq_ok.mp h4
        cases pX with
        | nullptr => cases h4
        | _ => exact absurd (congrArg shape (Prod.mk.inj (Run.ok.inj h4)).1) (hput q _ rfl)
  · intro h
    have hn : pDoc ≠ .nullptr := by
      cases h with
      | scalar hn => exact hn
      | index => exact fun h => by cases h
      | existing hs => cases hs <;> exact fun h => by cases h
    have hpointer : nodePointer pDoc [] = some [] := nodePointer_eq_some.mpr ⟨rfl,hn⟩
    refine ⟨e',r,?_⟩
    filter_upwards [hfind] with n hn
    rw [reviseOneField,hn,hsteps,hpointer,h.find rfl]
    rfl

/-- `c.b[0] = 7` on a document whose member `b` is a number. -/
theorem ignored_number :
    let ctx : Ctx Int := ⟨[],.doc .null,fun _ => []⟩
    let pDoc : JsonNode Int := .struct [([ch 'b'],.real 5)]
    let e : Expr Int := .bi .lb (.dot (.id [ch 'c'] none 0) [ch 'b']) (some (.jvalue (.real 0)))
    (∃ f f', Returns (fun n => reviseOneField (interp n) ctx pDoc e (.jvalue (.real 7))) (pDoc,f,f')) ↔
      Untouched pDoc [.name [ch 'b'],.elem (.real 0)] := by
  intro ctx pDoc e
  have hl : Lvalue ctx e [.name [ch 'b'],.elem (.real 0)] :=
    .lb (.dot (.id [ch 'c'] 0) [ch 'b']) ⟨.jvalue (.real 0),Returns.succ_iff.mp (.of_forall fun _ => rfl)⟩
  have hscalar : IgnoredSubscript (.real (5 : Int)) [.elem (.real 0)] :=
    .scalar (fun ms h => by cases h) fun vs h => by cases h
  exact ignored_iff (.jvalue (.real 7)) hl (Or.inl (.existing (.member rfl) hscalar))

/-- `c.a = 2` on a document that is a number: it becomes a struct. -/
theorem ignored_overwritten :
    let ctx : Ctx Int := ⟨[],.doc .null,fun _ => []⟩
    let e : Expr Int := .dot (.id [ch 'c'] none 0) [ch 'a']
    Lvalue ctx e [.name [ch 'a']] ∧ ToIgnore (.real (1 : Int)) [.name [ch 'a']] ∧
      ¬ ∃ f f', Returns (fun n => reviseOneField (interp n) ctx (.real 1) e (.jvalue (.real 2))) (.real 1,f,f') := by
  intro ctx e
  have hother : ∀ ms, JsonNode.real (1 : Int) ≠ .struct ms := fun ms h => by cases h
  refine ⟨.dot (.id [ch 'c'] 0) [ch 'a'],Or.inr ⟨⟨_,_,rfl⟩,(fun h => by cases h),hother⟩,?_⟩
  rintro ⟨f,f',h⟩
  have hstruct : Returns (fun n => reviseOneField (interp n) ctx (.real 1) e (.jvalue (.real 2)))
      (.struct [([ch 'a'],.real 2)],e,.jvalue (.real 2)) := Returns.succ_iff.mp (.of_forall fun _ => rfl)
  cases h.unique hstruct

end Xjd1
