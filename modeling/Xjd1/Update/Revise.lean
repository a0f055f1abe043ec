import Mathlib.Data.List.Induction
import Xjd1.Json.Paths
import Xjd1.Query.Interp

/-! The assignments of an UPDATE statement. The document that is edited is a copy of its
own; the expressions still see the document before the edit. -/
namespace Xjd1

open Fueled Fueled.Run

variable {R : Type} [CDouble R]

omit [CDouble R] in
/-- The pointer to a node of the document, which may itself be a null pointer. -/
def nodePointer (pRoot : JsonNode R) (p : NodePath) : Option NodePath :=
  match pRoot.nodeAt p with
  | .nullptr => none
  | _ => some p

/-- The members of the node, once it has been overwritten with an empty struct unless it
is a struct. -/
def structMembers : JsonNode R → List (Bytes × JsonNode R)
  | .struct pFirst => pFirst
  | _ => []

/-- `findStructElement`, with the document after it. A new member has a node of zeros as
its value, which is `false`. -/
def findStructElement (pRoot : JsonNode R) (pBase : Option NodePath) (zField : Bytes) :
    JsonNode R × Option NodePath :=
  match pBase with
  | none => (pRoot,none)
  | some p =>
    let ms := structMembers (pRoot.nodeAt p)
    match ms.findIdx? fun m => m.1 = zField with
    | some i => (pRoot,nodePointer pRoot (p ++ [i]))
    | none => (pRoot.putAt p (.struct (ms ++ [(zField,.false)])),some (p ++ [ms.length]))

/-- The `XJD1_ARRAY` case of `findOrCreateJsonNode`, which grows the array with nulls. -/
def findArrayElement (pRoot : JsonNode R) (p : NodePath) (apElem : List (JsonNode R)) (pIndex : JsonNode R) :
    Exec (JsonNode R × Option NodePath) := do
  match ← subscript pIndex with
  | none => .ok (pRoot,none)
  | some iIdx =>
    if iIdx < apElem.length then .ok (pRoot,nodePointer pRoot (p ++ [iIdx]))
    else if iIdx < 1024 then
      .ok (pRoot.putAt p (.array (apElem ++ List.replicate (iIdx + 1 - apElem.length) .null)),some (p ++ [iIdx]))
    else .stop .assertFail

section Code
variable (I : Interp R) (ctx : Ctx R)

/-- `findOrCreateJsonNode`: the document and the node, if there is one, and the expression
after the subqueries in it have run. -/
def findOrCreateJsonNode (pRoot : JsonNode R) : Expr R → Exec (JsonNode R × Option NodePath × Expr R)
  | .dot pLeft zId => do
    let (pRoot,pBase,pLeft) ← findOrCreateJsonNode pRoot pLeft
    let (pRoot,pRes) := findStructElement pRoot pBase zId
    .ok (pRoot,pRes,.dot pLeft zId)
  | .bi .lb pLeft pRight => do
    let (pRoot,pBase,pLeft) ← findOrCreateJsonNode pRoot pLeft
    match pBase with
    | none => .stop .nullNode
    | some p => match pRoot.nodeAt p with
      | .struct _ => do
        let (pIndex,pRight) ← evalOption I ctx pRight
        let (pRoot,pRes) := findStructElement pRoot (some p) (xjd1JsonToString pIndex)
        .ok (pRoot,pRes,.bi .lb pLeft pRight)
      | .array apElem => do
        let (pIndex,pRight) ← evalOption I ctx pRight
        let (pRoot,pRes) ← findArrayElement pRoot p apElem pIndex
        .ok (pRoot,pRes,.bi .lb pLeft pRight)
      | _ => .ok (pRoot,none,.bi .lb pLeft pRight)
  | .id zId pQuery iDatasrc => .ok (pRoot,nodePointer pRoot [],.id zId pQuery iDatasrc)
  | p => .ok (pRoot,none,p)

/-- `reviseOneField`, where `pValue` is unshared. -/
def reviseOneField (pDoc : JsonNode R) (pLvalue pValue : Expr R) : Exec (JsonNode R × Expr R × Expr R) := do
  let (pDoc,pNode,pLvalue) ← findOrCreateJsonNode I ctx pDoc pLvalue
  match pNode with
  | none => .ok (pDoc,pLvalue,pValue)
  | some p => do
    let (pX,pValue) ← I.xjd1ExprEval ctx pValue
    match pX with
    | .nullptr => .stop .nullNode
    | pX => .ok (pDoc.putAt p pX,pLvalue,pValue)

end Code

section RightSides
omit [CDouble R]

/-- An expression whose value is made of new nodes only. -/
inductive Expr.Fresh : Expr R → Prop
  | bi {eType : BiOp} (hop : eType ≠ .lb ∧ eType ≠ .and ∧ eType ≠ .or) (pLeft : Expr R) (pRight : Option (Expr R)) :
      Fresh (.bi eType pLeft pRight)
  | logical {eType : BiOp} {pLeft : Expr R} {pRight : Option (Expr R)} (hop : eType = .and ∨ eType = .or)
      (hl : Fresh pLeft) (hr : ∀ e ∈ pRight, Fresh e) : Fresh (.bi eType pLeft pRight)
  | tri (pTest : Expr R) {pIfTrue pIfFalse : Expr R} (ht : Fresh pIfTrue) (hf : Fresh pIfFalse) :
      Fresh (.tri pTest pIfTrue pIfFalse)
  | struct {st : List (ExprItem R)} (h : ∀ m ∈ st, Fresh m.pExpr) : Fresh (.struct st)
  | array {ar : List (ExprItem R)} (h : ∀ m ∈ ar, Fresh m.pExpr) : Fresh (.array ar)
  | length (args : List (ExprItem R)) (iAgg : ℕ) : Fresh (.func .length args iAgg)

/-- An expression whose value is a node of a literal or of the document. -/
inductive Expr.Borrowed : Expr R → Prop
  | jvalue (p : JsonNode R) : Borrowed (.jvalue p)
  | id (zId : Bytes) (iDatasrc : ℕ) : Borrowed (.id zId none iDatasrc)
  | dot {pLeft : Expr R} (h : Borrowed pLeft) (zId : Bytes) : Borrowed (.dot pLeft zId)
  | lb {pLeft : Expr R} (h : Borrowed pLeft) (pRight : Option (Expr R)) : Borrowed (.bi .lb pLeft pRight)

/-- An expression that puts no node of a literal or of the document below a new one. Only the
values of these can be assigned as values: `xjd1JsonEdit` copies a node that is shared, but
what is below a new node it takes as it is, and a later assignment writes into it. -/
inductive Expr.Unshared : Expr R → Prop
  | fresh {e : Expr R} (h : e.Fresh) : Unshared e
  | borrowed {e : Expr R} (h : e.Borrowed) : Unshared e
  | logical {eType : BiOp} {pLeft : Expr R} {pRight : Option (Expr R)} (hop : eType = .and ∨ eType = .or)
      (hl : Unshared pLeft) (hr : ∀ e ∈ pRight, Unshared e) : Unshared (.bi eType pLeft pRight)
  | tri (pTest : Expr R) {pIfTrue pIfFalse : Expr R} (ht : Unshared pIfTrue) (hf : Unshared pIfFalse) :
      Unshared (.tri pTest pIfTrue pIfFalse)

end RightSides

inductive LvalueStep (R : Type)
  | name (zId : Bytes)
  | elem (pIndex : JsonNode R)

def Evals (ctx : Ctx R) (e : Expr R) (v : JsonNode R) : Prop :=
  ∃ e', Returns (fun n => (interp n).xjd1ExprEval ctx e) (v,e')

/-- The steps of an lvalue from the document on, when its subscripts have these values. -/
inductive Lvalue (ctx : Ctx R) : Expr R → List (LvalueStep R) → Prop
  | id (zId : Bytes) (iDatasrc : ℕ) : Lvalue ctx (.id zId none iDatasrc) []
  | dot {e : Expr R} {ss : List (LvalueStep R)} (h : Lvalue ctx e ss) (zId : Bytes) :
      Lvalue ctx (.dot e zId) (ss ++ [.name zId])
  | lb {e r : Expr R} {ss : List (LvalueStep R)} {v : JsonNode R} (h : Lvalue ctx e ss) (hr : Evals ctx r v) :
      Lvalue ctx (.bi .lb e (some r)) (ss ++ [.elem v])

def LvalueStep.find (s : JsonNode R × Option NodePath) : LvalueStep R → Exec (JsonNode R × Option NodePath)
  | .name zId => .ok (findStructElement s.1 s.2 zId)
  | .elem v => match s.2 with
    | none => .stop .nullNode
    | some p => match s.1.nodeAt p with
      | .struct _ => .ok (findStructElement s.1 (some p) (xjd1JsonToString v))
      | .array apElem => findArrayElement s.1 p apElem v
      | _ => .ok (s.1,none)

def findSteps (pRoot : JsonNode R) (ss : List (LvalueStep R)) : Exec (JsonNode R × Option NodePath) :=
  ss.foldlM LvalueStep.find (pRoot,nodePointer pRoot [])

def LvalueStep.read (v : JsonNode R) : LvalueStep R → Exec (JsonNode R)
  | .name zId => .ok (getProperty v zId)
  | .elem pIndex => subscriptOperator v pIndex

def readSteps (pDoc : JsonNode R) (ss : List (LvalueStep R)) : Exec (JsonNode R) := ss.foldlM LvalueStep.read pDoc

theorem findSteps_append (pRoot : JsonNode R) (ss : List (LvalueStep R)) (step : LvalueStep R) :
    findSteps pRoot (ss ++ [step]) = findSteps pRoot ss >>= fun s => step.find s := by
  rw [findSteps,List.foldlM_append]
  exact bind_congr fun s => bind_pure _

theorem readSteps_append (pDoc : JsonNode R) (ss : List (LvalueStep R)) (step : LvalueStep R) :
    readSteps pDoc (ss ++ [step]) = readSteps pDoc ss >>= fun v => step.read v := by
  rw [readSteps,List.foldlM_append]
  exact bind_congr fun s => bind_pure _

theorem evalOption_some {ctx : Ctx R} {r r' : Expr R} {v : JsonNode R} {n : ℕ}
    (h : (interp n).xjd1ExprEval ctx r = .ok (v,r')) :
    evalOption (interp n) ctx (some r) = .ok (v,some r') := by
  rw [evalOption,h]
  rfl

theorem Lvalue.find {ctx : Ctx R} {e : Expr R} {ss : List (LvalueStep R)} (h : Lvalue ctx e ss) (pRoot : JsonNode R) :
    ∃ e', ∀ᶠ n in Filter.atTop, findOrCreateJsonNode (interp n) ctx pRoot e =
      findSteps pRoot ss >>= fun s => .ok (s.1,s.2,e') := by
  induction h with
  | id zId iDatasrc => exact ⟨_,.of_forall fun _ => rfl⟩
  | @dot e ss _ zId ih =>
    obtain ⟨e',ih⟩ := ih
    refine ⟨.dot e' zId,?_⟩
    filter_upwards [ih] with n hn
    rw [findOrCreateJsonNode,hn,findSteps_append,bind_assoc,bind_assoc]
    rfl
  | @lb e r ss v _ hr ih =>
    obtain ⟨e',ih⟩ := ih
    obtain ⟨r',hr⟩ := hr
    rw [findSteps_append]
    cases hs : findSteps pRoot ss with
    | stop _ | more =>
      refine ⟨e,?_⟩
      filter_upwards [ih] with n hn
      rw [findOrCreateJsonNode,hn,hs]
      rfl
    | ok s =>
      obtain ⟨pRoot',pBase⟩ := s
      cases pBase with
      | none =>
        refine ⟨e,?_⟩
        filter_upwards [ih] with n hn
        rw [findOrCreateJsonNode,hn,hs]
        rfl
      | some p =>
        cases hnode : pRoot'.nodeAt p with
        | struct _ | array _ =>
          refine ⟨.bi .lb e' (some r'),?_⟩
          filter_upwards [ih,hr] with n hn hrn
          rw [findOrCreateJsonNode,hn,hs]
          simp only [ok_bind,hnode,evalOption_some hrn,LvalueStep.find]
        | _ =>
          refine ⟨.bi .lb e' (some r),?_⟩
          filter_upwards [ih] with n hn
          rw [findOrCreateJsonNode,hn,hs]
          simp only [ok_bind,hnode,LvalueStep.find]

theorem Lvalue.read {ctx : Ctx R} {pDoc : JsonNode R} (hdoc : ctx.pDoc = .doc pDoc) {e : Expr R}
    {ss : List (LvalueStep R)} (h : Lvalue ctx e ss) {v : JsonNode R} (hv : readSteps pDoc ss = .ok v) :
    Evals ctx e v := by
  induction h generalizing v with
  | id zId iDatasrc =>
    cases hv
    refine ⟨.id zId none iDatasrc,Returns.succ_iff.mp (.of_forall fun n => ?_)⟩
    show exprEval (interp n) ctx (.id zId none iDatasrc) = _
    rw [exprEval.eq_def]
    simp only [hdoc]
  | @dot e ss _ zId ih =>
    rw [readSteps_append] at hv
    obtain ⟨u,hu,hv⟩ := bind_eq_ok.mp hv
    cases hv
    obtain ⟨e',he⟩ := ih hu
    refine ⟨.dot e' zId,Returns.succ_iff.mp ?_⟩
    filter_upwards [he] with n hn
    show exprEval (interp n) ctx (.dot e zId) = _
    rw [exprEval,hn]
    rfl
  | @lb e r ss w _ hr ih =>
    rw [readSteps_append] at hv
    obtain ⟨u,hu,hv⟩ := bind_eq_ok.mp hv
    obtain ⟨e',he⟩ := ih hu
    obtain ⟨r',hr⟩ := hr
    refine ⟨.bi .lb e' (some r'),Returns.succ_iff.mp ?_⟩
    filter_upwards [he,hr] with n hn hrn
    show exprEvalBi (interp n) ctx .lb e (some r) = _
    have hop : biOperator .lb u w = .ok v := hv
    simp only [exprEvalBi,hn,ok_bind,evalOption_some hrn,hop]

def LvalueStep.label : LvalueStep R → Bytes
  | .name zId => zId
  | .elem pIndex => xjd1JsonToString pIndex

/-- `w` is `v` with the value `x` at the end of the steps. Members and elements that the
steps do not go through are those of `v`. -/
inductive Assigned (x : JsonNode R) : JsonNode R → List (LvalueStep R) → JsonNode R → Prop
  | here (v : JsonNode R) : Assigned x v [] x
  | member {step : LvalueStep R} {ss : List (LvalueStep R)} {pre post : List (Bytes × JsonNode R)} {v w : JsonNode R}
      (hpre : ∀ m ∈ pre, m.1 ≠ step.label) (h : Assigned x v ss w) :
      Assigned x (.struct (pre ++ (step.label,v)::post)) (step::ss) (.struct (pre ++ (step.label,w)::post))
  | newMember {step : LvalueStep R} {ss : List (LvalueStep R)} {ms : List (Bytes × JsonNode R)} {w : JsonNode R}
      (hms : ∀ m ∈ ms, m.1 ≠ step.label) (h : Assigned x .false ss w) :
      Assigned x (.struct ms) (step::ss) (.struct (ms ++ [(step.label,w)]))
  /-- A value that is no struct gives way to one, for a named property. -/
  | overwritten {zId : Bytes} {ss : List (LvalueStep R)} {v w : JsonNode R} (hv : ∀ ms, v ≠ .struct ms)
      (h : Assigned x .false ss w) : Assigned x v (.name zId::ss) (.struct [(zId,w)])
  | element {pIndex : JsonNode R} {ss : List (LvalueStep R)} {pre post : List (JsonNode R)} {v w : JsonNode R}
      (hi : subscript pIndex = .ok (some pre.length)) (h : Assigned x v ss w) :
      Assigned x (.array (pre ++ v::post)) (.elem pIndex::ss) (.array (pre ++ w::post))
  /-- Nulls fill an array up to the new element. -/
  | grown {pIndex : JsonNode R} {ss : List (LvalueStep R)} {vs : List (JsonNode R)} {k : ℕ} {w : JsonNode R}
      (hi : subscript pIndex = .ok (some (vs.length + k))) (h : Assigned x .null ss w) :
      Assigned x (.array vs) (.elem pIndex::ss) (.array (vs ++ List.replicate k .null ++ [w]))

omit [CDouble R] in
theorem getProperty_append {pre post : List (Bytes × JsonNode R)} {z : Bytes} (hpre : ∀ m ∈ pre, m.1 ≠ z)
    {v : JsonNode R} (hv : v ≠ .nullptr) : getProperty (.struct (pre ++ (z,v)::post)) z = v := by
  rw [getProperty]
  cases v with
  | nullptr => exact absurd rfl hv
  | _ => simp only [lookup_append hpre]

/-- A step into a struct reads the member with its label, whatever kind of step it is. -/
theorem LvalueStep.read_struct (step : LvalueStep R) (ms : List (Bytes × JsonNode R)) :
    step.read (.struct ms) = .ok (getProperty (.struct ms) step.label) := by
  cases step <;> rfl

theorem LvalueStep.read_array {pIndex v : JsonNode R} {pre post : List (JsonNode R)}
    (hi : subscript pIndex = .ok (some pre.length)) (hv : v ≠ .nullptr) :
    (LvalueStep.elem pIndex).read (.array (pre ++ v::post)) = .ok v := by
  rw [LvalueStep.read,subscriptOperator,hi]
  cases v with
  | nullptr => exact absurd rfl hv
  | _ => simp only [ok_bind,List.getElem?_append_right (Nat.le_refl _),Nat.sub_self,List.getElem?_cons_zero]

theorem Assigned.ne_nullptr {x v w : JsonNode R} {ss : List (LvalueStep R)} (hx : x ≠ .nullptr)
    (h : Assigned x v ss w) : w ≠ .nullptr := by
  cases h with
  | here => exact hx
  | _ => exact fun h => by cases h

theorem Assigned.read {x v w : JsonNode R} {ss : List (LvalueStep R)} (hx : x ≠ .nullptr) (h : Assigned x v ss w) :
    readSteps w ss = .ok x := by
  have hcons (u : JsonNode R) (step : LvalueStep R) (ss : List (LvalueStep R)) :
      readSteps u (step::ss) = step.read u >>= fun u => readSteps u ss := rfl
  induction h with
  | here => rfl
  | member hpre h ih =>
    rw [hcons,LvalueStep.read_struct,getProperty_append hpre (h.ne_nullptr hx)]
    exact ih
  | newMember hms h ih =>
    rw [hcons,LvalueStep.read_struct,getProperty_append hms (h.ne_nullptr hx)]
    exact ih
  | @overwritten zId ss v w _ h ih =>
    have hget : getProperty (.struct [(zId,w)]) zId = w :=
      getProperty_append (List.forall_mem_nil _) (h.ne_nullptr hx)
    rw [hcons,LvalueStep.read_struct,LvalueStep.label,hget]
    exact ih
  | element hi h ih =>
    rw [hcons,LvalueStep.read_array hi (h.ne_nullptr hx)]
    exact ih
  | @grown pIndex ss vs k w hi h ih =>
    have hlen : vs.length + k = (vs ++ List.replicate k JsonNode.null).length := by simp
    rw [hlen] at hi
    rw [hcons,LvalueStep.read_array hi (h.ne_nullptr hx)]
    exact ih

omit [CDouble R] in
theorem nodePointer_eq_some {pRoot : JsonNode R} {p q : NodePath} :
    nodePointer pRoot p = some q ↔ q = p ∧ pRoot.nodeAt p ≠ .nullptr := by
  rw [nodePointer]
  cases pRoot.nodeAt p with
  | nullptr => simp
  | _ => simp [eq_comm]

omit [CDouble R] in
theorem findIdx_split {ms : List (Bytes × JsonNode R)} {z : Bytes} {i : ℕ}
    (h : ms.findIdx? (fun m => m.1 = z) = some i) :
    ∃ pre v post, ms = pre ++ (z,v)::post ∧ (∀ m ∈ pre, m.1 ≠ z) ∧ pre.length = i := by
  obtain ⟨hi,hz,hfirst⟩ := List.findIdx?_eq_some_iff_getElem.mp h
  refine ⟨ms.take i,ms[i].2,ms.drop (i+1),?_,fun m hm => ?_,List.length_take_of_le (Nat.le_of_lt hi)⟩
  · have hm : (z,ms[i].2) = ms[i] := by rw [← of_decide_eq_true hz]
    rw [hm,← List.drop_eq_getElem_cons hi,List.take_append_drop]
  · obtain ⟨j,hj,rfl⟩ := List.mem_take_iff_getElem.mp hm
    simpa using hfirst j (by omega)

/-- A step goes from the node `v` to the child number `i` of `v'`, which is `v`, or `v` with
that child added; an assignment below the child is one below the node. -/
structure LeadsTo (step : LvalueStep R) (v v' : JsonNode R) (i : ℕ) : Prop where
  node : v'.child i ≠ .nullptr
  assigned : ∀ x ss w, Assigned x (v'.child i) ss w → Assigned x v (step::ss) (v'.setChild i w)

section Leads
variable {step : LvalueStep R} {pIndex v : JsonNode R}

theorem LeadsTo.member {pre post : List (Bytes × JsonNode R)} (hpre : ∀ m ∈ pre, m.1 ≠ step.label)
    (hv : v ≠ .nullptr) :
    LeadsTo step (.struct (pre ++ (step.label,v)::post)) (.struct (pre ++ (step.label,v)::post)) pre.length := by
  constructor
  · rwa [JsonNode.child_member]
  · intro x ss w hw
    rw [JsonNode.child_member] at hw
    rw [JsonNode.setChild_member]
    exact .member hpre hw

theorem LeadsTo.added {ms : List (Bytes × JsonNode R)}
    (h : ∀ x ss w, Assigned x .false ss w → Assigned x v (step::ss) (.struct (ms ++ [(step.label,w)]))) :
    LeadsTo step v (.struct (ms ++ [(step.label,.false)])) ms.length := by
  constructor
  · rw [JsonNode.child_member]
    exact fun h => by cases h
  · intro x ss w hw
    rw [JsonNode.child_member] at hw
    rw [JsonNode.setChild_member]
    exact h x ss w hw

theorem LeadsTo.element {pre post : List (JsonNode R)} (hi : subscript pIndex = .ok (some pre.length))
    (hv : v ≠ .nullptr) :
    LeadsTo (.elem pIndex) (.array (pre ++ v::post)) (.array (pre ++ v::post)) pre.length := by
  constructor
  · rwa [JsonNode.child_element]
  · intro x ss w hw
    rw [JsonNode.child_element] at hw
    rw [JsonNode.setChild_element]
    exact .element hi hw

theorem LeadsTo.grown {vs : List (JsonNode R)} {k : ℕ} (hi : subscript pIndex = .ok (some (vs.length + k))) :
    LeadsTo (.elem pIndex) (.array vs) (.array (vs ++ List.replicate k .null ++ [.null])) (vs.length + k) := by
  have hlen : vs.length + k = (vs ++ List.replicate k (.null : JsonNode R)).length := by simp
  constructor
  · rw [hlen,JsonNode.child_element]
    exact fun h => by cases h
  · intro x ss w hw
    rw [hlen,JsonNode.child_element] at hw
    rw [hlen,JsonNode.setChild_element]
    exact .grown hi hw

end Leads

omit [CDouble R] in
theorem structMembers_cases (v : JsonNode R) :
    v = .struct (structMembers v) ∨ (structMembers v = [] ∧ ∀ ms, v ≠ .struct ms) := by
  cases v with
  | struct ms => exact Or.inl rfl
  | _ => exact Or.inr ⟨rfl,fun ms h => by cases h⟩

theorem findStructElement_leads {pRoot pRoot' : JsonNode R} {p q : NodePath} {step : LvalueStep R}
    (hname : (∃ ms, pRoot.nodeAt p = .struct ms) ∨ ∃ zId, step = .name zId)
    (h : findStructElement pRoot (some p) step.label = (pRoot',some q)) :
    ∃ v' i, pRoot' = pRoot.putAt p v' ∧ q = p ++ [i] ∧ LeadsTo step (pRoot.nodeAt p) v' i := by
  rw [findStructElement] at h
  have hcases := structMembers_cases (pRoot.nodeAt p)
  generalize hms : structMembers (pRoot.nodeAt p) = ms at h hcases
  cases hfind : ms.findIdx? fun m => m.1 = step.label with
  | some i =>
    simp only [hfind] at h
    obtain ⟨hroot,hq⟩ := Prod.mk.inj h
    obtain ⟨rfl,hnode⟩ := nodePointer_eq_some.mp hq
    obtain ⟨pre,v,post,rfl,hpre,rfl⟩ := findIdx_split hfind
    rw [JsonNode.nodeAt_append] at hnode
    refine ⟨pRoot.nodeAt p,pre.length,by rw [JsonNode.putAt_nodeAt,hroot],rfl,?_⟩
    have hstruct := hcases.resolve_right fun h => by simp at h
    rw [hstruct] at hnode ⊢
    rw [JsonNode.nodeAt,JsonNode.child_member] at hnode
    exact .member hpre hnode
  | none =>
    simp only [hfind] at h
    obtain ⟨hroot,hq⟩ := Prod.mk.inj h
    have hnew : ∀ m ∈ ms, m.1 ≠ step.label := by simpa using hfind
    refine ⟨_,ms.length,hroot.symm,(Option.some.inj hq).symm,.added fun x ss w hw => ?_⟩
    rcases hcases with hstruct | ⟨rfl,hother⟩
    · rw [hstruct]
      exact .newMember hnew hw
    · obtain ⟨zId,rfl⟩ := hname.resolve_left fun h => h.elim hother
      exact .overwritten hother hw

theorem findArrayElement_leads {pRoot pRoot' pIndex : JsonNode R} {p q : NodePath} {vs : List (JsonNode R)}
    (hv : pRoot.nodeAt p = .array vs) (h : findArrayElement pRoot p vs pIndex = .ok (pRoot',some q)) :
    ∃ v' i, pRoot' = pRoot.putAt p v' ∧ q = p ++ [i] ∧ LeadsTo (.elem pIndex) (pRoot.nodeAt p) v' i := by
  obtain ⟨o,hi,h⟩ := bind_eq_ok.mp h
  cases o with
  | none => cases h
  | some i =>
    simp only at h
    split at h
    · rename_i hlt
      obtain ⟨hroot,hq⟩ := Prod.mk.inj (Run.ok.inj h)
      obtain ⟨rfl,hnode⟩ := nodePointer_eq_some.mp hq
      rw [JsonNode.nodeAt_append] at hnode
      refine ⟨pRoot.nodeAt p,i,by rw [JsonNode.putAt_nodeAt,hroot],rfl,?_⟩
      have hvs : vs = vs.take i ++ vs[i] :: vs.drop (i+1) := by
        rw [← List.drop_eq_getElem_cons hlt,List.take_append_drop]
      have hlen : (vs.take i).length = i := List.length_take_of_le (Nat.le_of_lt hlt)
      generalize vs.take i = pre at hvs hlen
      subst hlen
      rw [hv,hvs] at hnode ⊢
      rw [JsonNode.nodeAt,JsonNode.child_element] at hnode
      exact .element hi hnode
    · rename_i hge
      split at h
      · obtain ⟨hroot,hq⟩ := Prod.mk.inj (Run.ok.inj h)
        obtain ⟨k,rfl⟩ := Nat.exists_eq_add_of_le (Nat.le_of_not_lt hge)
        have hcount : vs.length + k + 1 - vs.length = k + 1 := by omega
        rw [hcount,List.replicate_succ',← List.append_assoc] at hroot
        refine ⟨_,vs.length + k,hroot.symm,(Option.some.inj hq).symm,?_⟩
        rw [hv]
        exact .grown hi
      · cases h

theorem LvalueStep.find_leads {step : LvalueStep R} {pRoot pRoot' : JsonNode R} {p q : NodePath}
    (h : step.find (pRoot,some p) = .ok (pRoot',some q)) :
    ∃ v' i, pRoot' = pRoot.putAt p v' ∧ q = p ++ [i] ∧ LeadsTo step (pRoot.nodeAt p) v' i := by
  cases step with
  | name zId => exact findStructElement_leads (Or.inr ⟨zId,rfl⟩) (Run.ok.inj h)
  | elem pIndex =>
    rw [find] at h
    simp only at h
    split at h
    · rename_i ms hn
      exact findStructElement_leads (Or.inl ⟨ms,hn⟩) (Run.ok.inj h)
    · rename_i vs hn
      exact findArrayElement_leads hn h
    · cases h

theorem LvalueStep.find_none {step : LvalueStep R} {pRoot pRoot' : JsonNode R} {q : NodePath} :
    step.find (pRoot,none) ≠ .ok (pRoot',some q) := by
  cases step with
  | name zId => exact fun h => by cases h
  | elem pIndex => exact fun h => by cases h

theorem findSteps_assigned {pDoc pRoot : JsonNode R} {ss : List (LvalueStep R)} {q : NodePath}
    (h : findSteps pDoc ss = .ok (pRoot,some q)) : pRoot.nodeAt q ≠ .nullptr ∧
      ∀ x ss' w, Assigned x (pRoot.nodeAt q) ss' w → Assigned x pDoc (ss ++ ss') (pRoot.putAt q w) := by
  induction ss using List.reverseRecOn generalizing pRoot q with
  | nil =>
    obtain ⟨rfl,hq⟩ := Prod.mk.inj (Run.ok.inj h)
    obtain ⟨rfl,hnode⟩ := nodePointer_eq_some.mp hq
    exact ⟨hnode,fun x ss' w hw => hw⟩
  | append_singleton ss step ih =>
    rw [findSteps_append] at h
    obtain ⟨⟨pRoot1,pBase⟩,h1,h⟩ := bind_eq_ok.mp h
    cases pBase with
    | none => exact absurd h LvalueStep.find_none
    | some p =>
      obtain ⟨hnode,hassigned⟩ := ih h1
      obtain ⟨v',i,rfl,rfl,hleads⟩ := LvalueStep.find_leads h
      have hchild : (pRoot1.putAt p v').nodeAt (p ++ [i]) = v'.child i := by
        rw [JsonNode.nodeAt_append,JsonNode.nodeAt_putAt hnode]
        rfl
      rw [hchild]
      refine ⟨hleads.node,fun x ss' w hw => ?_⟩
      have hbelow := hassigned x (step::ss') _ (hleads.assigned x ss' w hw)
      rw [JsonNode.putAt_below hnode,List.append_assoc]
      exact hbelow

/-- When the node of an lvalue is found, the assignment puts the value there, the lvalue
then reads as the value, and what the lvalue does not go through stays as it was. -/
theorem revise_then_read {ctx : Ctx R} {pDoc pRoot v : JsonNode R} {e e' r : Expr R} {ss : List (LvalueStep R)}
    {p : NodePath} (hl : Lvalue ctx e ss) (hr : Evals ctx r v) (hv : v ≠ .nullptr)
    (hnode : Returns (fun n => findOrCreateJsonNode (interp n) ctx pDoc e) (pRoot,some p,e')) :
    ∃ pDoc' f f', Returns (fun n => reviseOneField (interp n) ctx pDoc e r) (pDoc',f,f') ∧
      Assigned v pDoc ss pDoc' ∧
      ∀ ctx' e', ctx'.pDoc = .doc pDoc' → Lvalue ctx' e' ss → Evals ctx' e' v := by
  obtain ⟨r',hr⟩ := hr
  have hfind : findSteps pDoc ss = .ok (pRoot,some p) := by
    obtain ⟨e1,he⟩ := hl.find pDoc
    obtain ⟨n,h1,h2⟩ := (he.and hnode).exists
    obtain ⟨⟨pRoot',pNode⟩,hs,h3⟩ := bind_eq_ok.mp (h1.symm.trans h2)
    cases h3
    exact hs
  have hassigned : Assigned v pDoc ss (pRoot.putAt p v) := by
    have h := (findSteps_assigned hfind).2 v [] v (.here _)
    rwa [List.append_nil] at h
  refine ⟨pRoot.putAt p v,e',r',?_,hassigned,fun ctx' f hctx hf => hf.read hctx (hassigned.read hv)⟩
  filter_upwards [hnode,hr] with n hn hrn
  rw [reviseOneField,hn,ok_bind]
  cases v with
  | nullptr => exact absurd rfl hv
  | _ => simp only [hrn,ok_bind]

/-- `c.a[2] = 7` on a document whose member `a` is an array of one number. -/
theorem revise_then_read_grown :
    let ctx : Ctx Int := ⟨[],.doc .null,fun _ => []⟩
    let pDoc : JsonNode Int := .struct [([ch 'a'],.array [.real 5])]
    let e : Expr Int := .bi .lb (.dot (.id [ch 'c'] none 0) [ch 'a']) (some (.jvalue (.real 2)))
    let ss : List (LvalueStep Int) := [.name [ch 'a'],.elem (.real 2)]
    ∃ pDoc' f f', Returns (fun n => reviseOneField (interp n) ctx pDoc e (.jvalue (.real 7))) (pDoc',f,f') ∧
      Assigned (.real 7) pDoc ss pDoc' ∧
      ∀ ctx' e', ctx'.pDoc = .doc pDoc' → Lvalue ctx' e' ss → Evals ctx' e' (.real 7) := by
  intro ctx pDoc e ss
  have hjvalue (v : JsonNode Int) : Evals ctx (.jvalue v) v :=
    ⟨.jvalue v,Returns.succ_iff.mp (.of_forall fun _ => rfl)⟩
  have hl : Lvalue ctx e ss := .lb (.dot (.id [ch 'c'] 0) [ch 'a']) (hjvalue (.real 2))
  exact revise_then_read hl (hjvalue (.real 7)) (fun h => by cases h) (Returns.succ_iff.mp (.of_forall fun _ => rfl))

end Xjd1
