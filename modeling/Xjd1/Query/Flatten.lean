import Mathlib.Data.List.Forall2
import Xjd1.Query.Join
import Xjd1.Query.Members

/-! FLATTEN and EACH. The stack of an iterator stands for the members still to come, those
of the innermost value first. -/
namespace Xjd1

open Fueled Fueled.Run Delivery

variable {R : Type}

inductive FlattenOp
  | flatten | each
  deriving DecidableEq, Repr

def FlattenOp.cOpName : FlattenOp → UInt8
  | .flatten => ch 'F'
  | .each => ch 'E'

def FlattenOp.entries [CDouble R] : FlattenOp → JsonNode R → List (JsonNode R × JsonNode R)
  | .flatten, v => v.leaves.map fun e => (.array e.1,e.2)
  | .each, v => v.members

def keyValue (pKey pValue : JsonNode R) : JsonNode R := .struct [([ch 'k'],pKey),([ch 'v'],pValue)]

def idExpr (zId : Bytes) : Expr R := .id zId none 0

/-- The expressions of the grammar's `path`. -/
inductive IsPath : Expr R → Prop
  | id (zId : Bytes) (pQuery : Option ℕ) (iDatasrc : ℕ) : IsPath (.id zId pQuery iDatasrc)
  | dot {pLeft : Expr R} (zId : Bytes) (h : IsPath pLeft) : IsPath (.dot pLeft zId)

def Expr.labels : Expr R → List Bytes
  | .id zId _ _ => [zId]
  | .dot pLeft zId => pLeft.labels ++ [zId]
  | _ => []

theorem findStructElem_eq {p : Expr R} (hp : IsPath p) (v : JsonNode R) :
    findStructElem v p = v.property p.labels := by
  induction hp with
  | id z q i =>
    cases v with
    | struct ms =>
      rw [findStructElem,Expr.labels,JsonNode.property]
      exact (Option.bind_fun_some _).symm
    | _ => rfl
  | @dot p z _ ih =>
    rw [findStructElem,ih,Expr.labels,JsonNode.property_append]
    cases v.property p.labels with
    | none => rfl
    | some w =>
      cases w with
      | struct ms => exact (Option.bind_fun_some _).symm
      | _ => rfl

theorem editMember_replaced {f : JsonNode R → Option (JsonNode R)} {z : Bytes} {x y : JsonNode R} (hf : f x = some y)
    {pre post : List (Bytes × JsonNode R)} (hpre : ∀ m ∈ pre, m.1 ≠ z) :
    editMember z f (pre ++ (z,x)::post) = some (pre ++ (z,y)::post) := by
  induction pre with
  | nil => rw [List.nil_append,editMember,if_pos rfl,hf]; rfl
  | cons m pre ih =>
    obtain ⟨hm,hpre⟩ := List.forall_mem_cons.mp hpre
    rw [List.cons_append,editMember,if_neg hm,ih hpre]
    rfl

theorem editMember_added {f : JsonNode R → Option (JsonNode R)} {z : Bytes} {w : JsonNode R}
    (hf : f .nullptr = some w) {ms : List (Bytes × JsonNode R)} (hms : ∀ m ∈ ms, m.1 ≠ z) :
    editMember z f ms = some (ms ++ [(z,w)]) := by
  induction ms with
  | nil => rw [editMember,hf]; rfl
  | cons m ms ih =>
    obtain ⟨hm,hms⟩ := List.forall_mem_cons.mp hms
    rw [editMember,if_neg hm,ih hms]
    rfl

/-- A change of the value that a path leads to. -/
theorem editStructElem_replaced {p : Expr R} (hp : IsPath p) {v x y : JsonNode R}
    {f : JsonNode R → Option (JsonNode R)} (hx : v.property p.labels = some x) (hf : f x = some y) :
    ∃ v', editStructElem v f p = some v' ∧ Replaced x y p.labels v v' := by
  induction hp generalizing x y f with
  | id z q i =>
    cases v with
    | struct ms =>
      obtain ⟨u,hu,hx⟩ := Option.bind_eq_some_iff.mp hx
      cases hx
      obtain ⟨pre,post,rfl,hpre⟩ := lookup_eq_some hu
      refine ⟨.struct (pre ++ (z,y)::post),?_,.member hpre .here⟩
      rw [editStructElem,editMember_replaced hf hpre]
      rfl
    | _ => cases hx
  | @dot p z _ ih =>
    rw [Expr.labels,JsonNode.property_append] at hx
    obtain ⟨u,hu,hx⟩ := Option.bind_eq_some_iff.mp hx
    cases u with
    | struct ms =>
      obtain ⟨w,hw,hx⟩ := Option.bind_eq_some_iff.mp hx
      cases hx
      obtain ⟨pre,post,rfl,hpre⟩ := lookup_eq_some hw
      rw [editStructElem,Expr.labels]
      refine (ih hu ?_).imp fun v' h => ⟨h.1,h.2.append (.member hpre .here)⟩
      exact congrArg (Option.map JsonNode.struct) (editMember_replaced hf hpre)
    | _ => cases hx

/-- The path that receives the key and value of a row: the AS name, or the operator's path. -/
def flattenAs (pPath : Expr R) (zAs : Option Bytes) : Expr R := (zAs.map idExpr).getD pPath

theorem flattenedObject_set {p : Expr R} (hp : IsPath p) (zAs : Option Bytes) {v x : JsonNode R}
    (hx : v.property p.labels = some x) (pKey pValue : JsonNode R) :
    ∃ d, flattenedObject v pKey pValue (flattenAs p zAs) = .ok d ∧
      PropertySet (keyValue pKey pValue) (flattenAs p zAs).labels v d := by
  cases zAs with
  | none =>
    obtain ⟨d,hd,h⟩ := editStructElem_replaced hp hx (f := fun _ => some (keyValue pKey pValue)) rfl
    refine ⟨d,?_,.replaced h⟩
    rw [flattenedObject]
    exact congrArg _ hd
  | some z =>
    have hstruct : ∃ ms, v = .struct ms := by
      cases hz : p.labels with
      | nil => cases hp <;> simp [Expr.labels] at hz
      | cons a zs =>
        rw [hz] at hx
        cases v with
        | struct ms => exact ⟨ms,rfl⟩
        | _ => cases hx
    obtain ⟨ms,rfl⟩ := hstruct
    cases hz : lookup ms z with
    | none =>
      have hnew := lookup_eq_none hz
      refine ⟨_,?_,.added hnew⟩
      have hadd := editMember_added (f := fun _ => some (keyValue pKey pValue)) rfl hnew
      rw [flattenedObject]
      exact congrArg (fun o => Run.ofOption _ (o.map JsonNode.struct)) hadd
    | some u =>
      obtain ⟨d,hd,h⟩ := editStructElem_replaced (.id z none 0) (v := .struct ms) (x := u)
        (f := fun _ => some (keyValue pKey pValue)) (by rw [Expr.labels,JsonNode.property,hz]; rfl) rfl
      refine ⟨d,?_,.replaced h⟩
      rw [flattenedObject]
      exact congrArg _ hd

section Iterator
variable [CDouble R] {v : JsonNode R} {m : JsonNode R × JsonNode R} {rest : List (FlattenIterElem R)} {i : ℕ}

/-- The turns of the loop of `flattenIterNext`. -/
def flattenTurns : Turner (FlattenIter R) (JsonNode R × JsonNode R) where
  silent it it' := flattenIterTurn it = .ok (.inr it')
  shown it e it' := flattenIterTurn it = .ok (.inl (.row,it')) ∧ flattenIterEntry it' = .ok e

theorem memberAt_eq (hv : v.structured) (i : ℕ) : memberAt v i = .ok v.members[i]? := by
  cases v with
  | struct ms => rw [memberAt,JsonNode.members,List.getElem?_map]
  | array vs => rw [memberAt,JsonNode.members,List.getElem?_mapIdx]
  | _ => cases hv

omit [CDouble R] in
theorem isContainer_eq (hv : v.solid) : isContainer v = .ok v.structured := by
  cases v with
  | nullptr => cases hv
  | _ => rfl

theorem currentMember_eq (hv : v.structured) (hm : v.members[i]? = some m) : currentMember ⟨v,i+1⟩ = .ok m := by
  simp only [currentMember,memberAt_eq hv,hm,ok_bind,ofOption_some]

theorem flattenIterTurn_pop (b : Bool) (hv : v.structured) (hi : v.members[i]? = none) :
    flattenIterTurn ⟨b,⟨v,i⟩::rest⟩ = .ok (.inr ⟨b,rest⟩) := by
  simp only [flattenIterTurn,memberAt_eq hv,hi,ok_bind]

theorem flattenIterTurn_push (hv : v.structured) (hi : v.members[i]? = some m) (hsolid : m.2.solid)
    (hm : m.2.structured) :
    flattenIterTurn ⟨true,⟨v,i⟩::rest⟩ = .ok (.inr ⟨true,⟨m.2,0⟩::⟨v,i+1⟩::rest⟩) := by
  simp only [flattenIterTurn,memberAt_eq hv,hi,ok_bind,if_true,isContainer_eq hsolid,hm]

theorem flattenIterTurn_leaf (hv : v.structured) (hi : v.members[i]? = some m) (hsolid : m.2.solid)
    (hm : m.2.structured = false) :
    flattenIterTurn ⟨true,⟨v,i⟩::rest⟩ = .ok (.inl (.row,⟨true,⟨v,i+1⟩::rest⟩)) := by
  simp only [flattenIterTurn,memberAt_eq hv,hi,ok_bind,if_true,isContainer_eq hsolid,hm,Bool.false_eq_true,if_false]

theorem flattenIterTurn_each (hv : v.structured) (hi : v.members[i]? = some m) :
    flattenIterTurn ⟨false,⟨v,i⟩::rest⟩ = .ok (.inl (.row,⟨false,⟨v,i+1⟩::rest⟩)) := by
  simp only [flattenIterTurn,memberAt_eq hv,hi,ok_bind,Bool.false_eq_true,if_false]

theorem currentKeys_push {ks : List (JsonNode R)} (hv : v.structured) (hi : v.members[i]? = some m)
    (hks : currentKeys rest = .ok ks) : currentKeys (⟨v,i+1⟩::rest) = .ok (ks ++ [m.1]) := by
  rw [currentKeys,hks,ok_bind,currentMember_eq hv hi]
  rfl

theorem drop_cons {α : Type} {l t : List α} {a : α} {i : ℕ} (h : l.drop i = a::t) : l[i]? = some a ∧ l.drop (i+1) = t := by
  rw [← List.drop_drop,h,← Nat.add_zero i,← List.getElem?_drop,h]
  exact ⟨rfl,rfl⟩

/-- From member `i` of the innermost value on, the leaves come with the keys of the levels
below in front; the value is then off the stack. The induction is on the value, and within
it on the members still to come. -/
theorem walks_leaves (v : JsonNode R) {ks : List (JsonNode R)} (i : ℕ) (hv : v.structured) (hsolid : v.solid)
    (hks : currentKeys rest = .ok ks) : Walks flattenTurns ⟨true,⟨v,i⟩::rest⟩
      (((v.members.drop i).flatMap fun m => below m.1 m.2 m.2.leaves).map fun e => (.array (ks ++ e.1),e.2))
      ⟨true,rest⟩ := by
  induction v using JsonNode.induction_members generalizing rest ks i with
  | h v ih =>
    generalize hl : v.members.drop i = l
    induction l generalizing i with
    | nil =>
      have hi : v.members[i]? = none := List.getElem?_eq_none (List.drop_eq_nil_iff.mp hl)
      exact .silent (flattenIterTurn_pop true hv hi) (.refl _)
    | cons m l ihl =>
      obtain ⟨hi,hl⟩ := drop_cons hl
      have hmem := List.mem_of_getElem? hi
      have hms := JsonNode.solid_member hsolid hmem
      have hrest := ihl (i+1) hl
      have hkeys := currentKeys_push hv hi hks
      rw [List.flatMap_cons,List.map_append]
      cases hm : m.2.structured with
      | true =>
        have hin := ih m hmem 0 hm hms hkeys
        rw [List.drop_zero,← JsonNode.leaves_eq] at hin
        have hbelow : (below m.1 m.2 m.2.leaves).map (fun e => (JsonNode.array (ks ++ e.1),e.2)) =
            m.2.leaves.map fun e => (.array (ks ++ [m.1] ++ e.1),e.2) := by
          simp [below,hm]
        rw [hbelow]
        exact .silent (flattenIterTurn_push hv hi hms hm) (hin.trans hrest)
      | false =>
        have hbelow : below m.1 m.2 m.2.leaves = [([m.1],m.2)] := by
          rw [below,hm]
          rfl
        rw [hbelow]
        refine .shown ⟨flattenIterTurn_leaf hv hi hms hm,?_⟩ hrest
        simp only [flattenIterEntry,currentMember_eq hv hi,ok_bind,if_true,hkeys]

theorem walks_members (hv : v.structured) (i : ℕ) :
    Walks flattenTurns ⟨false,[⟨v,i⟩]⟩ (v.members.drop i) ⟨false,[]⟩ := by
  generalize hl : v.members.drop i = l
  induction l generalizing i with
  | nil =>
    have hi : v.members[i]? = none := List.getElem?_eq_none (List.drop_eq_nil_iff.mp hl)
    exact .silent (flattenIterTurn_pop false hv hi) (.refl _)
  | cons m l ih =>
    obtain ⟨hi,hl⟩ := drop_cons hl
    refine .shown ⟨flattenIterTurn_each hv hi,?_⟩ (ih (i+1) hl)
    simp only [flattenIterEntry,currentMember_eq hv hi,ok_bind,Bool.false_eq_true,if_false]

theorem Walks.loop_done {it t : FlattenIter R} (h : Walks flattenTurns it [] t) (ht : t.aIter = []) :
    Returns (fun n => Run.loop flattenIterTurn n it) (.done,t) := by
  generalize hes : ([] : List (JsonNode R × JsonNode R)) = es at h
  induction h with
  | refl it =>
    refine Returns.loop_exit (Filter.Eventually.of_forall fun _ => ?_)
    rw [flattenIterTurn,ht]
  | silent h _ ih =>
    exact Returns.loop_turn (fun _ _ _ _ => Run.le_refl _) (Filter.Eventually.of_forall fun _ => h) (ih ht hes)
  | shown => cases hes

theorem Walks.loop_row {it t : FlattenIter R} {e : JsonNode R × JsonNode R} {es : List (JsonNode R × JsonNode R)}
    (h : Walks flattenTurns it (e::es) t) : ∃ it', Returns (fun n => Run.loop flattenIterTurn n it) (.row,it') ∧
      flattenIterEntry it' = .ok e ∧ Walks flattenTurns it' es t := by
  generalize hes : e::es = es' at h
  induction h with
  | refl => cases hes
  | silent h _ ih =>
    obtain ⟨it',hret,hrest⟩ := ih hes
    exact ⟨it',Returns.loop_turn (fun _ _ _ _ => Run.le_refl _) (Filter.Eventually.of_forall fun _ => h) hret,hrest⟩
  | shown h hs =>
    cases hes
    exact ⟨_,Returns.loop_exit (Filter.Eventually.of_forall fun _ => h.1),h.2,hs⟩

/-- The keys and values that an iterator has still to give. -/
inductive Remaining : Option (FlattenIter R) → List (JsonNode R × JsonNode R) → Prop
  | spent : Remaining none []
  | walk {it t : FlattenIter R} {es : List (JsonNode R × JsonNode R)} (h : Walks flattenTurns it es t)
    (ht : t.aIter = []) : Remaining (some it) es

theorem Remaining.next_done {it : Option (FlattenIter R)} (h : Remaining it []) :
    ∃ it', Returns (fun n => flattenIterNext n it) (.done,it') := by
  cases h with
  | spent => exact ⟨_,Filter.Eventually.of_forall fun _ => rfl⟩
  | @walk it t _ h ht =>
    refine ⟨some t,?_⟩
    filter_upwards [Walks.loop_done h ht] with n hn
    simp only [flattenIterNext,hn,ok_bind]

theorem Remaining.next_row {it : Option (FlattenIter R)} {e : JsonNode R × JsonNode R}
    {es : List (JsonNode R × JsonNode R)} (h : Remaining it (e::es)) :
    ∃ it', Returns (fun n => flattenIterNext n it) (.row,some it') ∧ flattenIterEntry it' = .ok e ∧
      Remaining (some it') es := by
  cases h with
  | walk h ht =>
    obtain ⟨it',hret,he,hs⟩ := Walks.loop_row h
    refine ⟨it',?_,he,.walk hs ht⟩
    filter_upwards [hret] with n hn
    simp only [flattenIterNext,hn,ok_bind]

/-- A new iterator gives the entries of the value that the path leads to, if it is a struct
or an array. -/
theorem flattenIterNew_remaining (op : FlattenOp) {p : Expr R} (hp : IsPath p) {b : JsonNode R} (hb : b.solid) :
    ∃ it, flattenIterNew b p (op.cOpName = ch 'F') = .ok it ∧
      Remaining it ((b.property p.labels).elim [] op.entries) := by
  rw [flattenIterNew,findStructElem_eq hp]
  cases hw : b.property p.labels with
  | none => exact ⟨_,rfl,.spent⟩
  | some w =>
    simp only [isContainer_eq (JsonNode.solid_property hb hw),ok_bind]
    cases hs : w.structured with
    | false =>
      have hnone : op.entries w = [] := by
        cases w with
        | struct | array => cases hs
        | _ => cases op <;> rfl
      refine ⟨none,if_neg Bool.false_ne_true,?_⟩
      rw [Option.elim_some,hnone]
      exact .spent
    | true =>
      refine ⟨_,if_pos rfl,?_⟩
      cases op with
      | each => exact .walk (walks_members hs 0) rfl
      | flatten =>
        have hkeys : currentKeys ([] : List (FlattenIterElem R)) = .ok [] := rfl
        have h := walks_leaves w 0 hs (JsonNode.solid_property hb hw) hkeys
        rw [List.drop_zero,← JsonNode.leaves_eq] at h
        exact .walk h rfl

end Iterator

section Source
variable [CDouble R] {ctx : Ctx R}

def flattenDataSrc (pLeft : DataSrc R) (cOpName : UInt8) (pPath : Expr R) (zAs : Option Bytes) : DataSrc R :=
  .flatten .nullptr pLeft cOpName pPath (flattenAs pPath zAs) none

def srcDocs (ctx : Ctx R) : Stepper (DataSrc R) (JsonNode R) where
  row d v e := SrcSteps ctx d (.row,e) ∧ v = e.pValue
  done d e := SrcSteps ctx d (.done,e)

def DataSrc.pBase : DataSrc R → JsonNode R
  | .flatten _ pNext _ _ _ _ => pNext.pValue
  | _ => .nullptr

/-- The rows of a FLATTEN or EACH operator, each with the base document as it then is. -/
def flattenRows (ctx : Ctx R) : Stepper (DataSrc R) (JsonNode R × JsonNode R) where
  row d v e := SrcSteps ctx d (.row,e) ∧ v = (e.pBase,e.pValue)
  done d e := SrcSteps ctx d (.done,e)

/-- The row for an entry of a base document: that document, and the one with the entry in it. -/
def RowOf (zs : List Bytes) (e : JsonNode R × JsonNode R × JsonNode R) (row : JsonNode R × JsonNode R) : Prop :=
  row.1 = e.1 ∧ PropertySet (keyValue e.2.1 e.2.2) zs e.1 row.2

variable {op : UInt8} {p pAs : Expr R} {pNext pNext' t : DataSrc R} {it it' : Option (FlattenIter R)}

theorem flattenTurn_mono (ctx : Ctx R) (op : UInt8) (p : Expr R) (n m : ℕ) (h : n ≤ m)
    (s : DataSrc R × Option (FlattenIter R)) :
    flattenTurn (interp n) n ctx op p s ≤ flattenTurn (interp m) m ctx op p s :=
  flattenTurn_le (interp_le h) (Ctx.le_refl ctx) h op p s

theorem flatten_row (v : JsonNode R) {e : JsonNode R × JsonNode R} {es : List (JsonNode R × JsonNode R)}
    {x : JsonNode R} (hit : Remaining it (e::es)) (hp : IsPath p) (zAs : Option Bytes)
    (hx : pNext.pValue.property p.labels = some x) :
    ∃ it' d, SrcSteps ctx (.flatten v pNext op p (flattenAs p zAs) it)
        (.row,.flatten d pNext op p (flattenAs p zAs) it') ∧
      Remaining it' es ∧ PropertySet (keyValue e.1 e.2) (flattenAs p zAs).labels pNext.pValue d := by
  obtain ⟨it',hret,he,hes⟩ := hit.next_row
  obtain ⟨d,hd,hset⟩ := flattenedObject_set hp zAs hx e.1 e.2
  have hloop : Returns (fun n => Run.loop (flattenTurn (interp n) n ctx op p) n (pNext,it)) (.row,pNext,some it') := by
    refine Returns.loop_exit ?_
    filter_upwards [hret] with n hn
    simp only [flattenTurn,hn,ok_bind]
  refine ⟨some it',d,srcSteps_iff.mpr ?_,hes,hset⟩
  filter_upwards [hloop] with n hn
  simp only [dataSrcStep,hn,ok_bind,he,hd]

theorem flatten_done (v : JsonNode R) (hit : Remaining it []) (hnext : SrcSteps ctx pNext (.done,t)) :
    SrcSteps ctx (.flatten v pNext op p pAs it) (.done,.flatten .nullptr t op p pAs none) := by
  obtain ⟨it',hret⟩ := hit.next_done
  have hloop : Returns (fun n => Run.loop (flattenTurn (interp n) n ctx op p) n (pNext,it)) (.done,t,none) := by
    refine Returns.loop_exit ?_
    filter_upwards [hret,hnext] with n hn hs
    simp only [flattenTurn,hn,hs,ok_bind]
  refine srcSteps_iff.mpr ?_
  filter_upwards [hloop] with n hn
  simp only [dataSrcStep,hn,ok_bind]

/-- The iterator is at its end, and the source below has another base document: the step
goes on as from there. -/
theorem flatten_next (v v' : JsonNode R) {r : Rc × DataSrc R} (hit : Remaining it [])
    (hnext : SrcSteps ctx pNext (.row,pNext')) (hnew : flattenIterNew pNext'.pValue p (op = ch 'F') = .ok it')
    (h : SrcSteps ctx (.flatten v' pNext' op p pAs it') r) : SrcSteps ctx (.flatten v pNext op p pAs it) r := by
  obtain ⟨it₁,hret⟩ := hit.next_done
  obtain ⟨n,hn⟩ := (srcSteps_iff.mp h).exists
  obtain ⟨x,hx,hr⟩ := bind_eq_ok.mp hn
  have hrest : Returns (fun n => Run.loop (flattenTurn (interp n) n ctx op p) n (pNext',it')) x :=
    .of_ok (fun n m h => loop_le_loop (flattenTurn_mono ctx op p n m h) h _) hx
  have hloop : Returns (fun n => Run.loop (flattenTurn (interp n) n ctx op p) n (pNext,it)) x := by
    refine Returns.loop_turn (flattenTurn_mono ctx op p) ?_ hrest
    filter_upwards [hret,hnext] with n hn hs
    simp only [flattenTurn,hn,hs,ok_bind,hnew]
  refine srcSteps_iff.mpr ?_
  filter_upwards [hloop] with n hn
  exact bind_eq_ok.mpr ⟨x,hn,hr⟩

/-- The entries of one base document, and then the rows that come once they are spent. -/
theorem flatten_entries {rest : List (JsonNode R × JsonNode R × JsonNode R)} {x : JsonNode R} (hp : IsPath p)
    (zAs : Option Bytes)
    (hrest : ∀ v it, Remaining it [] → ∃ rows, Delivers (flattenRows ctx)
      (.flatten v pNext op p (flattenAs p zAs) it) rows t ∧ List.Forall₂ (RowOf (flattenAs p zAs).labels) rest rows)
    (v : JsonNode R) {es : List (JsonNode R × JsonNode R)} (hit : Remaining it es)
    (hx : pNext.pValue.property p.labels = some x ∨ es = []) :
    ∃ rows, Delivers (flattenRows ctx) (.flatten v pNext op p (flattenAs p zAs) it) rows t ∧
      List.Forall₂ (RowOf (flattenAs p zAs).labels) (es.map (fun e => (pNext.pValue,e)) ++ rest) rows := by
  induction es generalizing v it with
  | nil => exact hrest v it hit
  | cons e es ih =>
    have hx := hx.resolve_right (List.cons_ne_nil _ _)
    obtain ⟨it',d,hs,hes,hset⟩ := flatten_row v hit hp zAs hx
    obtain ⟨rows,hd,hrows⟩ := ih d hes (Or.inl hx)
    exact ⟨_,.row ⟨hs,rfl⟩ hd,.cons ⟨rfl,hset⟩ hrows⟩

/-- The entries of the value that a path leads to, none if it leads nowhere, each with the
base document. -/
def baseEntries (op : FlattenOp) (zs : List Bytes) (b : JsonNode R) : List (JsonNode R × JsonNode R × JsonNode R) :=
  ((b.property zs).elim [] op.entries).map fun e => (b,e)

theorem flatten_delivers (op : FlattenOp) (hp : IsPath p) (zAs : Option Bytes) {bases : List (JsonNode R)}
    (hnext : Delivers (srcDocs ctx) pNext bases t) (hsolid : ∀ b ∈ bases, b.solid) (v : JsonNode R)
    (hit : Remaining it []) : ∃ rows, Delivers (flattenRows ctx)
      (.flatten v pNext op.cOpName p (flattenAs p zAs) it) rows (flattenDataSrc t op.cOpName p zAs) ∧
      List.Forall₂ (RowOf (flattenAs p zAs).labels) (bases.flatMap (baseEntries op p.labels)) rows := by
  induction hnext generalizing v it with
  | done h => exact ⟨[],.done (flatten_done v hit h),.nil⟩
  | @row s s' t b bases h _ ih =>
    obtain ⟨hs,rfl⟩ := h
    obtain ⟨hb,hsolid⟩ := List.forall_mem_cons.mp hsolid
    obtain ⟨it',hnew,hes⟩ := flattenIterNew_remaining op hp hb
    have hx : (∃ x, s'.pValue.property p.labels = some x) ∨ (s'.pValue.property p.labels).elim [] op.entries = [] := by
      cases hprop : s'.pValue.property p.labels with
      | none => exact Or.inr rfl
      | some x => exact Or.inl ⟨x,rfl⟩
    obtain ⟨rows,hd,hrows⟩ := flatten_entries (x := (s'.pValue.property p.labels).getD .nullptr) hp zAs
      (fun v it hit => ih hsolid v hit) .nullptr hes (hx.imp_left fun h => by obtain ⟨x,h⟩ := h; rw [h]; rfl)
    refine ⟨rows,?_,by rw [List.flatMap_cons]; exact hrows⟩
    exact hd.congr (fun w u hw => ⟨flatten_next v .nullptr hit hs hnew hw.1,hw.2⟩)
      fun u hu => flatten_next v .nullptr hit hs hnew hu

/-- FLATTEN and EACH enumerate the members of the value that the path leads to, base document
after base document, and put each into a copy of its base document. -/
theorem flatten_enumerates (op : FlattenOp) {pPath : Expr R} (hpath : IsPath pPath) (zAs : Option Bytes)
    {bases : List (JsonNode R)} (hnext : Delivers (srcDocs ctx) pNext bases t) (hsolid : ∀ b ∈ bases, b.solid) :
    ∃ rows, Delivers (flattenRows ctx) (flattenDataSrc pNext op.cOpName pPath zAs) rows
        (flattenDataSrc t op.cOpName pPath zAs) ∧
      List.Forall₂ (RowOf (flattenAs pPath zAs).labels) (bases.flatMap (baseEntries op pPath.labels)) rows :=
  flatten_delivers op hpath zAs hnext hsolid .nullptr .spent

end Source

/-- A number below a struct, an array and an empty array, between two documents without
anything to enumerate. -/
theorem flatten_enumerates_nested :
    let ctx : Ctx Int := ⟨[],.select,fun _ => []⟩
    let v : JsonNode Int := .struct [([ch 'b'],.struct [([ch 'x'],.array [.real 1,.array []]),([ch 'y'],.null)])]
    let pNext (i : ℕ) (w : JsonNode Int) : DataSrc Int :=
      .path none w (.jvalue .null) (.array [.null,v,.struct [([ch 'b'],.real 2)]]) i
    ∃ rows, Delivers (flattenRows ctx) (flattenDataSrc (pNext 0 .nullptr) (ch 'F') (idExpr [ch 'b']) (some [ch 'c'])) rows
        (flattenDataSrc (pNext 3 .nullptr) (ch 'F') (idExpr [ch 'b']) (some [ch 'c'])) ∧
      List.Forall₂ (RowOf [[ch 'c']]) [(v,.array [.string [ch 'x'],.real 0],.real 1),(v,.array [.string [ch 'y']],.null)]
        rows := by
  intro ctx v pNext
  have hrow (i : ℕ) (w : JsonNode Int) : ∀ o, dataSrcStep (interp 0) 0 ctx (pNext i w) = .ok o →
      SrcSteps ctx (pNext i w) o := fun o h => .of_ok (n := 1) h
  have hnext : Delivers (srcDocs ctx) (pNext 0 .nullptr) [.null,v,.struct [([ch 'b'],.real 2)]] (pNext 3 .nullptr) :=
    .row ⟨hrow 0 _ _ rfl,rfl⟩ (.row ⟨hrow 1 _ _ rfl,rfl⟩ (.row ⟨hrow 2 _ _ rfl,rfl⟩ (.done (hrow 3 _ _ rfl))))
  exact flatten_enumerates .flatten (.id [ch 'b'] none 0) (some [ch 'c']) hnext (by decide)

end Xjd1
