import Xjd1.Json.Node

/-! Nodes inside a value, each given by the positions of the members and elements that lead
to it, as a pointer into a tree without shared nodes. -/
namespace Xjd1

variable {R : Type}

abbrev NodePath := List ℕ

def JsonNode.children : JsonNode R → List (JsonNode R)
  | .array apElem => apElem
  | .struct pFirst => pFirst.map Prod.snd
  | _ => []

def JsonNode.child (v : JsonNode R) (i : ℕ) : JsonNode R := v.children[i]?.getD .nullptr

def JsonNode.setChild (v : JsonNode R) (i : ℕ) (w : JsonNode R) : JsonNode R :=
  match v with
  | .array apElem => .array (apElem.set i w)
  | .struct pFirst => .struct (pFirst.modify i fun m => (m.1,w))
  | v => v

def JsonNode.nodeAt : JsonNode R → NodePath → JsonNode R
  | v, [] => v
  | v, i::p => (v.child i).nodeAt p

def JsonNode.putAt : JsonNode R → NodePath → JsonNode R → JsonNode R
  | _, [], w => w
  | v, i::p, w => v.setChild i ((v.child i).putAt p w)

theorem JsonNode.children_setChild (v : JsonNode R) (i : ℕ) (w : JsonNode R) :
    (v.setChild i w).children = v.children.set i w := by
  cases v with
  | struct ms =>
    simp only [setChild,children]
    induction ms generalizing i with
    | nil => simp
    | cons m ms ih =>
      cases i with
      | zero => rfl
      | succ i => simpa using ih i
  | _ => rfl

theorem JsonNode.child_setChild {v : JsonNode R} {i : ℕ} (h : i < v.children.length) (w : JsonNode R) :
    (v.setChild i w).child i = w := by
  rw [child,children_setChild,List.getElem?_set_self h,Option.getD_some]

theorem JsonNode.child_member (pre post : List (Bytes × JsonNode R)) (z : Bytes) (v : JsonNode R) :
    (struct (pre ++ (z,v)::post)).child pre.length = v := by
  simp [child,children]

theorem JsonNode.setChild_member (pre post : List (Bytes × JsonNode R)) (z : Bytes) (v w : JsonNode R) :
    (struct (pre ++ (z,v)::post)).setChild pre.length w = struct (pre ++ (z,w)::post) := by
  rw [setChild,struct.injEq]
  induction pre with
  | nil => rfl
  | cons m pre ih => simpa using ih

theorem JsonNode.child_element (pre post : List (JsonNode R)) (v : JsonNode R) :
    (array (pre ++ v::post)).child pre.length = v := by
  simp [child,children]

theorem JsonNode.setChild_element (pre post : List (JsonNode R)) (v w : JsonNode R) :
    (array (pre ++ v::post)).setChild pre.length w = array (pre ++ w::post) := by
  simp [setChild]

theorem JsonNode.setChild_setChild (v : JsonNode R) (i : ℕ) (w w' : JsonNode R) :
    (v.setChild i w).setChild i w' = v.setChild i w' := by
  cases v with
  | array vs => simp only [setChild,List.set_set]
  | struct ms => simp only [setChild,List.modify_modify_eq,Function.comp_def]
  | _ => rfl

theorem JsonNode.setChild_of_le {v : JsonNode R} {i : ℕ} (h : v.children.length ≤ i) (w : JsonNode R) :
    v.setChild i w = v := by
  cases v with
  | array vs =>
    rw [children] at h
    rw [setChild,List.set_eq_of_length_le h]
  | struct ms =>
    rw [children,List.length_map] at h
    rw [setChild,List.modify_eq_self h]
  | _ => rfl

theorem JsonNode.nodeAt_nullptr (p : NodePath) : (nullptr : JsonNode R).nodeAt p = nullptr := by
  induction p with
  | nil => rfl
  | cons i p ih => exact ih

theorem JsonNode.nodeAt_append (v : JsonNode R) (p q : NodePath) : v.nodeAt (p ++ q) = (v.nodeAt p).nodeAt q := by
  induction p generalizing v with
  | nil => rfl
  | cons i p ih => exact ih (v.child i)

theorem JsonNode.putAt_append (v : JsonNode R) (p q : NodePath) (w : JsonNode R) :
    v.putAt (p ++ q) w = v.putAt p ((v.nodeAt p).putAt q w) := by
  induction p generalizing v with
  | nil => rfl
  | cons i p ih => exact congrArg (v.setChild i) (ih (v.child i))

theorem JsonNode.child_lt {v : JsonNode R} {i : ℕ} {p : NodePath} (h : (v.child i).nodeAt p ≠ nullptr) :
    i < v.children.length := by
  by_contra hle
  rw [child,List.getElem?_eq_none (Nat.le_of_not_lt hle),Option.getD_none,nodeAt_nullptr] at h
  exact h rfl

theorem JsonNode.nodeAt_putAt {v : JsonNode R} {p : NodePath} (h : v.nodeAt p ≠ nullptr) (w : JsonNode R) :
    (v.putAt p w).nodeAt p = w := by
  induction p generalizing v with
  | nil => rfl
  | cons i p ih =>
    rw [putAt,nodeAt,child_setChild (child_lt h)]
    exact ih h

theorem JsonNode.putAt_putAt (v : JsonNode R) (p : NodePath) (w w' : JsonNode R) :
    (v.putAt p w).putAt p w' = v.putAt p w' := by
  induction p generalizing v with
  | nil => rfl
  | cons i p ih =>
    rw [putAt,putAt,putAt,setChild_setChild]
    rcases Nat.lt_or_ge i v.children.length with h | h
    · rw [child_setChild h,ih]
    · rw [setChild_of_le h,setChild_of_le h]

theorem JsonNode.setChild_child (v : JsonNode R) (i : ℕ) : v.setChild i (v.child i) = v := by
  rcases Nat.lt_or_ge i v.children.length with h | h
  · cases v with
    | array vs =>
      rw [children] at h
      rw [setChild,child,children,List.getElem?_eq_getElem h,Option.getD_some,List.set_getElem_self]
    | struct ms =>
      have hi : i < ms.length := by simpa [children] using h
      have hc : (struct ms).child i = ms[i].2 := by simp [child,children,hi]
      rw [setChild,hc]
      refine congrArg struct (List.ext_getElem (List.length_modify _ _ _) fun j h1 h2 => ?_)
      rw [List.getElem_modify]
      split
      · subst j
        rfl
      · rfl
    | _ => rfl
  · exact setChild_of_le h _

theorem JsonNode.putAt_nodeAt (v : JsonNode R) (p : NodePath) : v.putAt p (v.nodeAt p) = v := by
  induction p generalizing v with
  | nil => rfl
  | cons i p ih => rw [putAt,nodeAt,ih,setChild_child]

theorem JsonNode.putAt_below {v : JsonNode R} {p : NodePath} (h : v.nodeAt p ≠ nullptr) (w : JsonNode R)
    (q : NodePath) (x : JsonNode R) : (v.putAt p w).putAt (p ++ q) x = v.putAt p (w.putAt q x) := by
  rw [putAt_append,nodeAt_putAt h,putAt_putAt]

end Xjd1
