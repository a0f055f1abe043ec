import Xjd1.Json.Owned
import Xjd1.Query.Interp

/-! Expressions evaluated in memory. Where the evaluator of values gives a value, the code
has a pointer to a node with that value and one more reference to it, and has used no node
that was freed. This is for expressions without subqueries and without aggregates. -/
namespace Xjd1

open Heap RefCount Fueled

variable {R P : Type}

/-- An expression as the parser leaves it; its literals `P` are nodes of the statement. -/
inductive HeapExpr (P : Type)
  | jvalue (p : P)
  | dot (pLeft : HeapExpr P) (zId : Bytes)
  | bi (eType : BiOp) (pLeft : HeapExpr P) (pRight : Option (HeapExpr P))
  | tri (pTest pIfTrue pIfFalse : HeapExpr P)
  | id (zId : Bytes)
  | struct (st : List (Bytes × HeapExpr P))
  | array (ar : List (HeapExpr P))
  | length (pArg : HeapExpr P)

mutual
def HeapExpr.expr (lit : P → JsonNode R) : HeapExpr P → Expr R
  | .jvalue p => .jvalue (lit p)
  | .dot pLeft zId => .dot (pLeft.expr lit) zId
  | .bi eType pLeft none => .bi eType (pLeft.expr lit) none
  | .bi eType pLeft (some pRight) => .bi eType (pLeft.expr lit) (some (pRight.expr lit))
  | .tri pTest pIfTrue pIfFalse => .tri (pTest.expr lit) (pIfTrue.expr lit) (pIfFalse.expr lit)
  | .id zId => .id zId none 0
  | .struct st => .struct (memberItems lit st)
  | .array ar => .array (elementItems lit ar)
  | .length pArg => .func .length [⟨none,pArg.expr lit⟩] 0

def memberItems (lit : P → JsonNode R) : List (Bytes × HeapExpr P) → List (ExprItem R)
  | [] => []
  | (zAs,e)::st => ⟨some zAs,e.expr lit⟩ :: memberItems lit st

def elementItems (lit : P → JsonNode R) : List (HeapExpr P) → List (ExprItem R)
  | [] => []
  | e::ar => ⟨none,e.expr lit⟩ :: elementItems lit ar
end

theorem HeapExpr.expr_bi (lit : P → JsonNode R) (eType : BiOp) (pLeft : HeapExpr P) (pRight : Option (HeapExpr P)) :
    (HeapExpr.bi eType pLeft pRight).expr lit = .bi eType (pLeft.expr lit) (pRight.map (HeapExpr.expr lit)) := by
  cases pRight <;> rfl

namespace InMemory

/-- The value behind a pointer, as the functions that only read a value see it. -/
def readNode : ℕ → JsonHeap R → Option ℕ → Exec (JsonNode R)
  | 0, _, _ => .more
  | _+1, _, none => .ok .nullptr
  | n+1, h, some p => do
    let a ← getNode h p
    let vs ← a.val.slots.mapM (readNode n h)
    .ok (node a.val vs)
where
  node : JsonU R → List (JsonNode R) → JsonNode R
    | .false, _ => .false
    | .true, _ => .true
    | .real r, _ => .real r
    | .null, _ => .null
    | .string z, _ => .string z
    | .array _, vs => .array vs
    | .struct pFirst, vs => .struct ((pFirst.map Prod.fst).zip vs)

def memberSlot (u : JsonU R) (zProperty : Bytes) : Option ℕ :=
  match u with
  | .struct pFirst => (pFirst.find? fun m => m.1 = zProperty).bind Prod.snd
  | _ => none

def orNullJson (h : JsonHeap R) : Option ℕ → Option ℕ × JsonHeap R
  | none => (some h.length,newNode h .null)
  | some p => (some p,h)

def findMember (h : JsonHeap R) (zProperty : Bytes) : Option ℕ → Exec (Option ℕ)
  | none => .ok none
  | some p => do
    let a ← getNode h p
    .ok (memberSlot a.val zProperty)

def getProperty (h : JsonHeap R) (pStruct : Option ℕ) (zProperty : Bytes) : Exec (Option ℕ × JsonHeap R) := do
  let pRes ← findMember h zProperty pStruct
  let h ← xjd1JsonRef h pRes
  .ok (orNullJson h pRes)

section Code
variable [CDouble R]

def subscriptOperator (n : ℕ) (h : JsonHeap R) (pJLeft pJRight : Option ℕ) : Exec (Option ℕ × JsonHeap R) :=
  match pJLeft with
  | none => .stop .nullNode
  | some p => do
    let a ← getNode h p
    match a.val with
    | .struct _ => do
      let w ← readNode n h pJRight
      getProperty h (some p) (xjd1JsonToString w)
    | .array apElem => do
      let w ← readNode n h pJRight
      match ← subscript w with
      | some iIdx => do
        let pRes := apElem[iIdx]?.join
        let h ← xjd1JsonRef h pRes
        .ok (pRes,h)
      | none => .ok (none,h)
    | .string z => do
      let w ← readNode n h pJRight
      match ← subscript w with
      | some iIdx =>
        let s := Nat.iterate skipUtf8 iIdx z
        if s.isEmpty then .ok (none,h)
        else .ok (some h.length,newNode h (.string (s.take (s.length - (skipUtf8 s).length))))
      | none => .ok (none,h)
    | _ => .ok (none,h)

section Eval
variable (eval : HeapExpr P → JsonHeap R → Exec (Option ℕ × JsonHeap R)) (n : ℕ)

omit [CDouble R] in
def evalOption : Option (HeapExpr P) → JsonHeap R → Exec (Option ℕ × JsonHeap R)
  | none, h => .ok (some h.length,newNode h .null)
  | some e, h => eval e h

omit [CDouble R] in
def evalItems : List (HeapExpr P) → JsonHeap R → Exec (List (Option ℕ) × JsonHeap R)
  | [], h => .ok ([],h)
  | e::es, h => do
    let (p,h) ← eval e h
    let (ps,h) ← evalItems es h
    .ok (p::ps,h)

def xjd1ExprTrue (p : HeapExpr P) (h : JsonHeap R) : Exec (Bool × JsonHeap R) := do
  let (pValue,h) ← eval p h
  match pValue with
  | none => .ok (false,h)
  | some _ => do
    let v ← readNode n h pValue
    let rc ← isTrue v
    let h ← xjd1JsonFree n h pValue
    .ok (rc,h)

/-- The operators that never free their operands. -/
def keepsOperands : BiOp → Bool
  | .rem | .rshift | .lshift | .bitand | .bitor | .bitnot => true
  | _ => false

def binaryOperator (eType : BiOp) (pLeft : HeapExpr P) (pRight : Option (HeapExpr P)) (h : JsonHeap R) :
    Exec (Option ℕ × JsonHeap R) := do
  let pRes := h.length
  let (pJLeft,h) ← eval pLeft (newNode h .null)
  let (pJRight,h) ← evalOption eval pRight h
  let v ← readNode n h pJLeft
  let w ← readNode n h pJRight
  let r ← biOperator eType v w
  let h ← setNode h pRes (r.content [])
  if keepsOperands eType then .ok (some pRes,h)
  else do
    let h ← xjd1JsonFree n h pJLeft
    let h ← xjd1JsonFree n h pJRight
    .ok (some pRes,h)

def logicalOperator (eType : BiOp) (pLeft : HeapExpr P) (pRight : Option (HeapExpr P)) (h : JsonHeap R) :
    Exec (Option ℕ × JsonHeap R) := do
  let (pJLeft,h) ← eval pLeft h
  let v ← readNode n h pJLeft
  let b ← isTrue v
  if b = (eType = .or) then .ok (pJLeft,h)
  else do
    let h ← xjd1JsonFree n h pJLeft
    evalOption eval pRight h

def exprEvalBi (eType : BiOp) (pLeft : HeapExpr P) (pRight : Option (HeapExpr P)) (h : JsonHeap R) :
    Exec (Option ℕ × JsonHeap R) :=
  let pRes := h.length
  match eType, pRight with
  | .lb, _ => do
    let (pJLeft,h) ← eval pLeft h
    let (pJRight,h) ← evalOption eval pRight h
    let (pRes,h) ← subscriptOperator n h pJLeft pJRight
    let h ← xjd1JsonFree n h pJLeft
    let h ← xjd1JsonFree n h pJRight
    .ok (orNullJson h pRes)
  | .and, _ | .or, _ => logicalOperator eval n eType pLeft pRight h
  | .bang, _ => do
    let (b,h) ← xjd1ExprTrue eval n pLeft (newNode h .null)
    let h ← setNode h pRes (if b then .false else .true)
    .ok (some pRes,h)
  | .bitnot, _ => do
    let (pJLeft,h) ← eval pLeft (newNode h .null)
    let v ← readNode n h pJLeft
    let i ← toInt (xjd1JsonToReal v).1
    let h ← setNode h pRes (.real (CDouble.ofInt (-i-1)))
    .ok (some pRes,h)
  | .minus, none => do
    let (pJLeft,h) ← eval pLeft (newNode h .null)
    let v ← readNode n h pJLeft
    let h ← setNode h pRes (.real (CDouble.mul (CDouble.ofInt (-1)) (xjd1JsonToReal v).1))
    let h ← xjd1JsonFree n h pJLeft
    .ok (some pRes,h)
  | .star, none | .slash, none => .stop .assertFail
  | .eq3, _ | .ne3, _ | .like, _ | .urshift, _ | .bitxor, _ => .ok (some pRes,newNode h .null)
  | _, _ => binaryOperator eval n eType pLeft pRight h

/-- The nodes that the expressions of a statement refer to: its literals, and the document
of an UPDATE or DELETE. -/
structure StmtNodes (P : Type) where
  literal : P → ℕ
  pDoc : Option (Option ℕ)

def exprEval (s : StmtNodes P) : HeapExpr P → JsonHeap R → Exec (Option ℕ × JsonHeap R)
  | .jvalue p, h => do
    let h ← xjd1JsonRef h (some (s.literal p))
    .ok (some (s.literal p),h)
  | .dot pLeft zId, h => do
    let (pBase,h) ← eval pLeft h
    let (pRes,h) ← getProperty h pBase zId
    let h ← xjd1JsonFree n h pBase
    .ok (pRes,h)
  | .bi eType pLeft pRight, h => exprEvalBi eval n eType pLeft pRight h
  -- the node made for the result is lost here
  | .tri pTest pIfTrue pIfFalse, h => do
    let (b,h) ← xjd1ExprTrue eval n pTest (newNode h .null)
    if b then eval pIfTrue h else eval pIfFalse h
  | .id _, h => match s.pDoc with
    | some pDoc => do
      let h ← xjd1JsonRef h pDoc
      .ok (pDoc,h)
    | none => .stop .assertFail
  | .struct st, h => do
    let (ps,h') ← evalItems eval (st.map Prod.snd) (newNode h .null)
    let h' ← setNode h' h.length (.struct ((st.map Prod.fst).zip ps))
    .ok (some h.length,h')
  | .array ar, h => do
    let (ps,h') ← evalItems eval ar (newNode h .null)
    let h' ← setNode h' h.length (.array ps)
    .ok (some h.length,h')
  | .length pArg, h => do
    let (p,h) ← eval pArg h
    let v ← readNode n h p
    let pRet := h.length
    let r ← xLength v
    let h ← xjd1JsonFree n (newNode h (r.content [])) p
    .ok (some pRet,h)

end Eval

def xjd1ExprEval (s : StmtNodes P) : ℕ → HeapExpr P → JsonHeap R → Exec (Option ℕ × JsonHeap R)
  | 0, _, _ => .more
  | n+1, e, h => exprEval (xjd1ExprEval s n) n s e h

end Code

section Nodes
variable {h h' : JsonHeap R} {v w c : JsonNode R} {p o : Option ℕ} {i : ℕ} {own : Bool} {Z : Finset ℕ}
  {H H' : Multiset ℕ} {r r' : ℕ → ℕ}

theorem node_content (hv : v ≠ .nullptr) {ps : List (Option ℕ)} (hlen : ps.length = v.children.length) :
    readNode.node (v.content ps) v.children = v := by
  cases v with
  | nullptr => exact absurd rfl hv
  | struct ms =>
    have hle : (ms.map Prod.fst).length ≤ ps.length := by simpa [JsonNode.children] using hlen.ge
    have hzip : (ms.map Prod.fst).zip (ms.map Prod.snd) = ms := (List.zip_of_prod rfl rfl).symm
    simp only [JsonNode.content,readNode.node,List.map_fst_zip hle,JsonNode.children,hzip]
  | _ => rfl

theorem read_stored (hv : Stored own h v p) : Run.Returns (fun n => readNode n h p) v := by
  induction hv with
  | nullptr => exact Run.Returns.succ_iff.mp (.of_forall fun _ => rfl)
  | @node v i a ps hv hl h1 hc hlen _ ih =>
    have hslots : a.val.slots = ps := by rw [hc,slots_content hlen]
    have hmap : Run.Returns (fun n => ps.mapM (readNode n h)) v.children := by
      refine Run.Returns.mapM (List.forall₂_iff_get.mpr ⟨hlen,fun j hj hj' => ?_⟩)
      have hjoin : ps[j]?.join = ps.get ⟨j,hj⟩ := by simp [hj]
      have hchild : v.child j = v.children.get ⟨j,hj'⟩ := by simp [JsonNode.child,hj']
      rw [← hjoin,← hchild]
      exact ih j
    refine Run.Returns.succ_iff.mp ?_
    filter_upwards [hmap] with n hn
    rw [readNode,getNode,get_live hl,Run.ok_bind,hslots,hn,Run.ok_bind,hc,node_content hv hlen]

def orNull : JsonNode R → JsonNode R
  | .nullptr => .null
  | v => v

/-- Where the result of a selection comes from: it is a new leaf, or a pointer in the node behind `p`. -/
def Selected (h : JsonHeap R) (p : Option ℕ) (h' : JsonHeap R) (c : JsonNode R) (o : Option ℕ) : Prop :=
  (c.children = [] ∧ Stored .true h' c o) ∨ ∃ i j, p = some i ∧ o = some j ∧ Refers h i j

theorem orNullJson_spec (hs : Sound r h Z (handle o + H)) (hv : Stored own h c o) :
    ∃ r', Sound r' (orNullJson h o).2 Z (handle (orNullJson h o).1 + H) ∧ Kept Z h (orNullJson h o).2 ∧
      Stored own (orNullJson h o).2 (orNull c) (orNullJson h o).1 := by
  cases hv with
  | nullptr =>
    obtain ⟨r',hs',hk,hv'⟩ := newLeaf_spec (v := .null) (by simpa using hs) (fun h => by cases h) rfl
    exact ⟨r',by simpa [orNullJson,JsonNode.content] using hs',hk,hv'.relax⟩
  | @node _ i a ps hne hl h1 hval hlen hch =>
    have horNull : orNull c = c := by
      cases c with
      | nullptr => exact absurd rfl hne
      | _ => rfl
    exact ⟨r,hs,.refl Z h,by rw [horNull]; exact .node hne hl h1 hval hlen hch⟩

theorem children_orNull (hc : c.children = []) : (orNull c).children = [] := by
  cases c with
  | nullptr => rfl
  | _ => exact hc

theorem Selected.orNull (hs : Sound r h' Z (handle o + H)) (hsel : Selected h p h' c o) :
    Selected h p (orNullJson h' o).2 (orNull c) (orNullJson h' o).1 := by
  rcases hsel with ⟨hc,hv⟩ | ⟨i,j,hp,rfl,hij⟩
  · obtain ⟨_,_,_,hv'⟩ := orNullJson_spec hs hv
    exact .inl ⟨children_orNull hc,hv'⟩
  · exact .inr ⟨i,j,hp,rfl,hij⟩

theorem lookup_slot {ms : List (Bytes × JsonNode R)} {ps : List (Option ℕ)} (hlen : ps.length = ms.length) (z : Bytes) :
    ∃ j : ℕ, (((ms.map Prod.fst).zip ps).find? fun m => m.1 = z).bind Prod.snd = ps[j]?.join ∧
      (lookup ms z).getD .nullptr = (JsonNode.struct ms).child j := by
  induction ms generalizing ps with
  | nil =>
    obtain rfl := List.length_eq_zero_iff.mp hlen
    exact ⟨0,rfl,rfl⟩
  | cons m ms ih =>
    obtain ⟨p,ps,rfl⟩ := List.exists_cons_of_length_eq_add_one hlen
    by_cases hm : m.1 = z
    · exact ⟨0,by simp [hm],by simp [lookup,hm,JsonNode.child,JsonNode.children]⟩
    · obtain ⟨j,hj,hl⟩ := ih (Nat.succ.inj hlen)
      refine ⟨j+1,by simpa [hm] using hj,?_⟩
      simpa [lookup,hm,JsonNode.child,JsonNode.children] using hl

/-- The member of a value is found behind the pointer that is found in its node. -/
theorem memberSlot_spec {a : Counted (JsonU R)} (hv : Stored own h v (some i)) (hl : Live h i a) (z : Bytes) :
    ∃ c, Xjd1.getProperty v z = orNull c ∧ Stored own h c (memberSlot a.val z) ∧
      ∀ q ∈ memberSlot a.val z, q ∈ Holds.ptrs a.val := by
  cases hv with
  | @node _ _ b ps hne hb h1 hc hlen hch =>
    obtain rfl := hb.unique hl
    cases v with
    | struct ms =>
      obtain ⟨j,hj,hl⟩ := lookup_slot (show ps.length = ms.length by simpa [JsonNode.children] using hlen) z
      have hslot : memberSlot b.val z = ps[j]?.join := by rw [hc]; exact hj
      refine ⟨(JsonNode.struct ms).child j,?_,by rw [hslot]; exact hch j,fun q hq => ?_⟩
      · rw [← hl,Xjd1.getProperty]
        cases lookup ms z with
        | none => rfl
        | some w => cases w <;> rfl
      · rw [mem_ptrs,hc,slots_content hlen]
        exact mem_of_join (hslot ▸ hq)
    | nullptr => exact absurd rfl hne
    | _ =>
      rw [hc]
      exact ⟨.nullptr,rfl,.nullptr,fun q hq => by cases hq⟩

theorem getProperty_spec (hs : Sound r h Z H) (hv : Stored .false h v p) (hp : ∀ q ∈ p, q ∈ refs h Z + H) (z : Bytes) :
    ∃ q h' r', getProperty h p z = .ok (q,h') ∧ Sound r' h' Z (handle q + H) ∧ Kept Z h h' ∧
      Stored .false h' (Xjd1.getProperty v z) q ∧ Selected h p h' (Xjd1.getProperty v z) q := by
  obtain ⟨o,c,ho,hcv,hco,hmem,href⟩ : ∃ o c, findMember h z p = .ok o ∧ Xjd1.getProperty v z = orNull c ∧
      Stored .false h c o ∧ (∀ q ∈ o, q ∈ refs h Z + H) ∧ ∀ q ∈ o, ∃ i, p = some i ∧ Refers h i q := by
    cases p with
    | none =>
      cases hv
      exact ⟨none,.nullptr,rfl,rfl,.nullptr,(fun q hq => by cases hq),fun q hq => by cases hq⟩
    | some i =>
      obtain ⟨_,a,hl⟩ := hs.target i (hp i rfl)
      obtain ⟨c,hcv,hco,hmem⟩ := memberSlot_spec hv hl z
      exact ⟨_,c,by rw [findMember,getNode,get_live hl]; rfl,hcv,hco,
        fun q hq => Sound.ptr_mem hs (hp i rfl) hl (hmem q hq),fun q hq => ⟨i,rfl,a,hl,hmem q hq⟩⟩
  obtain ⟨h1,he,hs1,hk1,hv1⟩ := xjd1JsonRef_spec hs hmem hco
  obtain ⟨r2,hs2,hk2,hv2⟩ := orNullJson_spec hs1 hv1
  have hsel : Selected h p h1 c o := by
    cases o with
    | none =>
      cases hv1
      exact .inl ⟨rfl,.nullptr⟩
    | some q =>
      obtain ⟨i,hpi,hiq⟩ := href q rfl
      exact .inr ⟨i,q,hpi,rfl,hiq⟩
  rw [hcv]
  exact ⟨_,_,r2,by rw [getProperty,ho,Run.ok_bind,he]; rfl,hs2,hk1.trans hk2,hv2,hsel.orNull hs1⟩

theorem orNull_getProperty [CDouble R] (v : JsonNode R) (z : Bytes) :
    orNull (Xjd1.getProperty v z) = Xjd1.getProperty v z := by
  cases v with
  | struct ms =>
    rw [Xjd1.getProperty]
    cases lookup ms z with
    | none => rfl
    | some w => cases w <;> rfl
  | _ => rfl

section Subscript
variable [CDouble R] {u : JsonNode R} {pR : Option ℕ} {own' : Bool}

theorem subscriptOperator_spec (hs : Sound r h Z H) (hv : Stored .false h v p) (hw : Stored own' h w pR)
    (hp : ∀ q ∈ p, q ∈ refs h Z + H) (hu : Xjd1.subscriptOperator v w = .ok u) :
    ∃ o h' r', Run.Returns (fun n => subscriptOperator n h p pR) (o,h') ∧ Sound r' h' Z (handle o + H) ∧ Kept Z h h' ∧
      ∃ c, u = orNull c ∧ Stored .false h' c o ∧ Selected h p h' c o := by
  have hnone {f : ℕ → Exec (Option ℕ × JsonHeap R)} (hf : Run.Returns f (none,h)) (hnull : u = .null) :
      ∃ o h' r', Run.Returns f (o,h') ∧ Sound r' h' Z (handle o + H) ∧ Kept Z h h' ∧
        ∃ c, u = orNull c ∧ Stored .false h' c o ∧ Selected h p h' c o :=
    ⟨none,h,r,hf,by simpa using hs,.refl Z h,.nullptr,hnull,.nullptr,.inl ⟨rfl,.nullptr⟩⟩
  cases hv with
  | nullptr => cases hu
  | @node _ i a ps hne hl h1 hc hlen hch =>
    have hread := read_stored hw
    cases v with
    | nullptr => exact absurd rfl hne
    | struct ms =>
      cases hu
      obtain ⟨q,h',r',he,hs',hk,hv'⟩ := getProperty_spec hs (.node hne hl h1 hc hlen hch) hp (xjd1JsonToString w)
      refine ⟨q,h',r',?_,hs',hk,_,(orNull_getProperty _ _).symm,hv'⟩
      filter_upwards [hread] with n hn
      simp only [subscriptOperator,getNode,get_live hl,Run.ok_bind,hc,JsonNode.content,hn]
      exact he
    | array vs =>
      have hcode (n : ℕ) (hn : readNode n h pR = .ok w) : subscriptOperator n h (some i) pR = subscript w >>= fun o =>
          match o with
          | some iIdx => do
            let h ← xjd1JsonRef h ps[iIdx]?.join
            .ok (ps[iIdx]?.join,h)
          | none => .ok (none,h) := by
        simp only [subscriptOperator,getNode,get_live hl,Run.ok_bind,hc,JsonNode.content,hn]
      obtain ⟨o,ho,hu⟩ := Run.bind_eq_ok.mp hu
      cases o with
      | none =>
        cases hu
        refine hnone ?_ rfl
        filter_upwards [hread] with n hn
        rw [hcode n hn,ho]
        rfl
      | some j =>
        have hmem : ∀ q ∈ ps[j]?.join, q ∈ refs h Z + H := fun q hq => by
          refine Sound.ptr_mem hs (hp i rfl) hl (mem_ptrs.mpr ?_)
          rw [hc]
          exact mem_of_join hq
        obtain ⟨h',he,hs',hk,hv'⟩ := xjd1JsonRef_spec hs hmem (hch j)
        refine ⟨ps[j]?.join,h',r,?_,hs',hk,_,?_,hv',?_⟩
        · filter_upwards [hread] with n hn
          rw [hcode n hn,ho]
          simp only [Run.ok_bind,he]
        · have hchild : (JsonNode.array vs).child j = vs[j]?.getD .nullptr := rfl
          rw [hchild]
          cases hj : vs[j]? with
          | none =>
            simp only [hj] at hu
            cases hu
            rfl
          | some c =>
            cases c <;> (simp only [hj] at hu; cases hu; rfl)
        · cases hj : ps[j]?.join with
          | none =>
            rw [hj] at hv'
            generalize (JsonNode.array vs).child j = c at hv'
            cases hv'
            exact .inl ⟨rfl,.nullptr⟩
          | some q =>
            refine .inr ⟨i,q,rfl,rfl,a,hl,mem_ptrs.mpr ?_⟩
            rw [hc]
            exact mem_of_join hj
    | string z =>
      have hcode (n : ℕ) (hn : readNode n h pR = .ok w) : subscriptOperator n h (some i) pR = subscript w >>= fun o =>
          match o with
          | some iIdx =>
            let s := Nat.iterate skipUtf8 iIdx z
            if s.isEmpty then .ok (none,h)
            else .ok (some h.length,newNode h (.string (s.take (s.length - (skipUtf8 s).length))))
          | none => .ok (none,h) := by
        simp only [subscriptOperator,getNode,get_live hl,Run.ok_bind,hc,JsonNode.content,hn]
      obtain ⟨o,ho,hu⟩ := Run.bind_eq_ok.mp hu
      cases o with
      | none =>
        cases hu
        refine hnone ?_ rfl
        filter_upwards [hread] with n hn
        rw [hcode n hn,ho]
        rfl
      | some j =>
        by_cases hempty : (Nat.iterate skipUtf8 j z).isEmpty
        · simp only [hempty,if_true] at hu
          cases hu
          refine hnone ?_ rfl
          filter_upwards [hread] with n hn
          rw [hcode n hn,ho]
          simp only [Run.ok_bind,hempty,if_true]
        · simp only [hempty] at hu
          cases hu
          obtain ⟨r',hs',hk,hv'⟩ := newLeaf_spec (v := .string _) hs (fun h => by cases h) rfl
          refine ⟨some h.length,_,r',?_,by simpa using hs',hk,_,rfl,hv'.weaken,.inl ⟨rfl,hv'⟩⟩
          filter_upwards [hread] with n hn
          rw [hcode n hn,ho]
          simp only [Run.ok_bind,hempty]
          rfl
    | _ =>
      cases hu
      refine hnone (.of_forall fun n => ?_) rfl
      simp only [subscriptOperator,getNode,get_live hl,Run.ok_bind,hc,JsonNode.content]

end Subscript

end Nodes

end InMemory
end Xjd1
