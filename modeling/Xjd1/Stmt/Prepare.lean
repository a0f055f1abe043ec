import Xjd1.Stmt.Visit

/-! `xjd1_stmt_new` after parsing: which expressions of a command are initialised, and
what identifiers are bound to. -/
namespace Xjd1
namespace Parsed

open InitM

def Clause.seesFrom : Clause → Bool
  | .result | .where | .groupBy | .having | .orderBy => true
  | .limit | .offset => false

def Scope.seesAlias (q : Scope) : Bool :=
  q.eExpr == .orderBy || q.eExpr == .having || (q.eExpr == .where && !q.pAgg)

def Scope.iDatasrc (q : Scope) (zDoc : Bytes) : ℕ :=
  match q.pFrom with
  | some pFrom => if q.eExpr.seesFrom then xjd1DataSrcResolve pFrom zDoc else 0
  | none => 0

/-- The loop of `exprResolve` in a SELECT. -/
def resolveSelect (zDoc : Bytes) : ResolveCtx → Resolution
  | [] => .noSuchObject
  | none::ctx => resolveSelect zDoc ctx
  | some q::ctx =>
    if q.pFrom.isNone ∧ q.eExpr ≠ .orderBy then .assertFail
    else if q.iDatasrc zDoc ≠ 0 then .bound ⟨some q.level,q.iDatasrc zDoc⟩
    else if q.seesAlias ∧ q.zAs = some zDoc then .bound ⟨some q.level,0⟩
    else resolveSelect zDoc ctx

def exprResolve (pCmd : Command) (pCtx : ResolveCtx) (zDoc : Bytes) : Resolution :=
  match pCmd with
  | .delete zName _ => if zDoc = zName then .bound ⟨none,0⟩ else .noSuchObject
  | .update zName _ _ _ => if zDoc = zName then .bound ⟨none,0⟩ else .noSuchObject
  | .select _ => resolveSelect zDoc pCtx
  | _ => .assertFail

section Init
variable (resolve : ResolveCtx → Bytes → Resolution) (exist : Bytes → Bool)

/-- The switch of `xjd1_stmt_new`. The error code of a SELECT alone is kept, and the
value of an INSERT is not initialised. -/
def commandInit : Command → InitM (Bool × Command)
  | .select pQuery => do
    let (rc,pQuery) ← xjd1QueryInit resolve exist 0 [] pQuery
    pure (rc,.select pQuery)
  | .insertValue zName pValue => pure (true,.insertValue zName pValue)
  | .insertSelect zName pQuery => do
    let (_,pQuery) ← xjd1QueryInit resolve exist 0 [] pQuery
    pure (true,.insertSelect zName pQuery)
  | .delete zName pWhere => do
    let (_,pWhere) ← xjd1ExprInit resolve exist 0 [none] pWhere
    pure (true,.delete zName pWhere)
  | .update zName pWhere pChng pUpsert => do
    let (_,pWhere) ← xjd1ExprInit resolve exist 0 [none] pWhere
    let pChng ← xjd1ExprListInit resolve exist 0 [none] pChng
    let (_,pUpsert) ← xjd1ExprInit resolve exist 0 [none] pUpsert
    pure (true,.update zName pWhere pChng pUpsert)
  | .other => pure (true,.other)

end Init

def InitState.start : InitState := ⟨[],[],none,[]⟩

/-- The tree after initialisation, with the error code; no result if an assertion fails. -/
def stmtInit (exist : Bytes → Bool) (pCmd : Command) : Option ((Bool × Command) × InitState) :=
  commandInit (exprResolve pCmd) exist pCmd .start

def Accepted (exist : Bytes → Bool) (pCmd pCmd' : Command) : Prop :=
  ∃ t, stmtInit exist pCmd = some ((true,pCmd'),t) ∧ t.errors = []

def lvalueNodes : Expr → List Node
  | .dot pLeft _ => lvalueNodes pLeft
  | .bi .lb pLeft pRight => lvalueNodes pLeft ++ pRight.nodes
  | _ => []

def changeNodes : List Expr → List Node
  | pLvalue::pExpr::l => lvalueNodes pLvalue ++ pExpr.nodes ++ changeNodes l
  | _ => []

/-- The nodes that `xjd1_stmt_step` can evaluate. -/
def Command.evaluated : Command → List Node
  | .select pQuery => pQuery.nodes
  | .insertValue _ pValue => pValue.nodes
  | .insertSelect _ _ => []
  | .delete _ pWhere => pWhere.nodes
  | .update _ pWhere pChng pUpsert => pWhere.nodes ++ changeNodes pChng ++ pUpsert.nodes
  | .other => []

def Command.cursors : Command → List ℕ
  | .select pQuery => pQuery.cursors
  | .insertValue _ pValue => pValue.cursors
  | .insertSelect _ pQuery => pQuery.cursors
  | .delete _ pWhere => pWhere.cursors
  | .update _ pWhere pChng pUpsert => pWhere.cursors ++ exprsCursors pChng ++ pUpsert.cursors
  | .other => []

/-- A command as the parser leaves it: no cursor is open, and no node has been visited. -/
structure ParsedCommand where
  pCmd : Command
  cursors : pCmd.cursors = []
  evaluated : ∀ n ∈ pCmd.evaluated, n.visited = false

theorem lvalueNodes_subset (e : Expr) : ∀ n ∈ lvalueNodes e, n ∈ e.nodes := by
  intro n hn
  match e with
  | .dot pLeft _ => exact lvalueNodes_subset pLeft n hn
  | .bi op pLeft pRight =>
    cases op with
    | lb =>
      rcases List.mem_append.mp hn with hn | hn
      · exact List.mem_append_left _ (lvalueNodes_subset pLeft n hn)
      · exact List.mem_append_right _ hn
    | _ => cases hn
  | .nullptr | .jvalue | .tri _ _ _ | .id _ | .struct _ | .array _ | .func _ _ _ _ | .subq _ => cases hn

theorem changeNodes_subset (l : List Expr) : ∀ n ∈ changeNodes l, n ∈ exprsNodes l := by
  intro n hn
  match l with
  | [] => cases hn
  | [_] => cases hn
  | a::b::l =>
    rw [exprsNodes,exprsNodes]
    rcases List.mem_append.mp hn with hn | hn
    · rcases List.mem_append.mp hn with hn | hn
      · exact List.mem_append_left _ (lvalueNodes_subset a n hn)
      · exact List.mem_append_right _ (List.mem_append_left _ hn)
    · exact List.mem_append_right _ (List.mem_append_right _ (changeNodes_subset l n hn))

theorem commandInit_adds {resolve : ResolveCtx → Bytes → Resolution} {exist : Bytes → Bool} {c c' : Command}
    {rc : Bool} {s t : InitState} (hc : c.cursors = []) (h : commandInit resolve exist c s = some ((rc,c'),t)) :
    Adds resolve s t c'.cursors (rc = true ∧ ((∀ z v, c ≠ .insertValue z v) → AllVisited c'.evaluated)) := by
  cases c with
  | select pQuery =>
    obtain ⟨⟨_,q⟩,t1,hq,h⟩ := bind_eq_some.mp h
    cases h
    exact (queryInit_adds pQuery hc hq).mono fun h => ⟨h.1,fun _ => h.2⟩
  | insertValue zName pValue =>
    cases h
    rw [hc]
    exact .refl ⟨rfl,fun h => absurd rfl (h _ _)⟩
  | insertSelect zName pQuery =>
    obtain ⟨⟨_,q⟩,t1,hq,h⟩ := bind_eq_some.mp h
    cases h
    exact (queryInit_adds pQuery hc hq).mono fun _ => ⟨rfl,fun _ n hn => by cases hn⟩
  | delete zName pWhere =>
    obtain ⟨⟨_,w⟩,t1,hw,h⟩ := bind_eq_some.mp h
    cases h
    exact (exprInit_adds pWhere hc hw).mono fun h => ⟨rfl,fun _ => h.2⟩
  | update zName pWhere pChng pUpsert =>
    obtain ⟨hc1,hc3⟩ := List.append_eq_nil_iff.mp hc
    obtain ⟨hc1,hc2⟩ := List.append_eq_nil_iff.mp hc1
    obtain ⟨⟨_,w⟩,t1,hw,h⟩ := bind_eq_some.mp h
    obtain ⟨l,t2,hl,h⟩ := bind_eq_some.mp h
    obtain ⟨⟨_,u⟩,t3,hu,h⟩ := bind_eq_some.mp h
    cases h
    refine (((exprInit_adds pWhere hc1 hw).trans (exprListInit_adds pChng hc2 hl)).trans
      (exprInit_adds pUpsert hc3 hu)).mono ?_
    rintro ⟨⟨⟨_,v1⟩,v2⟩,_,v3⟩
    exact ⟨rfl,fun _ => (v1.append fun n hn => v2 n (changeNodes_subset l n hn)).append v3⟩
  | other =>
    cases h
    exact .refl ⟨rfl,fun _ n hn => by cases hn⟩

/-- Whatever an accepted statement can evaluate has been visited, exactly if it does not
insert a value with an identifier, a function call or a subquery in it. -/
theorem stmtInit_visited_iff (exist : Bytes → Bool) (c : ParsedCommand) :
    (∀ c', Accepted exist c.pCmd c' → AllVisited c'.evaluated) ↔
      ∀ zName pValue, c.pCmd = .insertValue zName pValue → pValue.nodes = [] := by
  constructor
  · intro h zName pValue hc
    have hacc : Accepted exist c.pCmd c.pCmd := by
      rw [hc]
      exact ⟨.start,rfl,rfl⟩
    have hv := h _ hacc
    have hf := c.evaluated
    rw [hc] at hv hf
    cases hn : pValue.nodes with
    | nil => rfl
    | cons n l =>
      have hmem : n ∈ (Command.insertValue zName pValue).evaluated := by
        rw [Command.evaluated,hn]
        exact List.mem_cons_self
      exact absurd (hf n hmem) (by simp [hv n hmem])
  · rintro h c' ⟨t,ht,he⟩
    obtain ⟨es,_,hes,_,_,_,hp⟩ := commandInit_adds c.cursors ht
    have hnil : es = [] := by
      rw [he] at hes
      exact (List.nil_append es).symm.trans hes.symm
    by_cases hi : ∀ z v, c.pCmd ≠ .insertValue z v
    · exact (hp hnil).2 hi
    · obtain ⟨z,hz⟩ := not_forall.mp hi
      obtain ⟨v,hv⟩ := not_forall.mp hz
      have hc := not_not.mp hv
      rw [hc] at ht
      cases ht
      have hn := h z v hc
      intro n hmem
      rw [Command.evaluated,hn] at hmem
      cases hmem

/-- The statement `INSERT INTO t VALUE f()`. -/
def insertCall : ParsedCommand where
  pCmd := .insertValue [116] (.func [102] [] none 0)
  cursors := rfl
  evaluated := by simp [Command.evaluated,Expr.nodes,exprsNodes,Node.visited]

/-- It is accepted, and its function has not been looked for. -/
theorem stmtInit_visited_insert :
    ¬ ∀ c', Accepted (fun _ => true) insertCall.pCmd c' → AllVisited c'.evaluated := by
  intro h
  have hv := h insertCall.pCmd ⟨.start,rfl,rfl⟩ (.func [102] none) (by decide)
  cases hv

end Parsed
end Xjd1
