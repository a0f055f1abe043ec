import Xjd1.Stmt.Prepare

/-! Closing a statement. `xjd1DataSrcClose` has no case for a join and none for a
subquery of a FROM clause, so the cursors below these stay open. -/
namespace Xjd1
namespace Parsed

mutual
def xjd1ExprClose : Expr → List ℕ
  | .nullptr => []
  | .jvalue => []
  | .dot pLeft _ => xjd1ExprClose pLeft
  | .bi _ pLeft pRight => xjd1ExprClose pLeft ++ xjd1ExprClose pRight
  | .tri pTest pIfTrue pIfFalse => xjd1ExprClose pTest ++ xjd1ExprClose pIfTrue ++ xjd1ExprClose pIfFalse
  | .id _ => []
  | .struct st => xjd1ExprListClose st
  | .array ar => xjd1ExprListClose ar
  | .func _ args _ _ => xjd1ExprListClose args
  | .subq p => xjd1QueryClose p

def xjd1ExprListClose : List Expr → List ℕ
  | [] => []
  | e::es => xjd1ExprClose e ++ xjd1ExprListClose es

def xjd1DataSrcClose : DataSrc → List ℕ
  | .tab _ _ pStmt => pStmt.toList
  | .flatten pNext => xjd1DataSrcClose pNext
  | .path _ _ => []
  | .comma _ _ => []
  | .subq _ _ => []
  | .null => []

def xjd1QueryClose : Query → List ℕ
  | .simple _ pRes pFrom pWhere pGroupBy pHaving _ _ pOrderBy pLimit pOffset =>
    xjd1ExprClose pRes ++ xjd1DataSrcClose pFrom ++ xjd1ExprClose pWhere ++ xjd1ExprListClose pGroupBy ++
      xjd1ExprClose pHaving ++ xjd1ExprListClose pOrderBy ++ xjd1ExprClose pLimit ++ xjd1ExprClose pOffset
  | .compound _ _ pLeft pRight _ pOrderBy pLimit pOffset =>
    xjd1QueryClose pLeft ++ xjd1QueryClose pRight ++ xjd1ExprListClose pOrderBy ++ xjd1ExprClose pLimit ++
      xjd1ExprClose pOffset
end

def commandClose : Command → List ℕ
  | .select pQuery => xjd1QueryClose pQuery
  | .insertValue _ _ => []
  | .insertSelect _ pQuery => xjd1QueryClose pQuery
  | .delete _ pWhere => xjd1ExprClose pWhere
  | .update _ pWhere pChng pUpsert => xjd1ExprClose pWhere ++ xjd1ExprListClose pChng ++ xjd1ExprClose pUpsert
  | .other => []

mutual
/-- The cursors in a join or in a subquery of a FROM clause. -/
def Expr.covered : Expr → List ℕ
  | .nullptr => []
  | .jvalue => []
  | .dot pLeft _ => pLeft.covered
  | .bi _ pLeft pRight => pLeft.covered ++ pRight.covered
  | .tri pTest pIfTrue pIfFalse => pTest.covered ++ pIfTrue.covered ++ pIfFalse.covered
  | .id _ => []
  | .struct st => exprsCovered st
  | .array ar => exprsCovered ar
  | .func _ args _ _ => exprsCovered args
  | .subq p => p.covered

def exprsCovered : List Expr → List ℕ
  | [] => []
  | e::es => e.covered ++ exprsCovered es

def DataSrc.covered : DataSrc → List ℕ
  | .comma pLeft pRight => pLeft.cursors ++ pRight.cursors
  | .subq _ q => q.cursors
  | .tab _ _ _ => []
  | .flatten pNext => pNext.covered
  | .path _ _ => []
  | .null => []

def Query.covered : Query → List ℕ
  | .simple _ pRes pFrom pWhere pGroupBy pHaving _ _ pOrderBy pLimit pOffset =>
    pRes.covered ++ pFrom.covered ++ pWhere.covered ++ exprsCovered pGroupBy ++ pHaving.covered ++
      exprsCovered pOrderBy ++ pLimit.covered ++ pOffset.covered
  | .compound _ _ pLeft pRight _ pOrderBy pLimit pOffset =>
    pLeft.covered ++ pRight.covered ++ exprsCovered pOrderBy ++ pLimit.covered ++ pOffset.covered
end

def Command.covered : Command → List ℕ
  | .select pQuery => pQuery.covered
  | .insertValue _ pValue => pValue.cursors
  | .insertSelect _ pQuery => pQuery.covered
  | .delete _ pWhere => pWhere.covered
  | .update _ pWhere pChng pUpsert => pWhere.covered ++ exprsCovered pChng ++ pUpsert.covered
  | .other => []

theorem perm_append {a b a' b' a'' b'' : List ℕ} (ha : a.Perm (a' ++ a'')) (hb : b.Perm (b' ++ b'')) :
    (a ++ b).Perm (a' ++ b' ++ (a'' ++ b'')) := by
  refine (ha.append hb).trans ?_
  rw [List.append_assoc,List.append_assoc]
  refine List.Perm.append_left a' ?_
  rw [← List.append_assoc,← List.append_assoc]
  exact List.Perm.append_right b'' List.perm_append_comm

mutual
theorem exprClose_perm (e : Expr) : e.cursors.Perm (xjd1ExprClose e ++ e.covered) :=
  match e with
  | .nullptr => .nil
  | .jvalue => .nil
  | .dot pLeft _ => exprClose_perm pLeft
  | .bi _ pLeft pRight => perm_append (exprClose_perm pLeft) (exprClose_perm pRight)
  | .tri pTest pIfTrue pIfFalse =>
    perm_append (perm_append (exprClose_perm pTest) (exprClose_perm pIfTrue)) (exprClose_perm pIfFalse)
  | .id _ => .nil
  | .struct st => exprListClose_perm st
  | .array ar => exprListClose_perm ar
  | .func _ args _ _ => exprListClose_perm args
  | .subq p => queryClose_perm p

theorem exprListClose_perm (es : List Expr) : (exprsCursors es).Perm (xjd1ExprListClose es ++ exprsCovered es) :=
  match es with
  | [] => .nil
  | e::es => perm_append (exprClose_perm e) (exprListClose_perm es)

theorem dataSrcClose_perm (p : DataSrc) : p.cursors.Perm (xjd1DataSrcClose p ++ p.covered) :=
  match p with
  | .comma pLeft pRight => .refl _
  | .subq _ q => .refl _
  | .tab _ _ pStmt => by
    rw [xjd1DataSrcClose,DataSrc.covered,List.append_nil]
    exact .refl _
  | .flatten pNext => dataSrcClose_perm pNext
  | .path _ _ => .nil
  | .null => .nil

theorem queryClose_perm (q : Query) : q.cursors.Perm (xjd1QueryClose q ++ q.covered) :=
  match q with
  | .simple _ pRes pFrom pWhere pGroupBy pHaving _ _ pOrderBy pLimit pOffset =>
    perm_append (perm_append (perm_append (perm_append (perm_append (perm_append (perm_append
      (exprClose_perm pRes) (dataSrcClose_perm pFrom)) (exprClose_perm pWhere)) (exprListClose_perm pGroupBy))
      (exprClose_perm pHaving)) (exprListClose_perm pOrderBy)) (exprClose_perm pLimit)) (exprClose_perm pOffset)
  | .compound _ _ pLeft pRight _ pOrderBy pLimit pOffset =>
    perm_append (perm_append (perm_append (perm_append (queryClose_perm pLeft) (queryClose_perm pRight))
      (exprListClose_perm pOrderBy)) (exprClose_perm pLimit)) (exprClose_perm pOffset)
end

theorem commandClose_perm (c : Command) : c.cursors.Perm (commandClose c ++ c.covered) := by
  cases c with
  | select q => exact queryClose_perm q
  | insertValue _ v => exact .refl _
  | insertSelect _ q => exact queryClose_perm q
  | delete _ w => exact exprClose_perm w
  | update _ w l u => exact perm_append (perm_append (exprClose_perm w) (exprListClose_perm l)) (exprClose_perm u)
  | other => exact .nil

/-- Initialising a statement, whether it is accepted or not, and then deleting it:
the cursors opened are finalised, each once, exactly if none of them belongs to a
join or a subquery of a FROM clause. -/
theorem commandClose_iff (exist : Bytes → Bool) (c : ParsedCommand) {rc : Bool} {c' : Command} {t : InitState}
    (h : stmtInit exist c.pCmd = some ((rc,c'),t)) : (commandClose c').Perm t.opened ↔ c'.covered = [] := by
  obtain ⟨_,_,_,ho,_⟩ := commandInit_adds c.cursors h
  have hopen : t.opened = c'.cursors := ho
  have hp := commandClose_perm c'
  rw [hopen]
  constructor
  · intro hc
    have hlen := (hc.trans hp).length_eq
    rw [List.length_append] at hlen
    exact List.eq_nil_of_length_eq_zero (by omega)
  · intro hc
    rw [hc,List.append_nil] at hp
    exact hp.symm

/-- The statement `SELECT FROM a, b`. -/
def selectJoin : ParsedCommand where
  pCmd := .select (.simple false .nullptr (.comma (.tab none [97] none) (.tab none [98] none)) .nullptr [] .nullptr none
    none [] .nullptr .nullptr)
  cursors := rfl
  evaluated := by simp [Command.evaluated,Query.nodes,Expr.nodes,DataSrc.nodes,exprsNodes,Node.visited]

/-- Both cursors of a join stay open. -/
theorem commandClose_join : ∃ rc c' t, stmtInit (fun _ => true) selectJoin.pCmd = some ((rc,c'),t) ∧
    t.opened = [0,1] ∧ ¬ (commandClose c').Perm t.opened := by
  have hrun : (stmtInit (fun _ => true) selectJoin.pCmd).map (fun r => (r.2.opened,commandClose r.1.2)) =
      some ([0,1],[]) := by decide +kernel
  obtain ⟨⟨⟨rc,c'⟩,t⟩,ht,hr⟩ := Option.map_eq_some_iff.mp hrun
  obtain ⟨ho,hc⟩ := Prod.mk.inj hr
  refine ⟨rc,c',t,ht,ho,?_⟩
  rw [ho,hc]
  decide

/-- The statement `SELECT (SELECT FROM b) FROM a`. -/
def selectNested : ParsedCommand where
  pCmd := .select (.simple false (.subq (.simple false .nullptr (.tab none [98] none) .nullptr [] .nullptr none none []
    .nullptr .nullptr)) (.tab none [97] none) .nullptr [] .nullptr none none [] .nullptr .nullptr)
  cursors := rfl
  evaluated := by simp [Command.evaluated,Query.nodes,Expr.nodes,DataSrc.nodes,exprsNodes,Node.visited]

/-- The cursor of an expression's subquery is closed with that of the source. -/
theorem commandClose_nested : ∃ (c' : Command) (t : InitState), t.opened = [0,1] ∧ (commandClose c').Perm t.opened := by
  have hrun : (stmtInit (fun _ => true) selectNested.pCmd).map (fun r => (r.2.opened,r.1.2.covered)) = some ([0,1],[]) := by
    decide +kernel
  obtain ⟨⟨⟨rc,c'⟩,t⟩,ht,ho⟩ := Option.map_eq_some_iff.mp hrun
  obtain ⟨hopen,hcov⟩ := Prod.mk.inj ho
  exact ⟨c',t,hopen,(commandClose_iff (fun _ => true) selectNested ht).mpr hcov⟩

end Parsed
end Xjd1
