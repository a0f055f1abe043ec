import Xjd1.Stmt.Init
import Mathlib.Data.List.Perm.Basic

/-! What initialising leaves behind: the nodes it has visited, the cursors it has
opened, and the errors it has reported. -/
namespace Xjd1
namespace Parsed

open InitM

inductive Node
  | ident (p : Ident)
  | func (zFName : Bytes) (pFunction : Option Function)
  | query (pStmt : Bool)
  deriving DecidableEq, Repr

def Node.visited : Node → Bool
  | .ident p => p.pStmt && p.bound.isSome
  | .func _ pFunction => pFunction.isSome
  | .query pStmt => pStmt

def Path.ident : Path → Ident
  | .id p => p
  | .dot pLeft _ => pLeft.ident

mutual
def Expr.nodes : Expr → List Node
  | .nullptr => []
  | .jvalue => []
  | .dot pLeft _ => pLeft.nodes
  | .bi _ pLeft pRight => pLeft.nodes ++ pRight.nodes
  | .tri pTest pIfTrue pIfFalse => pTest.nodes ++ pIfTrue.nodes ++ pIfFalse.nodes
  | .id p => [.ident p]
  | .struct st => exprsNodes st
  | .array ar => exprsNodes ar
  | .func zFName args pFunction _ => .func zFName pFunction :: exprsNodes args
  | .subq p => p.nodes

def exprsNodes : List Expr → List Node
  | [] => []
  | e::es => e.nodes ++ exprsNodes es

def DataSrc.nodes : DataSrc → List Node
  | .comma pLeft pRight => pLeft.nodes ++ pRight.nodes
  | .subq _ q => q.nodes
  | .tab _ _ _ => []
  | .flatten pNext => pNext.nodes
  | .path _ pPath => [.ident pPath.ident]
  | .null => []

def Query.nodes : Query → List Node
  | .simple pStmt pRes pFrom pWhere pGroupBy pHaving _ _ pOrderBy pLimit pOffset =>
    .query pStmt :: (pRes.nodes ++ pFrom.nodes ++ pWhere.nodes ++ exprsNodes pGroupBy ++ pHaving.nodes ++
      exprsNodes pOrderBy ++ pLimit.nodes ++ pOffset.nodes)
  | .compound pStmt _ pLeft pRight _ pOrderBy pLimit pOffset =>
    .query pStmt :: (pLeft.nodes ++ pRight.nodes ++ exprsNodes pOrderBy ++ pLimit.nodes ++ pOffset.nodes)
end

mutual
def Expr.cursors : Expr → List ℕ
  | .nullptr => []
  | .jvalue => []
  | .dot pLeft _ => pLeft.cursors
  | .bi _ pLeft pRight => pLeft.cursors ++ pRight.cursors
  | .tri pTest pIfTrue pIfFalse => pTest.cursors ++ pIfTrue.cursors ++ pIfFalse.cursors
  | .id _ => []
  | .struct st => exprsCursors st
  | .array ar => exprsCursors ar
  | .func _ args _ _ => exprsCursors args
  | .subq p => p.cursors

def exprsCursors : List Expr → List ℕ
  | [] => []
  | e::es => e.cursors ++ exprsCursors es

def DataSrc.cursors : DataSrc → List ℕ
  | .comma pLeft pRight => pLeft.cursors ++ pRight.cursors
  | .subq _ q => q.cursors
  | .tab _ _ pStmt => pStmt.toList
  | .flatten pNext => pNext.cursors
  | .path _ _ => []
  | .null => []

def Query.cursors : Query → List ℕ
  | .simple _ pRes pFrom pWhere pGroupBy pHaving _ _ pOrderBy pLimit pOffset =>
    pRes.cursors ++ pFrom.cursors ++ pWhere.cursors ++ exprsCursors pGroupBy ++ pHaving.cursors ++
      exprsCursors pOrderBy ++ pLimit.cursors ++ pOffset.cursors
  | .compound _ _ pLeft pRight _ pOrderBy pLimit pOffset =>
    pLeft.cursors ++ pRight.cursors ++ exprsCursors pOrderBy ++ pLimit.cursors ++ pOffset.cursors
end

/-- The step opens the cursors `cs`, resolves names as `resolve` does, and unless it
reports an error `P` holds. -/
def Adds (resolve : ResolveCtx → Bytes → Resolution) (s t : InitState) (cs : List ℕ) (P : Prop) : Prop :=
  ∃ es ns, t.errors = s.errors ++ es ∧ t.opened = s.opened ++ cs ∧ t.names = s.names ++ ns ∧
    (∀ n ∈ ns, n.2.2 = resolve n.1 n.2.1) ∧ (es = [] → P)

section Adds
variable {resolve : ResolveCtx → Bytes → Resolution} {s t u : InitState} {cs ds : List ℕ} {P Q : Prop}

theorem Adds.refl (h : P) : Adds resolve s s [] P :=
  ⟨[],[],by simp,by simp,by simp,fun n hn => absurd hn List.not_mem_nil,fun _ => h⟩

theorem Adds.trans (h : Adds resolve s t cs P) (h' : Adds resolve t u ds Q) : Adds resolve s u (cs ++ ds) (P ∧ Q) := by
  obtain ⟨es,ns,he,ho,hn,hr,hp⟩ := h
  obtain ⟨es',ns',he',ho',hn',hr',hp'⟩ := h'
  refine ⟨es ++ es',ns ++ ns',by rw [he',he,List.append_assoc],by rw [ho',ho,List.append_assoc],
    by rw [hn',hn,List.append_assoc],List.forall_mem_append.mpr ⟨hr,hr'⟩,fun h => ?_⟩
  obtain ⟨h1,h2⟩ := List.append_eq_nil_iff.mp h
  exact ⟨hp h1,hp' h2⟩

theorem Adds.mono (h : Adds resolve s t cs P) (hPQ : P → Q) : Adds resolve s t cs Q := by
  obtain ⟨es,ns,he,ho,hn,hr,hp⟩ := h
  exact ⟨es,ns,he,ho,hn,hr,fun h => hPQ (hp h)⟩

theorem Adds.trans_nil (h : Adds resolve s t cs P) (h' : Adds resolve t u [] Q) : Adds resolve s u cs (P ∧ Q) :=
  List.append_nil cs ▸ h.trans h'

theorem Adds.pAgg (a : Option ℕ) (h : P) : Adds resolve s { s with pAgg := a } [] P :=
  ⟨[],[],by simp,by simp,by simp,fun n hn => absurd hn List.not_mem_nil,fun _ => h⟩

theorem Adds.error (e : InitError) : Adds resolve s { s with errors := s.errors ++ [e] } [] P :=
  ⟨[e],[],rfl,by simp,by simp,fun n hn => absurd hn List.not_mem_nil,fun h => by cases h⟩

end Adds

def AllVisited (l : List Node) : Prop := ∀ n ∈ l, n.visited = true

section Walk
variable {resolve : ResolveCtx → Bytes → Resolution} {exist : Bytes → Bool}

theorem functionInit_adds {ctx : ResolveCtx} {z : Bytes} {n : ℕ} {rc : Bool} {f : Option Function} {i : ℕ}
    {s t : InitState} (h : xjd1FunctionInit ctx z n s = some ((rc,f,i),t)) :
    Adds resolve s t [] (rc = true ∧ f.isSome = true) := by
  rw [xjd1FunctionInit] at h
  cases hf : aFunc.find? (fun f => f.zName == z) with
  | none =>
    rw [hf] at h
    cases h
    exact .error _
  | some row =>
    rw [hf] at h
    by_cases hn : n ≤ row.nMaxArg ∧ row.nMinArg ≤ n
    · by_cases hg : isAggregate row.pFunction = true
      · by_cases ha : aggOk ctx = true
        · simp only [if_pos hn,if_pos hg,if_pos ha] at h
          cases h
          exact .pAgg _ ⟨rfl,rfl⟩
        · simp only [if_pos hn,if_pos hg,if_neg ha] at h
          cases h
          exact .error _
      · simp only [if_pos hn,if_neg hg] at h
        cases h
        exact .refl ⟨rfl,rfl⟩
    · simp only [if_neg hn] at h
      cases h
      exact .error _

theorem identInit_adds {ctx : ResolveCtx} {p p' : Ident} {rc : Bool} {s t : InitState}
    (h : identInit resolve ctx p s = some ((rc,p'),t)) :
    Adds resolve s t [] (rc = true ∧ AllVisited [.ident p']) := by
  rw [identInit] at h
  split at h
  · cases h
    refine ⟨[],[(ctx,p.zId,resolve ctx p.zId)],by simp,by simp,rfl,by simp,fun _ => ⟨rfl,?_⟩⟩
    simp [AllVisited,Node.visited]
  · cases h
    exact ⟨[.noSuchObject p.zId],[(ctx,p.zId,resolve ctx p.zId)],rfl,by simp,rfl,by simp,fun h => by cases h⟩
  · cases h

theorem prepareTable_adds {z : Bytes} {c : Option ℕ} {s t : InitState}
    (h : prepareTable exist z s = some (c,t)) : Adds resolve s t c.toList True := by
  rw [prepareTable] at h
  split at h
  · cases h
    exact ⟨[],[],by simp,rfl,by simp,fun n hn => absurd hn List.not_mem_nil,fun _ => trivial⟩
  · cases h
    exact .refl trivial

theorem pathInit_adds {ctx : ResolveCtx} (p : Path) {p' : Path} {rc : Bool} {s t : InitState}
    (h : pathInit resolve ctx p s = some ((rc,p'),t)) :
    Adds resolve s t [] (rc = true ∧ AllVisited [.ident p'.ident]) := by
  induction p generalizing p' rc s t with
  | id p =>
    obtain ⟨⟨rc,p⟩,t,hp,h⟩ := bind_eq_some.mp h
    cases h
    exact identInit_adds hp
  | dot pLeft zId ih =>
    obtain ⟨⟨rc,p⟩,t,hp,h⟩ := bind_eq_some.mp h
    cases h
    exact (ih hp).mono fun h => ⟨rfl,h.2⟩

theorem ifOk_adds {α : Type} {rc rc' : Bool} {a a' : α} {x : InitM (Bool × α)} {c : α → List ℕ} {v : α → Prop}
    {s t : InitState} (h : ifOk rc a x s = some ((rc',a'),t)) (ha : c a = [])
    (hx : x s = some ((rc',a'),t) → Adds resolve s t (c a') (rc' = true ∧ v a')) :
    Adds resolve s t (c a') (rc = true → rc' = true ∧ v a') := by
  rw [ifOk] at h
  split at h
  · exact (hx h).mono fun h _ => h
  · rename_i hrc
    cases h
    rw [ha]
    exact .refl fun h => absurd h hrc

theorem ifOk_pure_adds {α : Type} {rc rc' : Bool} {a a' : α} {x : InitM α} {c : α → List ℕ} {v : α → Prop}
    {s t : InitState} (h : ifOk rc a (do pure (true,← x)) s = some ((rc',a'),t)) (ha : c a = [])
    (hx : x s = some (a',t) → Adds resolve s t (c a') (v a')) :
    Adds resolve s t (c a') (rc = true → rc' = true ∧ v a') := by
  refine ifOk_adds h ha fun h => ?_
  obtain ⟨b,u,hb,h⟩ := bind_eq_some.mp h
  cases h
  exact (hx hb).mono fun h => ⟨rfl,h⟩

theorem groupAggregateInit_adds {l : List Expr} {u : Unit} {s t : InitState}
    (h : groupAggregateInit l s = some (u,t)) : Adds resolve s t [] True := by
  cases h
  split
  · exact .refl trivial
  · exact .pAgg _ trivial

theorem AllVisited.append {l m : List Node} (hl : AllVisited l) (hm : AllVisited m) : AllVisited (l ++ m) :=
  List.forall_mem_append.mpr ⟨hl,hm⟩

section Cases
variable (resolve : ResolveCtx → Bytes → Resolution) (exist : Bytes → Bool)

/-- Initialising a tree without cursors: unless there is an error, all of its nodes
are visited, and the cursors opened are the ones that are then in the tree. -/
def ExprAdds (e : Expr) : Prop := ∀ {level : ℕ} {ctx : ResolveCtx} {e' : Expr} {rc : Bool} {s t : InitState},
  e.cursors = [] → xjd1ExprInit resolve exist level ctx e s = some ((rc,e'),t) →
    Adds resolve s t e'.cursors (rc = true ∧ AllVisited e'.nodes)

def ExprListAdds (es : List Expr) : Prop :=
  ∀ {level : ℕ} {ctx : ResolveCtx} {es' : List Expr} {s t : InitState},
    exprsCursors es = [] → xjd1ExprListInit resolve exist level ctx es s = some (es',t) →
      Adds resolve s t (exprsCursors es') (AllVisited (exprsNodes es'))

def DataSrcAdds (p : DataSrc) : Prop :=
  ∀ {level : ℕ} {ctx : ResolveCtx} {p' : DataSrc} {rc : Bool} {s t : InitState},
    p.cursors = [] → xjd1DataSrcInit resolve exist level ctx p s = some ((rc,p'),t) →
      Adds resolve s t p'.cursors (rc = true ∧ AllVisited p'.nodes)

def QueryAdds (q : Query) : Prop := ∀ {level : ℕ} {ctx : ResolveCtx} {q' : Query} {rc : Bool} {s t : InitState},
  q.cursors = [] → xjd1QueryInit resolve exist level ctx q s = some ((rc,q'),t) →
    Adds resolve s t q'.cursors (rc = true ∧ AllVisited q'.nodes)

end Cases

/-- A stage over a list of expressions, which may use aggregates as the others do. -/
theorem listStage_adds {l l' : List Expr} {rc rc' : Bool} {level : ℕ} {ctx : Bool → ResolveCtx} {s t : InitState}
    (hl : ExprListAdds resolve exist l) (hc : exprsCursors l = [])
    (h : ifOk rc l (do pure (true,← xjd1ExprListInit resolve exist level (ctx (← hasAgg)) l)) s = some ((rc',l'),t)) :
    Adds resolve s t (exprsCursors l') (rc = true → rc' = true ∧ AllVisited (exprsNodes l')) := by
  refine ifOk_adds (c := exprsCursors) (v := fun l => AllVisited (exprsNodes l)) h hc fun h => ?_
  obtain ⟨_,_,hagg,h⟩ := bind_eq_some.mp h
  cases hagg
  obtain ⟨m,_,hm,h⟩ := bind_eq_some.mp h
  cases h
  exact (hl hc hm).mono fun h => ⟨rfl,h⟩

theorem simpleInit_adds {pRes pWhere pHaving pLimit pOffset : Expr} {pFrom : DataSrc} {pGroupBy pOrderBy : List Expr}
    {zAs : Option Bytes} {b : Bool} {a : Option ℕ} (hRes : ExprAdds resolve exist pRes)
    (hFrom : DataSrcAdds resolve exist pFrom) (hWhere : ExprAdds resolve exist pWhere)
    (hGroupBy : ExprListAdds resolve exist pGroupBy) (hHaving : ExprAdds resolve exist pHaving)
    (hOrderBy : ExprListAdds resolve exist pOrderBy) (hLimit : ExprAdds resolve exist pLimit)
    (hOffset : ExprAdds resolve exist pOffset) :
    QueryAdds resolve exist (.simple b pRes pFrom pWhere pGroupBy pHaving a zAs pOrderBy pLimit pOffset) := by
  intro level ctx q' rc s t hc h
  simp only [Query.cursors,List.append_eq_nil_iff] at hc
  obtain ⟨⟨⟨⟨⟨⟨⟨hc1,hc2⟩,hc3⟩,hc4⟩,hc5⟩,hc6⟩,hc7⟩,hc8⟩ := hc
  obtain ⟨outer,_,henter,h⟩ := bind_eq_some.mp h
  cases henter
  obtain ⟨_,_,hagg,h⟩ := bind_eq_some.mp h
  cases hagg
  obtain ⟨⟨rc1,res⟩,s1,hres,h⟩ := bind_eq_some.mp h
  obtain ⟨⟨rc2,src⟩,s2,hfrom,h⟩ := bind_eq_some.mp h
  obtain ⟨_,_,hagg,h⟩ := bind_eq_some.mp h
  cases hagg
  obtain ⟨⟨rc3,whr⟩,s3,hwhere,h⟩ := bind_eq_some.mp h
  obtain ⟨⟨rc4,grp⟩,s4,hgroup,h⟩ := bind_eq_some.mp h
  obtain ⟨_,_,hagg,h⟩ := bind_eq_some.mp h
  cases hagg
  obtain ⟨⟨rc5,hav⟩,s5,hhaving,h⟩ := bind_eq_some.mp h
  obtain ⟨⟨rc6,⟨⟩⟩,s6,hgagg,h⟩ := bind_eq_some.mp h
  obtain ⟨⟨rc7,ord⟩,s7,horder,h⟩ := bind_eq_some.mp h
  obtain ⟨_,_,hagg,h⟩ := bind_eq_some.mp h
  cases hagg
  obtain ⟨⟨rc8,lim⟩,s8,hlimit,h⟩ := bind_eq_some.mp h
  obtain ⟨_,_,hagg,h⟩ := bind_eq_some.mp h
  cases hagg
  obtain ⟨⟨rc9,off⟩,s9,hoffset,h⟩ := bind_eq_some.mp h
  obtain ⟨_,_,hleave,h⟩ := bind_eq_some.mp h
  cases hleave
  cases h
  have h1 := (Adds.pAgg none trivial).trans (hRes hc1 hres)
  have h2 := ifOk_adds (c := DataSrc.cursors) (v := fun p => AllVisited p.nodes) hfrom hc2 (hFrom hc2)
  have h3 := ifOk_adds (c := Expr.cursors) (v := fun e => AllVisited e.nodes) hwhere hc3 (hWhere hc3)
  have h4 := listStage_adds hGroupBy hc4 hgroup
  have h5 := ifOk_adds (c := Expr.cursors) (v := fun e => AllVisited e.nodes) hhaving hc5 (hHaving hc5)
  have h6 : Adds resolve s5 s6 [] (rc5 = true → rc6 = true ∧ True) :=
    ifOk_pure_adds (c := fun _ => []) (v := fun _ => True) hgagg rfl groupAggregateInit_adds
  have h7 := listStage_adds hOrderBy hc6 horder
  have h8 := ifOk_adds (c := Expr.cursors) (v := fun e => AllVisited e.nodes) hlimit hc7 (hLimit hc7)
  have h9 := ifOk_adds (c := Expr.cursors) (v := fun e => AllVisited e.nodes) hoffset hc8 (hOffset hc8)
  have hall := ((((((((h1.trans h2).trans h3).trans h4).trans h5).trans_nil h6).trans h7).trans h8).trans h9).trans_nil
    (Adds.pAgg s.pAgg trivial)
  refine hall.mono ?_
  rintro ⟨⟨⟨⟨⟨⟨⟨⟨⟨⟨_,ok1,v1⟩,h2⟩,h3⟩,h4⟩,h5⟩,h6⟩,h7⟩,h8⟩,h9⟩,_⟩
  obtain ⟨ok2,v2⟩ := h2 ok1
  obtain ⟨ok3,v3⟩ := h3 ok2
  obtain ⟨ok4,v4⟩ := h4 ok3
  obtain ⟨ok5,v5⟩ := h5 ok4
  obtain ⟨ok7,v7⟩ := h7 (h6 ok5).1
  obtain ⟨ok8,v8⟩ := h8 ok7
  obtain ⟨ok9,v9⟩ := h9 ok8
  rw [Query.nodes]
  exact ⟨ok9,List.forall_mem_cons.mpr ⟨rfl,
    ((((((v1.append v2).append v3).append v4).append v5).append v7).append v8).append v9⟩⟩

theorem compoundInit_adds {pLeft pRight : Query} {pLimit pOffset : Expr} {pOrderBy : List Expr}
    {zAs : Option Bytes} {b : Bool} {op : CompoundOp} (hLeft : QueryAdds resolve exist pLeft)
    (hRight : QueryAdds resolve exist pRight) (hOrderBy : ExprListAdds resolve exist pOrderBy)
    (hLimit : ExprAdds resolve exist pLimit) (hOffset : ExprAdds resolve exist pOffset) :
    QueryAdds resolve exist (.compound b op pLeft pRight zAs pOrderBy pLimit pOffset) := by
  intro level ctx q' rc s t hc h
  simp only [Query.cursors,List.append_eq_nil_iff] at hc
  obtain ⟨⟨⟨⟨hc1,hc2⟩,hc3⟩,hc4⟩,hc5⟩ := hc
  obtain ⟨⟨rc1,l⟩,s1,hleft,h⟩ := bind_eq_some.mp h
  obtain ⟨⟨rc2,r⟩,s2,hright,h⟩ := bind_eq_some.mp h
  obtain ⟨⟨rc3,ord⟩,s3,horder,h⟩ := bind_eq_some.mp h
  obtain ⟨⟨rc4,lim⟩,s4,hlimit,h⟩ := bind_eq_some.mp h
  obtain ⟨⟨rc5,off⟩,s5,hoffset,h⟩ := bind_eq_some.mp h
  cases h
  have h1 := hLeft hc1 hleft
  have h2 := ifOk_adds (c := Query.cursors) (v := fun q => AllVisited q.nodes) hright hc2 (hRight hc2)
  have h3 := ifOk_pure_adds (c := exprsCursors) (v := fun l => AllVisited (exprsNodes l)) horder hc3
    (hOrderBy hc3)
  have h4 := ifOk_adds (c := Expr.cursors) (v := fun e => AllVisited e.nodes) hlimit hc4 (hLimit hc4)
  have h5 := ifOk_adds (c := Expr.cursors) (v := fun e => AllVisited e.nodes) hoffset hc5 (hOffset hc5)
  refine ((((h1.trans h2).trans h3).trans h4).trans h5).mono ?_
  rintro ⟨⟨⟨⟨⟨ok1,v1⟩,h2⟩,h3⟩,h4⟩,h5⟩
  obtain ⟨ok2,v2⟩ := h2 ok1
  obtain ⟨ok3,v3⟩ := h3 ok2
  obtain ⟨ok4,v4⟩ := h4 ok3
  obtain ⟨ok5,v5⟩ := h5 ok4
  rw [Query.nodes]
  exact ⟨ok5,List.forall_mem_cons.mpr ⟨rfl,(((v1.append v2).append v3).append v4).append v5⟩⟩

mutual
theorem exprInit_adds (e : Expr) : ExprAdds resolve exist e := by
  intro level ctx e' rc s t hc h
  match e with
  | .nullptr =>
    cases h
    exact .refl ⟨rfl,fun n hn => by cases hn⟩
  | .jvalue =>
    cases h
    exact .refl ⟨rfl,fun n hn => by cases hn⟩
  | .dot pLeft zId =>
    obtain ⟨⟨_,l⟩,t1,hl,h⟩ := bind_eq_some.mp h
    cases h
    exact (exprInit_adds pLeft hc hl).mono fun h => ⟨rfl,h.2⟩
  | .bi eType pLeft pRight =>
    obtain ⟨hcl,hcr⟩ := List.append_eq_nil_iff.mp hc
    obtain ⟨⟨_,l⟩,t1,hl,h⟩ := bind_eq_some.mp h
    obtain ⟨⟨_,r⟩,t2,hr,h⟩ := bind_eq_some.mp h
    cases h
    exact ((exprInit_adds pLeft hcl hl).trans (exprInit_adds pRight hcr hr)).mono fun h => ⟨rfl,h.1.2.append h.2.2⟩
  | .tri pTest pIfTrue pIfFalse =>
    obtain ⟨hcl,hcr⟩ := List.append_eq_nil_iff.mp hc
    obtain ⟨hca,hcb⟩ := List.append_eq_nil_iff.mp hcl
    obtain ⟨⟨_,a⟩,t1,ha,h⟩ := bind_eq_some.mp h
    obtain ⟨⟨_,b⟩,t2,hb,h⟩ := bind_eq_some.mp h
    obtain ⟨⟨_,c⟩,t3,hc',h⟩ := bind_eq_some.mp h
    cases h
    exact (((exprInit_adds pTest hca ha).trans (exprInit_adds pIfTrue hcb hb)).trans
      (exprInit_adds pIfFalse hcr hc')).mono fun h => ⟨rfl,(h.1.1.2.append h.1.2.2).append h.2.2⟩
  | .id p =>
    obtain ⟨⟨_,p'⟩,t1,hp,h⟩ := bind_eq_some.mp h
    cases h
    exact identInit_adds hp
  | .struct st =>
    obtain ⟨l,t1,hl,h⟩ := bind_eq_some.mp h
    cases h
    exact (exprListInit_adds st hc hl).mono fun h => ⟨rfl,h⟩
  | .array ar =>
    obtain ⟨l,t1,hl,h⟩ := bind_eq_some.mp h
    cases h
    exact (exprListInit_adds ar hc hl).mono fun h => ⟨rfl,h⟩
  | .func zFName args _ _ =>
    obtain ⟨⟨rc',f,i⟩,t1,hf,h⟩ := bind_eq_some.mp h
    obtain ⟨l,t2,hl,h⟩ := bind_eq_some.mp h
    cases h
    exact ((functionInit_adds hf).trans (exprListInit_adds args hc hl)).mono fun h =>
      ⟨h.1.1,List.forall_mem_cons.mpr ⟨h.1.2,h.2⟩⟩
  | .subq p =>
    obtain ⟨⟨rc',q⟩,t1,hq,h⟩ := bind_eq_some.mp h
    cases h
    exact queryInit_adds p hc hq
termination_by structural e

theorem exprListInit_adds (es : List Expr) : ExprListAdds resolve exist es := by
  intro level ctx es' s t hc h
  match es with
  | [] =>
    cases h
    exact .refl fun n hn => by cases hn
  | e::es =>
    obtain ⟨hce,hces⟩ := List.append_eq_nil_iff.mp hc
    obtain ⟨⟨_,e'⟩,t1,he,h⟩ := bind_eq_some.mp h
    obtain ⟨l,t2,hl,h⟩ := bind_eq_some.mp h
    cases h
    exact ((exprInit_adds e hce he).trans (exprListInit_adds es hces hl)).mono fun h => h.1.2.append h.2

theorem dataSrcInit_adds (p : DataSrc) : DataSrcAdds resolve exist p := by
  intro level ctx p' rc s t hc h
  match p with
  | .comma pLeft pRight =>
    obtain ⟨hcl,hcr⟩ := List.append_eq_nil_iff.mp hc
    obtain ⟨⟨_,l⟩,t1,hl,h⟩ := bind_eq_some.mp h
    obtain ⟨⟨_,r⟩,t2,hr,h⟩ := bind_eq_some.mp h
    cases h
    exact ((dataSrcInit_adds pLeft hcl hl).trans (dataSrcInit_adds pRight hcr hr)).mono fun h =>
      ⟨rfl,h.1.2.append h.2.2⟩
  | .subq zAs q =>
    obtain ⟨⟨_,q'⟩,t1,hq,h⟩ := bind_eq_some.mp h
    cases h
    exact (queryInit_adds q hc hq).mono fun h => ⟨rfl,h.2⟩
  | .tab zAs zName _ =>
    obtain ⟨c,t1,hp,h⟩ := bind_eq_some.mp h
    cases h
    exact (prepareTable_adds hp).mono fun _ => ⟨rfl,fun n hn => by cases hn⟩
  | .flatten pNext =>
    obtain ⟨⟨_,n⟩,t1,hn,h⟩ := bind_eq_some.mp h
    cases h
    exact (dataSrcInit_adds pNext hc hn).mono fun h => ⟨rfl,h.2⟩
  | .path zAs pPath =>
    obtain ⟨⟨_,p'⟩,t1,hp,h⟩ := bind_eq_some.mp h
    cases h
    exact pathInit_adds pPath hp
  | .null =>
    cases h
    exact .refl ⟨rfl,fun n hn => by cases hn⟩

theorem queryInit_adds (q : Query) : QueryAdds resolve exist q :=
  match q with
  | .simple _ pRes pFrom pWhere pGroupBy pHaving _ _ pOrderBy pLimit pOffset =>
    simpleInit_adds (exprInit_adds pRes) (dataSrcInit_adds pFrom) (exprInit_adds pWhere)
      (exprListInit_adds pGroupBy) (exprInit_adds pHaving) (exprListInit_adds pOrderBy) (exprInit_adds pLimit)
      (exprInit_adds pOffset)
  | .compound _ _ pLeft pRight _ pOrderBy pLimit pOffset =>
    compoundInit_adds (queryInit_adds pLeft) (queryInit_adds pRight) (exprListInit_adds pOrderBy)
      (exprInit_adds pLimit) (exprInit_adds pOffset)
end

end Walk

end Parsed
end Xjd1
