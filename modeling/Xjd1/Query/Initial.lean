import Xjd1.Query.Step

/-! Queries as they are after `xjd1QueryInit`: nothing read, nothing cached, in
the query and in every subquery of its expressions and its FROM clause. -/
namespace Xjd1

variable {R : Type}

mutual
/-- Every subquery in the expression is as it was initialised. -/
def Expr.Initial : Expr R → Prop
  | .jvalue _ | .id _ _ _ => True
  | .dot pLeft _ => pLeft.Initial
  | .bi _ pLeft pRight => pLeft.Initial ∧ optionInitial pRight
  | .tri pTest pIfTrue pIfFalse => pTest.Initial ∧ pIfTrue.Initial ∧ pIfFalse.Initial
  | .struct es | .array es | .func _ es _ => itemsInitial es
  | .subq p => p.Initial

def optionInitial : Option (Expr R) → Prop
  | none => True
  | some e => e.Initial

def itemsInitial : List (ExprItem R) → Prop
  | [] => True
  | ⟨_,e⟩::es => e.Initial ∧ itemsInitial es

def itemsOptionInitial : Option (List (ExprItem R)) → Prop
  | none => True
  | some es => itemsInitial es

def aggsInitial : List (AggExpr R) → Prop
  | [] => True
  | ⟨_,args,pValue,pAggCtx⟩::l =>
    (itemsInitial args ∧ pValue = .nullptr ∧ pAggCtx = .null) ∧ aggsInitial l

def aggsOptionInitial : Option (List (AggExpr R)) → Prop
  | none => True
  | some l => aggsInitial l

def DataSrc.Initial : DataSrc R → Prop
  | .comma bStart pLeft pRight => bStart = false ∧ pLeft.Initial ∧ pRight.Initial
  | .subq _ pValue q => pValue = .nullptr ∧ q.Initial
  | .tab _ pValue _ pStmt => pValue = .nullptr ∧ pStmt = 0
  | .flatten pValue pNext _ _ _ pIter => pValue = .nullptr ∧ pNext.Initial ∧ pIter = none
  | .path _ pValue pPath pArray iNext =>
    pValue = .nullptr ∧ pPath.Initial ∧ pArray = .nullptr ∧ iNext = 0
  | .null isDone => isDone = false

def SimpleQuery.Initial : SimpleQuery R → Prop
  | ⟨_,pRes,pFrom,pWhere,pGroupBy,pHaving,pAgg,grouped,distincted⟩ =>
    optionInitial pRes ∧ pFrom.Initial ∧ optionInitial pWhere ∧ itemsOptionInitial pGroupBy ∧
      optionInitial pHaving ∧ aggsOptionInitial pAgg ∧ grouped = .empty ∧ distincted = .empty

def CompoundQuery.Initial : CompoundQuery R → Prop
  | ⟨_,pLeft,pRight,doneLeft,left,right,pOut⟩ =>
    pLeft.Initial ∧ pRight.Initial ∧ doneLeft = false ∧ left = .empty ∧ right = .empty ∧ pOut = .nullptr

def QueryU.Initial : QueryU R → Prop
  | .simple s => s.Initial
  | .compound c => c.Initial

def Query.Initial : Query R → Prop
  | ⟨u,_,pOrderBy,pLimit,pOffset,eDocFrom,ordered,nLimit⟩ =>
    u.Initial ∧ itemsOptionInitial pOrderBy ∧ optionInitial pLimit ∧ optionInitial pOffset ∧
      eDocFrom = .datasrc ∧ ordered = .empty ∧ nLimit = none
end

theorem simpleRewind_eq (s : SimpleQuery R) :
    simpleRewind s = { s with
      pFrom := xjd1DataSrcRewind s.pFrom, pAgg := s.pAgg.map (List.map AggExpr.clear),
      grouped := .empty, distincted := .empty } := by
  cases s
  rw [simpleRewind]

theorem compoundRewind_eq (c : CompoundQuery R) :
    compoundRewind c = { c with
      pLeft := xjd1QueryRewind c.pLeft, pRight := xjd1QueryRewind c.pRight,
      doneLeft := false, left := .empty, right := .empty, pOut := .nullptr } := by
  cases c
  rw [compoundRewind]

theorem queryRewind_eq (p : Query R) :
    xjd1QueryRewind p = { p with
      u := queryURewind p.u, eDocFrom := .datasrc, ordered := .empty, nLimit := none } := by
  cases p
  rw [xjd1QueryRewind]

theorem simpleInitial_iff (s : SimpleQuery R) :
    s.Initial ↔ optionInitial s.pRes ∧ s.pFrom.Initial ∧ optionInitial s.pWhere ∧
      itemsOptionInitial s.pGroupBy ∧ optionInitial s.pHaving ∧ aggsOptionInitial s.pAgg ∧
      s.grouped = .empty ∧ s.distincted = .empty := by
  cases s
  rw [SimpleQuery.Initial]

theorem compoundInitial_iff (c : CompoundQuery R) :
    c.Initial ↔ c.pLeft.Initial ∧ c.pRight.Initial ∧ c.doneLeft = false ∧ c.left = .empty ∧
      c.right = .empty ∧ c.pOut = .nullptr := by
  cases c
  rw [CompoundQuery.Initial]

theorem queryInitial_iff (p : Query R) :
    p.Initial ↔ p.u.Initial ∧ itemsOptionInitial p.pOrderBy ∧ optionInitial p.pLimit ∧
      optionInitial p.pOffset ∧ p.eDocFrom = .datasrc ∧ p.ordered = .empty ∧ p.nLimit = none := by
  cases p
  rw [Query.Initial]

theorem SimpleQuery.eta (s : SimpleQuery R) :
    (⟨s.isDistinct,s.pRes,s.pFrom,s.pWhere,s.pGroupBy,s.pHaving,s.pAgg,s.grouped,s.distincted⟩ :
      SimpleQuery R) = s := by
  cases s
  rfl

theorem CompoundQuery.eta (c : CompoundQuery R) :
    (⟨c.eQType,c.pLeft,c.pRight,c.doneLeft,c.left,c.right,c.pOut⟩ : CompoundQuery R) = c := by
  cases c
  rfl

theorem Query.eta (p : Query R) :
    (⟨p.u,p.zAs,p.pOrderBy,p.pLimit,p.pOffset,p.eDocFrom,p.ordered,p.nLimit⟩ : Query R) = p := by
  cases p
  rfl

theorem aggsRewind_initial (l : List (AggExpr R)) (h : aggsInitial l) : l.map AggExpr.clear = l := by
  induction l with
  | nil => rfl
  | cons a l ih =>
    obtain ⟨f,args,v,c⟩ := a
    rw [aggsInitial] at h
    obtain ⟨⟨_,rfl,rfl⟩,h⟩ := h
    rw [List.map_cons,ih h]
    rfl

mutual
theorem dataSrcRewind_initial : (d : DataSrc R) → d.Initial → xjd1DataSrcRewind d = d
  | .comma b l r, h => by
    rw [DataSrc.Initial] at h
    rw [xjd1DataSrcRewind,dataSrcRewind_initial l h.2.1,dataSrcRewind_initial r h.2.2,h.1]
  | .subq z v q, h => by
    rw [DataSrc.Initial] at h
    rw [xjd1DataSrcRewind,queryRewind_initial q h.2,h.1]
  | .tab z v n k, h => by
    rw [DataSrc.Initial] at h
    rw [xjd1DataSrcRewind,h.1,h.2]
  | .flatten v p op e as it, h => by
    rw [DataSrc.Initial] at h
    rw [xjd1DataSrcRewind,dataSrcRewind_initial p h.2.1,h.1,h.2.2]
  | .path z v e a i, h => by
    rw [DataSrc.Initial] at h
    rw [xjd1DataSrcRewind,h.1,h.2.2.1,h.2.2.2]
  | .null b, h => by
    rw [DataSrc.Initial] at h
    rw [xjd1DataSrcRewind,h]

theorem simpleRewind_initial : (s : SimpleQuery R) → s.Initial → simpleRewind s = s
  | ⟨d,res,src,w,g,hv,agg,gr,di⟩, h => by
    rw [SimpleQuery.Initial] at h
    obtain ⟨_,hf,_,_,_,ha,rfl,rfl⟩ := h
    rw [simpleRewind,dataSrcRewind_initial src hf]
    cases agg with
    | none => rfl
    | some l =>
      rw [aggsOptionInitial] at ha
      rw [Option.map_some,aggsRewind_initial l ha]

theorem compoundRewind_initial : (c : CompoundQuery R) → c.Initial → compoundRewind c = c
  | ⟨t,l,r,dl,le,ri,o⟩, h => by
    rw [CompoundQuery.Initial] at h
    obtain ⟨hl,hr,rfl,rfl,rfl,rfl⟩ := h
    rw [compoundRewind,queryRewind_initial l hl,queryRewind_initial r hr]

theorem queryURewind_initial : (u : QueryU R) → u.Initial → queryURewind u = u
  | .simple s, h => by
    rw [QueryU.Initial] at h
    rw [queryURewind,simpleRewind_initial s h]
  | .compound c, h => by
    rw [QueryU.Initial] at h
    rw [queryURewind,compoundRewind_initial c h]

theorem queryRewind_initial : (p : Query R) → p.Initial → xjd1QueryRewind p = p
  | ⟨u,z,ob,l,of,d,o,n⟩, h => by
    rw [Query.Initial] at h
    obtain ⟨hu,_,_,_,rfl,rfl,rfl⟩ := h
    rw [xjd1QueryRewind,queryURewind_initial u hu]
end

end Xjd1
