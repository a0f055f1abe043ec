import Xjd1.Query.Rewind

/-! Which queries the expressions of a query read documents of. Names in LIMIT and OFFSET
are resolved outside the query; a subquery in FROM is on its own. -/
namespace Xjd1

open Fueled Fueled.Run

variable {R : Type}

/-- The queries read inside one more query: those around it, and it itself if `b`. -/
def inside (b : Bool) (S : ℕ → Bool) : ℕ → Bool
  | 0 => b
  | k+1 => S k

mutual
/-- Evaluating the expression reads documents of the queries in `S` only. The arguments
of an aggregate call are not evaluated with the expression. -/
def Expr.scoped : Expr R → (ℕ → Bool) → Bool
  | .jvalue _, _ => true
  | .id _ pQuery _, S => pQuery.all S
  | .dot pLeft _, S => pLeft.scoped S
  | .bi _ pLeft pRight, S => pLeft.scoped S && optionScoped pRight S
  | .tri pTest pIfTrue pIfFalse, S => pTest.scoped S && (pIfTrue.scoped S && pIfFalse.scoped S)
  | .struct es, S | .array es, S => itemsScoped es S
  | .func pFunction args _, S => if pFunction = .length then itemsScoped args S else true
  | .subq p, S => p.scoped S

def optionScoped : Option (Expr R) → (ℕ → Bool) → Bool
  | none, _ => true
  | some e, S => e.scoped S

def itemsScoped : List (ExprItem R) → (ℕ → Bool) → Bool
  | [], _ => true
  | ⟨_,e⟩::es, S => e.scoped S && itemsScoped es S

def itemsOptionScoped : Option (List (ExprItem R)) → (ℕ → Bool) → Bool
  | none, _ => true
  | some es, S => itemsScoped es S

def aggsScoped : List (AggExpr R) → (ℕ → Bool) → Bool
  | [], _ => true
  | ⟨_,args,_,_⟩::l, S => itemsScoped args S && aggsScoped l S

def aggsOptionScoped : Option (List (AggExpr R)) → (ℕ → Bool) → Bool
  | none, _ => true
  | some l, S => aggsScoped l S

def DataSrc.scoped : DataSrc R → (ℕ → Bool) → Bool
  | .comma _ pLeft pRight, S => pLeft.scoped S && pRight.scoped S
  | .subq _ _ q, _ => q.scoped fun _ => true
  | .tab _ _ _ _, _ => true
  | .flatten _ pNext _ _ _ _, S => pNext.scoped S
  | .path _ _ pPath _ _, S => pPath.scoped S
  | .null _, _ => true

def SimpleQuery.scoped : SimpleQuery R → (ℕ → Bool) → Bool
  | ⟨_,pRes,pFrom,pWhere,pGroupBy,pHaving,pAgg,_,_⟩, S =>
    optionScoped pRes (inside true S) && (pFrom.scoped S && (optionScoped pWhere (inside true S) &&
      (itemsOptionScoped pGroupBy (inside true S) && (optionScoped pHaving (inside true S) &&
        aggsOptionScoped pAgg (inside true S)))))

def CompoundQuery.scoped : CompoundQuery R → (ℕ → Bool) → Bool
  | ⟨_,pLeft,pRight,_,_,_,_⟩, S => pLeft.scoped S && pRight.scoped S

def QueryU.scoped : QueryU R → (ℕ → Bool) → Bool
  | .simple s, S => s.scoped S
  | .compound c, S => c.scoped S

/-- The query reads documents of the queries in `S` and its own, the latter not in LIMIT and OFFSET. -/
def Query.scoped : Query R → (ℕ → Bool) → Bool
  | ⟨u,_,pOrderBy,pLimit,pOffset,_,_,_⟩, S =>
    u.scoped S && (itemsOptionScoped pOrderBy (inside true S) && (optionScoped pLimit (inside false S) &&
      optionScoped pOffset (inside false S)))
end

theorem simpleScoped_iff (s : SimpleQuery R) (S : ℕ → Bool) : s.scoped S = true ↔
    optionScoped s.pRes (inside true S) = true ∧ s.pFrom.scoped S = true ∧
      optionScoped s.pWhere (inside true S) = true ∧ itemsOptionScoped s.pGroupBy (inside true S) = true ∧
      optionScoped s.pHaving (inside true S) = true ∧ aggsOptionScoped s.pAgg (inside true S) = true := by
  cases s
  simp only [SimpleQuery.scoped,Bool.and_eq_true]

theorem queryScoped_iff (p : Query R) (S : ℕ → Bool) : p.scoped S = true ↔ p.u.scoped S = true ∧
    itemsOptionScoped p.pOrderBy (inside true S) = true ∧ optionScoped p.pLimit (inside false S) = true ∧
      optionScoped p.pOffset (inside false S) = true := by
  cases p
  simp only [Query.scoped,Bool.and_eq_true]

theorem itemsInitial_getD {es : Option (List (ExprItem R))} (h : itemsOptionInitial es) : itemsInitial (es.getD []) := by
  cases es with
  | none => rw [Option.getD_none,itemsInitial]; trivial
  | some es => exact h

theorem itemsScoped_getD {es : Option (List (ExprItem R))} {S : ℕ → Bool} (h : itemsOptionScoped es S = true) :
    itemsScoped (es.getD []) S = true := by
  cases es with
  | none => rfl
  | some es => exact h

theorem aggsScoped_clear (l : List (AggExpr R)) (S : ℕ → Bool) :
    aggsScoped (l.map AggExpr.clear) S = aggsScoped l S := by
  induction l with
  | nil => rfl
  | cons a l ih =>
    obtain ⟨f,args,v,c⟩ := a
    rw [List.map_cons,AggExpr.clear,aggsScoped,aggsScoped,ih]

theorem aggsOptionScoped_clear (o : Option (List (AggExpr R))) (S : ℕ → Bool) :
    aggsOptionScoped (o.map (List.map AggExpr.clear)) S = aggsOptionScoped o S := by
  cases o with
  | none => rfl
  | some l => exact aggsScoped_clear l S

mutual
theorem dataSrcRewind_scoped (S : ℕ → Bool) : (d : DataSrc R) → (xjd1DataSrcRewind d).scoped S = d.scoped S
  | .comma _ l r => by
    rw [xjd1DataSrcRewind,DataSrc.scoped,DataSrc.scoped,dataSrcRewind_scoped S l,dataSrcRewind_scoped S r]
  | .subq _ _ q => by rw [xjd1DataSrcRewind,DataSrc.scoped,DataSrc.scoped,queryRewind_scoped _ q]
  | .tab _ _ _ _ => by rw [xjd1DataSrcRewind,DataSrc.scoped,DataSrc.scoped]
  | .flatten _ p _ _ _ _ => by
    rw [xjd1DataSrcRewind,DataSrc.scoped,DataSrc.scoped,dataSrcRewind_scoped S p]
  | .path _ _ _ _ _ => by rw [xjd1DataSrcRewind,DataSrc.scoped,DataSrc.scoped]
  | .null _ => by rw [xjd1DataSrcRewind,DataSrc.scoped,DataSrc.scoped]

theorem simpleRewind_scoped (S : ℕ → Bool) : (s : SimpleQuery R) → (simpleRewind s).scoped S = s.scoped S
  | ⟨_,_,src,_,_,_,agg,_,_⟩ => by
    rw [simpleRewind,SimpleQuery.scoped,SimpleQuery.scoped,dataSrcRewind_scoped S src,aggsOptionScoped_clear]

theorem compoundRewind_scoped (S : ℕ → Bool) : (c : CompoundQuery R) → (compoundRewind c).scoped S = c.scoped S
  | ⟨_,l,r,_,_,_,_⟩ => by
    rw [compoundRewind,CompoundQuery.scoped,CompoundQuery.scoped,queryRewind_scoped S l,queryRewind_scoped S r]

theorem queryURewind_scoped (S : ℕ → Bool) : (u : QueryU R) → (queryURewind u).scoped S = u.scoped S
  | .simple s => by rw [queryURewind,QueryU.scoped,QueryU.scoped,simpleRewind_scoped S s]
  | .compound c => by rw [queryURewind,QueryU.scoped,QueryU.scoped,compoundRewind_scoped S c]

theorem queryRewind_scoped (S : ℕ → Bool) : (p : Query R) → (xjd1QueryRewind p).scoped S = p.scoped S
  | ⟨u,_,_,_,_,_,_,_⟩ => by rw [xjd1QueryRewind,Query.scoped,Query.scoped,queryURewind_scoped S u]
end

/-- A query that steps have changed, whose expressions read documents of the queries in `S` and its own. -/
structure Query.Fit (S : ℕ → Bool) (p : Query R) : Prop where
  clean : p.Clean
  inScope : p.scoped S = true

structure DataSrc.Fit (S : ℕ → Bool) (d : DataSrc R) : Prop where
  clean : d.Clean
  inScope : d.scoped S = true

structure ExprFit (S : ℕ → Bool) (e : Expr R) : Prop where
  initial : e.Initial
  inScope : e.scoped S = true

section Fit
variable {S : ℕ → Bool}

theorem Query.Fit.of_rewind {p q : Query R} (hp : p.Fit S) (h : xjd1QueryRewind q = xjd1QueryRewind p) : q.Fit S :=
  ⟨hp.clean.of_rewind h,by rw [← queryRewind_scoped,h,queryRewind_scoped]; exact hp.inScope⟩

theorem DataSrc.Fit.of_rewind {d e : DataSrc R} (hd : d.Fit S) (h : xjd1DataSrcRewind e = xjd1DataSrcRewind d) :
    e.Fit S :=
  ⟨by rw [DataSrc.Clean,h]; exact hd.clean,by rw [← dataSrcRewind_scoped,h,dataSrcRewind_scoped]; exact hd.inScope⟩

theorem DataSrc.Fit.rewind {d : DataSrc R} (hd : d.Fit S) : (xjd1DataSrcRewind d).Fit S :=
  hd.of_rewind (dataSrcRewind_initial _ hd.clean)

structure SimpleQuery.Fit (S : ℕ → Bool) (s : SimpleQuery R) : Prop where
  pRes : optionInitial s.pRes ∧ optionScoped s.pRes (inside true S) = true
  pFrom : s.pFrom.Fit S
  pWhere : optionInitial s.pWhere ∧ optionScoped s.pWhere (inside true S) = true
  pGroupBy : itemsOptionInitial s.pGroupBy ∧ itemsOptionScoped s.pGroupBy (inside true S) = true
  pHaving : optionInitial s.pHaving ∧ optionScoped s.pHaving (inside true S) = true
  pAgg : aggsOptionInitial (s.pAgg.map (List.map AggExpr.clear)) ∧ aggsOptionScoped s.pAgg (inside true S) = true

theorem Query.Fit.simple {p : Query R} {s : SimpleQuery R} (hp : p.Fit S) (hs : p.u = .simple s) : s.Fit S := by
  have hi := (simpleInitial_iff _).mp (hp.clean.simple hs)
  rw [simpleRewind_eq] at hi
  have hc := ((queryScoped_iff p S).mp hp.inScope).1
  rw [hs,QueryU.scoped,simpleScoped_iff] at hc
  exact ⟨⟨hi.1,hc.1⟩,⟨hi.2.1,hc.2.1⟩,⟨hi.2.2.1,hc.2.2.1⟩,⟨hi.2.2.2.1,hc.2.2.2.1⟩,⟨hi.2.2.2.2.1,hc.2.2.2.2.1⟩,
    ⟨hi.2.2.2.2.2.1,hc.2.2.2.2.2⟩⟩

theorem Query.Fit.compound {p : Query R} {c : CompoundQuery R} (hp : p.Fit S) (hc : p.u = .compound c) :
    c.pLeft.Fit S ∧ c.pRight.Fit S := by
  have hi := hp.clean.compound hc
  have hs := ((queryScoped_iff p S).mp hp.inScope).1
  rw [hc,QueryU.scoped] at hs
  cases c
  rw [CompoundQuery.scoped,Bool.and_eq_true] at hs
  exact ⟨⟨hi.1,hs.1⟩,⟨hi.2,hs.2⟩⟩

end Fit

end Xjd1
