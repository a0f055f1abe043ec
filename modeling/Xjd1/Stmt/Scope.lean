import Xjd1.Stmt.Prepare

/-! Lexical scoping. `exprResolve` looks at the type of the command before it looks at
the queries around an identifier, so it differs from lexical scoping in the
subqueries of UPDATE and DELETE, and has no case for INSERT. -/
namespace Xjd1
namespace Parsed

open InitM

def DataSrc.names : DataSrc → List (Option Bytes)
  | .comma pLeft pRight => pLeft.names ++ pRight.names
  | .subq zAs _ => [zAs]
  | .tab zAs zName _ => [zAs.or (some zName)]
  | .flatten pNext => pNext.names
  | .path zAs _ => [zAs]
  | .null => [none]

/-- What the name stands for in a query, if the expression may see it: the first source
of that name, or else the result. -/
def Scope.lookup (q : Scope) (zDoc : Bytes) : Option Binding :=
  let sources := match q.pFrom with
    | some pFrom => if q.eExpr.seesFrom then pFrom.names else []
    | none => []
  match sources.findIdx? (· == some zDoc) with
  | some i => some ⟨some q.level,i+1⟩
  | none => if q.seesAlias ∧ q.zAs = some zDoc then some ⟨some q.level,0⟩ else none

def Command.collection : Command → Option Bytes
  | .delete zName _ => some zName
  | .update zName _ _ _ => some zName
  | _ => none

def innermost (zDoc : Bytes) (pCtx : ResolveCtx) : Option Binding :=
  pCtx.findSome? fun q => q.bind fun q => q.lookup zDoc

/-- The innermost query around the identifier that has the name, or else the collection
of the statement. -/
def lexicalResolve (pCmd : Command) (pCtx : ResolveCtx) (zDoc : Bytes) : Resolution :=
  match innermost zDoc pCtx with
  | some b => .bound b
  | none => if pCmd.collection = some zDoc then .bound ⟨none,0⟩ else .noSuchObject

/-- The search for the name comes to a LIMIT or OFFSET clause of a compound query. -/
def inCompoundLimit (zDoc : Bytes) : ResolveCtx → Prop
  | [] => False
  | none::ctx => inCompoundLimit zDoc ctx
  | some q::ctx => (q.pFrom.isNone ∧ q.eExpr ≠ .orderBy) ∨ (q.lookup zDoc = none ∧ inCompoundLimit zDoc ctx)

/-- The identifiers that are not bound lexically. -/
def Misbound (pCmd : Command) (pCtx : ResolveCtx) (zDoc : Bytes) : Prop :=
  match pCmd with
  | .select _ => inCompoundLimit zDoc pCtx
  | .delete _ _ | .update _ _ _ _ => ∃ q, some q ∈ pCtx ∧ (q.lookup zDoc).isSome
  | .insertValue _ _ | .insertSelect _ _ | .other => True

theorem isNamed_eq (zAs zName : Option Bytes) (zDoc : Bytes) :
    isNamed zAs zName zDoc = (zAs.or zName == some zDoc) := by
  cases zAs <;> simp [isNamed]

theorem single_spec (o : Option Bytes) (zDoc : Bytes) (iEntry : ℕ) :
    (if (o == some zDoc) = true then iEntry else 0) = ([o].findIdx? (· == some zDoc)).elim 0 (iEntry + ·) := by
  by_cases h : (o == some zDoc) = true
  · simp [List.findIdx?_cons,h]
  · simp [List.findIdx?_cons,h]

theorem datasrcResolve_spec (zDoc : Bytes) (p : DataSrc) (iEntry : ℕ) (hi : 0 < iEntry) :
    (datasrcResolveRecursive zDoc p iEntry).1 = ((p.names.findIdx? (· == some zDoc)).elim 0 (iEntry + ·)) ∧
    (p.names.findIdx? (· == some zDoc) = none → (datasrcResolveRecursive zDoc p iEntry).2 = iEntry + p.names.length) := by
  match p with
  | .comma pLeft pRight =>
    obtain ⟨hl,hl'⟩ := datasrcResolve_spec zDoc pLeft iEntry hi
    simp only [datasrcResolveRecursive,DataSrc.names,List.findIdx?_append]
    cases hf : pLeft.names.findIdx? (· == some zDoc) with
    | some k =>
      rw [hf] at hl
      have hne : (datasrcResolveRecursive zDoc pLeft iEntry).1 ≠ 0 := by
        rw [hl]
        exact Nat.ne_of_gt (Nat.add_pos_left hi k)
      simp only [if_neg hne]
      exact ⟨hl,fun h => by simp at h⟩
    | none =>
      rw [hf] at hl
      have hl2 := hl' hf
      obtain ⟨hr,hr'⟩ := datasrcResolve_spec zDoc pRight (iEntry + pLeft.names.length) (by omega)
      have hz : (datasrcResolveRecursive zDoc pLeft iEntry).1 = 0 := hl
      simp only [if_pos hz,hl2,Option.none_or,List.length_append]
      cases hg : pRight.names.findIdx? (· == some zDoc) with
      | none =>
        rw [hg] at hr
        exact ⟨hr,fun _ => (hr' hg).trans (Nat.add_assoc _ _ _)⟩
      | some k =>
        rw [hg] at hr
        refine ⟨hr.trans ?_,fun h => by simp at h⟩
        simp only [Option.elim_some,Option.map_some]
        omega
  | .flatten pNext => exact datasrcResolve_spec zDoc pNext iEntry hi
  | .tab zAs zName _ =>
    rw [datasrcResolveRecursive,isNamed_eq]
    exact ⟨single_spec _ zDoc iEntry,fun _ => rfl⟩
  | .subq zAs _ =>
    rw [datasrcResolveRecursive,isNamed_eq,Option.or_none]
    exact ⟨single_spec _ zDoc iEntry,fun _ => rfl⟩
  | .path zAs _ =>
    rw [datasrcResolveRecursive,isNamed_eq,Option.or_none]
    exact ⟨single_spec _ zDoc iEntry,fun _ => rfl⟩
  | .null => exact ⟨rfl,fun _ => rfl⟩

theorem lookup_eq (q : Scope) (zDoc : Bytes) : q.lookup zDoc =
    if q.iDatasrc zDoc ≠ 0 then some ⟨some q.level,q.iDatasrc zDoc⟩
    else if q.seesAlias ∧ q.zAs = some zDoc then some ⟨some q.level,0⟩ else none := by
  rw [Scope.lookup,Scope.iDatasrc]
  cases q.pFrom with
  | none => simp
  | some pFrom =>
    cases q.eExpr.seesFrom with
    | false => simp
    | true =>
      have hs := (datasrcResolve_spec zDoc pFrom 1 Nat.one_pos).1
      simp only [if_true,xjd1DataSrcResolve,hs]
      cases pFrom.names.findIdx? (· == some zDoc) with
      | none => simp
      | some i => simp [Nat.add_comm]

/-- In a SELECT, the search is the lexical one up to a clause that it must not come to. -/
theorem resolveSelect_eq_iff (zDoc : Bytes) (ctx : ResolveCtx) :
    resolveSelect zDoc ctx = (innermost zDoc ctx).elim .noSuchObject .bound ↔ ¬ inCompoundLimit zDoc ctx := by
  induction ctx with
  | nil => simp [resolveSelect,innermost,inCompoundLimit]
  | cons o ctx ih =>
    cases o with
    | none => exact ih
    | some q =>
      rw [resolveSelect,inCompoundLimit,innermost,List.findSome?_cons]
      simp only [Option.bind_some]
      by_cases ha : q.pFrom.isNone ∧ q.eExpr ≠ .orderBy
      · rw [if_pos ha]
        refine ⟨fun h => ?_,fun h => absurd (.inl ha) h⟩
        cases hl : q.lookup zDoc with
        | some b => simp [hl] at h
        | none =>
          rw [hl] at h
          cases hf : ctx.findSome? (fun q => q.bind fun q => q.lookup zDoc) <;> simp [hf] at h
      · rw [if_neg ha,lookup_eq]
        by_cases hi : q.iDatasrc zDoc ≠ 0
        · rw [if_pos hi,if_pos hi]
          exact ⟨fun _ h => h.elim ha (fun h => nomatch h.1),fun _ => rfl⟩
        · rw [if_neg hi,if_neg hi]
          by_cases hs : q.seesAlias = true ∧ q.zAs = some zDoc
          · rw [if_pos hs,if_pos hs]
            exact ⟨fun _ h => h.elim ha (fun h => nomatch h.1),fun _ => rfl⟩
          · rw [if_neg hs,if_neg hs]
            simp only [ha,false_or,true_and]
            exact ih

theorem innermost_eq_none (zDoc : Bytes) (ctx : ResolveCtx) :
    innermost zDoc ctx = none ↔ ¬ ∃ q, some q ∈ ctx ∧ (q.lookup zDoc).isSome := by
  rw [innermost,List.findSome?_eq_none_iff]
  constructor
  · rintro h ⟨q,hq,hl⟩
    have hn := h (some q) hq
    rw [Option.bind_some] at hn
    rw [hn] at hl
    cases hl
  · intro h o ho
    cases o with
    | none => rfl
    | some q => exact Option.not_isSome_iff_eq_none.mp fun hl => h ⟨q,ho,hl⟩

theorem innermost_pQuery {zDoc : Bytes} {ctx : ResolveCtx} {b : Binding} (h : innermost zDoc ctx = some b) :
    b.pQuery.isSome = true := by
  obtain ⟨o,_,ho⟩ := List.exists_of_findSome?_eq_some h
  obtain ⟨q,rfl,hq⟩ := Option.bind_eq_some_iff.mp ho
  rw [lookup_eq] at hq
  split at hq
  · cases hq
    rfl
  · split at hq
    · cases hq
      rfl
    · cases hq

theorem collection_eq_iff {zName zDoc : Bytes} {pCmd : Command} (hc : pCmd.collection = some zName) (ctx : ResolveCtx) :
    (if zDoc = zName then Resolution.bound ⟨none,0⟩ else .noSuchObject) = lexicalResolve pCmd ctx zDoc ↔
      ¬ ∃ q, some q ∈ ctx ∧ (q.lookup zDoc).isSome := by
  rw [← innermost_eq_none,lexicalResolve,hc]
  cases hi : innermost zDoc ctx with
  | none => simp only [Option.some.injEq,eq_comm (a := zName)]
  | some b =>
    have hb := innermost_pQuery hi
    refine ⟨fun h => ?_,fun h => nomatch h⟩
    split at h
    · cases h
      cases hb
    · cases h

theorem exprResolve_eq_iff (pCmd : Command) (pCtx : ResolveCtx) (zDoc : Bytes) :
    exprResolve pCmd pCtx zDoc = lexicalResolve pCmd pCtx zDoc ↔ ¬ Misbound pCmd pCtx zDoc := by
  cases pCmd with
  | select pQuery =>
    have hl : lexicalResolve (.select pQuery) pCtx zDoc = (innermost zDoc pCtx).elim .noSuchObject .bound := by
      rw [lexicalResolve]
      cases innermost zDoc pCtx <;> rfl
    rw [hl]
    exact resolveSelect_eq_iff zDoc pCtx
  | delete zName pWhere => exact collection_eq_iff rfl pCtx
  | update zName pWhere pChng pUpsert => exact collection_eq_iff rfl pCtx
  | _ =>
    refine ⟨fun h => ?_,fun h => absurd trivial h⟩
    rw [lexicalResolve] at h
    cases hi : innermost zDoc pCtx <;> rw [hi] at h <;> cases h

section Follow
variable (r : ResolveCtx → Bytes → Resolution)

/-- The step `y` succeeds, and if `r` resolves the names as they are resolved in it,
`x` does the same. -/
def Follows {α : Type} (x y : InitM α) : Prop :=
  ∀ s, ∃ a t, y s = some (a,t) ∧ s.names ⊆ t.names ∧ ((∀ n ∈ t.names, n.2.2 = r n.1 n.2.1) → x s = some (a,t))

variable {r} {α β : Type}

theorem Follows.same {x : InitM α} (h : ∀ s, ∃ a t, x s = some (a,t) ∧ t.names = s.names) : Follows r x x := by
  intro s
  obtain ⟨a,t,hx,hn⟩ := h s
  exact ⟨a,t,hx,hn ▸ List.Subset.refl _,fun _ => hx⟩

theorem Follows.pure (a : α) : Follows r (Pure.pure a) (Pure.pure a) := .same fun s => ⟨a,s,rfl,rfl⟩

theorem Follows.bind {x y : InitM α} {f g : α → InitM β} (h : Follows r x y) (hf : ∀ a, Follows r (f a) (g a)) :
    Follows r (x >>= f) (y >>= g) := by
  intro s
  obtain ⟨a,t,hy,hst,hx⟩ := h s
  obtain ⟨b,u,hg,htu,hfu⟩ := hf a t
  refine ⟨b,u,bind_eq_some.mpr ⟨a,t,hy,hg⟩,fun n hn => htu (hst hn),fun hr => ?_⟩
  exact bind_eq_some.mpr ⟨a,t,hx fun n hn => hr n (htu hn),hfu hr⟩

theorem Follows.ifOk {x y : InitM (Bool × α)} (h : Follows r x y) (rc : Bool) (a : α) :
    Follows r (ifOk rc a x) (ifOk rc a y) := by
  cases rc with
  | false => exact .pure _
  | true => exact h

theorem functionInit_follows (ctx : ResolveCtx) (z : Bytes) (n : ℕ) :
    Follows r (xjd1FunctionInit ctx z n) (xjd1FunctionInit ctx z n) := by
  refine .same fun s => ?_
  rw [xjd1FunctionInit]
  cases hf : aFunc.find? (fun f => f.zName == z) with
  | none => exact ⟨_,_,rfl,rfl⟩
  | some row =>
    simp only
    split
    · split
      · split <;> exact ⟨_,_,rfl,rfl⟩
      · exact ⟨_,_,rfl,rfl⟩
    · exact ⟨_,_,rfl,rfl⟩

variable {resolve : ResolveCtx → Bytes → Resolution} {exist : Bytes → Bool}

theorem identInit_follows (hres : ∀ ctx z, resolve ctx z ≠ .assertFail) (ctx : ResolveCtx) (p : Ident) :
    Follows r (identInit r ctx p) (identInit resolve ctx p) := by
  intro s
  have hname : ∀ {t : InitState}, (ctx,p.zId,resolve ctx p.zId) ∈ t.names →
      (∀ n ∈ t.names, n.2.2 = r n.1 n.2.1) → r ctx p.zId = resolve ctx p.zId := fun hm hr => (hr _ hm).symm
  cases ho : resolve ctx p.zId with
  | assertFail => exact absurd ho (hres ctx p.zId)
  | bound b =>
    rw [ho] at hname
    refine ⟨_,_,by rw [identInit,ho],List.subset_append_left _ _,fun hr => ?_⟩
    rw [identInit,hname (List.mem_append_right _ List.mem_cons_self) hr]
  | noSuchObject =>
    rw [ho] at hname
    refine ⟨_,_,by rw [identInit,ho],List.subset_append_left _ _,fun hr => ?_⟩
    rw [identInit,hname (List.mem_append_right _ List.mem_cons_self) hr]

theorem pathInit_follows (hres : ∀ ctx z, resolve ctx z ≠ .assertFail) (ctx : ResolveCtx) (p : Path) :
    Follows r (pathInit r ctx p) (pathInit resolve ctx p) := by
  induction p with
  | id p => exact (identInit_follows hres ctx p).bind fun _ => .pure _
  | dot pLeft zId ih => exact ih.bind fun _ => .pure _

theorem prepareTable_follows (z : Bytes) : Follows r (prepareTable exist z) (prepareTable exist z) := by
  refine .same fun s => ?_
  rw [prepareTable]
  split <;> exact ⟨_,_,rfl,rfl⟩

theorem hasAgg_follows : Follows r hasAgg hasAgg := .same fun _ => ⟨_,_,rfl,rfl⟩

theorem enterQuery_follows : Follows r enterQuery enterQuery := .same fun _ => ⟨_,_,rfl,rfl⟩

theorem leaveQuery_follows (a : Option ℕ) : Follows r (leaveQuery a) (leaveQuery a) := .same fun _ => ⟨_,_,rfl,rfl⟩

theorem groupAggregateInit_follows (l : List Expr) : Follows r (groupAggregateInit l) (groupAggregateInit l) := by
  refine .same fun _ => ⟨_,_,rfl,?_⟩
  split <;> rfl

section Cases
variable (r resolve exist)

def ExprFollows (e : Expr) : Prop :=
  ∀ level ctx, Follows r (xjd1ExprInit r exist level ctx e) (xjd1ExprInit resolve exist level ctx e)

def ExprListFollows (es : List Expr) : Prop :=
  ∀ level ctx, Follows r (xjd1ExprListInit r exist level ctx es) (xjd1ExprListInit resolve exist level ctx es)

def DataSrcFollows (p : DataSrc) : Prop :=
  ∀ level ctx, Follows r (xjd1DataSrcInit r exist level ctx p) (xjd1DataSrcInit resolve exist level ctx p)

def QueryFollows (q : Query) : Prop :=
  ∀ level ctx, Follows r (xjd1QueryInit r exist level ctx q) (xjd1QueryInit resolve exist level ctx q)

end Cases

theorem simpleInit_follows {pRes pWhere pHaving pLimit pOffset : Expr} {pFrom : DataSrc} {pGroupBy pOrderBy : List Expr}
    {zAs : Option Bytes} {b : Bool} {a : Option ℕ} (hRes : ExprFollows r resolve exist pRes)
    (hFrom : DataSrcFollows r resolve exist pFrom) (hWhere : ExprFollows r resolve exist pWhere)
    (hGroupBy : ExprListFollows r resolve exist pGroupBy) (hHaving : ExprFollows r resolve exist pHaving)
    (hOrderBy : ExprListFollows r resolve exist pOrderBy) (hLimit : ExprFollows r resolve exist pLimit)
    (hOffset : ExprFollows r resolve exist pOffset) :
    QueryFollows r resolve exist (.simple b pRes pFrom pWhere pGroupBy pHaving a zAs pOrderBy pLimit pOffset) := by
  intro level ctx
  rw [xjd1QueryInit,xjd1QueryInit]
  refine enterQuery_follows.bind fun outer => ?_
  refine hasAgg_follows.bind fun _ => (hRes _ _).bind fun x1 => ?_
  refine ((hFrom _ _).ifOk _ _).bind fun x2 => ?_
  refine hasAgg_follows.bind fun _ => ((hWhere _ _).ifOk _ _).bind fun x3 => ?_
  refine (Follows.ifOk (hasAgg_follows.bind fun _ => (hGroupBy _ _).bind fun _ => .pure _) _ _).bind fun x4 => ?_
  refine hasAgg_follows.bind fun _ => ((hHaving _ _).ifOk _ _).bind fun x5 => ?_
  refine (((groupAggregateInit_follows _).bind fun _ => .pure _).ifOk _ _).bind fun x6 => ?_
  refine (Follows.ifOk (hasAgg_follows.bind fun _ => (hOrderBy _ _).bind fun _ => .pure _) _ _).bind fun x7 => ?_
  refine hasAgg_follows.bind fun _ => ((hLimit _ _).ifOk _ _).bind fun x8 => ?_
  refine hasAgg_follows.bind fun _ => ((hOffset _ _).ifOk _ _).bind fun x9 => ?_
  exact (leaveQuery_follows _).bind fun _ => .pure _

theorem compoundInit_follows {pLeft pRight : Query} {pLimit pOffset : Expr} {pOrderBy : List Expr}
    {zAs : Option Bytes} {b : Bool} {op : CompoundOp} (hLeft : QueryFollows r resolve exist pLeft)
    (hRight : QueryFollows r resolve exist pRight) (hOrderBy : ExprListFollows r resolve exist pOrderBy)
    (hLimit : ExprFollows r resolve exist pLimit) (hOffset : ExprFollows r resolve exist pOffset) :
    QueryFollows r resolve exist (.compound b op pLeft pRight zAs pOrderBy pLimit pOffset) := by
  intro level ctx
  rw [xjd1QueryInit,xjd1QueryInit]
  refine (hLeft _ _).bind fun x1 => ?_
  refine ((hRight _ _).ifOk _ _).bind fun x2 => ?_
  refine (Follows.ifOk ((hOrderBy _ _).bind fun _ => .pure _) _ _).bind fun x3 => ?_
  refine ((hLimit _ _).ifOk _ _).bind fun x4 => ?_
  exact ((hOffset _ _).ifOk _ _).bind fun x5 => .pure _

mutual
theorem exprInit_follows (hres : ∀ ctx z, resolve ctx z ≠ .assertFail) (e : Expr) : ExprFollows r resolve exist e := by
  intro level ctx
  match e with
  | .nullptr =>
    rw [xjd1ExprInit,xjd1ExprInit]
    exact .pure _
  | .jvalue =>
    rw [xjd1ExprInit,xjd1ExprInit]
    exact .pure _
  | .dot pLeft zId =>
    rw [xjd1ExprInit,xjd1ExprInit]
    exact (exprInit_follows hres pLeft level ctx).bind fun _ => .pure _
  | .bi eType pLeft pRight =>
    rw [xjd1ExprInit,xjd1ExprInit]
    refine (exprInit_follows hres pLeft level ctx).bind fun _ => ?_
    exact (exprInit_follows hres pRight level ctx).bind fun _ => .pure _
  | .tri pTest pIfTrue pIfFalse =>
    rw [xjd1ExprInit,xjd1ExprInit]
    refine (exprInit_follows hres pTest level ctx).bind fun _ => ?_
    refine (exprInit_follows hres pIfTrue level ctx).bind fun _ => ?_
    exact (exprInit_follows hres pIfFalse level ctx).bind fun _ => .pure _
  | .id p =>
    rw [xjd1ExprInit,xjd1ExprInit]
    exact (identInit_follows hres ctx p).bind fun _ => .pure _
  | .struct st =>
    rw [xjd1ExprInit,xjd1ExprInit]
    exact (exprListInit_follows hres st level ctx).bind fun _ => .pure _
  | .array ar =>
    rw [xjd1ExprInit,xjd1ExprInit]
    exact (exprListInit_follows hres ar level ctx).bind fun _ => .pure _
  | .func zFName args _ _ =>
    rw [xjd1ExprInit,xjd1ExprInit]
    refine (functionInit_follows ctx zFName args.length).bind fun _ => ?_
    exact (exprListInit_follows hres args level ctx).bind fun _ => .pure _
  | .subq p =>
    rw [xjd1ExprInit,xjd1ExprInit]
    exact (queryInit_follows hres p level ctx).bind fun _ => .pure _

theorem exprListInit_follows (hres : ∀ ctx z, resolve ctx z ≠ .assertFail) (es : List Expr) : ExprListFollows r resolve exist es := by
  intro level ctx
  match es with
  | [] =>
    rw [xjd1ExprListInit,xjd1ExprListInit]
    exact .pure _
  | e::es =>
    rw [xjd1ExprListInit,xjd1ExprListInit]
    refine (exprInit_follows hres e level ctx).bind fun _ => ?_
    exact (exprListInit_follows hres es level ctx).bind fun _ => .pure _

theorem dataSrcInit_follows (hres : ∀ ctx z, resolve ctx z ≠ .assertFail) (p : DataSrc) : DataSrcFollows r resolve exist p := by
  intro level ctx
  match p with
  | .comma pLeft pRight =>
    rw [xjd1DataSrcInit,xjd1DataSrcInit]
    refine (dataSrcInit_follows hres pLeft level ctx).bind fun _ => ?_
    exact (dataSrcInit_follows hres pRight level ctx).bind fun _ => .pure _
  | .subq zAs q =>
    rw [xjd1DataSrcInit,xjd1DataSrcInit]
    exact (queryInit_follows hres q level []).bind fun _ => .pure _
  | .tab zAs zName _ =>
    rw [xjd1DataSrcInit,xjd1DataSrcInit]
    exact (prepareTable_follows zName).bind fun _ => .pure _
  | .flatten pNext =>
    rw [xjd1DataSrcInit,xjd1DataSrcInit]
    exact (dataSrcInit_follows hres pNext level ctx).bind fun _ => .pure _
  | .path zAs pPath =>
    rw [xjd1DataSrcInit,xjd1DataSrcInit]
    exact (pathInit_follows hres (none::ctx) pPath).bind fun _ => .pure _
  | .null =>
    rw [xjd1DataSrcInit,xjd1DataSrcInit]
    exact .pure _

theorem queryInit_follows (hres : ∀ ctx z, resolve ctx z ≠ .assertFail) (q : Query) : QueryFollows r resolve exist q :=
  match q with
  | .simple _ pRes pFrom pWhere pGroupBy pHaving _ _ pOrderBy pLimit pOffset =>
    simpleInit_follows (exprInit_follows hres pRes) (dataSrcInit_follows hres pFrom) (exprInit_follows hres pWhere)
      (exprListInit_follows hres pGroupBy) (exprInit_follows hres pHaving) (exprListInit_follows hres pOrderBy)
      (exprInit_follows hres pLimit) (exprInit_follows hres pOffset)
  | .compound _ _ pLeft pRight _ pOrderBy pLimit pOffset =>
    compoundInit_follows (queryInit_follows hres pLeft) (queryInit_follows hres pRight) (exprListInit_follows hres pOrderBy)
      (exprInit_follows hres pLimit) (exprInit_follows hres pOffset)
end

theorem commandInit_follows (hres : ∀ ctx z, resolve ctx z ≠ .assertFail) (c : Command) :
    Follows r (commandInit r exist c) (commandInit resolve exist c) := by
  cases c with
  | select pQuery => exact (queryInit_follows hres pQuery 0 []).bind fun _ => .pure _
  | insertValue zName pValue => exact .pure _
  | insertSelect zName pQuery => exact (queryInit_follows hres pQuery 0 []).bind fun _ => .pure _
  | delete zName pWhere => exact (exprInit_follows hres pWhere 0 [none]).bind fun _ => .pure _
  | update zName pWhere pChng pUpsert =>
    refine (exprInit_follows hres pWhere 0 [none]).bind fun _ => ?_
    refine (exprListInit_follows hres pChng 0 [none]).bind fun _ => ?_
    exact (exprInit_follows hres pUpsert 0 [none]).bind fun _ => .pure _
  | other => exact .pure _

end Follow

theorem lexicalResolve_ne (pCmd : Command) (ctx : ResolveCtx) (z : Bytes) : lexicalResolve pCmd ctx z ≠ .assertFail := by
  rw [lexicalResolve]
  split
  · exact fun h => nomatch h
  · split <;> exact fun h => nomatch h

/-- The tree after initialisation if every identifier is bound lexically, or reported. -/
def lexicalInit (exist : Bytes → Bool) (pCmd : Command) : Option ((Bool × Command) × InitState) :=
  commandInit (lexicalResolve pCmd) exist pCmd .start

theorem names_of_commandInit {resolve : ResolveCtx → Bytes → Resolution} {exist : Bytes → Bool} {c : Command}
    {r : Bool × Command} {t : InitState} (hc : c.cursors = []) (h : commandInit resolve exist c .start = some (r,t)) :
    ∀ n ∈ t.names, n.2.2 = resolve n.1 n.2.1 := by
  obtain ⟨rc,c'⟩ := r
  obtain ⟨_,ns,_,_,hn,hr,_⟩ := commandInit_adds hc h
  rw [hn]
  exact hr

/-- Initialisation binds every identifier lexically, exactly if none of the identifiers
that it comes to is misbound. -/
theorem stmtInit_lexical_iff (exist : Bytes → Bool) (c : ParsedCommand) :
    ∃ r t, lexicalInit exist c.pCmd = some (r,t) ∧
      (stmtInit exist c.pCmd = some (r,t) ↔ ∀ n ∈ t.names, ¬ Misbound c.pCmd n.1 n.2.1) := by
  have hfollows : Follows (exprResolve c.pCmd) (commandInit (exprResolve c.pCmd) exist c.pCmd)
    (commandInit (lexicalResolve c.pCmd) exist c.pCmd) := commandInit_follows (lexicalResolve_ne c.pCmd) c.pCmd
  obtain ⟨r,t,hl,_,hf⟩ := hfollows .start
  refine ⟨r,t,hl,fun h n hn => ?_,fun h => hf fun n hn => ?_⟩
  · have he := names_of_commandInit c.cursors h n hn
    have hx := names_of_commandInit c.cursors hl n hn
    exact (exprResolve_eq_iff c.pCmd n.1 n.2.1).mp (he.symm.trans hx)
  · have hx := names_of_commandInit c.cursors hl n hn
    exact hx.trans ((exprResolve_eq_iff c.pCmd n.1 n.2.1).mpr (h n hn)).symm

/-- The statement `DELETE FROM c WHERE (SELECT d FROM d)`. -/
def deleteSubquery : ParsedCommand where
  pCmd := .delete [99] (.subq (.simple false (.id ⟨[100],false,none⟩) (.tab none [100] none) .nullptr [] .nullptr
    none none [] .nullptr .nullptr))
  cursors := rfl
  evaluated := by simp [Command.evaluated,Expr.nodes,Query.nodes,DataSrc.nodes,exprsNodes,Node.visited]

/-- The source of the subquery has the name, and it is reported as unknown. -/
theorem stmtInit_lexical_delete :
    ((lexicalInit (fun _ => true) deleteSubquery.pCmd).map fun r => r.2.errors) = some [] ∧
    ((stmtInit (fun _ => true) deleteSubquery.pCmd).map fun r => r.2.errors) = some [.noSuchObject [100]] := by
  decide +kernel

end Parsed
end Xjd1
