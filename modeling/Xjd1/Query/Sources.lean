import Xjd1.Query.Distinct

/-! The documents of the data sources, as the stages of a SELECT show them:
those of the row the cursors are at, and those kept with the rows of DISTINCT. -/
namespace Xjd1

open Fueled Fueled.Run Delivery SlotSort

variable {R : Type}

theorem count_rewind (d : DataSrc R) : xjd1DataSrcCount (xjd1DataSrcRewind d) = xjd1DataSrcCount d := by
  induction d using xjd1DataSrcCount.induct with
  | case1 b l r ihl ihr => rw [xjd1DataSrcRewind,xjd1DataSrcCount,xjd1DataSrcCount,ihl,ihr]
  | case2 d hd =>
    cases d with
    | comma b l r => exact absurd rfl (hd b l r)
    | _ => simp only [xjd1DataSrcRewind,xjd1DataSrcCount]

theorem cacheSave_length (d : DataSrc R) : (xjd1DataSrcCacheSave d).length = xjd1DataSrcCount d := by
  induction d using xjd1DataSrcCount.induct with
  | case1 b l r ihl ihr => rw [xjd1DataSrcCacheSave,xjd1DataSrcCount,List.length_append,ihl,ihr]
  | case2 d hd =>
    cases d with
    | comma b l r => exact absurd rfl (hd b l r)
    | _ => simp only [xjd1DataSrcCacheSave,xjd1DataSrcCount,List.length_singleton]

def entryAt (d : DataSrc R) (iEntry iDoc : ℕ) : JsonNode R :=
  if iEntry ≤ iDoc then ((xjd1DataSrcCacheSave d)[iDoc-iEntry]?).getD .nullptr else .nullptr

theorem entryAt_comma (b : Bool) (l r : DataSrc R) (iEntry iDoc : ℕ) :
    entryAt (.comma b l r) iEntry iDoc =
      if iDoc < iEntry + xjd1DataSrcCount l then entryAt l iEntry iDoc
      else entryAt r (iEntry + xjd1DataSrcCount l) iDoc := by
  rw [← cacheSave_length,entryAt,entryAt,entryAt,xjd1DataSrcCacheSave]
  by_cases h : iEntry ≤ iDoc
  · simp only [h,if_true]
    split
    · rw [List.getElem?_append_left (by omega)]
    · rw [List.getElem?_append_right (by omega),if_pos (by omega)]
      congr 2
      omega
  · simp only [h,if_false]
    rw [if_pos (by omega)]

theorem entryAt_leaf {d : DataSrc R} (hd : xjd1DataSrcCacheSave d = [d.pValue]) (iEntry iDoc : ℕ) :
    entryAt d iEntry iDoc = if iEntry = iDoc then d.pValue else .nullptr := by
  rw [entryAt,hd]
  rcases Nat.lt_trichotomy iEntry iDoc with h | rfl | h
  · rw [if_pos h.le,if_neg h.ne,List.getElem?_eq_none (by rw [List.length_singleton]; omega)]
    rfl
  · rw [if_pos (Nat.le_refl _),if_pos rfl,Nat.sub_self]
    rfl
  · rw [if_neg (by omega),if_neg h.ne']

theorem readRecursive_spec (iDoc : ℕ) (d : DataSrc R) (iEntry : ℕ) :
    (datasrcReadRecursive iDoc d iEntry).1 = entryAt d iEntry iDoc ∧
    ((datasrcReadRecursive iDoc d iEntry).1 = .nullptr →
      (datasrcReadRecursive iDoc d iEntry).2 = iEntry + xjd1DataSrcCount d) := by
  induction d using xjd1DataSrcCount.induct generalizing iEntry with
  | case1 b l r ihl ihr =>
    obtain ⟨h1,h2⟩ := ihl iEntry
    rw [datasrcReadRecursive,entryAt_comma,xjd1DataSrcCount]
    generalize datasrcReadRecursive iDoc l iEntry = x at h1 h2
    obtain ⟨v,e⟩ := x
    simp only at h1 h2
    by_cases hv : v = .nullptr
    · subst hv
      obtain rfl := h2 rfl
      obtain ⟨h3,h4⟩ := ihr (iEntry + xjd1DataSrcCount l)
      refine ⟨?_,fun h => by rw [h4 h,Nat.add_assoc]⟩
      rw [h3]
      split
      · rw [← h1,entryAt,if_neg (by omega)]
      · rfl
    · have hlt : iDoc < iEntry + xjd1DataSrcCount l := by
        by_contra hge
        refine hv (h1.trans ?_)
        rw [entryAt]
        split
        · rw [List.getElem?_eq_none (by rw [cacheSave_length]; omega)]
          rfl
        · rfl
      rw [if_pos hlt]
      cases v with
      | nullptr => exact absurd rfl hv
      | _ => exact ⟨h1,nofun⟩
  | case2 d hd =>
    cases d with
    | comma b l r => exact absurd rfl (hd b l r)
    | _ =>
      refine ⟨?_,fun _ => rfl⟩
      rw [entryAt_leaf rfl]
      rfl

theorem dataSrcRead_eq {d : DataSrc R} {k : ℕ} (hk : 1 ≤ k) (hk' : k ≤ xjd1DataSrcCount d) :
    (xjd1DataSrcCacheSave d)[k-1]? = some (xjd1DataSrcRead d k) := by
  rw [xjd1DataSrcRead,(readRecursive_spec k d 1).1,entryAt,if_pos hk]
  rw [List.getElem?_eq_getElem (by rw [cacheSave_length]; omega)]
  rfl

variable [CDouble R]

/-- Document `k` of the query reads as `d`. -/
def Shows (ctx : Ctx R) (q : Query R) (k : ℕ) (d : JsonNode R) : Prop :=
  ∃ q', Returns (fun n => (interp n).xjd1QueryDoc ctx q k) (d,q')

theorem shows_iff {ctx : Ctx R} {q : Query R} {k : ℕ} {x : Exec (JsonNode R)}
    (h : ∀ n, queryDoc (interp n) ctx q k = x >>= fun d => .ok (d,q)) (d : JsonNode R) :
    Shows ctx q k d ↔ x = .ok d := by
  constructor
  · rintro ⟨q',hq⟩
    obtain ⟨n,hn⟩ := (Returns.succ_iff.mpr hq).exists
    obtain ⟨d',hx,hd⟩ := bind_eq_ok.mp ((h n).symm.trans hn)
    cases hd
    exact hx
  · rintro rfl
    exact ⟨q,Returns.of_ok (queryDoc_mono ctx q k) (n := 1) (h 0)⟩

def sourceDocs (q : Query R) : List (JsonNode R) :=
  match q.u with
  | .simple s => xjd1DataSrcCacheSave s.pFrom
  | .compound _ => []

def ShowsSources (ctx : Ctx R) (nSrc : ℕ) (q : Query R) : Prop :=
  ∀ k, 1 ≤ k → k ≤ nSrc → ∀ d, Shows ctx q k d ↔ (sourceDocs q)[k-1]? = some d

def SameDocs (ctx : Ctx R) (nSrc : ℕ) (p q : Query R) : Prop :=
  ∀ k, 1 ≤ k → k ≤ nSrc → ∀ d, Shows ctx p k d ↔ Shows ctx q k d

theorem Query.AtDistinct.shows {ctx : Ctx R} {q : Query R} {s : SimpleQuery R} {a : ResultItem R}
    {l : List (ResultItem R)} (h : q.AtDistinct s) (hi : s.distincted.pItem = a::l) (k : ℕ) (d : JsonNode R) :
    Shows ctx q k d ↔ a.apKey[k]? = some d := by
  have hq : ∀ n, queryDoc (interp n) ctx q k = s.distincted.doc k >>= fun d => .ok (d,q) := fun n => by
    simp only [queryDoc,h.eDocFrom,reduceCtorEq,if_false,h.u,simpleDoc]
  rw [shows_iff hq,ResultList.doc,hi]
  cases h : a.apKey[k]? <;> simp [h]

theorem showsSources_datasrc {ctx : Ctx R} {q : Query R} {s : SimpleQuery R} (hs : q.u = .simple s)
    (hd : q.eDocFrom = .datasrc) : ShowsSources ctx (xjd1DataSrcCount s.pFrom) q := by
  intro k hk hk' d
  have hq : ∀ n, queryDoc (interp n) ctx q k = Run.ok (xjd1DataSrcRead s.pFrom k) >>= fun d => .ok (d,q) :=
    fun n => by
      obtain ⟨k,rfl⟩ := Nat.exists_eq_add_of_le' hk
      simp only [queryDoc,hd,reduceCtorEq,if_false,hs,simpleDoc,ok_bind]
      cases s.pRes <;> simp
  rw [shows_iff hq,sourceDocs,hs,dataSrcRead_eq hk hk']
  simp

/-- The rows of a stage, each with its value and the query that shows it. -/
def rowStates (f : Stage R) (ctx : Ctx R) : Stepper (Query R) (JsonNode R × Query R) where
  row p z q := (stream f ctx).row p z.1 q ∧ z.2 = q
  done := (stream f ctx).done

/-- The stage can be stepped through these queries, each at a row. -/
inductive RowsTo (f : Stage R) (ctx : Ctx R) : Query R → List (Query R) → Prop
  | nil (p : Query R) : RowsTo f ctx p []
  | cons {p y : Query R} {ys : List (Query R)} (h : Steps f ctx p (.row,y)) (hs : RowsTo f ctx y ys) :
    RowsTo f ctx p (y::ys)

theorem RowsTo.delivered {f : Stage R} {ctx : Ctx R} (hf : f.Neutral) {p q : Query R} {ys : List (Query R)}
    {zs : List (JsonNode R × Query R)} (hp : p.Clean) (hy : RowsTo f ctx p ys)
    (hz : Delivers (rowStates f ctx) p zs q) :
    ∀ (i : ℕ) y, ys[i]? = some y → ∃ v, zs[i]? = some (v,y) ∧ Reads0 ctx y (v,y) := by
  induction hy generalizing zs with
  | nil p => exact fun i y h => absurd h (by simp)
  | @cons p y ys h _ ih =>
    cases hz with
    | done hd => cases Returns.unique h hd
    | @row _ q' _ z zs hr hz =>
      obtain ⟨hr,hzq⟩ := hr
      obtain ⟨h1,h2,e1⟩ := hf.row hp hr
      cases Returns.unique h h1
      intro i y hi
      cases i with
      | zero =>
        cases hi
        exact ⟨z.1,by rw [← hzq]; rfl,h2⟩
      | succ i => exact ih (hp.of_rewind e1) hz i y hi

def itemOf (z : JsonNode R × Query R) : ResultItem R := ⟨z.1 :: sourceDocs z.2⟩

/-- The rows DISTINCT keeps, sorted and rid of duplicates the way the list of
them is: none if the sort runs off its slots or fails its own check. -/
def distinctKept (zs : List (JsonNode R × Query R)) : Option (List (JsonNode R × Query R)) :=
  (slotSort (fun a b => xjd1JsonCompare a.1 b.1) nSlot zs.reverse).bind fun l =>
    if ascends (fun a b => xjd1JsonCompare a.1 b.1) (-1) (uniq (fun a b => xjd1JsonCompare a.1 b.1) l) then
      some (uniq (fun a b => xjd1JsonCompare a.1 b.1) l)
    else none

theorem sortResultList_kept (l : ResultList R) (zs : List (JsonNode R × Query R))
    (hl : l.pItem = (zs.map itemOf).reverse) :
    match distinctKept zs with
    | some kept => sortResultList l none true = .ok { l with pItem := kept.map itemOf }
    | none => ∃ e, sortResultList l none true = .stop e := by
  have hcmp : (fun a b : JsonNode R × Query R => cmpResultItem none (itemOf a) (itemOf b)) =
      fun a b => xjd1JsonCompare a.1 b.1 :=
    funext fun a => funext fun b => cmpResultItem_none (List.cons_ne_nil _ _) (List.cons_ne_nil _ _)
  rw [sortResultList,hl,← List.map_reverse,map_slotSort,hcmp,distinctKept]
  cases slotSort (fun a b : JsonNode R × Query R => xjd1JsonCompare a.1 b.1) nSlot zs.reverse with
  | none => exact ⟨_,rfl⟩
  | some s =>
    simp only [Option.map_some,if_true,map_uniq,hcmp,map_ascends,Option.bind_some]
    split
    · rename_i kept h
      split at h
      · cases h
        rw [if_pos (by assumption)]
      · cases h
    · rename_i h
      split at h
      · cases h
      · exact ⟨_,if_neg (by assumption)⟩

theorem distinctKept_subset {zs kept : List (JsonNode R × Query R)} (h : distinctKept zs = some kept) :
    ∀ z ∈ kept, z ∈ zs := by
  rw [distinctKept,Option.bind_eq_some_iff] at h
  obtain ⟨l,hl,h⟩ := h
  split at h
  · cases h
    exact fun z hz => List.mem_reverse.mp ((slotSort_perm hl).mem_iff.mp (uniq_subset _ z hz))
  · cases h

theorem distinctKept_nil {zs : List (JsonNode R × Query R)} (h : distinctKept zs = some []) : zs = [] := by
  rw [distinctKept,Option.bind_eq_some_iff] at h
  obtain ⟨l,hl,h⟩ := h
  split at h
  · rw [Option.some.injEq,uniq_eq_nil] at h
    subst h
    exact List.reverse_eq_nil_iff.mp (List.nil_perm.mp (slotSort_perm hl))
  · cases h

theorem distinctKept_singleton (z : JsonNode R × Query R) : distinctKept [z] = some [z] := by
  have hs := (slotSort_isSome (fun a b : JsonNode R × Query R => xjd1JsonCompare a.1 b.1) nSlot [z]).mpr
    (Nat.one_lt_two_pow (by decide))
  obtain ⟨l,hl⟩ := Option.isSome_iff_exists.mp hs
  obtain rfl := List.perm_singleton.mp (slotSort_perm hl)
  rw [distinctKept,List.reverse_singleton,hl]
  rfl

/-- The documents kept with the row at the head of the grouped list. -/
def groupedDocs (q : Query R) : List (JsonNode R) :=
  match q.u with
  | .simple s => (s.grouped.pItem.head?.map ResultItem.apKey).getD [] |>.drop (s.pGroupBy.getD []).length
  | .compound _ => []

/-- At a group, the documents shown are those of the data sources if they were kept with it. -/
theorem showsSources_grouped {ctx : Ctx R} {q : Query R} {s : SimpleQuery R} (hs : q.u = .simple s)
    (hd : q.eDocFrom = .grouped) :
    ShowsSources ctx (xjd1DataSrcCount s.pFrom) q ↔ sourceDocs q <+: groupedDocs q := by
  have hshow : ∀ j d, Shows ctx q (j+1) d ↔ (groupedDocs q)[j]? = some d := by
    intro j d
    have hq : ∀ n, queryDoc (interp n) ctx q (j+1) =
        s.grouped.doc ((s.pGroupBy.getD []).length + j) >>= fun d => .ok (d,q) := fun n => by
      simp only [queryDoc,hd,reduceCtorEq,if_false,hs,simpleDoc]
      cases s.pRes <;> rfl
    rw [shows_iff hq,ResultList.doc,groupedDocs,hs]
    cases hg : s.grouped.pItem with
    | nil => simp [hg]
    | cons a l => cases h : a.apKey[(s.pGroupBy.getD []).length + j]? <;> simp [hg,h]
  have hlen : (sourceDocs q).length = xjd1DataSrcCount s.pFrom := by rw [sourceDocs,hs,cacheSave_length]
  rw [List.prefix_iff_getElem?]
  constructor
  · intro h j hj
    have hd := h (j+1) (Nat.succ_pos j) (by omega) (sourceDocs q)[j]
    rw [hshow,Nat.add_sub_cancel,List.getElem?_eq_getElem hj] at hd
    exact hd.mpr rfl
  · intro h k hk hk' d
    obtain ⟨j,rfl⟩ := Nat.exists_eq_add_of_le' hk
    have hj : j < (sourceDocs q).length := by omega
    rw [hshow,h j hj,Nat.add_sub_cancel,List.getElem?_eq_getElem hj]

section DocFrom
variable {I : Interp R} {n : ℕ} {ctx : Ctx R}

omit [CDouble R] in
theorem setSimple_at {p q : Query R} {f : SimpleQuery R → SimpleQuery R}
    (h : (p.simple >>= fun s => Run.ok (p.setSimple (f s))) = .ok q) : q.eDocFrom = p.eDocFrom := by
  obtain ⟨s,_,h⟩ := bind_eq_ok.mp h
  cases h
  rfl

theorem queryAggregateStep_eDocFrom {p q : Query R} {b : Bool} (h : queryAggregateStep I ctx p = .ok (b,q)) :
    q.eDocFrom = p.eDocFrom := by
  obtain ⟨s,_,h⟩ := bind_eq_ok.mp h
  obtain ⟨_,_,h⟩ := bind_eq_ok.mp h
  cases h
  rfl

theorem groupTurn_eDocFrom {p : Query R} {r : Query R ⊕ Query R} (h : groupTurn I ctx p = .ok r) :
    (∀ b, r = .inl b → b.eDocFrom = p.eDocFrom) ∧ (∀ q, r = .inr q → q.eDocFrom = p.eDocFrom) := by
  obtain ⟨s,_,h⟩ := bind_eq_ok.mp h
  cases hi : s.grouped.pItem with
  | nil => rw [hi] at h; cases h
  | cons pItem pNext =>
    rw [hi] at h
    obtain ⟨⟨save,q⟩,h1,h⟩ := bind_eq_ok.mp h
    rw [← queryAggregateStep_eDocFrom h1]
    simp only at h
    split at h
    · obtain ⟨t,ht,h⟩ := bind_eq_ok.mp h
      cases h
      exact ⟨fun b hb => by cases hb; exact setSimple_at ht,nofun⟩
    · obtain ⟨t,ht,h⟩ := bind_eq_ok.mp h
      cases h
      exact ⟨nofun,fun b hb => by cases hb; exact setSimple_at ht⟩

theorem groupNext_eDocFrom {p q : Query R} {rc : Rc} (h : groupNext I n ctx p = .ok (rc,q)) :
    q.eDocFrom = .grouped := by
  obtain ⟨p1,_,h⟩ := bind_eq_ok.mp h
  obtain ⟨s,_,h⟩ := bind_eq_ok.mp h
  split at h
  · cases h
    rfl
  · obtain ⟨p2,h2,h⟩ := bind_eq_ok.mp h
    obtain ⟨p3,h3,h⟩ := bind_eq_ok.mp h
    cases h
    refine (setSimple_at h3).trans ?_
    refine loop_inv (P := fun q => q.eDocFrom = .grouped) (Q := fun q => q.eDocFrom = .grouped) ?_ rfl h2
    intro s r hs hr
    rw [← hs]
    exact groupTurn_eDocFrom hr

theorem havingTurn_eDocFrom {p : Query R} {r : (Rc × Query R) ⊕ Query R} (h : havingTurn I n ctx p = .ok r) :
    ∀ b, r = .inl b → b.2.eDocFrom = .grouped := by
  obtain ⟨⟨rc,p1⟩,h1,h⟩ := bind_eq_ok.mp h
  have hd := groupNext_eDocFrom h1
  obtain ⟨s,_,h⟩ := bind_eq_ok.mp h
  rintro b rfl
  cases rc with
  | done =>
    cases h
    exact hd
  | row =>
    cases hh : s.pHaving with
    | none =>
      rw [hh] at h
      cases h
      exact hd
    | some pHaving =>
      rw [hh] at h
      obtain ⟨⟨b',e⟩,_,h⟩ := bind_eq_ok.mp h
      cases b'
      · cases h
      · cases h
        exact hd

theorem plainAggStep_eDocFrom {p q : Query R} (h : plainAggStep I n ctx p = .ok (.row,q)) :
    q.eDocFrom = .grouped := by
  obtain ⟨s,_,h⟩ := bind_eq_ok.mp h
  split at h
  · cases h
  · split at h
    · cases h
    · obtain ⟨_,_,h⟩ := bind_eq_ok.mp h
      obtain ⟨_,_,h⟩ := bind_eq_ok.mp h
      obtain ⟨_,_,h⟩ := bind_eq_ok.mp h
      obtain ⟨_,_,h⟩ := bind_eq_ok.mp h
      obtain ⟨_,_,h⟩ := bind_eq_ok.mp h
      cases h
      rfl

theorem grouped_eDocFrom {p q : Query R} {s : SimpleQuery R} (hs : p.u = .simple s) (ha : s.pAgg.isSome)
    (h : selectStepGrouped I n ctx p = .ok (.row,q)) : q.eDocFrom = .grouped := by
  rw [selectStepGrouped,Query.simple_eq_ok.mpr hs,ok_bind] at h
  split at h
  · rename_i hn
    rw [hn] at ha
    cases ha
  · exact plainAggStep_eDocFrom h
  · exact loop_inv (P := fun _ => True) (Q := fun b => b.2.eDocFrom = .grouped)
      (fun p r _ hr => ⟨havingTurn_eDocFrom hr,fun _ _ => trivial⟩) trivial h

end DocFrom

omit [CDouble R] in
theorem pAgg_of_rewind {s t : SimpleQuery R} (h : simpleRewind t = simpleRewind s) :
    t.pAgg.isSome = s.pAgg.isSome := by
  rw [simpleRewind_eq,simpleRewind_eq s,SimpleQuery.mk.injEq] at h
  have ha := congrArg Option.isSome h.2.2.2.2.2.2.1
  rwa [Option.isSome_map,Option.isSome_map] at ha

omit [CDouble R] in
theorem count_of_rewind {s t : SimpleQuery R} (h : simpleRewind t = simpleRewind s) :
    xjd1DataSrcCount t.pFrom = xjd1DataSrcCount s.pFrom := by
  rw [simpleRewind_eq,simpleRewind_eq s,SimpleQuery.mk.injEq] at h
  rw [← count_rewind t.pFrom,h.2.2.1,count_rewind]

structure Query.AtRow (q : Query R) (s : SimpleQuery R) : Prop where
  u : ∃ t, q.u = .simple t ∧ simpleRewind t = simpleRewind s
  eDocFrom : q.eDocFrom = if s.pAgg.isSome then .grouped else .datasrc

theorem grouped_atRow {ctx : Ctx R} {p q : Query R} {s : SimpleQuery R} {v : JsonNode R} (hp : p.Clean)
    (hs : p.u = .simple s) (hd : s.pAgg = none → p.eDocFrom = .datasrc)
    (h : (stream selectStepGrouped ctx).row p v q) : q.AtRow s := by
  obtain ⟨h1,_,e1⟩ := grouped_stageNeutral.row hp h
  refine ⟨Query.simple_of_rewind hs e1,?_⟩
  obtain ⟨n,hn⟩ := h1.exists
  have hn : selectStepGrouped (interp n) n ctx p = .ok (.row,q) := hn
  split
  · exact grouped_eDocFrom hs (by assumption) hn
  · have ha : s.pAgg = none := Option.not_isSome_iff_eq_none.mp (by assumption)
    rw [selectStepGrouped,Query.simple_eq_ok.mpr hs,ok_bind,ha] at hn
    obtain ⟨d,w,rfl⟩ := whered_frame hs hn
    exact hd ha

/-- The rows of the stages below DISTINCT are put into the list with the documents the sources are at. -/
theorem distinctRows_of_states {ctx : Ctx R} {p q : Query R} {s : SimpleQuery R}
    {zs : List (JsonNode R × Query R)} (hp : p.Clean) (hs : p.u = .simple s)
    (hd : s.pAgg = none → p.eDocFrom = .datasrc) (h : Delivers (rowStates selectStepGrouped ctx) p zs q) :
    Delivers (distinctRows ctx) p (zs.map itemOf) q ∧ (∀ z ∈ zs, z.2.AtRow s) ∧
      ∃ t, q.u = .simple t ∧ simpleRewind t = simpleRewind s := by
  induction h generalizing s with
  | done h => exact ⟨.done h,nofun,Query.simple_of_rewind hs (grouped_stageNeutral ctx _ _ _ hp h)⟩
  | @row p q _ z zs h _ ih =>
    obtain ⟨h,rfl⟩ := h
    have hr := grouped_atRow hp hs hd h
    obtain ⟨t,ht,hrt⟩ := hr.u
    have hdt : t.pAgg = none → z.2.eDocFrom = .datasrc := fun ha => by
      rw [hr.eDocFrom,← pAgg_of_rewind hrt,ha]
      rfl
    obtain ⟨h1,h2,u,hu,hru⟩ := ih (hp.of_rewind (grouped_stageNeutral.row hp h).2.2) ht hdt
    refine ⟨.row ⟨_,t,h,ht,?_⟩ h1,?_,u,hu,hru.trans hrt⟩
    · rw [itemOf,sourceDocs,ht]
    · intro w hw
      rcases List.mem_cons.mp hw with rfl | hw
      · exact hr
      · obtain ⟨⟨r,hr1,hr2⟩,hr3⟩ := h2 w hw
        exact ⟨⟨r,hr1,hr2.trans hrt⟩,by rw [hr3,pAgg_of_rewind hrt]⟩

theorem Query.AtRow.showsSources {ctx : Ctx R} {q : Query R} {s : SimpleQuery R} (h : q.AtRow s) :
    ShowsSources ctx (xjd1DataSrcCount s.pFrom) q ↔ s.pAgg = none ∨ sourceDocs q <+: groupedDocs q := by
  obtain ⟨t,ht,hr⟩ := h.u
  have hd := h.eDocFrom
  rw [← count_of_rewind hr]
  cases ha : s.pAgg with
  | none =>
    rw [ha] at hd
    exact ⟨fun _ => .inl rfl,fun _ => showsSources_datasrc ht hd⟩
  | some l =>
    rw [ha] at hd
    rw [showsSources_grouped ht hd]
    exact ⟨.inr,fun h => h.resolve_left nofun⟩

theorem steps_compounded {ctx : Ctx R} {p : Query R} {s : SimpleQuery R} (hs : p.u = .simple s)
    {r : Rc × Query R} : Steps stepCompounded ctx p r ↔ Steps selectStepDistinct ctx p r := by
  simp only [Steps,stepCompounded,hs]

/-- Wherever DISTINCT is stepped to, the documents are those of a row of its list. -/
theorem RowsTo.shows {ctx : Ctx R} {p u : Query R} {s : SimpleQuery R} {ys : List (Query R)}
    {out : List (ResultItem R)} (hs : p.u = .simple s) (hy : RowsTo stepCompounded ctx p ys)
    (hd : Delivers (distinctItems ctx) p out u) (i : ℕ) (y : Query R) (hi : ys[i]? = some y) :
    ∃ a : ResultItem R, out[i]? = some a ∧ ∀ k d, Shows ctx y k d ↔ a.apKey[k]? = some d := by
  induction hy generalizing s out i with
  | nil p => cases hi
  | @cons p x ys h _ ih =>
    rw [steps_compounded hs] at h
    cases hd with
    | done hd => cases Returns.unique h hd
    | @row _ _ _ a out hr hd =>
      obtain ⟨hr,t,l,ht,hl⟩ := hr
      cases Returns.unique h hr
      cases i with
      | zero =>
        cases hi
        exact ⟨a,rfl,fun k d => ht.shows hl k d⟩
      | succ i => exact ih ht.u hd i hi

theorem rowsTo_of_items {ctx : Ctx R} {p u : Query R} {s : SimpleQuery R} {out : List (ResultItem R)}
    (hs : p.u = .simple s) (hd : Delivers (distinctItems ctx) p out u) :
    ∃ ys, RowsTo stepCompounded ctx p ys ∧ ys.length = out.length := by
  induction hd generalizing s with
  | done _ => exact ⟨[],.nil _,rfl⟩
  | row h _ ih =>
    obtain ⟨h,t,_,ht,_⟩ := h
    obtain ⟨ys,hy,hlen⟩ := ih ht.u
    exact ⟨_::ys,.cons ((steps_compounded hs).mpr h) hy,congrArg (· + 1) hlen⟩

/-- Every row that reaches ORDER BY shows the source documents it showed when
its result expression was computed: it is itself that row of the stages below,
or stands for the row of them that DISTINCT has kept. -/
def StagesAgree (ctx : Ctx R) (p : Query R) (s : SimpleQuery R) (zs : List (JsonNode R × Query R)) : Prop :=
  ∀ ys, RowsTo stepCompounded ctx p ys → ∀ (i : ℕ) y, ys[i]? = some y →
    ∃ z : JsonNode R × Query R, (if s.isDistinct then (distinctKept zs).getD [] else zs)[i]? = some z ∧
      Shows ctx y 0 z.1 ∧ SameDocs ctx (xjd1DataSrcCount s.pFrom) z.2 y

theorem RowsTo.grouped {ctx : Ctx R} {p : Query R} {s : SimpleQuery R} {ys : List (Query R)} (hp : p.Clean)
    (hs : p.u = .simple s) (hd : s.isDistinct = false) (h : RowsTo stepCompounded ctx p ys) :
    RowsTo selectStepGrouped ctx p ys := by
  induction h generalizing s with
  | nil p => exact .nil p
  | @cons p y ys h _ ih =>
    have hg : Steps selectStepGrouped ctx p (.row,y) := by
      rw [steps_compounded hs] at h
      filter_upwards [h] with n hn
      rwa [selectStepDistinct,Query.simple_eq_ok.mpr hs,ok_bind,hd,if_neg Bool.false_ne_true] at hn
    have e1 := grouped_stageNeutral ctx _ _ _ hp hg
    obtain ⟨t,ht,hr⟩ := Query.simple_of_rewind hs e1
    exact .cons hg (ih (hp.of_rewind e1) ht ((isDistinct_of_rewind hr).trans hd))

/-- A query that shows the item of a row shows the row's documents if those were the sources'. -/
theorem sameDocs_item {ctx : Ctx R} {n : ℕ} {z : JsonNode R × Query R} {y : Query R}
    (hy : ∀ k d, Shows ctx y k d ↔ (itemOf z).apKey[k]? = some d) :
    SameDocs ctx n z.2 y ↔ ShowsSources ctx n z.2 := by
  have hk : ∀ k, 1 ≤ k → (itemOf z).apKey[k]? = (sourceDocs z.2)[k-1]? := fun k hk => by
    obtain ⟨k,rfl⟩ := Nat.exists_eq_add_of_le' hk
    rw [itemOf,List.getElem?_cons_succ,Nat.add_sub_cancel]
  constructor
  · intro h k h1 hn d
    rw [h k h1 hn d,hy,hk k h1]
  · intro h k h1 hn d
    rw [h k h1 hn d,hy,hk k h1]

section Agree
variable {ctx : Ctx R} {p q : Query R} {s : SimpleQuery R} {zs : List (JsonNode R × Query R)} (hp : p.Initial)
  (hs : p.u = .simple s) (h : Delivers (rowStates selectStepGrouped ctx) p zs q)

include hp hs h

theorem stagesAgree_plain (hd : s.isDistinct = false) : StagesAgree ctx p s zs := by
  intro ys hys i y hi
  rw [hd,if_neg Bool.false_ne_true]
  obtain ⟨v,hz,hv⟩ := (hys.grouped hp.clean hs hd).delivered grouped_stageNeutral hp.clean h i y hi
  exact ⟨_,hz,⟨y,hv⟩,fun _ _ _ _ => Iff.rfl⟩

/-- Rows kept by DISTINCT agree with what ORDER BY sees if they showed what their sources were at. -/
theorem stagesAgree_kept (hd : s.isDistinct = true) {kept : List (JsonNode R × Query R)}
    (hk : distinctKept zs = some kept) (hne : kept ≠ []) :
    StagesAgree ctx p s zs ↔ ∀ z ∈ kept, ShowsSources ctx (xjd1DataSrcCount s.pFrom) z.2 := by
  have hdf : s.pAgg = none → p.eDocFrom = .datasrc := fun _ => ((queryInitial_iff p).mp hp).2.2.2.2.1
  obtain ⟨hi,_,t,ht,hr⟩ := distinctRows_of_states hp.clean hs hdf h
  have hsort := sortResultList_kept (distinctFillList s (zs.map itemOf)) zs rfl
  rw [hk] at hsort
  obtain ⟨u,hu⟩ := distinct_run hp hs hd hi ht hr hsort (by rwa [Ne,List.map_eq_nil_iff])
  have hshow : ∀ ys, RowsTo stepCompounded ctx p ys → ∀ (i : ℕ) y, ys[i]? = some y →
      ∃ z, kept[i]? = some z ∧ ∀ k d, Shows ctx y k d ↔ (itemOf z).apKey[k]? = some d := by
    intro ys hys i y hy
    obtain ⟨a,ha,hsh⟩ := hys.shows hs hu i y hy
    rw [List.getElem?_map,Option.map_eq_some_iff] at ha
    obtain ⟨z,hz,rfl⟩ := ha
    exact ⟨z,hz,hsh⟩
  rw [StagesAgree,hd,if_pos rfl,hk,Option.getD_some]
  constructor
  · intro ha z hz
    obtain ⟨ys,hys,hlen⟩ := rowsTo_of_items hs hu
    obtain ⟨i,hi,rfl⟩ := List.getElem_of_mem hz
    have hi' : i < ys.length := by rwa [hlen,List.length_map]
    have hy := List.getElem?_eq_getElem hi'
    obtain ⟨w,hw,hsh⟩ := hshow ys hys i _ hy
    obtain ⟨x,hx,_,hsame⟩ := ha ys hys i _ hy
    rw [List.getElem?_eq_getElem hi] at hw hx
    cases hw
    cases hx
    exact (sameDocs_item hsh).mp hsame
  · intro ha ys hys i y hy
    obtain ⟨z,hz,hsh⟩ := hshow ys hys i y hy
    refine ⟨z,hz,(hsh 0 z.1).mpr rfl,(sameDocs_item hsh).mpr (ha z (List.mem_of_getElem? hz))⟩

theorem stagesAgree_distinct (hd : s.isDistinct = true) :
    StagesAgree ctx p s zs ↔ zs ≠ [] ∧
      (s.pAgg = none ∨ ∀ z ∈ (distinctKept zs).getD [], sourceDocs z.2 <+: groupedDocs z.2) := by
  have hdf : s.pAgg = none → p.eDocFrom = .datasrc := fun _ => ((queryInitial_iff p).mp hp).2.2.2.2.1
  obtain ⟨hi,hat,t,ht,hr⟩ := distinctRows_of_states hp.clean hs hdf h
  have hsort := sortResultList_kept (distinctFillList s (zs.map itemOf)) zs rfl
  cases hk : distinctKept zs with
  | none =>
    rw [hk] at hsort
    obtain ⟨e,he⟩ := hsort
    have hf := selectStepDistinct_first hp hs hd ht hi
    simp only [he,stop_bind] at hf
    have hzs : zs ≠ [] := by
      rintro rfl
      rw [sortResultList_nil rfl] at he
      cases he
    refine iff_of_true ?_ ⟨hzs,.inr (by simp)⟩
    intro ys hys i y hy
    cases hys with
    | nil => cases hy
    | cons h1 _ => exact absurd hf (Returns.not_faults ((steps_compounded hs).mp h1))
  | some kept =>
    rw [hk] at hsort
    by_cases hne : kept = []
    · subst hne
      obtain ⟨y,r,h1,h2,h3⟩ := distinct_sorted hp hs hd hi ht hr hsort
      refine iff_of_false (fun ha => ?_) fun hc => hc.1 (distinctKept_nil hk)
      obtain ⟨z,hz,_⟩ := ha [y] (.cons ((steps_compounded hs).mpr h1) (.nil y)) 0 y rfl
      rw [hd,if_pos rfl,hk] at hz
      cases hz
    · have hzs : zs ≠ [] := by
        obtain ⟨z,hz⟩ := List.exists_mem_of_ne_nil kept hne
        exact List.ne_nil_of_mem (distinctKept_subset hk z hz)
      rw [stagesAgree_kept hp hs h hd hk hne,Option.getD_some]
      have hrow : ∀ z ∈ kept, ShowsSources ctx (xjd1DataSrcCount s.pFrom) z.2 ↔
          s.pAgg = none ∨ sourceDocs z.2 <+: groupedDocs z.2 :=
        fun z hz => (hat z (distinctKept_subset hk z hz)).showsSources
      constructor
      · intro ha
        by_cases hn : s.pAgg = none
        · exact ⟨hzs,.inl hn⟩
        · exact ⟨hzs,.inr fun z hz => ((hrow z hz).mp (ha z hz)).resolve_left hn⟩
      · rintro ⟨_,hc⟩ z hz
        exact (hrow z hz).mpr (hc.imp_right fun hc => hc z hz)

/-- The stages agree unless DISTINCT has no rows, or keeps rows of groups whose
documents are no longer those the sources are at. -/
theorem stages_agree_iff : StagesAgree ctx p s zs ↔ s.isDistinct = false ∨ zs ≠ [] ∧
    (s.pAgg = none ∨ ∀ z ∈ (distinctKept zs).getD [], sourceDocs z.2 <+: groupedDocs z.2) := by
  cases hd : s.isDistinct with
  | false => exact iff_of_true (stagesAgree_plain hp hs h hd) (.inl rfl)
  | true => rw [stagesAgree_distinct hp hs h hd]; simp

end Agree

/-- `SELECT DISTINCT c FROM c, d ORDER BY d` -/
def selectDistinctJoined : Query Int :=
  ⟨.simple ⟨true,some firstDoc,.comma false (.tab none .nullptr [ch 'c'] 0) (.tab none .nullptr [ch 'd'] 0),none,none,
    none,none,.empty,.empty⟩,none,some [⟨none,secondDoc⟩],none,none,.datasrc,.empty,none⟩

theorem selectDistinctJoined_initial : selectDistinctJoined.Initial := by
  simp [selectDistinctJoined,firstDoc,secondDoc,Query.Initial,QueryU.Initial,SimpleQuery.Initial,DataSrc.Initial,
    Expr.Initial,optionInitial,itemsInitial,itemsOptionInitial,aggsOptionInitial]

/-- DISTINCT and ORDER BY over the four rows of a join, two for each result. -/
theorem stages_agree_joined : ∃ s zs q, selectDistinctJoined.u = .simple s ∧
    Delivers (rowStates selectStepGrouped oneTwo) selectDistinctJoined zs q ∧
    zs.map Prod.fst = [.real 1,.real 1,.real 2,.real 2] ∧ StagesAgree oneTwo selectDistinctJoined s zs := by
  have h : ∃ q1 q2 q3 q4 q5, (selectStepGrouped (interp 5) 5 oneTwo selectDistinctJoined = .ok (.row,q1) ∧
      (interp 5).xjd1QueryDoc oneTwo q1 0 = .ok (.real 1,q1)) ∧
      (selectStepGrouped (interp 5) 5 oneTwo q1 = .ok (.row,q2) ∧
      (interp 5).xjd1QueryDoc oneTwo q2 0 = .ok (.real 1,q2)) ∧
      (selectStepGrouped (interp 5) 5 oneTwo q2 = .ok (.row,q3) ∧
      (interp 5).xjd1QueryDoc oneTwo q3 0 = .ok (.real 2,q3)) ∧
      (selectStepGrouped (interp 5) 5 oneTwo q3 = .ok (.row,q4) ∧
      (interp 5).xjd1QueryDoc oneTwo q4 0 = .ok (.real 2,q4)) ∧
      selectStepGrouped (interp 5) 5 oneTwo q4 = .ok (.done,q5) :=
    ⟨_,_,_,_,_,⟨rfl,rfl⟩,⟨rfl,rfl⟩,⟨rfl,rfl⟩,⟨rfl,rfl⟩,rfl⟩
  obtain ⟨q1,q2,q3,q4,q5,h1,h2,h3,h4,h5⟩ := h
  have hrow {p q : Query Int} {v : JsonNode Int} (h : selectStepGrouped (interp 5) 5 oneTwo p = .ok (.row,q) ∧
      (interp 5).xjd1QueryDoc oneTwo q 0 = .ok (v,q)) : (rowStates selectStepGrouped oneTwo).row p (v,q) q :=
    ⟨⟨q,grouped_mono.steps 5 h.1,Returns.of_ok (queryDoc_mono _ _ 0) h.2⟩,rfl⟩
  have hd : Delivers (rowStates selectStepGrouped oneTwo) selectDistinctJoined
      [(.real 1,q1),(.real 1,q2),(.real 2,q3),(.real 2,q4)] q5 :=
    .row (hrow h1) (.row (hrow h2) (.row (hrow h3) (.row (hrow h4) (.done (grouped_mono.steps 5 h5)))))
  exact ⟨_,_,q5,rfl,hd,rfl,(stages_agree_iff selectDistinctJoined_initial rfl hd).mpr
    (.inr ⟨List.cons_ne_nil _ _,.inl rfl⟩)⟩

/-- `SELECT DISTINCT 1 FROM c GROUP BY 1`. -/
def selectDistinctGroup : Query Int :=
  ⟨.simple ⟨true,some (.jvalue (.real 1)),.tab none .nullptr [ch 'c'] 0,none,some [⟨none,.jvalue (.real 1)⟩],none,
    some [],.empty,.empty⟩,none,none,none,none,.datasrc,.empty,none⟩

theorem selectDistinctGroup_initial : selectDistinctGroup.Initial := by
  simp [selectDistinctGroup,Query.Initial,QueryU.Initial,SimpleQuery.Initial,DataSrc.Initial,Expr.Initial,
    optionInitial,itemsOptionInitial,itemsInitial,aggsOptionInitial,aggsInitial]

/-- With collections of the one document `[]`, the rows of `selectDistinctGroup`
are saved from a cursor at its end, and do not show the document of their group. -/
theorem stages_agree_group : ∃ (ctx : Ctx Int) (p q : Query Int) (s : SimpleQuery Int)
    (zs : List (JsonNode Int × Query Int)), p.Initial ∧ p.u = .simple s ∧
    Delivers (rowStates selectStepGrouped ctx) p zs q ∧ zs ≠ [] ∧ ¬ StagesAgree ctx p s zs := by
  have h : ∃ q r, selectStepGrouped (interp 6) 6 ⟨[],.select,fun _ => [[ch '[',ch ']']]⟩ selectDistinctGroup = .ok (.row,q) ∧
      (interp 6).xjd1QueryDoc ⟨[],.select,fun _ => [[ch '[',ch ']']]⟩ q 0 = .ok (.real 1,q) ∧
      selectStepGrouped (interp 6) 6 ⟨[],.select,fun _ => [[ch '[',ch ']']]⟩ q = .ok (.done,r) ∧
      sourceDocs q = [.nullptr] ∧ groupedDocs q = [.array []] := ⟨_,_,rfl,rfl,rfl,rfl,rfl⟩
  obtain ⟨q,r,h1,h2,h3,h4,h5⟩ := h
  have hd : Delivers (rowStates selectStepGrouped ⟨[],.select,fun _ => [[ch '[',ch ']']]⟩) selectDistinctGroup
      [(.real 1,q)] r :=
    .row ⟨⟨q,grouped_mono.steps 6 h1,Returns.of_ok (queryDoc_mono _ _ 0) h2⟩,rfl⟩ (.done (grouped_mono.steps 6 h3))
  refine ⟨_,_,r,_,_,selectDistinctGroup_initial,rfl,hd,List.cons_ne_nil _ _,?_⟩
  rw [stagesAgree_distinct selectDistinctGroup_initial rfl hd rfl]
  rintro ⟨_,ha | ha⟩
  · cases ha
  · have hz := ha (.real 1,q) (by rw [distinctKept_singleton]; exact List.mem_singleton_self _)
    rw [h4,h5] at hz
    simp at hz

end Xjd1
