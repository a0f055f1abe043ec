import Xjd1.Query.Distinct

/-! Compound operators. UNION ALL gives the rows of its operands one after the
other; the set operators keep the rows of each operand in a sorted list without
duplicates and pass over both lists one row at a time. -/
namespace Xjd1

open Fueled Fueled.Run Delivery SlotSort SortedSets

variable {R : Type} [CDouble R]

def single (v : JsonNode R) : ResultItem R := ⟨[v]⟩

theorem cmpResultItem_single (a b : JsonNode R) :
    cmpResultItem none (single a) (single b) = xjd1JsonCompare a b :=
  cmpResultItem_none (List.cons_ne_nil a []) (List.cons_ne_nil b [])

def setOp (eQType : CompoundOp) (xs ys : List (JsonNode R)) : List (JsonNode R) :=
  match eQType with
  | .union => union xjd1JsonCompare xs ys
  | .intersect => inter xjd1JsonCompare xs ys
  | .except => diff xjd1JsonCompare xs ys
  | .all => []

/-- A step gives the first of the values `us` and leaves lists that give the rest, or gives nothing. -/
def Emits (eQType : CompoundOp)
    (r : Option (JsonNode R) × List (ResultItem R) × List (ResultItem R)) (us : List (JsonNode R)) : Prop :=
  ∃ xs ys, r = (us.head?,xs.map single,ys.map single) ∧ (us ≠ [] → setOp eQType xs ys = us.tail)

theorem unionStep_emits (xs ys : List (JsonNode R)) :
    Emits .union (unionStep (xs.map single) (ys.map single)) (setOp .union xs ys) := by
  cases xs with
  | nil =>
    cases ys with
    | nil => exact ⟨[],[],by simp [unionStep,setOp,union],fun h => absurd (by simp [setOp,union]) h⟩
    | cons y ys =>
      refine ⟨[],ys,by simp [unionStep,setOp,union,single,ResultItem.first],fun _ => ?_⟩
      simp [setOp,union]
  | cons x xs =>
    cases ys with
    | nil =>
      refine ⟨xs,[],by simp [unionStep,setOp,union,single,ResultItem.first],fun _ => ?_⟩
      cases xs <;> simp [setOp,union]
    | cons y ys =>
      simp only [List.map_cons,unionStep,cmpResultItem_single]
      by_cases hlt : xjd1JsonCompare x y < 0
      · refine ⟨xs,y::ys,?_,fun _ => ?_⟩ <;> simp only [setOp,union,if_pos hlt]
        · rw [if_pos hlt.le,if_neg (Int.not_le.mpr hlt)]
          rfl
        · rfl
      · by_cases heq : xjd1JsonCompare x y = 0
        · refine ⟨xs,ys,?_,fun _ => ?_⟩ <;> simp only [setOp,union,if_neg hlt,if_pos heq]
          · rw [if_pos heq.le,if_pos heq.ge]
            rfl
          · rfl
        · have hgt : 0 < xjd1JsonCompare x y := by omega
          refine ⟨x::xs,ys,?_,fun _ => ?_⟩ <;> simp only [setOp,union,if_neg hlt,if_neg heq]
          · rw [if_neg (Int.not_le.mpr hgt),if_pos hgt.le]
            rfl
          · rfl

omit [CDouble R] in
theorem fuel_pos {x : JsonNode R} {xs ys : List (JsonNode R)} {m : ℕ} (hm : (x::xs).length + ys.length ≤ m) :
    ∃ k, m = k+1 := by
  rw [List.length_cons] at hm
  exact ⟨m-1,by omega⟩

theorem intersectStep_emits (xs ys : List (JsonNode R)) (m : ℕ) (hm : xs.length + ys.length ≤ m) :
    Emits .intersect (intersectStep m (xs.map single) (ys.map single)) (setOp .intersect xs ys) := by
  induction xs, ys using inter.induct (xjd1JsonCompare (R := R)) generalizing m with
  | case1 ys => exact ⟨[],ys,by cases m <;> simp [intersectStep,setOp,inter],fun h => absurd (by simp [setOp,inter]) h⟩
  | case2 x xs =>
    exact ⟨x::xs,[],by cases m <;> simp [intersectStep,setOp,inter],fun h => absurd (by simp [setOp,inter]) h⟩
  | case3 x xs y ys heq ih =>
    obtain ⟨m,rfl⟩ := fuel_pos hm
    refine ⟨xs,ys,?_,fun _ => ?_⟩ <;>
      simp only [List.map_cons,intersectStep,cmpResultItem_single,setOp,inter,if_pos heq]
    · rfl
    · rfl
  | case4 x xs y ys heq hlt ih =>
    obtain ⟨m,rfl⟩ := fuel_pos hm
    have h := ih m (by simp only [List.length_cons] at hm ⊢; omega)
    simpa only [List.map_cons,intersectStep,cmpResultItem_single,setOp,inter,if_neg heq,if_pos hlt] using h
  | case5 x xs y ys heq hlt ih =>
    obtain ⟨m,rfl⟩ := fuel_pos hm
    have h := ih m (by simp only [List.length_cons] at hm ⊢; omega)
    simpa only [List.map_cons,intersectStep,cmpResultItem_single,setOp,inter,if_neg heq,if_neg hlt] using h

theorem exceptStep_emits (xs ys : List (JsonNode R)) (m : ℕ) (hm : xs.length + ys.length ≤ m) :
    Emits .except (exceptStep m (xs.map single) (ys.map single)) (setOp .except xs ys) := by
  induction xs, ys using diff.induct (xjd1JsonCompare (R := R)) generalizing m with
  | case1 ys => exact ⟨[],ys,by cases m <;> simp [exceptStep,setOp,diff],fun h => absurd (by simp [setOp,diff]) h⟩
  | case2 x xs =>
    obtain ⟨m,rfl⟩ := fuel_pos hm
    refine ⟨xs,[],by simp [exceptStep,setOp,diff,single,ResultItem.first],fun _ => ?_⟩
    cases xs <;> simp [setOp,diff]
  | case3 x xs y ys hlt ih =>
    obtain ⟨m,rfl⟩ := fuel_pos hm
    refine ⟨xs,y::ys,?_,fun _ => ?_⟩ <;>
      simp only [List.map_cons,exceptStep,cmpResultItem_single,setOp,diff,if_pos hlt]
    · rfl
    · rfl
  | case4 x xs y ys hlt heq ih =>
    obtain ⟨m,rfl⟩ := fuel_pos hm
    have h := ih m (by simp only [List.length_cons] at hm ⊢; omega)
    simpa only [List.map_cons,exceptStep,cmpResultItem_single,setOp,diff,if_neg hlt,if_pos heq] using h
  | case5 x xs y ys hlt heq ih =>
    obtain ⟨m,rfl⟩ := fuel_pos hm
    have h := ih m (by simp only [List.length_cons] at hm ⊢; omega)
    simpa only [List.map_cons,exceptStep,cmpResultItem_single,setOp,diff,if_neg hlt,if_neg heq] using h

/-- Each step of a set operator gives the next of its values. -/
theorem setOpStep_emits {eQType : CompoundOp} (h : eQType ≠ .all) (xs ys : List (JsonNode R)) :
    Emits eQType (setOpStep eQType (xs.map single) (ys.map single)) (setOp eQType xs ys) := by
  cases eQType with
  | union => exact unionStep_emits xs ys
  | all => exact absurd rfl h
  | intersect => exact intersectStep_emits xs ys _ (by simp)
  | except => exact exceptStep_emits xs ys _ (by simp)

section Operand
variable {ctx : Ctx R} {p q : Query R} {v : JsonNode R} {vs : List (JsonNode R)}

theorem Steps.calls {r : Rc × Query R} (h : Steps stepCompounded ctx p r) :
    Returns (fun n => (interp n).selectStepCompounded ctx p) r :=
  Returns.succ_iff.mp h

theorem operandStep_row (h : (stream stepCompounded ctx).row p v q) :
    Returns (fun n => operandStep (interp n) ctx p) (.row,v,q) := by
  obtain ⟨p',h1,h2⟩ := h
  filter_upwards [h1.calls,h2] with n hn1 hn2
  simp only [operandStep,hn1,hn2,ok_bind]

theorem operandStep_done (h : (stream stepCompounded ctx).done p q) :
    Returns (fun n => operandStep (interp n) ctx p) (.done,.nullptr,q) := by
  filter_upwards [Steps.calls h] with n hn
  simp only [operandStep,hn,ok_bind]

/-- The loop puts every row of the operand into the list, the last one first. -/
theorem cacheQuery_loop (h : Delivers (stream stepCompounded ctx) p vs q) (l : ResultList R) :
    Returns (fun n => Run.loop (cacheTurn (interp n) ctx) n (l,p))
      ({ l with pItem := (vs.map single).reverse ++ l.pItem },q) := by
  induction h generalizing l with
  | done h =>
    refine Returns.loop_exit ?_
    filter_upwards [operandStep_done h] with n hn
    rw [cacheTurn,hn,ok_bind]
    rfl
  | @row p q t v vs h _ ih =>
    have hr := ih { l with pItem := single v :: l.pItem }
    simp only [List.map_cons,List.reverse_cons,List.append_assoc,List.singleton_append]
    refine Returns.loop_turn (fun n m h => cacheTurn_le (interp_le h) (Ctx.le_refl ctx)) ?_ hr
    filter_upwards [operandStep_row h] with n hn
    rw [cacheTurn,hn,ok_bind]
    rfl

theorem cacheQuery_eq (h : Delivers (stream stepCompounded ctx) p vs q) :
    ∀ᶠ n in Filter.atTop, cacheQuery (interp n) n ctx p =
      (sortResultList { ResultList.new 1 with pItem := (vs.map single).reverse } none true >>= fun l => .ok (l,q)) := by
  filter_upwards [cacheQuery_loop h (.new 1)] with n hn
  have hnil : (vs.map single).reverse ++ (ResultList.new 1 : ResultList R).pItem = (vs.map single).reverse :=
    List.append_nil _
  simp only [cacheQuery,hn,ok_bind,hnil]

/-- An operand is cached as one value of each class, in order. -/
theorem cacheQuery_returns (h : Delivers (stream stepCompounded ctx) p vs q)
    (ho : Ordered xjd1JsonCompare (· ∈ vs)) (hlen : vs.length < 2^nSlot) :
    ∃ ws, ClassesOf (· ∈ vs) ws ∧ Returns (fun n => cacheQuery (interp n) n ctx p)
      ({ ResultList.new 1 with pItem := ws.map single },q) := by
  have hfirst : (vs.map single).map ResultItem.first = vs := by
    rw [List.map_map]
    exact List.map_id vs
  have hmem : ∀ i ∈ (vs.map single).reverse, i = single i.first := fun i hi => by
    obtain ⟨v,_,rfl⟩ := List.mem_map.mp (List.mem_reverse.mp hi)
    rfl
  obtain ⟨out,h1,h2,h3⟩ := sortResultList_classes ho { ResultList.new 1 with pItem := (vs.map single).reverse }
    (fun i hi => by rw [hmem i hi]; exact List.cons_ne_nil _ _) (by rw [List.reverse_reverse,hfirst]) hlen
  have hout : (out.map ResultItem.first).map single = out := by
    rw [List.map_map]
    exact (List.map_congr_left fun i hi => (hmem i (h2 i hi)).symm).trans (List.map_id out)
  refine ⟨out.map ResultItem.first,h3,?_⟩
  filter_upwards [cacheQuery_eq h] with n hn
  rw [hn,h1,ok_bind,hout]

end Operand

def Query.setCompound (p : Query R) (c : CompoundQuery R) : Query R := { p with u := .compound c }

def CompoundQuery.withLists (c : CompoundQuery R) (xs ys : List (JsonNode R)) (pOut : JsonNode R) :
    CompoundQuery R :=
  { c with
    left := { c.left with pItem := xs.map single }, right := { c.right with pItem := ys.map single }, pOut := pOut }

section Compound
variable {ctx : Ctx R} {p : Query R} {c : CompoundQuery R}

theorem setCompound_reads (hf : p.eDocFrom ≠ .ordered) (c : CompoundQuery R) :
    Reads0 ctx (p.setCompound c) (c.pOut,p.setCompound c) := by
  refine Returns.of_ok (queryDoc_mono ctx _ 0) (n := 1) ?_
  have hf' : (p.setCompound c).eDocFrom ≠ .ordered := hf
  show queryDoc (interp 0) ctx _ 0 = _
  rw [queryDoc,if_neg hf']
  rfl

theorem setOp_step (ctx : Ctx R) (p : Query R) (ht : c.eQType ≠ .all) (hl : c.left.pPool = true) (xs ys : List (JsonNode R))
    (pOut : JsonNode R) : ∃ xs' ys', Steps stepCompounded ctx (p.setCompound (c.withLists xs ys pOut))
      (if (setOp c.eQType xs ys).head?.isSome then .row else .done,
        p.setCompound (c.withLists xs' ys' ((setOp c.eQType xs ys).head?.getD .nullptr))) ∧
      (setOp c.eQType xs ys ≠ [] → setOp c.eQType xs' ys' = (setOp c.eQType xs ys).tail) := by
  obtain ⟨xs',ys',h1,h2⟩ := setOpStep_emits ht xs ys
  refine ⟨xs',ys',Filter.Eventually.of_forall fun n => ?_,h2⟩
  simp only [stepCompounded,Query.setCompound,compoundStep,CompoundQuery.withLists,if_neg ht,setOpFill,hl,if_true,
    ok_bind,h1]

theorem setOp_delivers (ctx : Ctx R) (hf : p.eDocFrom ≠ .ordered) (ht : c.eQType ≠ .all) (hl : c.left.pPool = true)
    (xs ys : List (JsonNode R)) (pOut : JsonNode R) : ∃ t, Delivers (stream stepCompounded ctx)
      (p.setCompound (c.withLists xs ys pOut)) (setOp c.eQType xs ys) t := by
  generalize hus : setOp c.eQType xs ys = us
  induction us generalizing xs ys pOut with
  | nil =>
    obtain ⟨xs',ys',h1,_⟩ := setOp_step ctx p ht hl xs ys pOut
    rw [hus] at h1
    exact ⟨_,.done h1⟩
  | cons u us ih =>
    obtain ⟨xs',ys',h1,h2⟩ := setOp_step ctx p ht hl xs ys pOut
    rw [hus] at h1 h2
    obtain ⟨t,h⟩ := ih xs' ys' u (h2 (List.cons_ne_nil u us))
    exact ⟨t,.row ⟨_,h1,setCompound_reads hf _⟩ h⟩

theorem setOp_first {l r : Query R} {ls rs : List (JsonNode R)} (hf : p.eDocFrom ≠ .ordered)
    (ht : c.eQType ≠ .all) (hl : c.left.pPool = false)
    (hls : Delivers (stream stepCompounded ctx) c.pLeft ls l) (hrs : Delivers (stream stepCompounded ctx) c.pRight rs r)
    (hol : Ordered xjd1JsonCompare (· ∈ ls)) (hor : Ordered xjd1JsonCompare (· ∈ rs))
    (hnl : ls.length < 2^nSlot) (hnr : rs.length < 2^nSlot) : ∃ xs ys t, ClassesOf (· ∈ ls) xs ∧
      ClassesOf (· ∈ rs) ys ∧ Delivers (stream stepCompounded ctx) (p.setCompound c) (setOp c.eQType xs ys) t := by
  obtain ⟨xs,hxs,hcl⟩ := cacheQuery_returns hls hol hnl
  obtain ⟨ys,hys,hcr⟩ := cacheQuery_returns hrs hor hnr
  obtain ⟨t,hd⟩ := setOp_delivers ctx (c := { c with
    pLeft := l, left := .new 1, pRight := r, right := .new 1 }) hf ht rfl xs ys c.pOut
  refine ⟨xs,ys,t,hxs,hys,?_⟩
  have hfirst : ∀ᶠ n in Filter.atTop, stepCompounded (interp n) n ctx (p.setCompound
      (CompoundQuery.withLists { c with pLeft := l, left := .new 1, pRight := r, right := .new 1 } xs ys c.pOut)) =
      stepCompounded (interp n) n ctx (p.setCompound c) := by
    filter_upwards [hcl,hcr] with n h1 h2
    simp only [stepCompounded,Query.setCompound,compoundStep,CompoundQuery.withLists,if_neg ht,setOpFill,hl,
      Bool.false_eq_true,if_false,h1,h2,ok_bind]
    rfl
  have hcong : ∀ q, Steps stepCompounded ctx _ q → Steps stepCompounded ctx (p.setCompound c) q :=
    fun q hq => by filter_upwards [hq,hfirst] with n h1 h2; rw [← h2,h1]
  refine hd.congr (fun v u h => ?_) fun u h => hcong _ h
  obtain ⟨w,h1,h2⟩ := h
  exact ⟨w,hcong _ h1,h2⟩

theorem all_right {r t : Query R} {rs : List (JsonNode R)} (hf : p.eDocFrom ≠ .ordered) (ht : c.eQType = .all)
    (hd : c.doneLeft = true) (h : Delivers (stream stepCompounded ctx) r rs t) (pOut : JsonNode R) :
    Delivers (stream stepCompounded ctx) (p.setCompound { c with pRight := r, pOut := pOut }) rs
      (p.setCompound { c with pRight := t, pOut := .nullptr }) := by
  induction h generalizing pOut with
  | done h =>
    refine .done ?_
    filter_upwards [operandStep_done h] with n hn
    simp only [stepCompounded,Query.setCompound,compoundStep,ht,if_true,allStep,hd,allRightStep,hn,ok_bind]
  | @row r r' t v rs h _ ih =>
    have hs : Steps stepCompounded ctx (p.setCompound { c with pRight := r, pOut := pOut })
        (.row,p.setCompound { c with pRight := r', pOut := v }) := by
      filter_upwards [operandStep_row h] with n hn
      simp only [stepCompounded,Query.setCompound,compoundStep,ht,if_true,allStep,hd,allRightStep,hn,ok_bind]
    exact .row ⟨_,hs,setCompound_reads hf _⟩ (ih v)

theorem all_delivers {l l' t : Query R} {ls rs : List (JsonNode R)} (hf : p.eDocFrom ≠ .ordered)
    (ht : c.eQType = .all) (hd : c.doneLeft = false) (hl : Delivers (stream stepCompounded ctx) l ls l')
    (hr : Delivers (stream stepCompounded ctx) c.pRight rs t) (pOut : JsonNode R) :
    ∃ u, Delivers (stream stepCompounded ctx) (p.setCompound { c with pLeft := l, pOut := pOut }) (ls ++ rs) u := by
  induction hl generalizing pOut with
  | @done l l' h =>
    have hright := all_right (c := { c with pLeft := l', doneLeft := true }) hf ht rfl hr pOut
    have hfirst : ∀ᶠ n in Filter.atTop, stepCompounded (interp n) n ctx (p.setCompound
        { c with pLeft := l', doneLeft := true, pRight := c.pRight, pOut := pOut }) =
        stepCompounded (interp n) n ctx (p.setCompound { c with pLeft := l, pOut := pOut }) := by
      filter_upwards [operandStep_done h] with n hn
      simp only [stepCompounded,Query.setCompound,compoundStep,ht,if_true,allStep,hd,allRightStep,hn,ok_bind,
        Bool.false_eq_true,if_false]
    have hcong : ∀ q, Steps stepCompounded ctx _ q →
        Steps stepCompounded ctx (p.setCompound { c with pLeft := l, pOut := pOut }) q :=
      fun q hq => by filter_upwards [hq,hfirst] with n h1 h2; rw [← h2,h1]
    refine ⟨_,hright.congr (fun v u h => ?_) fun u h => hcong _ h⟩
    obtain ⟨w,h1,h2⟩ := h
    exact ⟨w,hcong _ h1,h2⟩
  | @row l l1 t v ls h _ ih =>
    obtain ⟨u,hu⟩ := ih v
    have hs : Steps stepCompounded ctx (p.setCompound { c with pLeft := l, pOut := pOut })
        (.row,p.setCompound { c with pLeft := l1, pOut := v }) := by
      filter_upwards [operandStep_row h] with n hn
      simp only [stepCompounded,Query.setCompound,compoundStep,ht,if_true,allStep,hd,hn,ok_bind,
        Bool.false_eq_true,if_false]
    exact ⟨u,.row ⟨_,hs,setCompound_reads hf _⟩ hu⟩

end Compound

def Among (v : JsonNode R) (l : List (JsonNode R)) : Prop := ∃ w ∈ l, xjd1JsonCompare v w = 0

/-- The values a set operator selects from those of its operands. -/
def InSet (eQType : CompoundOp) (ls rs : List (JsonNode R)) (v : JsonNode R) : Prop :=
  match eQType with
  | .union => v ∈ ls ∨ v ∈ rs
  | .intersect => v ∈ ls ∧ Among v rs
  | .except => v ∈ ls ∧ ¬ Among v rs
  | .all => False

section Classes
variable {P : JsonNode R → Prop} (hP : Ordered xjd1JsonCompare P) {ls rs xs ys : List (JsonNode R)}
  (hls : ∀ v ∈ ls, P v) (hrs : ∀ v ∈ rs, P v) (hxs : ClassesOf (· ∈ ls) xs) (hys : ClassesOf (· ∈ rs) ys)
include hP hls hrs hxs hys

theorem union_classes : ClassesOf (InSet .union ls rs) (union xjd1JsonCompare xs ys) := by
  have hx : ∀ v ∈ xs, P v := fun v hv => hls v (hxs.sound v hv)
  have hy : ∀ v ∈ ys, P v := fun v hv => hrs v (hys.sound v hv)
  refine ⟨union_ascending hP hx hy hxs.ascending hys.ascending,fun w hw => ?_,?_⟩
  · exact (mem_union hw).imp (hxs.sound w) (hys.sound w)
  · rintro v (hv | hv)
    · obtain ⟨x,hx',hvx⟩ := hxs.complete v hv
      have hu : ∃ w ∈ union xjd1JsonCompare xs ys, xjd1JsonCompare x w = 0 := union_of_mem_left hP hx hx'
      obtain ⟨w,hw,hxw⟩ := hu
      have hPw : P w := (mem_union hw).elim (hx w) (hy w)
      exact ⟨w,hw,hP.eq_trans (hls v hv) (hx x hx') hPw hvx hxw⟩
    · obtain ⟨y,hy',hvy⟩ := hys.complete v hv
      exact ⟨y,union_of_mem_right hy',hvy⟩

omit hls hxs in
/-- A value is among the rows of an operand exactly when it is among the values kept of them. -/
theorem among_iff {v : JsonNode R} (hv : P v) : (∃ y ∈ ys, xjd1JsonCompare v y = 0) ↔ Among v rs := by
  constructor
  · rintro ⟨y,hy,hvy⟩
    exact ⟨y,hys.sound y hy,hvy⟩
  · rintro ⟨w,hw,hvw⟩
    obtain ⟨y,hy,hwy⟩ := hys.complete w hw
    exact ⟨y,hy,hP.eq_trans hv (hrs w hw) (hrs y (hys.sound y hy)) hvw hwy⟩

omit hls hxs hys in
theorem among_congr {v w : JsonNode R} (hv : P v) (hw : P w) (hvw : xjd1JsonCompare v w = 0) :
    Among v rs ↔ Among w rs := by
  have hwv := (hP.eq_comm hv hw).mp hvw
  exact ⟨fun ⟨u,hu,h⟩ => ⟨u,hu,hP.eq_trans hw hv (hrs u hu) hwv h⟩,
    fun ⟨u,hu,h⟩ => ⟨u,hu,hP.eq_trans hv hw (hrs u hu) hvw h⟩⟩

theorem inter_classes : ClassesOf (InSet .intersect ls rs) (inter xjd1JsonCompare xs ys) := by
  have hx : ∀ v ∈ xs, P v := fun v hv => hls v (hxs.sound v hv)
  have hy : ∀ v ∈ ys, P v := fun v hv => hrs v (hys.sound v hv)
  have hmem : ∀ v, v ∈ inter xjd1JsonCompare xs ys ↔ v ∈ xs ∧ ∃ y ∈ ys, xjd1JsonCompare v y = 0 :=
    fun v => mem_inter hP hx hy hxs.ascending hys.ascending
  refine ⟨hxs.ascending.sublist (inter_sublist xs ys),fun w hw => ?_,?_⟩
  · obtain ⟨hw,h⟩ := (hmem w).mp hw
    exact ⟨hxs.sound w hw,(among_iff hP hrs hys (hx w hw)).mp h⟩
  · rintro v ⟨hv,hr⟩
    obtain ⟨x,hx',hvx⟩ := hxs.complete v hv
    have h := (among_congr hP hrs (hls v hv) (hx x hx') hvx).mp hr
    exact ⟨x,(hmem x).mpr ⟨hx',(among_iff hP hrs hys (hx x hx')).mpr h⟩,hvx⟩

theorem diff_classes : ClassesOf (InSet .except ls rs) (diff xjd1JsonCompare xs ys) := by
  have hx : ∀ v ∈ xs, P v := fun v hv => hls v (hxs.sound v hv)
  have hy : ∀ v ∈ ys, P v := fun v hv => hrs v (hys.sound v hv)
  have hmem : ∀ v, v ∈ diff xjd1JsonCompare xs ys ↔ v ∈ xs ∧ ∀ y ∈ ys, xjd1JsonCompare v y ≠ 0 :=
    fun v => mem_diff hP hx hy hxs.ascending hys.ascending
  refine ⟨hxs.ascending.sublist (diff_sublist xs ys),fun w hw => ?_,?_⟩
  · obtain ⟨hw,h⟩ := (hmem w).mp hw
    refine ⟨hxs.sound w hw,fun hr => ?_⟩
    obtain ⟨y,hy',hwy⟩ := (among_iff hP hrs hys (hx w hw)).mpr hr
    exact h y hy' hwy
  · rintro v ⟨hv,hr⟩
    obtain ⟨x,hx',hvx⟩ := hxs.complete v hv
    refine ⟨x,(hmem x).mpr ⟨hx',fun y hy' hxy => hr ?_⟩,hvx⟩
    exact (among_congr hP hrs (hls v hv) (hx x hx') hvx).mpr ⟨y,hys.sound y hy',hxy⟩

/-- The values kept of the operands give the values of the operator, one of each class. -/
theorem setOp_classes {eQType : CompoundOp} (ht : eQType ≠ .all) :
    ClassesOf (InSet eQType ls rs) (setOp eQType xs ys) := by
  cases eQType with
  | union => exact union_classes hP hls hrs hxs hys
  | all => exact absurd rfl ht
  | intersect => exact inter_classes hP hls hrs hxs hys
  | except => exact diff_classes hP hls hrs hxs hys

end Classes

theorem inSet_mem {eQType : CompoundOp} {ls rs : List (JsonNode R)} {v : JsonNode R} (h : InSet eQType ls rs v) :
    v ∈ ls ∨ v ∈ rs := by
  cases eQType with
  | union => exact h
  | all => exact h.elim
  | intersect => exact .inl h.1
  | except => exact .inl h.1

/-- Every SELECT in the tree delivers a finite sequence of values in `P`, and
every operand of a set operator fewer rows than the slots of the sort hold. -/
inductive Operands (ctx : Ctx R) (P : JsonNode R → Prop) : Query R → Prop
  | select {p q : Query R} {s : SimpleQuery R} {vs : List (JsonNode R)} (hu : p.u = .simple s)
    (h : Delivers (stream stepCompounded ctx) p vs q) (hv : ∀ v ∈ vs, P v) : Operands ctx P p
  | compound {p : Query R} {c : CompoundQuery R} (hu : p.u = .compound c) (hl : Operands ctx P c.pLeft)
    (hr : Operands ctx P c.pRight) (hn : c.eQType ≠ .all → ∀ q ∈ [c.pLeft,c.pRight], ∀ vs t,
      Delivers (stream stepCompounded ctx) q vs t → vs.length < 2^nSlot) : Operands ctx P p

/-- The query delivers `ws`, which is what its operators make of the rows of its SELECTs. -/
inductive Computes (ctx : Ctx R) : Query R → List (JsonNode R) → Prop
  | select {p t : Query R} {s : SimpleQuery R} {ws : List (JsonNode R)} (hu : p.u = .simple s)
    (h : Delivers (stream stepCompounded ctx) p ws t) : Computes ctx p ws
  | all {p t : Query R} {c : CompoundQuery R} {ls rs : List (JsonNode R)} (hu : p.u = .compound c)
    (ht : c.eQType = .all) (hl : Computes ctx c.pLeft ls) (hr : Computes ctx c.pRight rs)
    (h : Delivers (stream stepCompounded ctx) p (ls ++ rs) t) : Computes ctx p (ls ++ rs)
  | setOp {p t : Query R} {c : CompoundQuery R} {ls rs ws : List (JsonNode R)} (hu : p.u = .compound c)
    (ht : c.eQType ≠ .all) (hl : Computes ctx c.pLeft ls) (hr : Computes ctx c.pRight rs)
    (hs : ClassesOf (InSet c.eQType ls rs) ws) (h : Delivers (stream stepCompounded ctx) p ws t) :
    Computes ctx p ws

theorem Computes.delivers {ctx : Ctx R} {p : Query R} {ws : List (JsonNode R)} (h : Computes ctx p ws) :
    ∃ t, Delivers (stream stepCompounded ctx) p ws t := by
  cases h with
  | select _ h => exact ⟨_,h⟩
  | all _ _ _ _ h => exact ⟨_,h⟩
  | setOp _ _ _ _ _ h => exact ⟨_,h⟩

omit [CDouble R] in
theorem setCompound_self {p : Query R} {c : CompoundQuery R} (h : p.u = .compound c) : p.setCompound c = p := by
  rw [Query.setCompound,← h,Query.eta]

/-- A tree of compound operators computes the set operations on the rows of its operands. -/
theorem operands_compute {ctx : Ctx R} {P : JsonNode R → Prop} (hP : Ordered xjd1JsonCompare P) {p : Query R}
    (hp : p.Initial) (h : Operands ctx P p) : ∃ ws, Computes ctx p ws ∧ ∀ w ∈ ws, P w := by
  induction h with
  | select hu h hv => exact ⟨_,.select hu h,hv⟩
  | @compound p c hu _ _ hn ihl ihr =>
    have hi := (queryInitial_iff p).mp hp
    have hc : c.Initial := by rw [hu,QueryU.Initial] at hi; exact hi.1
    obtain ⟨hil,hir,hdl,hle,-⟩ := (compoundInitial_iff c).mp hc
    have hf : p.eDocFrom ≠ .ordered := by rw [hi.2.2.2.2.1]; exact nofun
    obtain ⟨ls,hls,hPl⟩ := ihl hil
    obtain ⟨rs,hrs,hPr⟩ := ihr hir
    obtain ⟨l,hl⟩ := hls.delivers
    obtain ⟨r,hr⟩ := hrs.delivers
    by_cases ht : c.eQType = .all
    · obtain ⟨u,hd⟩ := all_delivers hf ht hdl hl hr c.pOut
      rw [CompoundQuery.eta,setCompound_self hu] at hd
      exact ⟨_,.all hu ht hls hrs hd,fun w hw => (List.mem_append.mp hw).elim (hPl w) (hPr w)⟩
    · obtain ⟨xs,ys,t,hxs,hys,hd⟩ := setOp_first hf ht (by rw [hle]; rfl) hl hr (hP.mono hPl) (hP.mono hPr)
        (hn ht _ (by simp) _ _ hl) (hn ht _ (by simp) _ _ hr)
      rw [setCompound_self hu] at hd
      have hs := setOp_classes hP hPl hPr hxs hys ht
      exact ⟨_,.setOp hu ht hls hrs hs hd,fun w hw => (inSet_mem (hs.sound w hw)).elim (hPl w) (hPr w)⟩

/-- The surroundings of a query over the collections `c` of 2, 1 and 2, `d` of 3 and 1, and others of 1 and 4. -/
def threeTabs : Ctx Int := ⟨[],.select,fun z => if z = [ch 'c'] then [[ch '2'],[ch '1'],[ch '2']] else
  if z = [ch 'd'] then [[ch '3'],[ch '1']] else [[ch '1'],[ch '4']]⟩

/-- `SELECT FROM c UNION ALL SELECT FROM d` -/
def allTabs : Query Int :=
  ⟨.compound ⟨.all,selectFrom [ch 'c'] none .nullptr 0,selectFrom [ch 'd'] none .nullptr 0,false,.empty,.empty,.nullptr⟩,
    none,none,none,none,.datasrc,.empty,none⟩

/-- `SELECT FROM c UNION ALL SELECT FROM d EXCEPT SELECT FROM e` -/
def exceptTabs : Query Int :=
  ⟨.compound ⟨.except,allTabs,selectFrom [ch 'e'] none .nullptr 0,false,.empty,.empty,.nullptr⟩,none,none,none,none,
    .datasrc,.empty,none⟩

/-- Rows with duplicates on the left, under a nested operator, and rows of which one is among them. -/
theorem operands_compute_tabs : ∃ ws, Computes threeTabs exceptTabs ws ∧
    ∀ w ∈ ws, w ∈ [(.real 1 : JsonNode Int),.real 2,.real 3,.real 4] := by
  have hc : Delivers (stream stepCompounded threeTabs) (selectFrom [ch 'c'] none .nullptr 0)
    [.real 2,.real 1,.real 2] (selectFrom [ch 'c'] none .nullptr 0) := selectFrom_delivers
  have hd : Delivers (stream stepCompounded threeTabs) (selectFrom [ch 'd'] none .nullptr 0)
    [.real 3,.real 1] (selectFrom [ch 'd'] none .nullptr 0) := selectFrom_delivers
  have he : Delivers (stream stepCompounded threeTabs) (selectFrom [ch 'e'] none .nullptr 0)
    [.real 1,.real 4] (selectFrom [ch 'e'] none .nullptr 0) := selectFrom_delivers
  obtain ⟨u,ha⟩ : ∃ u, Delivers (stream stepCompounded threeTabs) allTabs [.real 2,.real 1,.real 2,.real 3,.real 1] u :=
    all_delivers (p := allTabs) (c := ⟨.all,selectFrom [ch 'c'] none .nullptr 0,selectFrom [ch 'd'] none .nullptr 0,
      false,.empty,.empty,.nullptr⟩) nofun rfl rfl hc hd .nullptr
  have hi : exceptTabs.Initial := by
    simp [exceptTabs,allTabs,selectFrom,Query.Initial,QueryU.Initial,CompoundQuery.Initial,SimpleQuery.Initial,
      DataSrc.Initial,optionInitial,itemsOptionInitial,aggsOptionInitial]
  have ho : Ordered xjd1JsonCompare (· ∈ [(.real 1 : JsonNode Int),.real 2,.real 3,.real 4]) :=
    (ordered_xjd1JsonCompare numbers_int).mono (by simp [NodeOf])
  refine operands_compute ho hi (.compound rfl (.compound rfl (.select rfl hc (by simp)) (.select rfl hd (by simp))
    fun h => absurd rfl h) (.select rfl he (by simp)) fun _ q hq vs t h => ?_)
  rcases List.mem_pair.mp hq with rfl | rfl
  · rw [(h.unique (stream_functional _ _) ha).1]
    decide
  · rw [(h.unique (stream_functional _ _) he).1]
    decide

/-- `SELECT FROM t UNION SELECT FROM t`. -/
def unionSelf : Query Int :=
  ⟨.compound ⟨.union,selectFrom [] none .nullptr 0,selectFrom [] none .nullptr 0,false,.empty,.empty,.nullptr⟩,
    none,none,none,none,.datasrc,.empty,none⟩

theorem unionSelf_initial : unionSelf.Initial := by
  simp [unionSelf,selectFrom,Query.Initial,QueryU.Initial,CompoundQuery.Initial,SimpleQuery.Initial,
    DataSrc.Initial,optionInitial,itemsOptionInitial,aggsOptionInitial]

theorem ordered_parse_nil : Ordered xjd1JsonCompare (· = (xjd1JsonParse [] : JsonNode Int)) :=
  Ordered.of_eq fun a b ha hb => by
    rw [ha,hb]
    decide

theorem selectFrom_manyRows (n : ℕ) : Delivers (stream stepCompounded (manyRows Int n))
    (selectFrom [] none .nullptr 0) (List.replicate n (xjd1JsonParse [])) (selectFrom [] none .nullptr 0) := by
  have hmap : (((manyRows Int n).db []).drop 0).map xjd1JsonParse =
      List.replicate n (xjd1JsonParse [] : JsonNode Int) := by
    rw [List.drop_zero]
    exact List.map_replicate
  rw [← hmap]
  exact selectFrom_delivers

/-- A set operator on an operand of `2^40` rows gives none: the sort runs off its slots. -/
theorem unionSelf_manyRows : ∃ (p : Query Int) (c : CompoundQuery Int) (ls : List (JsonNode Int)) (l : Query Int),
    p.Initial ∧ p.u = .compound c ∧ c.eQType = .union ∧ c.pLeft = c.pRight ∧
    Delivers (stream stepCompounded (manyRows Int (2^nSlot))) c.pLeft ls l ∧ Ordered xjd1JsonCompare (· ∈ ls) ∧
    ¬ ∃ ws, Computes (manyRows Int (2^nSlot)) p ws := by
  have h := selectFrom_manyRows (2^nSlot)
  refine ⟨unionSelf,_,_,_,unionSelf_initial,rfl,rfl,rfl,h,
    ordered_parse_nil.mono fun v hv => (List.mem_replicate.mp hv).2,?_⟩
  have hlen : 2^nSlot ≤ ({ ResultList.new 1 with
      pItem := ((List.replicate (2^nSlot) (xjd1JsonParse [])).map single).reverse } : ResultList Int).pItem.length := by
    rw [List.length_reverse,List.length_map,List.length_replicate]
  have hf : Faults (fun n => stepCompounded (interp n) n (manyRows Int (2^nSlot)) unionSelf) .slots := by
    filter_upwards [cacheQuery_eq h] with n hn
    rw [sortResultList_overflow _ none true hlen,stop_bind] at hn
    simp only [unionSelf,stepCompounded,compoundStep,setOpFill,ResultList.empty,Bool.false_eq_true,if_false,
      reduceCtorEq,hn,stop_bind]
  rintro ⟨ws,hw⟩
  obtain ⟨t,hd⟩ := hw.delivers
  cases hd with
  | done hd => exact hd.not_faults hf
  | row hd _ => exact hd.choose_spec.1.not_faults hf

end Xjd1
