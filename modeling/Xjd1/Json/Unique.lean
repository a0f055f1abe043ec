import Mathlib.Data.List.TakeWhile
import Xjd1.Json.Order
import Xjd1.Json.Lexing
import Xjd1.Json.Recovery

/-! Different values have different texts. A text behind which something else stands is
taken off the front of it in one way only. -/
namespace Xjd1

variable {R : Type}

def isNumeric (c : UInt8) : Bool := xjd1Isdigit c || c = ch '-' || c = ch '+' || c = ch '.' || c = ch 'e'

structure NumberText (z : Bytes) : Prop where
  head : ∃ c t, z = c::t ∧ (c = ch '-' ∨ xjd1Isdigit c)
  numeric : ∀ c ∈ z, isNumeric c

/-- The numbers `Num` are printed as the texts of numbers, distinct ones as distinct texts. -/
structure Printed [CDouble R] (Num : R → Prop) : Prop where
  text : ∀ x, Num x → NumberText (CDouble.fmt17 x)
  inj : ∀ x y, Num x → Num y → (CDouble.fmt17 x = CDouble.fmt17 y ↔ CDouble.eq x y = true)

theorem Delimited.not_numeric {s : Bytes} (h : Delimited s) : s.head?.any isNumeric = false := by
  rcases h with rfl | ⟨c,t,rfl,rfl | rfl | rfl⟩ <;> rfl

theorem numberText_cancel {x y s t : Bytes} (hx : NumberText x) (hy : NumberText y) (hs : Delimited s)
    (ht : Delimited t) : x ++ s = y ++ t ↔ x = y ∧ s = t := by
  constructor
  · intro h
    have htake {z u : Bytes} (hz : NumberText z) (hu : Delimited u) : (z ++ u).takeWhile isNumeric = z := by
      rw [takeWhile_append_of_head z u hu.not_numeric]
      exact List.takeWhile_eq_self_iff.mpr hz.numeric
    have hxy : x = y := by rw [← htake hx hs,h,htake hy ht]
    subst hxy
    exact ⟨rfl,List.append_cancel_left h⟩
  · rintro ⟨rfl,rfl⟩
    rfl

/-- The quote that ends a string is where the scan finds it. -/
theorem renderString_cancel {a b s t : Bytes} (ha : 0 ∉ a) (hb : 0 ∉ b) :
    renderString a ++ s = renderString b ++ t ↔ a = b ∧ s = t := by
  constructor
  · intro h
    simp only [renderString,List.cons_append,List.append_assoc,List.nil_append] at h
    replace h := (List.cons.inj h).2
    have hlen : (a.flatMap escape).length = (b.flatMap escape).length := by
      have h1 := congrArg scanString h
      rw [scanString_escape a s ha,scanString_escape b t hb] at h1
      exact (Prod.mk.inj h1).1
    obtain ⟨hab,hst⟩ := List.append_inj h hlen
    refine ⟨?_,(List.cons.inj hst).2⟩
    rw [← dequote_escape a,hab,dequote_escape]
  · rintro ⟨rfl,rfl⟩
    rfl

theorem solidElems_mem {vs : List (JsonNode R)} (h : solidElems vs) : ∀ v ∈ vs, v.solid := by
  induction vs with
  | nil => exact fun v hv => by cases hv
  | cons v vs ih =>
    obtain ⟨h1,h2⟩ := Bool.and_eq_true_iff.mp h
    exact List.forall_mem_cons.mpr ⟨h1,ih h2⟩

theorem solidMembers_mem {ms : List (Bytes × JsonNode R)} (h : solidMembers ms) : ∀ m ∈ ms, m.2.solid := by
  induction ms with
  | nil => exact fun m hm => by cases hm
  | cons m ms ih =>
    obtain ⟨h1,h2⟩ := Bool.and_eq_true_iff.mp h
    exact List.forall_mem_cons.mpr ⟨h1,ih h2⟩

def leadRank (c : UInt8) : Int :=
  if c = ch 'f' then 0
  else if c = ch 't' then 1
  else if c = ch '-' ∨ xjd1Isdigit c then 2
  else if c = ch 'n' then 3
  else if c = ch '"' then 4
  else if c = ch '[' then 5
  else if c = ch '\x7b' then 6
  else -1

section Render
variable [CDouble R] {Num : R → Prop}

theorem render_head (hP : Printed Num) {v : JsonNode R} (hv : NodeOf Num v) (hsolid : v.solid) :
    ∃ c t, xjd1JsonRender v = c::t ∧ leadRank c = v.rank := by
  cases v with
  | nullptr => cases hsolid
  | false => exact ⟨_,_,rfl,rfl⟩
  | true => exact ⟨_,_,rfl,rfl⟩
  | null => exact ⟨_,_,rfl,rfl⟩
  | string z => exact ⟨_,_,rfl,rfl⟩
  | array vs => cases vs <;> exact ⟨_,_,rfl,rfl⟩
  | struct ms =>
    cases ms with
    | nil => exact ⟨_,_,rfl,rfl⟩
    | cons m ms => exact ⟨_,_,rfl,rfl⟩
  | real x =>
    obtain ⟨c,t,h,hc⟩ := (hP.text x hv).head
    refine ⟨c,t,h,?_⟩
    have hf : c ≠ ch 'f' ∧ c ≠ ch 't' := by
      constructor
      all_goals
        rintro rfl
        exact absurd hc (by decide)
    rw [leadRank,if_neg hf.1,if_neg hf.2,if_pos hc]
    rfl

/-- No value starts with a closing bracket. -/
theorem render_ne_bracket (hP : Printed Num) {v : JsonNode R} (hv : NodeOf Num v) (hv' : v.solid) (s t : Bytes) :
    xjd1JsonRender v ++ s ≠ ch ']' :: t := by
  intro he
  obtain ⟨c,z,hc,hr⟩ := render_head hP hv hv'
  rw [hc] at he
  obtain rfl := (List.cons.inj he).1
  have hneg : v.rank = -1 := hr.symm
  cases v with
  | nullptr => cases hv'
  | _ => simp [JsonNode.rank,JsonNode.eJType] at hneg

/-- Texts of values of different types differ in their first byte. -/
theorem render_cancel_of_rank (hP : Printed Num) {v w : JsonNode R} (hv : NodeOf Num v) (hv' : v.solid)
    (hw : NodeOf Num w) (hw' : w.solid) {s t : Bytes}
    (h : v.rank = w.rank → (xjd1JsonRender v ++ s = xjd1JsonRender w ++ t ↔ SameNode v w ∧ s = t)) :
    xjd1JsonRender v ++ s = xjd1JsonRender w ++ t ↔ SameNode v w ∧ s = t := by
  by_cases hr : v.rank = w.rank
  · exact h hr
  · refine iff_of_false (fun he => hr ?_) fun hs => hr hs.1.rank
    obtain ⟨c,x,hc,hcv⟩ := render_head hP hv hv'
    obtain ⟨d,y,hd,hdw⟩ := render_head hP hw hw'
    rw [hc,hd,List.cons_append,List.cons_append] at he
    rw [← hcv,← hdw,(List.cons.inj he).1]

theorem delimited_elems (vs : List (JsonNode R)) (s : Bytes) : Delimited (renderElems vs ++ s) := by
  cases vs with
  | nil => exact Or.inr ⟨_,_,rfl,Or.inr (Or.inl rfl)⟩
  | cons v vs => exact Or.inr ⟨_,_,rfl,Or.inl rfl⟩

theorem delimited_members (ms : List (Bytes × JsonNode R)) (s : Bytes) : Delimited (renderMembers ms ++ s) := by
  cases ms with
  | nil => exact Or.inr ⟨_,_,rfl,Or.inr (Or.inr rfl)⟩
  | cons m ms => exact Or.inr ⟨_,_,rfl,Or.inl rfl⟩

/-- A value is taken off the front of any text that can follow it. -/
def Cancels (v w : JsonNode R) : Prop :=
  ∀ s t, Delimited s → Delimited t → (xjd1JsonRender v ++ s = xjd1JsonRender w ++ t ↔ SameNode v w ∧ s = t)

theorem renderElems_cancel {vs ws : List (JsonNode R)} (h : ∀ v ∈ vs, ∀ w ∈ ws, Cancels v w) (s t : Bytes) :
    renderElems vs ++ s = renderElems ws ++ t ↔ SameNodes vs ws ∧ s = t := by
  induction vs generalizing ws with
  | nil =>
    cases ws with
    | nil => simp [renderElems,SameNodes]
    | cons w ws => simp [renderElems,SameNodes]
  | cons v vs ih =>
    cases ws with
    | nil => simp [renderElems,SameNodes]
    | cons w ws =>
      have hv := h v List.mem_cons_self w List.mem_cons_self _ _ (delimited_elems vs s) (delimited_elems ws t)
      have hrest : renderElems vs ++ s = renderElems ws ++ t ↔ SameNodes vs ws ∧ s = t :=
        ih fun v hv w hw => h v (List.mem_cons_of_mem _ hv) w (List.mem_cons_of_mem _ hw)
      simp only [renderElems,List.cons_append,List.append_assoc,List.cons.injEq,true_and]
      rw [hv,hrest,SameNodes,and_assoc]

theorem renderMembers_cancel {vs ws : List (Bytes × JsonNode R)} (hvs : ∀ m ∈ vs, 0 ∉ m.1) (hws : ∀ m ∈ ws, 0 ∉ m.1)
    (h : ∀ v ∈ vs, ∀ w ∈ ws, Cancels v.2 w.2) (s t : Bytes) :
    renderMembers vs ++ s = renderMembers ws ++ t ↔ SameMembers vs ws ∧ s = t := by
  induction vs generalizing ws with
  | nil =>
    cases ws with
    | nil => simp [renderMembers,SameMembers]
    | cons w ws => simp [renderMembers,SameMembers]
  | cons v vs ih =>
    obtain ⟨k,v⟩ := v
    cases ws with
    | nil => simp [renderMembers,SameMembers]
    | cons w ws =>
      obtain ⟨l,w⟩ := w
      obtain ⟨hk,hvs⟩ := List.forall_mem_cons.mp hvs
      obtain ⟨hl,hws⟩ := List.forall_mem_cons.mp hws
      have hv := h _ List.mem_cons_self _ List.mem_cons_self _ _ (delimited_members vs s) (delimited_members ws t)
      have hrest : renderMembers vs ++ s = renderMembers ws ++ t ↔ SameMembers vs ws ∧ s = t :=
        ih hvs hws fun v hv w hw => h v (List.mem_cons_of_mem _ hv) w (List.mem_cons_of_mem _ hw)
      simp only [renderMembers,List.cons_append,List.append_assoc,List.cons.injEq,true_and]
      rw [renderString_cancel hk hl,List.cons.injEq,and_iff_right rfl,hv,hrest,SameMembers]
      simp only [and_assoc]

theorem renderArray_cancel (hP : Printed Num) {vs ws : List (JsonNode R)} (hvs : NodesOf Num vs) (hvs' : solidElems vs)
    (hws : NodesOf Num ws) (hws' : solidElems ws) (h : ∀ v ∈ vs, ∀ w ∈ ws, Cancels v w) (s t : Bytes) :
    xjd1JsonRender (.array vs) ++ s = xjd1JsonRender (.array ws) ++ t ↔ SameNodes vs ws ∧ s = t := by
  cases vs with
  | nil =>
    cases ws with
    | nil => simp [xjd1JsonRender,SameNodes]
    | cons w ws =>
      have hne := (render_ne_bracket hP hws.1 (solidElems_mem hws' w List.mem_cons_self) (renderElems ws ++ t) s).symm
      simpa [xjd1JsonRender,SameNodes] using hne
  | cons v vs =>
    cases ws with
    | nil =>
      have hne := render_ne_bracket hP hvs.1 (solidElems_mem hvs' v List.mem_cons_self) (renderElems vs ++ s) t
      simpa [xjd1JsonRender,SameNodes] using hne
    | cons w ws =>
      have hv := h v List.mem_cons_self w List.mem_cons_self _ _ (delimited_elems vs s) (delimited_elems ws t)
      have hrest : renderElems vs ++ s = renderElems ws ++ t ↔ SameNodes vs ws ∧ s = t :=
        renderElems_cancel (fun v hv w hw => h v (List.mem_cons_of_mem _ hv) w (List.mem_cons_of_mem _ hw)) s t
      simp only [xjd1JsonRender,List.cons_append,List.append_assoc,List.cons.injEq,true_and]
      rw [hv,hrest,SameNodes,and_assoc]

theorem renderStruct_cancel {vs ws : List (Bytes × JsonNode R)} (hvs : ∀ m ∈ vs, 0 ∉ m.1) (hws : ∀ m ∈ ws, 0 ∉ m.1)
    (h : ∀ v ∈ vs, ∀ w ∈ ws, Cancels v.2 w.2) (s t : Bytes) :
    xjd1JsonRender (.struct vs) ++ s = xjd1JsonRender (.struct ws) ++ t ↔ SameMembers vs ws ∧ s = t := by
  cases vs with
  | nil =>
    cases ws with
    | nil => simp [xjd1JsonRender,SameMembers]
    | cons w ws => simp [xjd1JsonRender,renderString,SameMembers]
  | cons v vs =>
    obtain ⟨k,v⟩ := v
    cases ws with
    | nil => simp [xjd1JsonRender,renderString,SameMembers]
    | cons w ws =>
      obtain ⟨l,w⟩ := w
      have hmembers := renderMembers_cancel hvs hws h s t
      simp only [renderMembers,List.cons_append,List.append_assoc,List.cons.injEq,true_and] at hmembers
      simp only [xjd1JsonRender,List.cons_append,List.append_assoc,List.cons.injEq,true_and]
      exact hmembers

theorem render_cancels (hP : Printed Num) {v w : JsonNode R} (hv : NodeOf Num v) (hv' : v.solid) (hw : NodeOf Num w)
    (hw' : w.solid) : Cancels v w := by
  intro s t hs ht
  induction v using JsonNode.nested generalizing w s t with
  | const v hr hz ha hm =>
    refine render_cancel_of_rank hP hv hv' hw hw' fun h => ?_
    obtain ⟨rfl,_,hsame⟩ := eq_of_rank hr hz ha hm h
    rw [List.append_right_inj,and_iff_right hsame]
  | real x =>
    refine render_cancel_of_rank hP hv hv' hw hw' fun h => ?_
    obtain ⟨y,rfl⟩ := real_of_rank h
    rw [xjd1JsonRender,xjd1JsonRender,numberText_cancel (hP.text x hv) (hP.text y hw) hs ht,hP.inj x y hv hw,SameNode]
  | string a =>
    refine render_cancel_of_rank hP hv hv' hw hw' fun h => ?_
    obtain ⟨b,rfl⟩ := string_of_rank h
    rw [xjd1JsonRender,xjd1JsonRender,renderString_cancel hv hw,SameNode]
  | array vs ih =>
    refine render_cancel_of_rank hP hv hv' hw hw' fun h => ?_
    obtain ⟨ws,rfl⟩ := array_of_rank h
    rw [SameNode]
    refine renderArray_cancel hP hv hv' hw hw' (fun v hvm w hwm => ?_) s t
    exact ih v hvm (hv.of_mem v hvm) (solidElems_mem hv' v hvm) (hw.of_mem w hwm) (solidElems_mem hw' w hwm)
  | struct vs ih =>
    refine render_cancel_of_rank hP hv hv' hw hw' fun h => ?_
    obtain ⟨ws,rfl⟩ := struct_of_rank h
    rw [SameNode]
    refine renderStruct_cancel (fun m hm => (hv.of_mem m hm).1) (fun m hm => (hw.of_mem m hm).1)
      (fun v hvm w hwm => ?_) s t
    exact ih v hvm (hv.of_mem v hvm).2 (solidMembers_mem hv' v hvm) (hw.of_mem w hwm).2 (solidMembers_mem hw' w hwm)

end Render

/-- Digits, printed as they are. -/
theorem printed_digit : Printed fun x : Int => x = 1 ∨ x = 2 := by
  refine ⟨?_,?_⟩
  · rintro x (rfl | rfl) <;> exact ⟨⟨_,[],rfl,Or.inr rfl⟩,List.all_eq_true.mp rfl⟩
  · rintro x y (rfl | rfl) (rfl | rfl)
    · exact iff_of_true rfl rfl
    · exact iff_of_false (by decide) Bool.false_ne_true
    · exact iff_of_false (by decide) Bool.false_ne_true
    · exact iff_of_true rfl rfl

end Xjd1
