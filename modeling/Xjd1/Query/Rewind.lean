import Xjd1.Query.Grounded
import Xjd1.Query.Neutral

/-! Rewinding a query and reading its row again: a query that has been stepped
becomes the initialised query by rewinding, and a row reads the same every time. -/
namespace Xjd1

open Fueled Fueled.Run Delivery

variable {R : Type} [CDouble R]

/-- Read document 0 so many times, one after the other. -/
def readDocs (I : Interp R) (ctx : Ctx R) : ℕ → Query R → Exec (List (JsonNode R) × Query R)
  | 0, p => .ok ([],p)
  | k+1, p => do
    let (v,p) ← I.xjd1QueryDoc ctx p 0
    let (vs,p) ← readDocs I ctx k p
    .ok (v::vs,p)

inductive Stepped (ctx : Ctx R) (p : Query R) : ℕ → Query R → Prop
  | start : Stepped ctx p 0 p
  | step {m : ℕ} {q q' : Query R} {rc : Rc} (h : Stepped ctx p m q) (hq : Steps queryStep ctx q (rc,q')) :
    Stepped ctx p (m+1) q'
  | read {m k : ℕ} {q q' : Query R} {v : JsonNode R} (h : Stepped ctx p m q)
    (hq : Returns (fun n => (interp n).xjd1QueryDoc ctx q k) (v,q')) : Stepped ctx p m q'

omit [CDouble R] in
theorem Query.Initial.clean {p : Query R} (h : p.Initial) : p.Clean := by
  rwa [Query.Clean,queryRewind_initial p h]

/-- Whatever the stage changes is undone by rewinding. -/
def Stage.Neutral (f : Stage R) : Prop :=
  ∀ ctx p rc q, p.Clean → Steps f ctx p (rc,q) → xjd1QueryRewind q = xjd1QueryRewind p

theorem queryStep_stageNeutral : Stage.Neutral (queryStep : Stage R) := by
  intro ctx p rc q hp h
  obtain ⟨n,hn⟩ := h.exists
  exact queryStep_neutral (interp_neutral n) ctx n hp hn

theorem grouped_stageNeutral : Stage.Neutral (selectStepGrouped : Stage R) := by
  intro ctx p rc q hp h
  obtain ⟨n,hn⟩ := h.exists
  exact grouped_neutral (interp_neutral n) ctx n hp hn

theorem compounded_stageNeutral : Stage.Neutral (stepCompounded : Stage R) := by
  intro ctx p rc q hp h
  obtain ⟨n,hn⟩ := h.exists
  exact stepCompounded_neutral (interp_neutral n) ctx n hp hn

theorem reads_eq {ctx : Ctx R} {p q : Query R} {k : ℕ} {v : JsonNode R} (hp : p.Clean)
    (h : Returns (fun n => (interp n).xjd1QueryDoc ctx p k) (v,q)) : q = p := by
  obtain ⟨n,hn⟩ := h.exists
  exact (interp_neutral n).queryDoc ctx p k v q hp hn

theorem Stage.Neutral.row {f : Stage R} (hf : f.Neutral) {ctx : Ctx R} {p q : Query R} {v : JsonNode R}
    (hp : p.Clean) (h : (stream f ctx).row p v q) :
    Steps f ctx p (.row,q) ∧ Reads0 ctx q (v,q) ∧ xjd1QueryRewind q = xjd1QueryRewind p := by
  obtain ⟨p',h1,h2⟩ := h
  have e1 := hf ctx p .row p' hp h1
  obtain rfl := reads_eq (hp.of_rewind e1) h2
  exact ⟨h1,h2,e1⟩

omit [CDouble R] in
/-- What a query becomes by stepping is a SELECT if it was one, with the same clauses. -/
theorem Query.simple_of_rewind {p q : Query R} {s : SimpleQuery R} (hp : p.u = .simple s)
    (h : xjd1QueryRewind q = xjd1QueryRewind p) : ∃ t, q.u = .simple t ∧ simpleRewind t = simpleRewind s := by
  rw [queryRewind_eq,queryRewind_eq p,hp,Query.mk.injEq] at h
  cases hq : q.u with
  | simple t =>
    rw [hq,queryURewind,queryURewind,QueryU.simple.injEq] at h
    exact ⟨t,rfl,h.1⟩
  | compound c =>
    rw [hq,queryURewind,queryURewind] at h
    cases h.1

theorem Stepped.rewind {ctx : Ctx R} {p q : Query R} {m : ℕ} (hp : p.Initial) (h : Stepped ctx p m q) :
    xjd1QueryRewind q = p := by
  induction h with
  | start => exact queryRewind_initial p hp
  | step _ hq ih =>
    have hc : Query.Clean _ := hp.clean.of_rewind (ih.trans (queryRewind_initial p hp).symm)
    exact (queryStep_stageNeutral ctx _ _ _ hc hq).trans ih
  | read _ hq ih =>
    have hc : Query.Clean _ := hp.clean.of_rewind (ih.trans (queryRewind_initial p hp).symm)
    rw [reads_eq hc hq,ih]

theorem Stepped.clean {ctx : Ctx R} {p q : Query R} {m : ℕ} (hp : p.Initial) (h : Stepped ctx p m q) :
    q.Clean := by rwa [Query.Clean,h.rewind hp]

/-- A rewound query delivers the rows it delivered at first. -/
theorem stepped_rewind_delivers {ctx : Ctx R} {p q : Query R} {m : ℕ} (hp : p.Initial)
    (h : Stepped ctx p m q) : xjd1QueryRewind q = p ∧ ∀ (vs : List (JsonNode R)) (t : Query R),
      Delivers (stream queryStep ctx) (xjd1QueryRewind q) vs t ↔ Delivers (stream queryStep ctx) p vs t := by
  have hq := h.rewind hp
  exact ⟨hq,fun vs t => by rw [hq]⟩

/-- `SELECT DISTINCT 1 FROM pFrom`. -/
def selectDistinctOne (pFrom : DataSrc Int) : Query Int :=
  ⟨.simple ⟨true,some (.jvalue (.real 1)),pFrom,none,none,none,none,.empty,.empty⟩,none,none,none,none,
    .datasrc,.empty,none⟩

theorem selectDistinctOne_initial (pFrom : DataSrc Int) (h : pFrom.Initial) :
    (selectDistinctOne pFrom).Initial := by
  simp [selectDistinctOne,Query.Initial,QueryU.Initial,SimpleQuery.Initial,h,Expr.Initial,optionInitial,
    itemsOptionInitial,aggsOptionInitial]

/-- The surroundings of a query at the top level, over collections that are all empty. -/
def noCollections : Ctx Int := ⟨[],.select,fun _ => []⟩

theorem noRows_initial : (.tab none .nullptr [] 0 : DataSrc Int).Initial := by
  rw [DataSrc.Initial]
  exact ⟨rfl,rfl⟩

/-- The documents of the first two sources. -/
def firstDoc : Expr Int := .id [ch 'c'] (some 0) 1

def secondDoc : Expr Int := .id [ch 'd'] (some 0) 2

/-- An element of the document of the first source. -/
def element (k : Int) : Expr Int := .bi .lb firstDoc (some (.jvalue (.real k)))

/-- The surroundings of a query at the top level, over collections of the documents 1 and 2. -/
def oneTwo : Ctx Int := ⟨[],.select,fun _ => [[ch '1'],[ch '2']]⟩

/-- `SELECT [c,d] FROM c, d LIMIT 3` -/
def selectJoined : Query Int :=
  ⟨.simple ⟨false,some (.array [⟨none,firstDoc⟩,⟨none,secondDoc⟩]),
    .comma false (.tab none .nullptr [ch 'c'] 0) (.tab none .nullptr [ch 'd'] 0),none,none,none,none,.empty,.empty⟩,none,
    none,some (.jvalue (.real 3)),none,.datasrc,.empty,none⟩

theorem selectJoined_initial : selectJoined.Initial := by
  simp [selectJoined,firstDoc,secondDoc,Query.Initial,QueryU.Initial,SimpleQuery.Initial,DataSrc.Initial,Expr.Initial,
    optionInitial,itemsInitial,itemsOptionInitial,aggsOptionInitial]

/-- Rewound after two of its three rows, `selectJoined` delivers all of them. -/
theorem stepped_rewind_delivers_joined : ∃ q, Stepped oneTwo selectJoined 2 q ∧ xjd1QueryRewind q = selectJoined ∧
    ∃ t, Delivers (stream queryStep oneTwo) (xjd1QueryRewind q)
      [.array [.real 1,.real 1],.array [.real 1,.real 2],.array [.real 2,.real 1]] t := by
  have h : ∃ q1 q2 q3 t, (queryStep (interp 5) 5 oneTwo selectJoined = .ok (.row,q1) ∧
      (interp 5).xjd1QueryDoc oneTwo q1 0 = .ok (.array [.real 1,.real 1],q1)) ∧
      (queryStep (interp 5) 5 oneTwo q1 = .ok (.row,q2) ∧
      (interp 5).xjd1QueryDoc oneTwo q2 0 = .ok (.array [.real 1,.real 2],q2)) ∧
      (queryStep (interp 5) 5 oneTwo q2 = .ok (.row,q3) ∧
      (interp 5).xjd1QueryDoc oneTwo q3 0 = .ok (.array [.real 2,.real 1],q3)) ∧
      queryStep (interp 5) 5 oneTwo q3 = .ok (.done,t) := ⟨_,_,_,_,⟨rfl,rfl⟩,⟨rfl,rfl⟩,⟨rfl,rfl⟩,rfl⟩
  obtain ⟨q1,q2,q3,t,⟨h1,d1⟩,⟨h2,d2⟩,⟨h3,d3⟩,h4⟩ := h
  have hstep {p q : Query Int} {r : Rc} (h : queryStep (interp 5) 5 oneTwo p = .ok (r,q)) :
      Steps queryStep oneTwo p (r,q) := queryStep_mono.steps 5 h
  have hdoc {q : Query Int} {v : JsonNode Int} (h : (interp 5).xjd1QueryDoc oneTwo q 0 = .ok (v,q)) :
      Returns (fun n => (interp n).xjd1QueryDoc oneTwo q 0) (v,q) := Returns.of_ok (queryDoc_mono _ _ 0) h
  have hq : Stepped oneTwo selectJoined 2 q2 := .step (.step .start (hstep h1)) (hstep h2)
  obtain ⟨hr,hd⟩ := stepped_rewind_delivers selectJoined_initial hq
  exact ⟨q2,hq,hr,t,(hd _ _).mpr (.row ⟨q1,hstep h1,hdoc d1⟩ (.row ⟨q2,hstep h2,hdoc d2⟩
    (.row ⟨q3,hstep h3,hdoc d3⟩ (.done (hstep h4)))))⟩

/-- The row can be read any number of times: every read gives the same value
and leaves the query as it is. -/
def Repeatable (ctx : Ctx R) (p : Query R) : Prop :=
  ∃ v, ∀ k, Returns (fun n => readDocs (interp n) ctx k p) (List.replicate k v,p)

theorem readDocs_replicate {ctx : Ctx R} {p : Query R} {v : JsonNode R} (h : Reads0 ctx p (v,p)) (k : ℕ) :
    Returns (fun n => readDocs (interp n) ctx k p) (List.replicate k v,p) := by
  induction k with
  | zero => exact Filter.Eventually.of_forall fun _ => rfl
  | succ k ih =>
    filter_upwards [h,ih] with n hn hk
    simp only [readDocs,hn,ok_bind,hk]
    rfl

/-- After a step to a row, the row can be read again and again exactly when there is a row to read. -/
theorem repeatable_iff {ctx : Ctx R} {p q q' : Query R} {m : ℕ} (hp : p.Initial) (hm : Stepped ctx p m q)
    (hq : Steps queryStep ctx q (.row,q')) : Repeatable ctx q' ↔ q'.HasRow ctx := by
  rw [← reads0_iff]
  constructor
  · rintro ⟨v,h⟩
    obtain ⟨n,hn⟩ := (h 1).exists
    obtain ⟨⟨w,q1⟩,h1,_⟩ := bind_eq_ok.mp hn
    exact ⟨_,Returns.of_ok (queryDoc_mono ctx q' 0) h1⟩
  · rintro ⟨⟨v,q1⟩,h⟩
    have hc : q'.Clean := (Stepped.step hm hq).clean hp
    obtain rfl := reads_eq hc h
    exact ⟨v,readDocs_replicate h⟩

/-- The row of `selectJoined` after its first step is there to be read: its sources have their documents. -/
theorem repeatable_iff_joined : ∃ q, Steps queryStep oneTwo selectJoined (.row,q) ∧ Repeatable oneTwo q := by
  have h : ∃ q, queryStep (interp 5) 5 oneTwo selectJoined = .ok (.row,q) ∧
      q.result = some (.array [⟨none,firstDoc⟩,⟨none,secondDoc⟩]) ∧
      (∀ n, identDoc (q.scopes (fun _ => oneTwo) (n+1)) (some 0) 1 = .ok (.real 1)) ∧
      ∀ n, identDoc (q.scopes (fun _ => oneTwo) (n+1)) (some 0) 2 = .ok (.real 1) :=
    ⟨_,rfl,rfl,fun _ => rfl,fun _ => rfl⟩
  obtain ⟨q,h,hr,h1,h2⟩ := h
  have hq := queryStep_mono.steps 5 h
  refine ⟨q,hq,(repeatable_iff selectJoined_initial .start hq).mpr ?_⟩
  rw [Query.HasRow,hr]
  have hdoc {k : ℕ} {z : Bytes} {v : JsonNode Int} (h : ∀ n, identDoc (q.scopes (fun _ => oneTwo) (n+1)) (some 0) k = .ok v) :
      Grounded (q.scopes fun _ => oneTwo) (.id z (some 0) k) := .id (Returns.succ_iff.mp (.of_forall h))
  exact .array (List.forall_mem_cons.mpr ⟨hdoc h1,List.forall_mem_cons.mpr ⟨hdoc h2,List.forall_mem_nil _⟩⟩)

/-- DISTINCT over no rows steps to a row that cannot be read. -/
theorem repeatable_noRows : ∃ p q : Query Int, p.Initial ∧ Steps queryStep noCollections p (.row,q) ∧
    ¬ Repeatable noCollections q := by
  have h : ∃ q, queryStep (interp 4) 4 noCollections (selectDistinctOne (.tab none .nullptr [] 0)) =
      .ok (.row,q) ∧ queryDoc (interp 3) noCollections q 0 = .stop .emptyList := ⟨_,rfl,rfl⟩
  obtain ⟨q,h,hr⟩ := h
  refine ⟨_,q,selectDistinctOne_initial _ noRows_initial,queryStep_mono.steps 4 h,?_⟩
  rintro ⟨v,hv⟩
  have h1 : readDocs (interp 4) noCollections 1 q = .stop .emptyList := bind_eq_stop.mpr (.inl hr)
  obtain ⟨n,hn,hlt⟩ := ((hv 1).and (Filter.eventually_ge_atTop 4)).exists
  have h2 := le_stop ((interp_le hlt).queryDoc noCollections _ (Ctx.le_refl _) q 0) hr
  simp only [readDocs,h2,stop_bind] at hn
  cases hn

end Xjd1
