import Xjd1.Conn.Handles

/-! When contexts and connections are released. The reference counts that are to
defer a release are counted down but never up, so nothing is deferred. -/
namespace Xjd1

open Heap

/-- A connection is released when it has been closed and its statements deleted; a
context, when it has been deleted and its connections released. -/
structure Session.Deferred (σ : Session) : Prop where
  conn : ∀ c < σ.heap.conns.length, Freed σ.heap.conns c ↔
    c ∉ σ.conns ∧ ∀ s p, Live σ.heap.stmts s p → p.pConn ≠ c
  context : ∀ x < σ.heap.contexts.length, Freed σ.heap.contexts x ↔
    x ∉ σ.contexts ∧ ∀ c p, Live σ.heap.conns c p → p.pContext ≠ some x

/-- A context is deleted after its connections, a connection closed after its
statements, and of its statements the newest is deleted first. -/
def Timely (σ : Session) : Call → Prop
  | .contextDelete (some x) => ∀ c p, Live σ.heap.conns c p → p.pContext ≠ some x
  | .close (some c) => ∀ s p, Live σ.heap.stmts s p → p.pConn ≠ c
  | .stmtDelete (some s) => ∀ p k, Live σ.heap.stmts s p → Live σ.heap.conns p.pConn k → k.pStmt = some s
  | _ => True

structure Session.Settled (σ : Session) : Prop where
  context_held : ∀ x, x ∈ σ.contexts ↔ ∃ p, Live σ.heap.contexts x p
  conn_held : ∀ c, c ∈ σ.conns ↔ ∃ p, Live σ.heap.conns c p
  stmt_held : ∀ s, s ∈ σ.stmts ↔ ∃ p, Live σ.heap.stmts s p
  context : ∀ x p, Live σ.heap.contexts x p → p.nRef ≤ 0 ∧ p.isDying = false
  conn : ∀ c p, Live σ.heap.conns c p → p.nRef ≤ 0 ∧ p.isDying = false ∧
    (∀ x, p.pContext = some x → x ∈ σ.contexts) ∧ ∃ l, NextChain σ.heap.stmts c p.pStmt l ∧ l.Nodup
  stmt : ∀ s p, Live σ.heap.stmts s p → p.nRef ≤ 0 ∧ p.pPrev = none ∧ p.pConn ∈ σ.conns

theorem Session.Settled.deferred {σ : Session} (h : σ.Settled) : σ.Deferred := by
  constructor
  · intro c hc
    constructor
    · intro hf
      have hn : c ∉ σ.conns := fun hm => by
        obtain ⟨p,hp⟩ := (h.conn_held c).mp hm
        exact hp.not_freed hf
      exact ⟨hn,fun s p hp hpc => hn (hpc ▸ (h.stmt s p hp).2.2)⟩
    · rintro ⟨hn,_⟩
      exact (live_or_freed hc).resolve_left fun hl => hn ((h.conn_held c).mpr hl)
  · intro x hx
    constructor
    · intro hf
      have hn : x ∉ σ.contexts := fun hm => by
        obtain ⟨p,hp⟩ := (h.context_held x).mp hm
        exact hp.not_freed hf
      exact ⟨hn,fun c p hp hpx => hn ((h.conn c p hp).2.2.1 x hpx)⟩
    · rintro ⟨hn,_⟩
      exact (live_or_freed hx).resolve_left fun hl => hn ((h.context_held x).mpr hl)

theorem mem_drop {held : List ℕ} {i j : ℕ} : j ∈ drop held (some i) ↔ j ∈ held ∧ j ≠ i := by
  simp [drop]

section Calls
variable {σ : Session}

theorem settled_contextNew (h : σ.Settled) : ∃ τ, σ.call .contextNew = .ok τ ∧ τ.Settled := by
  refine ⟨_,rfl,⟨fun x => ?_,h.conn_held,h.stmt_held,fun x p hp => ?_,fun c p hp => ?_,h.stmt⟩⟩
  · rw [List.mem_cons,h.context_held]
    exact exists_live_alloc.symm
  · rcases live_alloc.mp hp with ⟨_,rfl⟩ | hp
    · exact ⟨Int.le_refl 0,rfl⟩
    · exact h.context x p hp
  · obtain ⟨h1,h2,h3,h4⟩ := h.conn c p hp
    exact ⟨h1,h2,fun x hx => List.mem_cons_of_mem _ (h3 x hx),h4⟩

theorem settled_open (h : σ.Settled) {p : Option ℕ} (ha : Holds σ.contexts p) :
    ∃ τ, σ.call (.open p) = .ok τ ∧ τ.Settled := by
  refine ⟨_,rfl,⟨h.context_held,fun c => ?_,h.stmt_held,h.context,fun c k hk => ?_,fun s q hq => ?_⟩⟩
  · rw [List.mem_cons,h.conn_held]
    exact exists_live_alloc.symm
  · rcases live_alloc.mp hk with ⟨_,rfl⟩ | hk
    · refine ⟨Int.le_refl 0,rfl,fun x hx => ?_,[],.nil,List.nodup_nil⟩
      subst hx
      exact ha
    · exact h.conn c k hk
  · obtain ⟨h1,h2,h3⟩ := h.stmt s q hq
    exact ⟨h1,h2,List.mem_cons_of_mem _ h3⟩

theorem settled_contextDelete (h : σ.Settled) {p : Option ℕ} (ha : Holds σ.contexts p)
    (hc : Timely σ (.contextDelete p)) : ∃ τ, σ.call (.contextDelete p) = .ok τ ∧ τ.Settled := by
  cases p with
  | none => exact ⟨σ,rfl,h⟩
  | some x =>
    obtain ⟨p,hp⟩ := (h.context_held x).mp ha
    refine ⟨_,Session.call_contextDelete (contextDelete_live hp (h.context x p hp).1),
      ⟨fun y => ?_,h.conn_held,h.stmt_held,fun y q hq => ?_,fun c k hk => ?_,h.stmt⟩⟩
    · rw [mem_drop,h.context_held]
      exact exists_live_free.symm
    · exact h.context y q (live_free.mp hq).2
    · obtain ⟨h1,h2,h3,h4⟩ := h.conn c k hk
      refine ⟨h1,h2,fun y hy => mem_drop.mpr ⟨h3 y hy,fun e => ?_⟩,h4⟩
      exact hc c k hk (e ▸ hy)

theorem settled_close (h : σ.Settled) {p : Option ℕ} (ha : Holds σ.conns p) (hc : Timely σ (.close p)) :
    ∃ τ, σ.call (.close p) = .ok τ ∧ τ.Settled := by
  cases p with
  | none => exact ⟨σ,rfl,h⟩
  | some c =>
    obtain ⟨k,hk⟩ := (h.conn_held c).mp ha
    obtain ⟨hk0,_,hkx,_⟩ := h.conn c k hk
    obtain ⟨contexts,hclose,_,hheld,hctx⟩ := close_live hk hk0 fun x hx => by
      obtain ⟨p,hp⟩ := (h.context_held x).mp (hkx x hx)
      exact ⟨p,hp,(h.context x p hp).2⟩
    refine ⟨_,Session.call_close hclose,
      ⟨fun x => (h.context_held x).trans (hheld x).symm,fun d => ?_,h.stmt_held,fun x q hq => ?_,
        fun d k hd => h.conn d k (live_free.mp hd).2,fun s q hq => ?_⟩⟩
    · rw [mem_drop,h.conn_held]
      exact exists_live_free.symm
    · obtain ⟨p,hp,hn,hd⟩ := hctx x q hq
      obtain ⟨h1,h2⟩ := h.context x p hp
      exact ⟨Int.le_trans hn h1,hd.trans h2⟩
    · obtain ⟨h1,h2,h3⟩ := h.stmt s q hq
      exact ⟨h1,h2,mem_drop.mpr ⟨h3,hc s q hq⟩⟩

/-- The first statement of a list has no back link. -/
theorem Session.Settled.head (h : σ.Settled) {c : ℕ} {k : Xjd1Conn} (hk : Live σ.heap.conns c k) :
    ∀ q, k.pStmt = some q → ∃ r, Live σ.heap.stmts q r ∧ r.pPrev = none := by
  intro q hq
  obtain ⟨_,_,_,l,hl,_⟩ := h.conn c k hk
  rw [hq] at hl
  cases hl with
  | cons hs _ _ => exact ⟨_,hs,(h.stmt q _ hs).2.1⟩

theorem settled_stmtNew (h : σ.Settled) {c : ℕ} {b : Bool} (ha : c ∈ σ.conns) :
    ∃ τ, σ.call (.stmtNew c b) = .ok τ ∧ τ.Settled := by
  obtain ⟨k,hk⟩ := (h.conn_held c).mp ha
  obtain ⟨hk0,hkd,hkx,l,hl,hn⟩ := h.conn c k hk
  cases b with
  | false =>
    obtain ⟨stmts,hnew,_,hlive⟩ := stmtNew_rejected hk hkd (h.head hk)
    refine ⟨_,Session.call_stmtNew hnew,⟨h.context_held,fun d => (h.conn_held d).trans (exists_live_put hk).symm,
      fun s => (h.stmt_held s).trans (by simp only [hlive]),h.context,fun d q hd => ?_,
      fun s q hq => h.stmt s q ((hlive s q).mp hq)⟩⟩
    rcases (live_put hk).mp hd with ⟨rfl,rfl⟩ | ⟨_,hd⟩
    · exact ⟨Int.le_trans (Int.sub_le_self _ (by decide)) hk0,hkd,hkx,l,hl.congr fun s _ p => (hlive s p).mpr,hn⟩
    · obtain ⟨h1,h2,h3,l,hl,hn⟩ := h.conn d q hd
      exact ⟨h1,h2,h3,l,hl.congr fun s _ p => (hlive s p).mpr,hn⟩
  | true =>
    have hkeep : ∀ s p, Live σ.heap.stmts s p →
        Live (alloc σ.heap.stmts ⟨c,k.pStmt,none,0,false⟩) s p := fun s p hs => live_alloc.mpr (.inr hs)
    refine ⟨_,Session.call_stmtNew (stmtNew_accepted hk),
      ⟨h.context_held,fun d => (h.conn_held d).trans (exists_live_put hk).symm,fun s => ?_,h.context,
        fun d q hd => ?_,fun s q hq => ?_⟩⟩
    · rw [Option.toList_some,List.singleton_append,List.mem_cons,h.stmt_held]
      exact exists_live_alloc.symm
    · rcases (live_put hk).mp hd with ⟨rfl,rfl⟩ | ⟨_,hd⟩
      · refine ⟨hk0,hkd,hkx,σ.heap.stmts.length::l,
          .cons (live_alloc.mpr (.inl ⟨rfl,rfl⟩)) rfl (hl.congr fun s _ p => hkeep s p),
          List.nodup_cons.mpr ⟨fun hm => ?_,hn⟩⟩
        obtain ⟨_,hs,_⟩ := hl.live _ hm
        exact absurd hs.lt (Nat.lt_irrefl _)
      · obtain ⟨h1,h2,h3,l,hl,hn⟩ := h.conn d q hd
        exact ⟨h1,h2,h3,l,hl.congr fun s _ p => hkeep s p,hn⟩
    · rcases live_alloc.mp hq with ⟨_,rfl⟩ | hq
      · exact ⟨Int.le_refl 0,rfl,ha⟩
      · exact h.stmt s q hq

theorem settled_stmtDelete (h : σ.Settled) {p : Option ℕ} (ha : Holds σ.stmts p)
    (hc : Timely σ (.stmtDelete p)) : ∃ τ, σ.call (.stmtDelete p) = .ok τ ∧ τ.Settled := by
  cases p with
  | none => exact ⟨σ,rfl,h⟩
  | some s =>
    obtain ⟨p,hs⟩ := (h.stmt_held s).mp ha
    obtain ⟨hp0,hprev,hpc⟩ := h.stmt s p hs
    obtain ⟨k,hk⟩ := (h.conn_held _).mp hpc
    obtain ⟨hk0,hkd,hkx,l,hl,hn⟩ := h.conn _ k hk
    -- `s` is the head of its list; what follows it is the list afterwards
    have hhead := hc p k hs hk
    rw [hhead] at hl
    cases hl with
    | @cons _ p' l hs' _ ht =>
    obtain rfl := hs'.unique hs
    obtain ⟨hsl,hn⟩ := List.nodup_cons.mp hn
    have hnext : ∀ q, p'.pNext = some q → q ≠ s ∧ ∃ r, Live σ.heap.stmts q r ∧ r.pPrev = none := by
      intro q hq
      rw [hq] at ht
      cases ht with
      | cons hq _ _ => exact ⟨fun e => hsl (e ▸ List.mem_cons_self),_,hq,(h.stmt q _ hq).2.1⟩
    obtain ⟨stmts,hdel,_,hlive⟩ := stmtDelete_head hs hp0 hprev hk hhead hkd hnext
    refine ⟨_,Session.call_stmtDelete hdel,
      ⟨h.context_held,fun d => (h.conn_held d).trans (exists_live_put hk).symm,fun t => ?_,h.context,
        fun d q hd => ?_,fun t q hq => h.stmt t q ((hlive t q).mp hq).2⟩⟩
    · rw [mem_drop,h.stmt_held]
      simp only [hlive,exists_and_left,and_comm]
    · rcases (live_put hk).mp hd with ⟨rfl,rfl⟩ | ⟨hne,hd⟩
      · exact ⟨Int.le_trans (Int.sub_le_self _ (by decide)) hk0,hkd,hkx,l,
          ht.congr fun t ht q hq => (hlive t q).mpr ⟨fun e => hsl (e ▸ ht),hq⟩,hn⟩
      · obtain ⟨h1,h2,h3,m,hm,hn⟩ := h.conn d q hd
        refine ⟨h1,h2,h3,m,hm.congr fun t ht q hq => (hlive t q).mpr ⟨fun e => hne ?_,hq⟩,hn⟩
        subst e
        obtain ⟨r,hr,hrd⟩ := hm.live t ht
        rw [← hrd,hr.unique hs]

/-- Every call that is made in time succeeds and keeps the invariant. -/
theorem settled_call (h : σ.Settled) {k : Call} (ha : σ.Allows k) (hc : Timely σ k) :
    ∃ τ, σ.call k = .ok τ ∧ τ.Settled := by
  cases k with
  | contextNew => exact settled_contextNew h
  | contextDelete p => exact settled_contextDelete h ha hc
  | «open» p => exact settled_open h ha
  | close p => exact settled_close h ha hc
  | stmtNew c b => exact settled_stmtNew h ha
  | stmtDelete p => exact settled_stmtDelete h ha hc

/-- A context deleted while one of its connections is open is released at once. -/
theorem early_contextDelete (h : σ.Settled) {x : ℕ} (ha : x ∈ σ.contexts) {τ : Session}
    (hk : σ.call (.contextDelete (some x)) = .ok τ) (hd : τ.Deferred) : Timely σ (.contextDelete (some x)) := by
  obtain ⟨p,hp⟩ := (h.context_held x).mp ha
  obtain rfl := Except.ok.inj
    (hk.symm.trans (Session.call_contextDelete (contextDelete_live hp (h.context x p hp).1)))
  have hlen : x < (free σ.heap.contexts x).length := length_free.symm ▸ hp.lt
  refine ((hd.context x hlen).mp ?_).2
  exact (live_or_freed hlen).resolve_left fun hl => (exists_live_free.mp hl).2 rfl

/-- A connection closed while one of its statements is live is released at once. -/
theorem early_close (h : σ.Settled) {c : ℕ} (ha : c ∈ σ.conns) {τ : Session}
    (hk : σ.call (.close (some c)) = .ok τ) (hd : τ.Deferred) : Timely σ (.close (some c)) := by
  obtain ⟨k,hkc⟩ := (h.conn_held c).mp ha
  obtain ⟨hk0,_,hkx,_⟩ := h.conn c k hkc
  obtain ⟨contexts,hclose,_⟩ := close_live hkc hk0 fun x hx => by
    obtain ⟨p,hp⟩ := (h.context_held x).mp (hkx x hx)
    exact ⟨p,hp,(h.context x p hp).2⟩
  obtain rfl := Except.ok.inj (hk.symm.trans (Session.call_close hclose))
  have hlen : c < (free σ.heap.conns c).length := length_free.symm ▸ hkc.lt
  refine ((hd.conn c hlen).mp ?_).2
  exact (live_or_freed hlen).resolve_left fun hl => (exists_live_free.mp hl).2 rfl

theorem early_stmtDelete (h : σ.Settled) {s : ℕ} {τ : Session}
    (hk : σ.call (.stmtDelete (some s)) = .ok τ) : Timely σ (.stmtDelete (some s)) := by
  intro p k hs hc
  by_contra hne
  obtain ⟨hp0,hprev,_⟩ := h.stmt s p hs
  have herr := stmtDelete_other hs hp0 hprev hc hne
  simp only [Session.call,herr,bind,Except.bind] at hk
  cases hk

end Calls

theorem settled_start : Session.start.Settled := by
  constructor <;> simp [Session.start,Live]

end Xjd1
