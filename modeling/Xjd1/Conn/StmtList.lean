import Xjd1.Conn.Handles

/-! The list of the prepared statements of a connection. `xjd1_stmt_new` sets the
forward link of the new statement but not the back link of the one behind it. -/
namespace Xjd1

open Heap

/-- The list of `c` is exactly the statements `held`, once each, and its links
are inverse to each other. -/
def WellLinked (h : Handles) (c : ℕ) (held : List ℕ) : Prop :=
  ∃ p l, Live h.conns c p ∧ NextChain h.stmts c p.pStmt l ∧ l.Nodup ∧ (∀ s, s ∈ l ↔ s ∈ held) ∧
    ∀ i s q, l[i]? = some s → Live h.stmts s q → q.pPrev = if i = 0 then none else l[i-1]?

def StmtCall : Call → Prop
  | .stmtNew c _ => c = 0
  | .stmtDelete _ => True
  | _ => False

/-- No statement is prepared next to a live one. -/
def Alone (σ : Session) : Call → Prop
  | .stmtNew _ true => σ.stmts = []
  | _ => True

def Session.opened : Session := ⟨⟨[],[some ⟨none,0,false,none⟩],[]⟩,[],[0],[]⟩

example : Session.start.call (.open none) = .ok Session.opened := rfl

inductive Session.Solo (σ : Session) : Prop
  | empty {p : Xjd1Conn} (hc : Live σ.heap.conns 0 p) (hd : p.isDying = false) (hp : p.pStmt = none)
    (hs : σ.stmts = []) (hl : ∀ i q, ¬ Live σ.heap.stmts i q)
  | one {p : Xjd1Conn} (s : ℕ) (hc : Live σ.heap.conns 0 p) (hd : p.isDying = false) (hp : p.pStmt = some s)
    (hs : σ.stmts = [s]) (hl : ∀ i q, Live σ.heap.stmts i q ↔ i = s ∧ q = ⟨0,none,none,0,false⟩)

theorem Session.Solo.wellLinked {σ : Session} (h : σ.Solo) : WellLinked σ.heap 0 σ.stmts := by
  cases h with
  | @empty p hc hd hp hs hl =>
    refine ⟨p,[],hc,hp ▸ .nil,List.nodup_nil,fun s => by rw [hs],fun i s q hi => by cases hi⟩
  | @one p s hc hd hp hs hl =>
    have hlive : Live σ.heap.stmts s ⟨0,none,none,0,false⟩ := (hl _ _).mpr ⟨rfl,rfl⟩
    refine ⟨p,[s],hc,hp ▸ .cons hlive rfl .nil,by simp,fun t => by rw [hs],fun i t q hi hq => ?_⟩
    obtain ⟨rfl,rfl⟩ := (hl t q).mp hq
    cases i with
    | zero => rfl
    | succ i => simp at hi

section Calls
variable {σ : Session}

theorem solo_new_rejected (h : σ.Solo) : ∃ τ, σ.call (.stmtNew 0 false) = .ok τ ∧ τ.Solo := by
  cases h with
  | @empty p hc hd hp hs hl =>
    obtain ⟨stmts,hn,_,hl'⟩ := stmtNew_rejected hc hd fun q hq => by rw [hp] at hq; cases hq
    exact ⟨_,Session.call_stmtNew hn,.empty (p := { p with nRef := p.nRef-1 }) (hc.put _) hd hp hs
      fun i q hi => hl i q ((hl' i q).mp hi)⟩
  | @one p s hc hd hp hs hl =>
    obtain ⟨stmts,hn,_,hl'⟩ := stmtNew_rejected hc hd fun q hq => by
      rw [hp] at hq
      cases hq
      exact ⟨_,(hl s _).mpr ⟨rfl,rfl⟩,rfl⟩
    exact ⟨_,Session.call_stmtNew hn,.one (p := { p with nRef := p.nRef-1 }) s (hc.put _) hd hp hs
      fun i q => (hl' i q).trans (hl i q)⟩

theorem solo_new_accepted (h : σ.Solo) (hs : σ.stmts = []) : ∃ τ, σ.call (.stmtNew 0 true) = .ok τ ∧ τ.Solo := by
  cases h with
  | @empty p hc hd hp _ hl =>
    refine ⟨_,Session.call_stmtNew (stmtNew_accepted hc),
      .one (p := { p with pStmt := some σ.heap.stmts.length }) σ.heap.stmts.length (hc.put _) hd rfl ?_ fun i q => ?_⟩
    · rw [hs]
      rfl
    · rw [live_alloc,hp]
      exact ⟨fun h => h.resolve_right (hl i q),.inl⟩
  | one s _ _ _ hs' _ =>
    rw [hs] at hs'
    cases hs'

theorem solo_delete (h : σ.Solo) {p : Option ℕ} (ha : Holds σ.stmts p) :
    ∃ τ, σ.call (.stmtDelete p) = .ok τ ∧ τ.Solo := by
  cases p with
  | none => exact ⟨σ,rfl,h⟩
  | some t =>
    cases h with
    | empty _ _ _ hs _ =>
      rw [Holds,hs] at ha
      cases ha
    | @one p s hc hd hp hs hl =>
      rw [Holds,hs,List.mem_singleton] at ha
      subst ha
      obtain ⟨stmts,hdel,_,hl'⟩ := stmtDelete_head ((hl t _).mpr ⟨rfl,rfl⟩) (Int.le_refl 0) rfl hc hp hd
        fun q hq => by cases hq
      refine ⟨_,Session.call_stmtDelete hdel,
        .empty (p := { p with nRef := p.nRef-1, pStmt := none }) (hc.put _) hd rfl ?_ fun i q hi => ?_⟩
      · rw [hs]
        simp [drop]
      · obtain ⟨hne,hi⟩ := (hl' i q).mp hi
        exact hne ((hl i q).mp hi).1

/-- A statement prepared next to a live one is not linked back to. -/
theorem solo_second (h : σ.Solo) (hs : σ.stmts ≠ []) {τ : Session} (hk : σ.call (.stmtNew 0 true) = .ok τ) :
    ¬ WellLinked τ.heap 0 τ.stmts := by
  cases h with
  | empty _ _ _ hs' _ => exact absurd hs' hs
  | @one p s hc hd hp _ hl =>
    obtain rfl := Except.ok.inj (hk.symm.trans (Session.call_stmtNew (stmtNew_accepted hc)))
    rintro ⟨k,l,hk,hn,_,_,hprev⟩
    obtain rfl := hk.unique (hc.put _)
    have hold : Live (alloc σ.heap.stmts ⟨0,p.pStmt,none,0,false⟩) s ⟨0,none,none,0,false⟩ :=
      live_alloc.mpr (.inr ((hl _ _).mpr ⟨rfl,rfl⟩))
    cases hn with
    | cons ht _ hn =>
      obtain rfl := ht.unique (live_alloc.mpr (.inl ⟨rfl,rfl⟩))
      simp only [hp] at hn
      cases hn with
      | cons _ _ _ =>
        have h1 := hprev 1 s _ rfl hold
        cases h1

end Calls

/-- While statements are prepared one at a time, the list stays well formed; the
next call keeps it so exactly if it goes on like that. -/
theorem stmtList_linked {σ : Session} (h : Session.Run (fun σ k => StmtCall k ∧ Alone σ k) .opened σ) :
    WellLinked σ.heap 0 σ.stmts ∧ ∀ k, StmtCall k → σ.Allows k →
      ((∃ τ, σ.call k = .ok τ ∧ WellLinked τ.heap 0 τ.stmts) ↔ Alone σ k) := by
  have hstep : ∀ σ : Session, σ.Solo → ∀ k, StmtCall k → σ.Allows k → Alone σ k → ∃ τ, σ.call k = .ok τ ∧ τ.Solo := by
    intro σ hσ k hk ha hc
    cases k with
    | stmtNew c b =>
      obtain rfl : c = 0 := hk
      cases b with
      | false => exact solo_new_rejected hσ
      | true => exact solo_new_accepted hσ hc
    | stmtDelete p => exact solo_delete hσ ha
    | _ => exact hk.elim
  have hσ : σ.Solo := by
    induction h with
    | start => exact .empty (p := ⟨none,0,false,none⟩) rfl rfl rfl rfl fun i q hi => by cases hi
    | step _ ha hc hk ih =>
      obtain ⟨τ,hτ,hsolo⟩ := hstep _ ih _ hc.1 ha hc.2
      cases hk.symm.trans hτ
      exact hsolo
  refine ⟨hσ.wellLinked,fun k hk ha => ⟨fun hw => ?_,fun hc => ?_⟩⟩
  · obtain ⟨τ,hτ,hw⟩ := hw
    cases k with
    | stmtNew c b =>
      obtain rfl : c = 0 := hk
      cases b with
      | false => trivial
      | true =>
        by_contra hne
        exact solo_second hσ hne hτ hw
    | _ => trivial
  · obtain ⟨τ,hτ,hsolo⟩ := hstep σ hσ k hk ha hc
    exact ⟨τ,hτ,hsolo.wellLinked⟩

/-- Two live statements: the second links forward to the first, which does not link
back, and deleting the first one fails the assertion. -/
theorem stmtList_linked_two : ∃ σ, Session.Run (fun _ k => StmtCall k) .opened σ ∧
    ¬ WellLinked σ.heap 0 σ.stmts ∧ σ.Allows (.stmtDelete (some 0)) ∧
    σ.call (.stmtDelete (some 0)) = .error .assertFail := by
  let σ : Session := ⟨⟨[],[some ⟨none,0,false,some 0⟩],[some ⟨0,none,none,0,false⟩]⟩,[],[0],[0]⟩
  let τ : Session :=
    ⟨⟨[],[some ⟨none,0,false,some 1⟩],[some ⟨0,none,none,0,false⟩,some ⟨0,some 0,none,0,false⟩]⟩,[],[0],[1,0]⟩
  have hσ : Session.Run (fun _ k => StmtCall k) .opened σ := .step (k := .stmtNew 0 true) .start (by decide) rfl rfl
  have hsolo : σ.Solo := .one (p := ⟨none,0,false,some 0⟩) 0 rfl rfl rfl rfl fun i q => by
    cases i <;> simp [Live,σ,eq_comm]
  have hτ : σ.call (.stmtNew 0 true) = .ok τ := rfl
  exact ⟨τ,.step (k := .stmtNew 0 true) hσ (by decide) rfl hτ,solo_second hsolo (by simp [σ]) hτ,by decide,rfl⟩

/-- A text that is not accepted, a statement that is deleted, and another one. -/
theorem stmtList_linked_one : ∃ σ, σ.stmts = [2] ∧ WellLinked σ.heap 0 σ.stmts ∧ ∀ k, StmtCall k → σ.Allows k →
    ((∃ τ, σ.call k = .ok τ ∧ WellLinked τ.heap 0 τ.stmts) ↔ Alone σ k) :=
  ⟨_,rfl,stmtList_linked (.step (k := .stmtNew 0 true) (.step (k := .stmtDelete (some 1))
    (.step (k := .stmtNew 0 true) (.step (k := .stmtNew 0 false) .start (by decide) ⟨rfl,trivial⟩ rfl)
      (by decide) ⟨rfl,rfl⟩ rfl) (by decide) ⟨trivial,trivial⟩ rfl) (by decide) ⟨rfl,rfl⟩ rfl)⟩

end Xjd1
