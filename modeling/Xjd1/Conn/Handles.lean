import Xjd1.Lib.Heap

/-! Contexts, connections and prepared statements as the caller holds them
(`context.c`, `conn.c`, `stmt.c`). Each object keeps a reference count and a flag
for being deleted while it is still referred to; the statements of a connection
form a doubly linked list. -/
namespace Xjd1

open Heap

/-- What goes wrong in a call: an object is used after its release, or an assertion fails. -/
inductive HandleFault
  | released | assertFail
  deriving DecidableEq, Repr

abbrev Access := Except HandleFault

structure Xjd1Context where
  nRef : Int
  isDying : Bool
  deriving DecidableEq, Repr

/-- `struct xjd1`, a connection. -/
structure Xjd1Conn where
  pContext : Option ℕ
  nRef : Int
  isDying : Bool
  pStmt : Option ℕ
  deriving DecidableEq, Repr

structure Xjd1Stmt where
  pConn : ℕ
  pNext : Option ℕ
  pPrev : Option ℕ
  nRef : Int
  isDying : Bool
  deriving DecidableEq, Repr

structure Handles where
  contexts : Cells Xjd1Context
  conns : Cells Xjd1Conn
  stmts : Cells Xjd1Stmt
  deriving DecidableEq, Repr

def getContext (h : Handles) (p : ℕ) : Access Xjd1Context := read .released h.contexts p
def getConn (h : Handles) (p : ℕ) : Access Xjd1Conn := read .released h.conns p
def getStmt (h : Handles) (p : ℕ) : Access Xjd1Stmt := read .released h.stmts p

def xjd1ContextNew (h : Handles) : Handles := { h with contexts := alloc h.contexts ⟨0,false⟩ }

def xjd1ContextDelete (h : Handles) : Option ℕ → Access Handles
  | none => .ok h
  | some x => do
    let p ← getContext h x
    if 0 < p.nRef then .ok { h with contexts := put h.contexts x { p with isDying := true } }
    else .ok { h with contexts := free h.contexts x }

def xjd1ContextUnref (h : Handles) : Option ℕ → Access Handles
  | none => .ok h
  | some x => do
    let p ← getContext h x
    let h := { h with contexts := put h.contexts x { p with nRef := p.nRef-1 } }
    if p.nRef-1 ≤ 0 ∧ p.isDying then xjd1ContextDelete h (some x) else .ok h

/-- `xjd1_open`. The caller gets a connection also when the database cannot be opened. -/
def xjd1Open (h : Handles) (pContext : Option ℕ) : Handles :=
  { h with conns := alloc h.conns ⟨pContext,0,false,none⟩ }

def xjd1Close (h : Handles) : Option ℕ → Access Handles
  | none => .ok h
  | some c => do
    let pConn ← getConn h c
    let h := { h with conns := put h.conns c { pConn with isDying := true } }
    if 0 < pConn.nRef then .ok h
    else do
      let h ← xjd1ContextUnref h pConn.pContext
      .ok { h with conns := free h.conns c }

def xjd1Unref (h : Handles) (c : ℕ) : Access Handles := do
  let pConn ← getConn h c
  let h := { h with conns := put h.conns c { pConn with nRef := pConn.nRef-1 } }
  if pConn.nRef-1 ≤ 0 ∧ pConn.isDying then xjd1Close h (some c) else .ok h

def unlinkStmt (h : Handles) (s : ℕ) (pStmt : Xjd1Stmt) : Access Handles := do
  let h ← match pStmt.pPrev with
    | some q => do
      let pPrev ← getStmt h q
      .ok { h with stmts := put h.stmts q { pPrev with pNext := pStmt.pNext } }
    | none => do
      let pConn ← getConn h pStmt.pConn
      if pConn.pStmt = some s then
        .ok { h with conns := put h.conns pStmt.pConn { pConn with pStmt := pStmt.pNext } }
      else .error .assertFail
  match pStmt.pNext with
  | some q => do
    let pNext ← getStmt h q
    .ok { h with stmts := put h.stmts q { pNext with pPrev := pStmt.pPrev } }
  | none => .ok h

def xjd1StmtDelete (h : Handles) : Option ℕ → Access Handles
  | none => .ok h
  | some s => do
    let pStmt ← getStmt h s
    let h := { h with stmts := put h.stmts s { pStmt with isDying := true } }
    if 0 < pStmt.nRef then .ok h
    else do
      let h ← unlinkStmt h s pStmt
      let h ← xjd1Unref h pStmt.pConn
      .ok { h with stmts := free h.stmts s }

/-- `xjd1_stmt_new` on a text that is accepted or not: the statement is put at the
head of the list, and deleted again if the text is not accepted. -/
def xjd1StmtNew (h : Handles) (c : ℕ) (accepted : Bool) : Access (Option ℕ × Handles) := do
  let s := h.stmts.length
  let pConn ← getConn h c
  let h := { h with
    stmts := alloc h.stmts ⟨c,pConn.pStmt,none,0,false⟩
    conns := put h.conns c { pConn with pStmt := some s } }
  if accepted then .ok (some s,h)
  else do
    let h ← xjd1StmtDelete h (some s)
    .ok (none,h)

/-- Following `pNext` from `head` gives the statements `l`, all live and of the connection `c`. -/
inductive NextChain (h : Cells Xjd1Stmt) (c : ℕ) : Option ℕ → List ℕ → Prop
  | nil : NextChain h c none []
  | cons {s : ℕ} {p : Xjd1Stmt} {l : List ℕ} (hs : Live h s p) (hc : p.pConn = c)
    (ht : NextChain h c p.pNext l) : NextChain h c (some s) (s::l)

theorem NextChain.congr {h h' : Cells Xjd1Stmt} {c : ℕ} {head : Option ℕ} {l : List ℕ}
    (hn : NextChain h c head l) (hl : ∀ s ∈ l, ∀ p, Live h s p → Live h' s p) : NextChain h' c head l := by
  induction hn with
  | nil => exact .nil
  | @cons s p l hs hc _ ih =>
    exact .cons (hl s List.mem_cons_self p hs) hc (ih fun t ht => hl t (List.mem_cons_of_mem s ht))

theorem NextChain.live {h : Cells Xjd1Stmt} {c : ℕ} {head : Option ℕ} {l : List ℕ}
    (hn : NextChain h c head l) : ∀ s ∈ l, ∃ p, Live h s p ∧ p.pConn = c := by
  induction hn with
  | nil => exact fun s hs => by cases hs
  | cons hs hc _ ih => exact List.forall_mem_cons.mpr ⟨⟨_,hs,hc⟩,ih⟩

theorem unlinkStmt_head {h : Handles} {s : ℕ} {p : Xjd1Stmt} {k : Xjd1Conn} (hprev : p.pPrev = none)
    (hc : Live h.conns p.pConn k) (hk : k.pStmt = some s)
    (hq : ∀ q, p.pNext = some q → ∃ r, Live h.stmts q r ∧ r.pPrev = none) :
    unlinkStmt h s p = .ok { h with conns := put h.conns p.pConn { k with pStmt := p.pNext } } := by
  rw [unlinkStmt,hprev]
  simp only [show getConn h p.pConn = .ok k from hc.read _,bind,Except.bind,hk,if_true]
  cases hn : p.pNext with
  | none => rfl
  | some q =>
    obtain ⟨r,hr,hrp⟩ := hq q hn
    have hsame : ({ r with pPrev := none } : Xjd1Stmt) = r := by rw [← hrp]
    simp only [getStmt,hr.read,hsame,hr.put_self]

theorem unref_live {h : Handles} {c : ℕ} {k : Xjd1Conn} (hc : Live h.conns c k) (hd : k.isDying = false) :
    xjd1Unref h c = .ok { h with conns := put h.conns c { k with nRef := k.nRef-1 } } := by
  rw [xjd1Unref,show getConn h c = .ok k from hc.read _]
  simp [hd,bind,Except.bind]

/-- A reference that is given back without the object being deleted. -/
theorem contextUnref_live {h : Handles} {x : ℕ} {p : Xjd1Context} (hx : Live h.contexts x p)
    (hd : p.isDying = false) :
    xjd1ContextUnref h (some x) = .ok { h with contexts := put h.contexts x { p with nRef := p.nRef-1 } } := by
  rw [xjd1ContextUnref,show getContext h x = .ok p from hx.read _]
  simp [hd,bind,Except.bind]

theorem contextDelete_live {h : Handles} {x : ℕ} {p : Xjd1Context} (hx : Live h.contexts x p) (hp : p.nRef ≤ 0) :
    xjd1ContextDelete h (some x) = .ok { h with contexts := free h.contexts x } := by
  rw [xjd1ContextDelete,show getContext h x = .ok p from hx.read _]
  simp only [bind,Except.bind,if_neg (Int.not_lt.mpr hp)]

/-- Closing a connection without references releases it, whatever its statements are. -/
theorem close_live {h : Handles} {c : ℕ} {k : Xjd1Conn} (hc : Live h.conns c k) (hk : k.nRef ≤ 0)
    (hx : ∀ x, k.pContext = some x → ∃ p, Live h.contexts x p ∧ p.isDying = false) :
    ∃ contexts, xjd1Close h (some c) = .ok { h with contexts := contexts, conns := free h.conns c } ∧
      contexts.length = h.contexts.length ∧
      (∀ x, (∃ p, Live contexts x p) ↔ ∃ p, Live h.contexts x p) ∧
      ∀ x q, Live contexts x q → ∃ p, Live h.contexts x p ∧ q.nRef ≤ p.nRef ∧ q.isDying = p.isDying := by
  have hfree : free (put h.conns c { k with isDying := true }) c = free h.conns c := List.set_set _
  rw [xjd1Close,show getConn h c = .ok k from hc.read _]
  simp only [bind,Except.bind,if_neg (Int.not_lt.mpr hk)]
  cases hpc : k.pContext with
  | none =>
    refine ⟨h.contexts,?_,rfl,fun x => Iff.rfl,fun x q hq => ⟨q,hq,Int.le_refl _,rfl⟩⟩
    rw [← hfree,hpc]
    rfl
  | some x =>
    obtain ⟨p,hp,hd⟩ := hx x hpc
    refine ⟨put h.contexts x { p with nRef := p.nRef-1 },?_,length_put,fun y => exists_live_put hp,fun y q hq => ?_⟩
    · have hunref := contextUnref_live (h := { h with conns := put h.conns c { k with isDying := true } }) hp hd
      simp only [hpc] at hunref hfree
      simp only [hunref,hfree]
    · rcases (live_put hp).mp hq with ⟨rfl,rfl⟩ | ⟨_,hq⟩
      · exact ⟨p,hp,Int.sub_le_self _ (by decide),rfl⟩
      · exact ⟨q,hq,Int.le_refl _,rfl⟩

/-- Deleting the statement at the head of a list releases it and leaves the others as they are. -/
theorem stmtDelete_head {h : Handles} {s : ℕ} {p : Xjd1Stmt} {k : Xjd1Conn} (hs : Live h.stmts s p)
    (hp : p.nRef ≤ 0) (hprev : p.pPrev = none) (hc : Live h.conns p.pConn k) (hk : k.pStmt = some s)
    (hd : k.isDying = false) (hq : ∀ q, p.pNext = some q → q ≠ s ∧ ∃ r, Live h.stmts q r ∧ r.pPrev = none) :
    ∃ stmts, xjd1StmtDelete h (some s) = .ok { h with
        stmts := stmts
        conns := put h.conns p.pConn { k with nRef := k.nRef-1, pStmt := p.pNext } } ∧
      stmts.length = h.stmts.length ∧ ∀ i r, Live stmts i r ↔ i ≠ s ∧ Live h.stmts i r := by
  have hunlink : unlinkStmt { h with stmts := put h.stmts s { p with isDying := true } } s p = .ok { h with
      stmts := put h.stmts s { p with isDying := true }
      conns := put h.conns p.pConn { k with pStmt := p.pNext } } := by
    refine unlinkStmt_head hprev hc hk fun q hn => ?_
    obtain ⟨hqs,r,hr,hrp⟩ := hq q hn
    exact ⟨r,hr.put_ne hqs _,hrp⟩
  refine ⟨free (put h.stmts s { p with isDying := true }) s,?_,by simp,fun i r => ?_⟩
  · rw [xjd1StmtDelete,show getStmt h s = .ok p from hs.read _]
    simp only [bind,Except.bind,if_neg (Int.not_lt.mpr hp),hunlink]
    rw [unref_live (k := { k with pStmt := p.pNext }) (hc.put _) hd,put_put]
  · rw [live_free,live_put hs]
    exact ⟨fun h => ⟨h.1,h.2.elim (fun h' => absurd h'.1 h.1) fun h' => h'.2⟩,fun h => ⟨h.1,.inr h⟩⟩

/-- Deleting any other statement of the list fails the assertion, as no back link is ever set. -/
theorem stmtDelete_other {h : Handles} {s : ℕ} {p : Xjd1Stmt} {k : Xjd1Conn} (hs : Live h.stmts s p)
    (hp : p.nRef ≤ 0) (hprev : p.pPrev = none) (hc : Live h.conns p.pConn k) (hk : k.pStmt ≠ some s) :
    xjd1StmtDelete h (some s) = .error .assertFail := by
  rw [xjd1StmtDelete,show getStmt h s = .ok p from hs.read _]
  have hget : ∀ stmts, getConn { h with stmts := stmts } p.pConn = .ok k := fun _ => hc.read _
  simp only [bind,Except.bind,if_neg (Int.not_lt.mpr hp),unlinkStmt,hprev,hget,if_neg hk]

/-- A statement whose text is accepted is put at the head of the list. -/
theorem stmtNew_accepted {h : Handles} {c : ℕ} {k : Xjd1Conn} (hc : Live h.conns c k) :
    xjd1StmtNew h c true = .ok (some h.stmts.length,{ h with
      stmts := alloc h.stmts ⟨c,k.pStmt,none,0,false⟩
      conns := put h.conns c { k with pStmt := some h.stmts.length } }) := by
  rw [xjd1StmtNew,show getConn h c = .ok k from hc.read _]
  rfl

/-- A text that is not accepted leaves the statements as they were. -/
theorem stmtNew_rejected {h : Handles} {c : ℕ} {k : Xjd1Conn} (hc : Live h.conns c k) (hd : k.isDying = false)
    (hq : ∀ q, k.pStmt = some q → ∃ r, Live h.stmts q r ∧ r.pPrev = none) :
    ∃ stmts, xjd1StmtNew h c false = .ok (none,{ h with
        stmts := stmts
        conns := put h.conns c { k with nRef := k.nRef-1 } }) ∧
      stmts.length = h.stmts.length + 1 ∧ ∀ i r, Live stmts i r ↔ Live h.stmts i r := by
  obtain ⟨stmts,hdel,hlen,hl⟩ := stmtDelete_head (h := { h with
      stmts := alloc h.stmts ⟨c,k.pStmt,none,0,false⟩
      conns := put h.conns c { k with pStmt := some h.stmts.length } })
    (live_alloc.mpr (.inl ⟨rfl,rfl⟩)) (Int.le_refl 0) rfl (hc.put _) rfl hd fun q hq' => by
      obtain ⟨r,hr,hrp⟩ := hq q hq'
      exact ⟨Nat.ne_of_lt hr.lt,r,live_alloc.mpr (.inr hr),hrp⟩
  refine ⟨stmts,?_,hlen.trans length_alloc,fun i r => ?_⟩
  · rw [xjd1StmtNew,show getConn h c = .ok k from hc.read _]
    simp only [bind,Except.bind,Bool.false_eq_true,if_false]
    rw [hdel]
    simp only [put_put]
  · rw [hl,live_alloc]
    refine ⟨fun h => h.2.resolve_left fun h' => h.1 h'.1,fun h => ⟨Nat.ne_of_lt h.lt,.inr h⟩⟩

/-- The objects, and the ones the caller still holds: those it was given and has not deleted. -/
structure Session where
  heap : Handles
  contexts : List ℕ
  conns : List ℕ
  stmts : List ℕ
  deriving DecidableEq, Repr

inductive Call
  | contextNew
  | contextDelete (p : Option ℕ)
  | open (pContext : Option ℕ)
  | close (pConn : Option ℕ)
  | stmtNew (pConn : ℕ) (accepted : Bool)
  | stmtDelete (pStmt : Option ℕ)
  deriving DecidableEq, Repr

def Holds (held : List ℕ) : Option ℕ → Prop
  | none => True
  | some i => i ∈ held

/-- The caller uses only what it holds, so that it deletes each object at most once. -/
def Session.Allows (σ : Session) : Call → Prop
  | .contextNew => True
  | .contextDelete p => Holds σ.contexts p
  | .open pContext => Holds σ.contexts pContext
  | .close pConn => Holds σ.conns pConn
  | .stmtNew pConn _ => pConn ∈ σ.conns
  | .stmtDelete pStmt => Holds σ.stmts pStmt

instance (held : List ℕ) (p : Option ℕ) : Decidable (Holds held p) :=
  match p with
  | none => inferInstanceAs (Decidable True)
  | some i => inferInstanceAs (Decidable (i ∈ held))

instance (σ : Session) (k : Call) : Decidable (σ.Allows k) :=
  match k with
  | .contextNew => inferInstanceAs (Decidable True)
  | .contextDelete p => inferInstanceAs (Decidable (Holds σ.contexts p))
  | .open p => inferInstanceAs (Decidable (Holds σ.contexts p))
  | .close p => inferInstanceAs (Decidable (Holds σ.conns p))
  | .stmtNew c _ => inferInstanceAs (Decidable (c ∈ σ.conns))
  | .stmtDelete p => inferInstanceAs (Decidable (Holds σ.stmts p))

def drop (held : List ℕ) : Option ℕ → List ℕ
  | none => held
  | some i => held.filter (· ≠ i)

def Session.call (σ : Session) : Call → Access Session
  | .contextNew =>
    .ok { σ with heap := xjd1ContextNew σ.heap, contexts := σ.heap.contexts.length :: σ.contexts }
  | .contextDelete p => do
    let h ← xjd1ContextDelete σ.heap p
    .ok { σ with heap := h, contexts := drop σ.contexts p }
  | .open pContext =>
    .ok { σ with heap := xjd1Open σ.heap pContext, conns := σ.heap.conns.length :: σ.conns }
  | .close pConn => do
    let h ← xjd1Close σ.heap pConn
    .ok { σ with heap := h, conns := drop σ.conns pConn }
  | .stmtNew pConn accepted => do
    let (pStmt,h) ← xjd1StmtNew σ.heap pConn accepted
    .ok { σ with heap := h, stmts := pStmt.toList ++ σ.stmts }
  | .stmtDelete pStmt => do
    let h ← xjd1StmtDelete σ.heap pStmt
    .ok { σ with heap := h, stmts := drop σ.stmts pStmt }

section
variable {σ : Session} {h : Handles}

theorem Session.call_contextDelete {p : Option ℕ} (hk : xjd1ContextDelete σ.heap p = .ok h) :
    σ.call (.contextDelete p) = .ok { σ with heap := h, contexts := drop σ.contexts p } := by
  rw [Session.call,hk]
  rfl

theorem Session.call_close {p : Option ℕ} (hk : xjd1Close σ.heap p = .ok h) :
    σ.call (.close p) = .ok { σ with heap := h, conns := drop σ.conns p } := by
  rw [Session.call,hk]
  rfl

theorem Session.call_stmtNew {c : ℕ} {b : Bool} {s : Option ℕ} (hk : xjd1StmtNew σ.heap c b = .ok (s,h)) :
    σ.call (.stmtNew c b) = .ok { σ with heap := h, stmts := s.toList ++ σ.stmts } := by
  rw [Session.call,hk]
  rfl

theorem Session.call_stmtDelete {p : Option ℕ} (hk : xjd1StmtDelete σ.heap p = .ok h) :
    σ.call (.stmtDelete p) = .ok { σ with heap := h, stmts := drop σ.stmts p } := by
  rw [Session.call,hk]
  rfl

end

def Session.start : Session := ⟨⟨[],[],[]⟩,[],[],[]⟩

/-- The states calls lead to from `σ`, each one allowed and meeting `cond` when it is made. -/
inductive Session.Run (cond : Session → Call → Prop) (σ : Session) : Session → Prop
  | start : Run cond σ σ
  | step {τ τ' : Session} {k : Call} (h : Run cond σ τ) (ha : τ.Allows k) (hc : cond τ k)
    (hk : τ.call k = .ok τ') : Run cond σ τ'

end Xjd1
