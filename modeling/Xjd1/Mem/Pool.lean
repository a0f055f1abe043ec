import Xjd1.Json.Text
import Xjd1.Lib.Buffer
import Xjd1.Lib.Heap
import Xjd1.Lib.Run

/-! Pooled memory (`memory.c`). Blocks are cut out of chunks, or get a chunk of their own;
all chunks are on one list and are released together. -/
namespace Xjd1

open Buffer Heap Fueled

inductive MemFault
  | released | outOfBounds | nullPointer | overflow
  deriving DecidableEq, Repr

/-- A chunk with all its bytes, of which the first 8 hold `pNext`. A byte that has not been
written has no value. -/
structure PoolChunk where
  pNext : Option ℕ
  bytes : List (Option UInt8)
  deriving DecidableEq, Repr

structure PoolPtr where
  chunk : ℕ
  offset : Int
  deriving DecidableEq, Repr

structure Pool where
  pChunk : Option ℕ
  pSpace : Option PoolPtr
  nSpace : Int
  deriving DecidableEq, Repr

def Pool.new : Pool := ⟨none,none,0⟩

def roundUp (N : Int) : Int := N + 7 - (N+7) % 8

def newChunk (m : Cells PoolChunk) (p : Pool) (n : Int) : Cells PoolChunk × Pool :=
  (alloc m ⟨p.pChunk,List.replicate n.toNat none⟩,{ p with pChunk := some m.length })

def takeSpace (m : Cells PoolChunk) (p : Pool) (N : Int) : Run MemFault (Cells PoolChunk × Pool × Option PoolPtr) :=
  match p.pSpace with
  | some x => .ok (m,{ p with pSpace := some ⟨x.chunk,x.offset+N⟩, nSpace := p.nSpace - N },some x)
  | none => if N = 0 then .ok (m,p,none) else .stop .nullPointer

/-- `xjd1PoolMalloc`, where a call of `xjd1_malloc` succeeds if `ok` is set. -/
def xjd1PoolMalloc (ok : Bool) (m : Cells PoolChunk) (p : Pool) (N : Int) :
    Run MemFault (Cells PoolChunk × Pool × Option PoolPtr) :=
  if 2^31 ≤ N + 7 then .stop .overflow
  else if 3000 / 4 < roundUp N then
    if 2^31 ≤ roundUp N + 8 then .stop .overflow
    else if ok then .ok ((newChunk m p (roundUp N + 8)).1,(newChunk m p (roundUp N + 8)).2,some ⟨m.length,8⟩)
    else .ok (m,p,none)
  else if p.nSpace < roundUp N then
    if ok then
      let (m',p') := newChunk m p (3000 + 8)
      takeSpace m' { p' with pSpace := some ⟨m.length,8⟩, nSpace := 3000 } (roundUp N)
    else .ok (m,p,none)
  else takeSpace m p (roundUp N)

def chunkAt (m : Cells PoolChunk) (i : ℕ) : Run MemFault PoolChunk :=
  match m[i]? with
  | some (some c) => .ok c
  | _ => .stop .released

def poolWrite (m : Cells PoolChunk) (x : PoolPtr) (bs : Bytes) : Run MemFault (Cells PoolChunk) := do
  let c ← chunkAt m x.chunk
  if 8 ≤ x.offset ∧ x.offset + bs.length ≤ c.bytes.length then
    .ok (put m x.chunk { c with bytes := overwrite c.bytes x.offset.toNat (bs.map some) })
  else .stop .outOfBounds

def xjd1PoolMallocZero (ok : Bool) (m : Cells PoolChunk) (p : Pool) (N : Int) :
    Run MemFault (Cells PoolChunk × Pool × Option PoolPtr) := do
  let (m,p,x) ← xjd1PoolMalloc ok m p N
  match x with
  | none => .ok (m,p,none)
  | some x => do
    let m ← poolWrite m x (List.replicate (roundUp N).toNat 0)
    .ok (m,p,some x)

def givenLength (z : Bytes) (n : Int) : Int := if n < 0 then xjd1Strlen30 (z.takeWhile (· ≠ 0)) else n

def xjd1PoolDup (ok : Bool) (m : Cells PoolChunk) (p : Pool) (z : Bytes) (n : Int) :
    Run MemFault (Cells PoolChunk × Pool × Option PoolPtr) :=
  let n := givenLength z n
  if 2^31 ≤ n + 1 then .stop .overflow
  else do
    let (m,p,x) ← xjd1PoolMalloc ok m p (n+1)
    match x with
    | none => .ok (m,p,none)
    | some x =>
      if n ≤ z.length then do
        let m ← poolWrite m x (z.take n.toNat ++ [0])
        .ok (m,p,some x)
      else .stop .outOfBounds

def poolClearTurn (s : Cells PoolChunk × Option ℕ) :
    Run MemFault (Cells PoolChunk ⊕ (Cells PoolChunk × Option ℕ)) :=
  match s.2 with
  | none => .ok (.inl s.1)
  | some i => do
    let c ← chunkAt s.1 i
    .ok (.inr (free s.1 i,c.pNext))

def xjd1PoolClear (n : ℕ) (m : Cells PoolChunk) (p : Pool) : Run MemFault (Cells PoolChunk × Pool) := do
  let m ← Run.loop poolClearTurn n (m,p.pChunk)
  .ok (m,Pool.new)

inductive PoolRequest
  | malloc (N : Int)
  | mallocZero (N : Int)
  | dup (z : Bytes) (n : Int)
  deriving DecidableEq, Repr

def PoolRequest.size : PoolRequest → Int
  | .malloc N | .mallocZero N => N
  | .dup z n => givenLength z n + 1

structure PoolBlock where
  start : PoolPtr
  size : Int
  deriving DecidableEq, Repr

structure PoolState where
  heap : Cells PoolChunk
  pool : Pool
  blocks : List PoolBlock
  deriving DecidableEq, Repr

def PoolState.start : PoolState := ⟨[],Pool.new,[]⟩

def PoolState.serve (σ : PoolState) (ok : Bool) : PoolRequest → Run MemFault (Cells PoolChunk × Pool × Option PoolPtr)
  | .malloc N => xjd1PoolMalloc ok σ.heap σ.pool N
  | .mallocZero N => xjd1PoolMallocZero ok σ.heap σ.pool N
  | .dup z n => xjd1PoolDup ok σ.heap σ.pool z n

def PoolState.request (σ : PoolState) (r : PoolRequest) (ok : Bool) : Run MemFault PoolState := do
  let (m,p,x) ← σ.serve ok r
  .ok ⟨m,p,(x.map fun x => ⟨x,r.size⟩).toList ++ σ.blocks⟩

def PoolState.run (σ : PoolState) : List (PoolRequest × Bool) → Run MemFault PoolState
  | [] => .ok σ
  | (r,ok)::rs => σ.request r ok >>= fun τ => τ.run rs

inductive ChunkList (m : Cells PoolChunk) : Option ℕ → List ℕ → Prop
  | nil : ChunkList m none []
  | cons {i : ℕ} {c : PoolChunk} {l : List ℕ} (h : Live m i c) (t : ChunkList m c.pNext l) : ChunkList m (some i) (i::l)

/-- The block, rounded up to a multiple of 8, lies inside a chunk behind its header, and is aligned. -/
def PoolBlock.Inside (m : Cells PoolChunk) (b : PoolBlock) : Prop :=
  ∃ c, Live m b.start.chunk c ∧ 8 ≤ b.start.offset ∧ 8 ∣ b.start.offset ∧
    b.start.offset + roundUp b.size ≤ c.bytes.length

def Apart (a b : PoolBlock) : Prop :=
  a.start.chunk ≠ b.start.chunk ∨ a.start.offset + roundUp a.size ≤ b.start.offset ∨
    b.start.offset + roundUp b.size ≤ a.start.offset

/-- The blocks lie inside the chunks and are pairwise apart, and each chunk is once on the list. -/
structure PoolState.Sound (σ : PoolState) : Prop where
  inside : ∀ b ∈ σ.blocks, b.Inside σ.heap
  apart : σ.blocks.Pairwise Apart
  listed : ∃ l, ChunkList σ.heap σ.pool.pChunk l ∧ l.Nodup ∧ ∀ i, i ∈ l ↔ i < σ.heap.length

/-- The free space lies behind the blocks of its chunk. -/
structure PoolState.Inv (σ : PoolState) : Prop extends σ.Sound where
  space : 0 ≤ σ.pool.nSpace ∧ (0 < σ.pool.nSpace → ∃ x c, σ.pool.pSpace = some x ∧ Live σ.heap x.chunk c ∧
    8 ≤ x.offset ∧ 8 ∣ x.offset ∧ x.offset + σ.pool.nSpace ≤ c.bytes.length ∧
    ∀ b ∈ σ.blocks, b.start.chunk = x.chunk → b.start.offset + roundUp b.size ≤ x.offset)

theorem le_roundUp (N : Int) : N ≤ roundUp N ∧ roundUp N < N + 8 ∧ 8 ∣ roundUp N := by
  rw [roundUp]
  omega

theorem inv_start : PoolState.start.Inv where
  inside := nofun
  apart := .nil
  listed := ⟨[],.nil,List.nodup_nil,fun i => iff_of_false (List.not_mem_nil) (Nat.not_lt_zero i)⟩
  space := ⟨Int.le_refl 0,fun h => absurd h (Int.lt_irrefl 0)⟩

theorem chunkAt_live {m : Cells PoolChunk} {i : ℕ} {c : PoolChunk} (h : Live m i c) : chunkAt m i = .ok c := by
  rw [chunkAt,h]

def Keeps (m m' : Cells PoolChunk) : Prop :=
  ∀ i c, Live m i c → ∃ c', Live m' i c' ∧ c'.pNext = c.pNext ∧ c'.bytes.length = c.bytes.length

theorem keeps_alloc (m : Cells PoolChunk) (c : PoolChunk) : Keeps m (alloc m c) :=
  fun _ d hd => ⟨d,live_alloc.mpr (.inr hd),rfl,rfl⟩

theorem keeps_put {m : Cells PoolChunk} {i : ℕ} {c d : PoolChunk} (hc : Live m i c) (h1 : d.pNext = c.pNext)
    (h2 : d.bytes.length = c.bytes.length) : Keeps m (put m i d) := by
  intro j e he
  by_cases hij : j = i
  · subst hij
    obtain rfl := he.unique hc
    exact ⟨d,hc.put d,h1,h2⟩
  · exact ⟨e,he.put_ne hij d,rfl,rfl⟩

theorem ChunkList.keep {m m' : Cells PoolChunk} (hm : Keeps m m') {s : Option ℕ} {l : List ℕ} (h : ChunkList m s l) :
    ChunkList m' s l := by
  induction h with
  | nil => exact .nil
  | @cons i c l h _ ih =>
    obtain ⟨c',hc,hn,_⟩ := hm i c h
    exact .cons hc (hn ▸ ih)

theorem PoolBlock.Inside.keep {m m' : Cells PoolChunk} (hm : Keeps m m') {b : PoolBlock} (h : b.Inside m) :
    b.Inside m' := by
  obtain ⟨c,hc,h1,h2,h3⟩ := h
  obtain ⟨c',hc',_,hl⟩ := hm _ c hc
  exact ⟨c',hc',h1,h2,hl ▸ h3⟩

section Requests
variable {m : Cells PoolChunk} {p : Pool} {bs : List PoolBlock}

theorem PoolState.Inv.put (h : PoolState.Inv ⟨m,p,bs⟩) {i : ℕ} {c d : PoolChunk} (hc : Live m i c)
    (h1 : d.pNext = c.pNext) (h2 : d.bytes.length = c.bytes.length) : PoolState.Inv ⟨Heap.put m i d,p,bs⟩ := by
  have hm := keeps_put hc h1 h2
  obtain ⟨l,hl,hn,hi⟩ := h.listed
  refine ⟨⟨fun b hb => (h.inside b hb).keep hm,h.apart,l,hl.keep hm,hn,fun i => by rw [hi,length_put]⟩,h.space.1,
    fun hs => ?_⟩
  obtain ⟨x,e,hx,he,h3,h4,h5,h6⟩ := h.space.2 hs
  obtain ⟨e',he',_,hl'⟩ := hm _ e he
  exact ⟨x,e',hx,he',h3,h4,hl' ▸ h5,h6⟩

theorem PoolState.Inv.newChunk (h : PoolState.Inv ⟨m,p,bs⟩) (n : Int) :
    PoolState.Inv ⟨(newChunk m p n).1,(newChunk m p n).2,bs⟩ := by
  have hm : Keeps m (Xjd1.newChunk m p n).1 := keeps_alloc m _
  obtain ⟨l,hl,hn,hi⟩ := h.listed
  refine ⟨⟨fun b hb => (h.inside b hb).keep hm,h.apart,m.length::l,.cons (live_alloc.mpr (.inl ⟨rfl,rfl⟩)) (hl.keep hm),
    List.nodup_cons.mpr ⟨fun hmem => absurd ((hi _).mp hmem) (Nat.lt_irrefl _),hn⟩,fun i => ?_⟩,h.space.1,fun hs => ?_⟩
  · rw [List.mem_cons,hi,Xjd1.newChunk,length_alloc]
    show i = m.length ∨ i < m.length ↔ i < m.length + 1
    omega
  · obtain ⟨x,e,hx,he,h3,h4,h5,h6⟩ := h.space.2 hs
    obtain ⟨e',he',_,hl'⟩ := hm _ e he
    exact ⟨x,e',hx,he',h3,h4,hl' ▸ h5,h6⟩

theorem PoolState.Inv.chunk_lt (h : PoolState.Inv ⟨m,p,bs⟩) {b : PoolBlock} (hb : b ∈ bs) :
    b.start.chunk < m.length := by
  obtain ⟨c,hc,_⟩ := h.inside b hb
  exact hc.lt

theorem PoolState.Inv.takeSpace (h : PoolState.Inv ⟨m,p,bs⟩) {N : Int} (hN : 0 < roundUp N) (hs : roundUp N ≤ p.nSpace) :
    ∃ p' x, takeSpace m p (roundUp N) = .ok (m,p',some x) ∧ PoolState.Inv ⟨m,p',⟨x,N⟩::bs⟩ := by
  obtain ⟨x,c,hx,hc,h1,h2,h3,h4⟩ := h.space.2 (Int.lt_of_lt_of_le hN hs)
  simp only at hx h3 h4
  have hr := (le_roundUp N).2.2
  refine ⟨{ p with pSpace := some ⟨x.chunk,x.offset + roundUp N⟩, nSpace := p.nSpace - roundUp N },x,
    by rw [Xjd1.takeSpace,hx],⟨?_,?_,h.listed⟩,?_⟩
  · exact List.forall_mem_cons.mpr ⟨⟨c,hc,h1,h2,by simp only; omega⟩,h.inside⟩
  · refine List.pairwise_cons.mpr ⟨fun b hb => ?_,h.apart⟩
    by_cases hbx : b.start.chunk = x.chunk
    · exact .inr (.inr (h4 b hb hbx))
    · exact .inl (Ne.symm hbx)
  · refine ⟨Int.sub_nonneg.mpr hs,fun _ => ⟨_,c,rfl,hc,by simp only; omega,Int.dvd_add h2 hr,by simp only; omega,?_⟩⟩
    refine List.forall_mem_cons.mpr ⟨fun _ => Int.le_refl _,fun b hb hbx => ?_⟩
    have h5 := h4 b hb hbx
    simp only
    omega

theorem PoolState.Inv.ownChunk (h : PoolState.Inv ⟨m,p,bs⟩) {N : Int} (hN : 0 < roundUp N) :
    PoolState.Inv ⟨(Xjd1.newChunk m p (roundUp N + 8)).1,(Xjd1.newChunk m p (roundUp N + 8)).2,⟨⟨m.length,8⟩,N⟩::bs⟩ := by
  have hn := h.newChunk (roundUp N + 8)
  refine ⟨⟨List.forall_mem_cons.mpr ⟨⟨_,live_alloc.mpr (.inl ⟨rfl,rfl⟩),Int.le_refl 8,Int.dvd_refl 8,?_⟩,hn.inside⟩,
    List.pairwise_cons.mpr ⟨fun b hb => .inl (h.chunk_lt hb).ne',hn.apart⟩,hn.listed⟩,hn.space.1,fun hs => ?_⟩
  · rw [List.length_replicate]
    simp only
    omega
  · obtain ⟨x,c,hx,hc,h1,h2,h3,h4⟩ := h.space.2 hs
    obtain ⟨c',hc',_,hl⟩ := keeps_alloc m ⟨p.pChunk,List.replicate (roundUp N + 8).toNat none⟩ _ c hc
    exact ⟨x,c',hx,hc',h1,h2,hl ▸ h3,List.forall_mem_cons.mpr ⟨fun e => absurd e hc.lt.ne',h4⟩⟩

theorem PoolState.Inv.refill (h : PoolState.Inv ⟨m,p,bs⟩) : PoolState.Inv ⟨(Xjd1.newChunk m p (3000 + 8)).1,
    { (Xjd1.newChunk m p (3000 + 8)).2 with pSpace := some ⟨m.length,8⟩, nSpace := 3000 },bs⟩ := by
  have hn := h.newChunk (3000 + 8)
  refine ⟨⟨hn.inside,hn.apart,hn.listed⟩,(by decide : (0 : Int) ≤ 3000),fun _ => ⟨_,_,rfl,
    live_alloc.mpr (.inl ⟨rfl,rfl⟩),Int.le_refl 8,Int.dvd_refl 8,?_,fun b hb e => absurd e (h.chunk_lt hb).ne⟩⟩
  rw [List.length_replicate]
  exact (by decide : (8 : Int) + 3000 ≤ ((3000 + 8 : Int).toNat : Int))

theorem malloc_inv (h : PoolState.Inv ⟨m,p,bs⟩) (ok : Bool) {N : Int} (h1 : 1 ≤ N) (h2 : N ≤ 2^30) :
    ∃ m' p' x, xjd1PoolMalloc ok m p N = .ok (m',p',x) ∧
      PoolState.Inv ⟨m',p',(x.map fun x => ⟨x,N⟩).toList ++ bs⟩ := by
  obtain ⟨hle,hlt,_⟩ := le_roundUp N
  have hpos : 0 < roundUp N := by omega
  rw [xjd1PoolMalloc,if_neg (by omega)]
  split
  · rw [if_neg (by omega)]
    cases ok with
    | false => exact ⟨m,p,none,rfl,h⟩
    | true => exact ⟨_,_,_,rfl,h.ownChunk hpos⟩
  split
  · cases ok with
    | false => exact ⟨m,p,none,rfl,h⟩
    | true =>
      obtain ⟨p',x,hx,hi⟩ := h.refill.takeSpace hpos (by simp only; omega)
      exact ⟨_,p',some x,hx,hi⟩
  · obtain ⟨p',x,hx,hi⟩ := h.takeSpace hpos (by omega)
    exact ⟨m,p',some x,hx,hi⟩

theorem write_inv {x : PoolPtr} {N : Int} (h : PoolState.Inv ⟨m,p,⟨x,N⟩::bs⟩) {z : Bytes} (hz : z.length ≤ roundUp N) :
    ∃ m', poolWrite m x z = .ok m' ∧ PoolState.Inv ⟨m',p,⟨x,N⟩::bs⟩ := by
  obtain ⟨c,hc,h1,_,h3⟩ := h.inside _ List.mem_cons_self
  simp only at h1 h3 hc
  refine ⟨_,?_,h.put (d := ⟨c.pNext,overwrite c.bytes x.offset.toNat (z.map some)⟩) hc rfl ?_⟩
  · rw [poolWrite,chunkAt_live hc,Run.ok_bind,if_pos ⟨h1,by omega⟩]
  · exact length_overwrite (by rw [List.length_map]; omega)

theorem mallocZero_inv (h : PoolState.Inv ⟨m,p,bs⟩) (ok : Bool) {N : Int} (h1 : 1 ≤ N) (h2 : N ≤ 2^30) :
    ∃ m' p' x, xjd1PoolMallocZero ok m p N = .ok (m',p',x) ∧
      PoolState.Inv ⟨m',p',(x.map fun x => ⟨x,N⟩).toList ++ bs⟩ := by
  obtain ⟨m',p',x,hm,hi⟩ := malloc_inv h ok h1 h2
  rw [xjd1PoolMallocZero,hm,Run.ok_bind]
  cases x with
  | none => exact ⟨m',p',none,rfl,hi⟩
  | some x =>
    have hle := (le_roundUp N).1
    obtain ⟨m'',hw,hi'⟩ := write_inv hi (z := List.replicate (roundUp N).toNat 0) (by
      rw [List.length_replicate]
      omega)
    exact ⟨m'',p',some x,by simp only [hw,Run.ok_bind],hi'⟩

theorem givenLength_le {z : Bytes} {n : Int} (h : n ≤ z.length) : 0 ≤ givenLength z n ∧ givenLength z n ≤ z.length := by
  rw [givenLength]
  split
  · have h1 := (List.takeWhile_prefix (fun c : UInt8 => c ≠ 0) (l := z)).length_le
    have h2 := Nat.mod_le (z.takeWhile (· ≠ 0)).length (2^30)
    rw [xjd1Strlen30]
    omega
  · omega

theorem dup_inv (h : PoolState.Inv ⟨m,p,bs⟩) (ok : Bool) {z : Bytes} {n : Int} (hz : n ≤ z.length)
    (h2 : givenLength z n + 1 ≤ 2^30) : ∃ m' p' x, xjd1PoolDup ok m p z n = .ok (m',p',x) ∧
      PoolState.Inv ⟨m',p',(x.map fun x => ⟨x,givenLength z n + 1⟩).toList ++ bs⟩ := by
  obtain ⟨h3,h4⟩ := givenLength_le hz
  obtain ⟨m',p',x,hm,hi⟩ := malloc_inv h ok (by omega) h2
  rw [xjd1PoolDup,if_neg (by omega),hm,Run.ok_bind]
  cases x with
  | none => exact ⟨m',p',none,rfl,hi⟩
  | some x =>
    have hle := (le_roundUp (givenLength z n + 1)).1
    obtain ⟨m'',hw,hi'⟩ := write_inv hi (z := z.take (givenLength z n).toNat ++ [0]) (by
      rw [List.length_append,List.length_take,List.length_singleton]
      omega)
    exact ⟨m'',p',some x,by simp only [if_pos h4,hw,Run.ok_bind],hi'⟩

end Requests

/-- A copy needs a text of the length it copies. -/
def PoolRequest.Readable : PoolRequest → Prop
  | .dup z n => n ≤ z.length
  | _ => True

def PoolRequest.Fits (r : PoolRequest) : Prop := 1 ≤ r.size ∧ r.size ≤ 2^30 ∧ r.Readable

theorem serve_inv {σ : PoolState} (h : σ.Inv) {r : PoolRequest} (hr : r.Fits) (ok : Bool) :
    ∃ m p x, σ.serve ok r = .ok (m,p,x) ∧ PoolState.Inv ⟨m,p,(x.map fun x => ⟨x,r.size⟩).toList ++ σ.blocks⟩ := by
  obtain ⟨h1,h2,hz⟩ := hr
  cases r with
  | malloc N => exact malloc_inv h ok h1 h2
  | mallocZero N => exact mallocZero_inv h ok h1 h2
  | dup z n => exact dup_inv h ok hz h2

theorem request_inv {σ : PoolState} (h : σ.Inv) {r : PoolRequest} (hr : r.Fits) (ok : Bool) :
    ∃ τ, σ.request r ok = .ok τ ∧ τ.Inv := by
  obtain ⟨m,p,x,hs,hi⟩ := serve_inv h hr ok
  exact ⟨_,by rw [PoolState.request,hs,Run.ok_bind],hi⟩

theorem run_inv {rs : List (PoolRequest × Bool)} (hrs : ∀ r ∈ rs, r.1.Fits) {σ : PoolState} (h : σ.Inv) :
    ∃ τ, σ.run rs = .ok τ ∧ τ.Inv := by
  induction rs generalizing σ with
  | nil => exact ⟨σ,rfl,h⟩
  | cons r rs ih =>
    obtain ⟨hr,hrs⟩ := List.forall_mem_cons.mp hrs
    obtain ⟨τ,hτ,hi⟩ := request_inv h hr r.2
    rw [PoolState.run,hτ,Run.ok_bind]
    exact ih hrs hi

def PoolBlock.content (m : Cells PoolChunk) (b : PoolBlock) : Option (List (Option UInt8)) :=
  m[b.start.chunk]?.join.map fun c => (c.bytes.drop b.start.offset.toNat).take (roundUp b.size).toNat

theorem PoolBlock.content_live {m : Cells PoolChunk} {b : PoolBlock} {i : ℕ} {c : PoolChunk}
    (hi : b.start.chunk = i) (h : Live m i c) :
    b.content m = some ((c.bytes.drop b.start.offset.toNat).take (roundUp b.size).toNat) := by
  rw [content,hi,h,Option.join_some,Option.map_some]

theorem write_content {m m' : Cells PoolChunk} {x : PoolPtr} {N : Int} {z : Bytes} (h : poolWrite m x z = .ok m')
    (hz : z.length ≤ roundUp N) {b : PoolBlock} (hb : b.Inside m) (ha : Apart ⟨x,N⟩ b) :
    b.content m' = b.content m := by
  obtain ⟨c,hc,h1,_,_⟩ := hb
  obtain ⟨d,hd,h⟩ := Run.bind_eq_ok.mp h
  split at h
  · rename_i hin
    cases h
    have hx : Live m x.chunk d := by
      rw [chunkAt] at hd
      split at hd
      · rename_i e he
        cases hd
        exact he
      · cases hd
    by_cases hbx : b.start.chunk = x.chunk
    · rw [PoolBlock.content_live hbx hx,PoolBlock.content_live hbx (hx.put _),Option.some.injEq]
      have hw : (z.map some).length = z.length := List.length_map _
      rcases Int.lt_or_le 0 (roundUp b.size) with hpos | hneg
      · refine overwrite_apart (by omega) ?_
        rcases ha with ha | ha | ha
        · exact absurd hbx.symm ha
        · simp only at ha
          omega
        · simp only at ha
          omega
      · rw [Int.toNat_eq_zero.mpr hneg,List.take_zero,List.take_zero]
    · rw [PoolBlock.content_live rfl hc,PoolBlock.content_live rfl (hc.put_ne hbx _)]
  · cases h

theorem takeSpace_heap {m m' : Cells PoolChunk} {p p' : Pool} {N : Int} {x : Option PoolPtr}
    (h : takeSpace m p N = .ok (m',p',x)) : m' = m := by
  rw [takeSpace] at h
  split at h
  · cases h
    rfl
  · split at h <;> cases h
    rfl

theorem content_alloc {m : Cells PoolChunk} (c : PoolChunk) {b : PoolBlock} (hb : b.Inside m) :
    b.content (alloc m c) = b.content m := by
  obtain ⟨d,hd,_⟩ := hb
  rw [PoolBlock.content_live rfl hd,PoolBlock.content_live rfl (live_alloc.mpr (.inr hd))]

section Requests
variable {m m' : Cells PoolChunk} {p p' : Pool} {bs : List PoolBlock} {N : Int} {ok : Bool}

theorem malloc_content {x : Option PoolPtr} (h : xjd1PoolMalloc ok m p N = .ok (m',p',x)) {b : PoolBlock}
    (hb : b.Inside m) : b.content m' = b.content m := by
  rw [xjd1PoolMalloc] at h
  split at h
  · cases h
  split at h
  · split at h
    · cases h
    · split at h <;> cases h
      · exact content_alloc _ hb
      · rfl
  split at h
  · split at h
    · rw [takeSpace_heap h]
      exact content_alloc _ hb
    · cases h
      rfl
  · rw [takeSpace_heap h]

theorem filled_content (h : PoolState.Inv ⟨m,p,bs⟩) (h1 : 1 ≤ N) (h2 : N ≤ 2^30) {m'' : Cells PoolChunk} {x : PoolPtr}
    (hm : xjd1PoolMalloc ok m p N = .ok (m',p',some x)) {z : Bytes} (hw : poolWrite m' x z = .ok m'')
    (hz : z.length ≤ roundUp N) {b : PoolBlock} (hb : b ∈ bs) : b.content m'' = b.content m := by
  obtain ⟨m1,p1,x1,hm1,hi⟩ := malloc_inv h ok h1 h2
  obtain ⟨rfl,rfl,rfl⟩ : m1 = m' ∧ p1 = p' ∧ x1 = some x := by
    have he := Run.ok.inj (hm1.symm.trans hm)
    exact ⟨congrArg Prod.fst he,congrArg (fun r => r.2.1) he,congrArg (fun r => r.2.2) he⟩
  have hin := hi.inside b (List.mem_cons_of_mem _ hb)
  rw [write_content hw hz hin ((List.pairwise_cons.mp hi.apart).1 b hb),malloc_content hm (h.inside b hb)]

end Requests

theorem request_content {σ τ : PoolState} (h : σ.Inv) {r : PoolRequest} (hr : r.Fits) {ok : Bool}
    (hs : σ.request r ok = .ok τ) {b : PoolBlock} (hb : b ∈ σ.blocks) : b.content τ.heap = b.content σ.heap := by
  obtain ⟨m,p,bs⟩ := σ
  obtain ⟨h1,h2,hz⟩ := hr
  obtain ⟨⟨m',p',x⟩,hserve,hτ⟩ := Run.bind_eq_ok.mp hs
  cases hτ
  have hin := h.inside b hb
  cases r with
  | malloc N => exact malloc_content hserve hin
  | mallocZero N =>
    rw [PoolState.serve,xjd1PoolMallocZero] at hserve
    obtain ⟨⟨m1,p1,x1⟩,hm,hserve⟩ := Run.bind_eq_ok.mp hserve
    cases x1 with
    | none =>
      cases hserve
      exact malloc_content hm hin
    | some x1 =>
      obtain ⟨m2,hw,hserve⟩ := Run.bind_eq_ok.mp hserve
      cases hserve
      have hle := (le_roundUp N).1
      have h1' : 1 ≤ N := h1
      exact filled_content (N := N) h h1 h2 hm hw (by rw [List.length_replicate]; omega) hb
  | dup z n =>
    obtain ⟨h3,h4⟩ := givenLength_le hz
    have hle := (le_roundUp (givenLength z n + 1)).1
    rw [PoolState.serve,xjd1PoolDup] at hserve
    split at hserve
    · cases hserve
    obtain ⟨⟨m1,p1,x1⟩,hm,hserve⟩ := Run.bind_eq_ok.mp hserve
    cases x1 with
    | none =>
      cases hserve
      exact malloc_content hm hin
    | some x1 =>
      obtain ⟨m2,hw,hserve⟩ := Run.bind_eq_ok.mp hserve
      cases hserve
      refine filled_content (N := givenLength z n + 1) h h1 h2 hm hw ?_ hb
      rw [List.length_append,List.length_take,List.length_singleton]
      omega

theorem ChunkList.free {m : Cells PoolChunk} {s : Option ℕ} {l : List ℕ} (h : ChunkList m s l) {i : ℕ} (hi : i ∉ l) :
    ChunkList (Heap.free m i) s l := by
  induction h with
  | nil => exact .nil
  | cons h _ ih =>
    exact .cons (live_free.mpr ⟨Ne.symm (List.ne_of_not_mem_cons hi),h⟩) (ih (List.not_mem_of_not_mem_cons hi))

theorem clear_loop {m : Cells PoolChunk} {s : Option ℕ} {l : List ℕ} (h : ChunkList m s l) (hn : l.Nodup) {n : ℕ}
    (hl : l.length < n) : Run.loop poolClearTurn n (m,s) = .ok (l.foldl Heap.free m) := by
  induction l generalizing m s n with
  | nil =>
    cases h
    obtain ⟨n,rfl⟩ := Nat.exists_eq_add_of_lt hl
    rfl
  | cons i l ih =>
    obtain ⟨n,rfl⟩ := Nat.exists_eq_add_of_lt hl
    rw [List.length_cons] at hl
    cases h with
    | @cons _ c _ hc t =>
      obtain ⟨hi,hn⟩ := List.nodup_cons.mp hn
      have hturn : poolClearTurn (m,some i) = .ok (.inr (Heap.free m i,c.pNext)) := by
        simp only [poolClearTurn,chunkAt_live hc,Run.ok_bind]
      simp only [Run.loop,hturn,Run.ok_bind]
      exact ih (t.free hi) hn (by rw [List.length_cons]; omega)

theorem foldl_free (l : List ℕ) (m : Cells PoolChunk) (j : ℕ) :
    (l.foldl Heap.free m)[j]? = if j ∈ l ∧ j < m.length then some none else m[j]? := by
  induction l generalizing m with
  | nil => simp
  | cons i l ih =>
    rw [List.foldl_cons,ih,length_free,Heap.free,List.getElem?_set]
    by_cases hij : i = j
    · subst hij
      by_cases hi : i < m.length
      · simp [hi]
      · simp [hi]
    · simp [hij,Ne.symm hij]

theorem PoolState.Sound.clear {σ : PoolState} (h : σ.Sound) {n : ℕ} (hn : σ.heap.length < n) :
    xjd1PoolClear n σ.heap σ.pool = .ok (σ.heap.map fun _ => none,Pool.new) := by
  obtain ⟨l,hl,hnd,hi⟩ := h.listed
  have hlen : l.length = σ.heap.length := by
    have hperm : l.Perm (List.range σ.heap.length) :=
      (List.perm_ext_iff_of_nodup hnd List.nodup_range).mpr fun i => (hi i).trans List.mem_range.symm
    rw [hperm.length_eq,List.length_range]
  have hfree : l.foldl Heap.free σ.heap = σ.heap.map fun _ => none := by
    refine List.ext_getElem? fun j => ?_
    rw [foldl_free,List.getElem?_map]
    by_cases hj : j < σ.heap.length
    · rw [if_pos ⟨(hi j).mpr hj,hj⟩,List.getElem?_eq_getElem hj,Option.map_some]
    · rw [if_neg fun h => hj h.2,List.getElem?_eq_none (Nat.le_of_not_lt hj),Option.map_none]
  rw [xjd1PoolClear,clear_loop hl hnd (hlen ▸ hn),Run.ok_bind,hfree]

/-- Any requests are served without a fault; the blocks lie inside the chunks and have no byte in common,
and clearing the pool releases every chunk once. -/
theorem pool_run_sound {rs : List (PoolRequest × Bool)} (h : ∀ r ∈ rs, r.1.Fits) :
    ∃ σ, PoolState.start.run rs = .ok σ ∧ σ.Sound ∧
      ∀ n > σ.heap.length, xjd1PoolClear n σ.heap σ.pool = .ok (σ.heap.map fun _ => none,Pool.new) := by
  obtain ⟨σ,hσ,hi⟩ := run_inv h inv_start
  exact ⟨σ,hσ,hi.toSound,fun n hn => hi.toSound.clear hn⟩

/-- A copy of `hi`, a cleared block with a chunk of its own, and a block for which there is no memory. -/
def mixedRequests : List (PoolRequest × Bool) :=
  [(.dup [ch 'h',ch 'i',0] (-1),true),(.mallocZero 800,true),(.malloc (2^30),false)]

theorem pool_run_sound_mixed : ∃ σ, PoolState.start.run mixedRequests = .ok σ ∧ σ.Sound ∧
    ∀ n > σ.heap.length, xjd1PoolClear n σ.heap σ.pool = .ok (σ.heap.map fun _ => none,Pool.new) := by
  refine pool_run_sound (List.forall_mem_cons.mpr ⟨?_,List.forall_mem_cons.mpr ⟨?_,List.forall_mem_singleton.mpr ?_⟩⟩)
  · exact ⟨by decide,by decide,(by decide : (-1 : Int) ≤ 3)⟩
  · exact ⟨by decide,by decide,trivial⟩
  · exact ⟨by decide,by decide,trivial⟩

end Xjd1
