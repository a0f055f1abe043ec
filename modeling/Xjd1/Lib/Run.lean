import Mathlib.Data.List.Forall2
import Mathlib.Data.Sum.Basic
import Mathlib.Order.Filter.AtTopBot.Basic

/-! Outcomes of a fueled computation. A run gives a value, stops at a named
fault, or asks for more fuel; only the last outcome may change when the fuel grows. -/
namespace Fueled

inductive Run (ε α : Type) : Type
  | ok (a : α)
  | stop (s : ε)
  | more
  deriving DecidableEq, Repr

namespace Run

variable {ε α β γ : Type}

def bind : Run ε α → (α → Run ε β) → Run ε β
  | .ok a, f => f a
  | .stop s, _ => .stop s
  | .more, _ => .more

instance : Monad (Run ε) where
  pure := .ok
  bind := Run.bind

@[simp] theorem pure_eq (a : α) : (pure a : Run ε α) = .ok a := rfl
@[simp] theorem ok_bind (a : α) (f : α → Run ε β) : (Run.ok a >>= f) = f a := rfl
@[simp] theorem stop_bind (s : ε) (f : α → Run ε β) : (Run.stop s >>= f) = .stop s := rfl
@[simp] theorem more_bind (f : α → Run ε β) : (Run.more >>= f) = .more := rfl

instance : LawfulMonad (Run ε) :=
  LawfulMonad.mk' (Run ε) (fun x => by cases x <;> rfl) (fun _ _ => rfl)
    (fun x _ _ => by cases x <;> rfl)

theorem bind_eq_ok {x : Run ε α} {f : α → Run ε β} {b : β} :
    (x >>= f) = .ok b ↔ ∃ a, x = .ok a ∧ f a = .ok b := by
  cases x <;> simp

theorem bind_eq_stop {x : Run ε α} {f : α → Run ε β} {s : ε} :
    (x >>= f) = .stop s ↔ x = .stop s ∨ ∃ a, x = .ok a ∧ f a = .stop s := by
  cases x <;> simp

@[simp] theorem map_ok (f : α → β) (a : α) : (f <$> (Run.ok a : Run ε α)) = .ok (f a) := rfl
@[simp] theorem map_stop (f : α → β) (s : ε) : (f <$> (Run.stop s : Run ε α)) = .stop s := rfl
@[simp] theorem map_more (f : α → β) : (f <$> (Run.more : Run ε α)) = .more := rfl

def ofOption (s : ε) : Option α → Run ε α
  | some a => .ok a
  | none => .stop s

@[simp] theorem ofOption_some (s : ε) (a : α) : ofOption s (some a) = .ok a := rfl
@[simp] theorem ofOption_none (s : ε) : (ofOption s none : Run ε α) = .stop s := rfl

protected def le (x y : Run ε α) : Prop := x = .more ∨ x = y

instance : LE (Run ε α) := ⟨Run.le⟩

@[refl] protected theorem le_refl (x : Run ε α) : x ≤ x := Or.inr rfl

protected theorem le_trans {x y z : Run ε α} (h : x ≤ y) (h' : y ≤ z) : x ≤ z := by
  rcases h with rfl | rfl
  · exact Or.inl rfl
  · exact h'

theorem more_le (x : Run ε α) : .more ≤ x := Or.inl rfl

theorem le_ok {x y : Run ε α} {a : α} (h : x ≤ y) (hx : x = .ok a) : y = .ok a := by
  rcases h with rfl | rfl
  · cases hx
  · exact hx

theorem le_stop {x y : Run ε α} {s : ε} (h : x ≤ y) (hx : x = .stop s) : y = .stop s := by
  rcases h with rfl | rfl
  · cases hx
  · exact hx

theorem bind_le_bind {x y : Run ε α} {f g : α → Run ε β} (h : x ≤ y) (hf : ∀ a, f a ≤ g a) :
    (x >>= f) ≤ (y >>= g) := by
  rcases h with rfl | rfl
  · exact more_le _
  · cases x with
    | ok a => exact hf a
    | stop s => exact Run.le_refl _
    | more => exact more_le _

theorem map_le_map {x y : Run ε α} (f : α → β) (h : x ≤ y) : (f <$> x) ≤ (f <$> y) := by
  rcases h with rfl | rfl
  · exact more_le _
  · exact Run.le_refl _

def loop {σ : Type} (body : σ → Run ε (β ⊕ σ)) : ℕ → σ → Run ε β
  | 0, _ => .more
  | n+1, s => body s >>= fun
    | .inl b => .ok b
    | .inr s => loop body n s

theorem loop_le_loop {σ : Type} {body body' : σ → Run ε (β ⊕ σ)} (h : ∀ s, body s ≤ body' s)
    {n m : ℕ} (hnm : n ≤ m) (s : σ) : loop body n s ≤ loop body' m s := by
  induction n generalizing m s with
  | zero => exact more_le _
  | succ n ih =>
    cases m with
    | zero => exact absurd hnm (Nat.not_succ_le_zero n)
    | succ m =>
      refine bind_le_bind (h s) fun r => ?_
      cases r with
      | inl b => exact Run.le_refl _
      | inr s => exact ih (Nat.le_of_succ_le_succ hnm) s

/-- A loop that keeps `P` in every turn and gives `Q` on leaving ends with `Q`. -/
theorem loop_inv {σ : Type} {body : σ → Run ε (β ⊕ σ)} {P : σ → Prop} {Q : β → Prop}
    (hstep : ∀ s r, P s → body s = .ok r → (∀ b, r = .inl b → Q b) ∧ (∀ s', r = .inr s' → P s'))
    {n : ℕ} {s : σ} {b : β} (hs : P s) (h : loop body n s = .ok b) : Q b := by
  induction n generalizing s with
  | zero => cases h
  | succ n ih =>
    rw [loop,bind_eq_ok] at h
    obtain ⟨r,hr,h⟩ := h
    have hr := hstep s r hs hr
    cases r with
    | inl b' =>
      cases h
      exact hr.1 b rfl
    | inr s' => exact ih (hr.2 s' rfl) h

/-- From some fuel on, the computation gives `a`. -/
def Returns (f : ℕ → Run ε α) (a : α) : Prop := ∀ᶠ n in Filter.atTop, f n = .ok a

def Faults (f : ℕ → Run ε α) (s : ε) : Prop := ∀ᶠ n in Filter.atTop, f n = .stop s

def Mono (f : ℕ → Run ε α) : Prop := ∀ n m, n ≤ m → f n ≤ f m

theorem Returns.of_ok {f : ℕ → Run ε α} (hf : Mono f) {n : ℕ} {a : α} (h : f n = .ok a) : Returns f a :=
  Filter.eventually_atTop.mpr ⟨n,fun m hm => le_ok (hf n m hm) h⟩

/-- Fuel counted from one gives the same outcomes. -/
theorem Returns.succ_iff {f : ℕ → Run ε α} {a : α} : Returns (fun n => f (n+1)) a ↔ Returns f a := by
  show (∀ᶠ n in Filter.atTop, f (n+1) = .ok a) ↔ ∀ᶠ n in Filter.atTop, f n = .ok a
  rw [← Filter.eventually_map (m := fun n => n+1) (P := fun n => f n = .ok a),Filter.map_add_atTop_eq_nat]

theorem Returns.unique {f : ℕ → Run ε α} {a b : α} (ha : Returns f a) (hb : Returns f b) : a = b := by
  obtain ⟨n,h1,h2⟩ := (ha.and hb).exists
  rw [h1] at h2
  cases h2
  rfl

theorem Returns.not_faults {f : ℕ → Run ε α} {a : α} {s : ε} (ha : Returns f a) : ¬ Faults f s := by
  intro hs
  obtain ⟨n,h1,h2⟩ := (ha.and hs).exists
  rw [h1] at h2
  cases h2

theorem Returns.bind {f : ℕ → Run ε α} {g : ℕ → α → Run ε β} {a : α} {b : β} (h : Returns f a)
    (h' : Returns (fun n => g n a) b) : Returns (fun n => f n >>= g n) b := by
  filter_upwards [h,h'] with n hn hn'
  rw [hn,ok_bind,hn']

theorem Returns.mapM {f : ℕ → α → Run ε β} {as : List α} {bs : List β}
    (h : List.Forall₂ (fun a b => Returns (fun n => f n a) b) as bs) : Returns (fun n => as.mapM (f n)) bs := by
  induction h with
  | nil => exact .of_forall fun _ => rfl
  | cons ha _ ih =>
    filter_upwards [ha,ih] with n hn hns
    rw [List.mapM_cons,hn,ok_bind,hns,ok_bind,pure_eq]

/-- Both parts of a sequence that gives a value give one. -/
theorem Returns.of_bind {f : ℕ → Run ε α} {g : ℕ → α → Run ε β} {b : β} (hf : Mono f)
    (hg : ∀ a, Mono fun n => g n a) (h : Returns (fun n => f n >>= g n) b) :
    ∃ a, Returns f a ∧ Returns (fun n => g n a) b := by
  obtain ⟨n,hn⟩ := h.exists
  obtain ⟨a,ha,hb⟩ := bind_eq_ok.mp hn
  exact ⟨a,.of_ok hf ha,.of_ok (hg a) hb⟩

section Loop
variable {σ : Type} {body : ℕ → σ → Run ε (β ⊕ σ)} {s s' : σ} {b : β}

theorem Returns.loop_exit (h : Returns (fun n => body n s) (.inl b)) :
    Returns (fun n => loop (body n) n s) b := by
  filter_upwards [h,Filter.eventually_gt_atTop 0] with n hn hpos
  cases n with
  | zero => exact absurd hpos (Nat.lt_irrefl 0)
  | succ n => rw [loop,hn,ok_bind]

theorem Returns.loop_turn (hm : ∀ n m, n ≤ m → ∀ s, body n s ≤ body m s)
    (h : Returns (fun n => body n s) (.inr s')) (h' : Returns (fun n => loop (body n) n s') b) :
    Returns (fun n => loop (body n) n s) b := by
  obtain ⟨N,hN⟩ := Filter.eventually_atTop.mp h'
  filter_upwards [h,Filter.eventually_gt_atTop N] with n hn hlt
  cases n with
  | zero => exact absurd hlt (Nat.not_lt_zero N)
  | succ n =>
    rw [loop,hn,ok_bind]
    exact le_ok (loop_le_loop (hm N (n+1) (Nat.le_of_lt hlt)) (Nat.le_of_lt_succ hlt) s')
      (hN N (Nat.le_refl N))

/-- The loop ends with `b` if its turns have enough fuel, after a number of turns that does not depend on it. -/
def Loops (body : ℕ → σ → Run ε (β ⊕ σ)) (s : σ) (b : β) : Prop :=
  ∃ k, ∀ᶠ n in Filter.atTop, ∀ m ≥ k, loop (body n) m s = .ok b

theorem Loops.exit (h : Returns (fun n => body n s) (.inl b)) : Loops body s b := by
  refine ⟨1,?_⟩
  filter_upwards [h] with n hn m hm
  obtain ⟨m,rfl⟩ := Nat.exists_eq_add_of_le' hm
  rw [loop,hn,ok_bind]

theorem Loops.turn (h : Returns (fun n => body n s) (.inr s')) (h' : Loops body s' b) : Loops body s b := by
  obtain ⟨k,hk⟩ := h'
  refine ⟨k+1,?_⟩
  filter_upwards [h,hk] with n hn hk m hm
  obtain ⟨m,rfl⟩ := Nat.exists_eq_add_of_le' (Nat.le_of_add_left_le hm)
  rw [loop,hn,ok_bind]
  exact hk m (Nat.le_of_succ_le_succ hm)

theorem Loops.returns (h : Loops body s b) : Returns (fun n => loop (body n) n s) b := by
  obtain ⟨k,hk⟩ := h
  filter_upwards [hk,Filter.eventually_ge_atTop k] with n hn hle
  exact hn n hle

end Loop

inductive Rel (r : α → β → Prop) : Run ε α → Run ε β → Prop
  | ok {a : α} {b : β} (h : r a b) : Rel r (.ok a) (.ok b)
  | stop (s : ε) : Rel r (.stop s) (.stop s)
  | more : Rel r .more .more

theorem Rel.refl {r : α → α → Prop} (h : ∀ a, r a a) (x : Run ε α) : Rel r x x := by
  cases x with
  | ok a => exact .ok (h a)
  | stop s => exact .stop s
  | more => exact .more

theorem Rel.of_eq {x y : Run ε α} (h : x = y) : Rel (· = ·) x y := h ▸ Rel.refl (fun _ => rfl) x

theorem Rel.eq {x y : Run ε α} (h : Rel (· = ·) x y) : x = y := by
  cases h with
  | ok h => rw [h]
  | stop s => rfl
  | more => rfl

theorem Rel.mono {r r' : α → β → Prop} (hr : ∀ a b, r a b → r' a b) {x : Run ε α} {y : Run ε β}
    (h : Rel r x y) : Rel r' x y := by
  cases h with
  | ok h => exact .ok (hr _ _ h)
  | stop s => exact .stop s
  | more => exact .more

theorem Rel.bind {γ' : Type} {r : α → β → Prop} {r' : γ → γ' → Prop} {x : Run ε α} {y : Run ε β}
    {f : α → Run ε γ} {g : β → Run ε γ'} (h : Rel r x y) (hf : ∀ a b, r a b → Rel r' (f a) (g b)) :
    Rel r' (x >>= f) (y >>= g) := by
  cases h with
  | ok h => exact hf _ _ h
  | stop s => exact .stop s
  | more => exact .more

theorem Rel.loop {σ τ : Type} {r : σ → τ → Prop} {r' : β → γ → Prop} {body : σ → Run ε (β ⊕ σ)}
    {body' : τ → Run ε (γ ⊕ τ)} (h : ∀ s t, r s t → Rel (Sum.LiftRel r' r) (body s) (body' t)) (n : ℕ)
    {s : σ} {t : τ} (hs : r s t) : Rel r' (loop body n s) (loop body' n t) := by
  induction n generalizing s t with
  | zero => exact .more
  | succ n ih =>
    refine (h s t hs).bind fun a b hab => ?_
    cases hab with
    | inl h => exact .ok h
    | inr h => exact ih h

theorem Rel.ok_left {r : α → β → Prop} {x : Run ε α} {y : Run ε β} (h : Rel r x y) {a : α}
    (hx : x = .ok a) : ∃ b, y = .ok b ∧ r a b := by
  cases h with
  | ok h => cases hx; exact ⟨_,rfl,h⟩
  | stop s => cases hx
  | more => cases hx

/-- The run does not stop at the fault `s`, and a value that it gives has the property. -/
def Avoids (s : ε) (P : α → Prop) : Run ε α → Prop
  | .ok a => P a
  | .stop t => t ≠ s
  | .more => True

theorem Avoids.ne {s : ε} {P : α → Prop} {x : Run ε α} (h : Avoids s P x) : x ≠ .stop s := by
  rintro rfl
  exact h rfl

theorem Avoids.stop {s t : ε} {P : α → Prop} (h : t ≠ s) : Avoids s P (.stop t) := h

theorem Avoids.mono {s : ε} {P Q : α → Prop} {x : Run ε α} (h : Avoids s P x) (hPQ : ∀ a, x = .ok a → P a → Q a) :
    Avoids s Q x := by
  cases x with
  | ok a => exact hPQ a rfl h
  | stop t => exact h
  | more => trivial

theorem Avoids.bind {s : ε} {P : α → Prop} {Q : β → Prop} {x : Run ε α} {f : α → Run ε β} (h : Avoids s P x)
    (hf : ∀ a, x = .ok a → P a → Avoids s Q (f a)) : Avoids s Q (x >>= f) := by
  cases x with
  | ok a => exact hf a rfl h
  | stop t => exact h
  | more => trivial

/-- A loop that keeps `P` in every turn, and leaves with `Q`. -/
theorem Avoids.loop {σ : Type} {e : ε} {P : σ → Prop} {Q : β → Prop} {f : σ → Run ε (β ⊕ σ)}
    (h : ∀ s, P s → Avoids e (Sum.elim Q P) (f s)) (n : ℕ) {s : σ} (hs : P s) : Avoids e Q (Run.loop f n s) := by
  induction n generalizing s with
  | zero => trivial
  | succ n ih =>
    refine (h s hs).bind fun r _ hr => ?_
    cases r with
    | inl b => exact hr
    | inr s' => exact ih hr

theorem Avoids.ofOption {s t : ε} (h : t ≠ s) (o : Option α) : Avoids s (fun _ => True) (ofOption t o) := by
  cases o with
  | none => exact h
  | some a => trivial

end Run
end Fueled
