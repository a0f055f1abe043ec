import Xjd1.Lib.Scan
import Xjd1.Json.Order
import Xjd1.Query.Operators

/-! What the step functions of the aggregates have gathered after any number of rows,
and what finalizing makes of it. -/
namespace Xjd1

open Fueled Fueled.Run Scan SlotSort

variable {R : Type}

def JsonNode.isNull : JsonNode R → Bool
  | .null => Bool.true
  | _ => Bool.false

def Function.isBest (f : Function) : Bool := f = .min ∨ f = .max

def unary (xs : List (JsonNode R)) : List (List (JsonNode R)) := xs.map fun x => [x]

section Spec
variable [CDouble R]

def converted (v : JsonNode R) : Option R := if (xjd1JsonToReal v).2 then none else some (xjd1JsonToReal v).1

def total (xs : List (JsonNode R)) : R := (xs.filterMap converted).foldl CDouble.add (CDouble.ofInt 0)

inductive Aggregated : Function → List (List (JsonNode R)) → JsonNode R → Prop
  | rows (n : ℕ) : Aggregated .count (List.replicate n []) (.real (CDouble.ofInt n))
  | count (xs : List (JsonNode R)) :
    Aggregated .count (unary xs) (.real (CDouble.ofInt (xs.countP fun x => !x.isNull)))
  | noMin : Aggregated .min [] .null
  | min {xs : List (JsonNode R)} {v : JsonNode R} (hv : v ∈ xs) (h : ∀ w ∈ xs, xjd1JsonCompare v w ≤ 0) :
    Aggregated .min (unary xs) v
  | noMax : Aggregated .max [] .null
  | max {xs : List (JsonNode R)} {v : JsonNode R} (hv : v ∈ xs) (h : ∀ w ∈ xs, xjd1JsonCompare w v ≤ 0) :
    Aggregated .max (unary xs) v
  | array (xs : List (JsonNode R)) : Aggregated .array (unary xs) (.array xs)
  | sum (xs : List (JsonNode R)) : Aggregated .sum (unary xs) (.real (total xs))
  | noAvg : Aggregated .avg [] .null
  | avg {xs : List (JsonNode R)} (h : xs ≠ []) :
    Aggregated .avg (unary xs) (.real (CDouble.div (total xs) (CDouble.ofInt xs.length)))

/-- Columns the step functions take: as many arguments as `xjd1FunctionInit` asks for, no null pointer
where the type of the argument is read, no more rows than an `int` counts, and for `min` and `max`
values that `xjd1JsonCompare` puts in order. -/
inductive Function.Takes : Function → List (List (JsonNode R)) → Prop
  | rows {n : ℕ} (hn : n < 2^31) : Function.Takes .count (List.replicate n [])
  | count {xs : List (JsonNode R)} (hv : .nullptr ∉ xs) (hn : (xs.countP fun x => !x.isNull) < 2^31) :
    Function.Takes .count (unary xs)
  | best {f : Function} {xs : List (JsonNode R)} (hf : f.isBest) (hv : .nullptr ∉ xs)
    (ho : Ordered xjd1JsonCompare (· ∈ xs)) : Function.Takes f (unary xs)
  | array {xs : List (JsonNode R)} (hn : xs.length < 2^31) : Function.Takes .array (unary xs)
  | sum (xs : List (JsonNode R)) : Function.Takes .sum (unary xs)
  | avg {xs : List (JsonNode R)} (hn : xs.length < 2^31) : Function.Takes .avg (unary xs)

end Spec

theorem length_unary (xs : List (JsonNode R)) : (unary xs).length = xs.length := List.length_map _

theorem unary_concat (xs : List (JsonNode R)) (x : JsonNode R) : unary (xs ++ [x]) = unary xs ++ [[x]] :=
  List.map_append

theorem unary_eq_concat {zs : List (JsonNode R)} {xs : List (List (JsonNode R))} {vs : List (JsonNode R)}
    (h : unary zs = xs ++ [vs]) : ∃ ys v, zs = ys ++ [v] ∧ xs = unary ys ∧ vs = [v] := by
  induction zs using List.reverseRecOn with
  | nil => exact absurd h.symm (List.append_ne_nil_of_right_ne_nil xs (List.cons_ne_nil vs []))
  | append_singleton ys v _ =>
    rw [unary_concat] at h
    obtain ⟨h1,h2⟩ := List.append_inj' h rfl
    exact ⟨ys,v,rfl,h1.symm,(List.singleton_inj.mp h2).symm⟩

def firstArg (vs : List (JsonNode R)) : JsonNode R := vs.headD .nullptr

theorem map_firstArg (xs : List (JsonNode R)) : (unary xs).map firstArg = xs := by
  rw [unary,List.map_map]
  exact List.map_id xs

section Tally
variable [CDouble R]

def Function.better (f : Function) (a b : JsonNode R) : Bool :=
  match f with
  | .min => xjd1JsonCompare a b < 0
  | .max => 0 < xjd1JsonCompare a b
  | _ => false

def Function.bestOf (f : Function) (xs : List (JsonNode R)) : Option (JsonNode R) :=
  scan (fun a b => f.better a b = true) xs

/-- Whether a row counts: each does for `count()`, and those with another argument than `null` for `count(x)`. -/
def counted : List (JsonNode R) → Bool
  | .null::_ => false
  | _ => true

def tally (f : Function) (xs : List (List (JsonNode R))) : AggCtx R :=
  match f, xs with
  | _, [] => .null
  | .count, xs => .count (xs.countP counted)
  | .min, xs | .max, xs => (f.bestOf (xs.map firstArg)).elim .null .node
  | .array, xs => .node (.array (xs.map firstArg))
  | .sum, xs => .node (.real (total (xs.map firstArg)))
  | .avg, xs => .avg xs.length (total (xs.map firstArg))
  | .length, _ => .null

/-- Whether the next row of a column asks to be saved. -/
def Function.asks (f : Function) (xs : List (List (JsonNode R))) (vs : List (JsonNode R)) : Bool :=
  f.isBest && (f.bestOf (xs.map firstArg)).all fun b => f.better (firstArg vs) b

omit [CDouble R] in
theorem increment_eq {n : ℕ} (h : n + 1 < 2^31) : increment (n : Int) = .ok ((n + 1 : ℕ) : Int) := by
  rw [increment,if_pos (by omega)]
  rfl

theorem total_concat (xs : List (JsonNode R)) (v : JsonNode R) : total (xs ++ [v]) =
    if (xjd1JsonToReal v).2 then total xs else CDouble.add (total xs) (xjd1JsonToReal v).1 := by
  rw [total,List.filterMap_append,List.foldl_append,List.filterMap_cons,converted]
  cases (xjd1JsonToReal v).2 <;> rfl

theorem weak_better {f : Function} (hf : f.isBest) {P : JsonNode R → Prop} (ho : Ordered xjd1JsonCompare P) :
    Weak (fun a b => f.better a b = true) P := by
  cases f with
  | min => simpa [Function.better] using weak_lt ho
  | max => simpa [Function.better] using weak_gt ho
  | _ => cases hf

theorem bestOf_concat (f : Function) (xs : List (JsonNode R)) (v : JsonNode R) :
    f.bestOf (xs ++ [v]) = if (f.bestOf xs).all fun b => f.better v b then some v else f.bestOf xs := by
  rw [Function.bestOf,scan_concat,Function.bestOf]
  cases h : scan (fun a b => f.better a b = true) xs with
  | none => rfl
  | some b => rfl

omit [CDouble R] in
theorem countP_unary (xs : List (JsonNode R)) : (unary xs).countP counted = xs.countP fun x => !x.isNull := by
  rw [unary,List.countP_map]
  congr 1
  funext x
  cases x <;> rfl

theorem Function.Takes.left {f : Function} {xs ys : List (List (JsonNode R))} (h : f.Takes (xs ++ ys)) :
    f.Takes xs := by
  generalize hc : xs ++ ys = col at h
  have hsplit : ∀ zs : List (JsonNode R), xs ++ ys = unary zs → ∃ as bs, zs = as ++ bs ∧ xs = unary as := by
    intro zs hz
    obtain ⟨as,bs,h1,h2,_⟩ := List.map_eq_append_iff.mp hz.symm
    exact ⟨as,bs,h1,h2.symm⟩
  cases h with
  | rows hn =>
    obtain ⟨h1,h2,_⟩ := List.append_eq_replicate_iff.mp hc
    rw [h2]
    exact .rows (by omega)
  | count hv hn =>
    obtain ⟨as,bs,rfl,rfl⟩ := hsplit _ hc
    rw [List.countP_append] at hn
    exact .count (fun h => hv (List.mem_append_left bs h)) (by omega)
  | best hf hv ho =>
    obtain ⟨as,bs,rfl,rfl⟩ := hsplit _ hc
    exact .best hf (fun h => hv (List.mem_append_left bs h)) (ho.mono fun x hx => List.mem_append_left bs hx)
  | array hn =>
    obtain ⟨as,bs,rfl,rfl⟩ := hsplit _ hc
    rw [List.length_append] at hn
    exact .array (by omega)
  | sum zs =>
    obtain ⟨as,bs,rfl,rfl⟩ := hsplit _ hc
    exact .sum as
  | avg hn =>
    obtain ⟨as,bs,rfl,rfl⟩ := hsplit _ hc
    rw [List.length_append] at hn
    exact .avg (by omega)

theorem Function.Takes.ordered {f : Function} {xs : List (List (JsonNode R))} (h : f.Takes xs) (hf : f.isBest) :
    Ordered xjd1JsonCompare (· ∈ xs.map firstArg) := by
  cases h with
  | best _ _ ho => rwa [map_firstArg]
  | _ => cases hf

section Step
variable {xs : List (List (JsonNode R))} {vs : List (JsonNode R)}

theorem count_created (xs : List (List (JsonNode R))) (vs : List (JsonNode R)) :
    xStep .count vs (tally .count xs) = xStep .count vs (.count (xs.countP counted)) := by
  cases xs <;> rfl

theorem count_step (hv : vs.head? ≠ some .nullptr) (hn : (xs ++ [vs]).countP counted < 2^31) :
    xStep .count vs (tally .count xs) = .ok (tally .count (xs ++ [vs]),false) := by
  have htally : (tally .count (xs ++ [vs]) : AggCtx R) = .count ((xs ++ [vs]).countP counted) := by
    cases xs <;> rfl
  have hinc : counted vs = true → (increment (xs.countP counted : Int) >>= fun n => Run.ok (AggCtx.count n,false)) =
      (.ok (.count ((xs ++ [vs]).countP counted),false) : Exec (AggCtx R × Bool)) := by
    intro h
    rw [List.countP_append,List.countP_singleton,if_pos h] at hn ⊢
    rw [increment_eq hn,ok_bind]
  rw [count_created,htally]
  cases vs with
  | nil => exact hinc rfl
  | cons v vs =>
    cases v with
    | nullptr => exact absurd rfl hv
    | null =>
      rw [List.countP_append,List.countP_singleton]
      rfl
    | _ => exact hinc rfl

theorem xStep_array (v : JsonNode R) (vs : List (JsonNode R)) : xStep .array [v] (.node (.array vs)) =
    increment vs.length >>= fun _ => .ok (.node (.array (vs ++ [v])),false) := rfl

theorem array_step {v : JsonNode R} (hn : xs.length + 1 < 2^31) :
    xStep .array [v] (tally .array xs) = .ok (tally .array (xs ++ [[v]]),false) := by
  have hcreated : xStep .array [v] (tally .array xs) = xStep .array [v] (.node (.array (xs.map firstArg))) := by
    cases xs <;> rfl
  have htally : tally .array (xs ++ [[v]]) = .node (.array (xs.map firstArg ++ [v])) := by
    cases xs
    · rfl
    · simp [tally,firstArg]
  have hinc : increment ((xs.map firstArg).length : Int) = .ok ((xs.length + 1 : ℕ) : Int) := by
    rw [List.length_map]
    exact increment_eq hn
  rw [hcreated,htally,xStep_array,hinc,ok_bind]

theorem sum_step (xs : List (List (JsonNode R))) (v : JsonNode R) :
    xStep .sum [v] (tally .sum xs) = .ok (tally .sum (xs ++ [[v]]),false) := by
  have hcreated : xStep .sum [v] (tally .sum xs) = xStep .sum [v] (.node (.real (total (xs.map firstArg)))) := by
    cases xs <;> rfl
  have htally : tally .sum (xs ++ [[v]]) = .node (.real (total (xs.map firstArg ++ [v]))) := by
    cases xs
    · rfl
    · simp [tally,firstArg]
  rw [hcreated,htally,total_concat]
  rfl

theorem xStep_avg (v : JsonNode R) (nRow : Int) (rSum : R) : xStep .avg [v] (.avg nRow rSum) =
    increment nRow >>= fun nRow => .ok (.avg nRow (if (xjd1JsonToReal v).2 then rSum
      else CDouble.add rSum (xjd1JsonToReal v).1),false) := rfl

theorem avg_step {v : JsonNode R} (hn : xs.length + 1 < 2^31) :
    xStep .avg [v] (tally .avg xs) = .ok (tally .avg (xs ++ [[v]]),false) := by
  have hcreated : xStep .avg [v] (tally .avg xs) = xStep .avg [v] (.avg xs.length (total (xs.map firstArg))) := by
    cases xs <;> rfl
  have htally : tally .avg (xs ++ [[v]]) = .avg (xs.length + 1 : ℕ) (total (xs.map firstArg ++ [v])) := by
    cases xs
    · rfl
    · simp [tally,firstArg]
  rw [hcreated,htally,total_concat,xStep_avg,increment_eq hn,ok_bind]

theorem tally_best {f : Function} (hf : f.isBest) (xs : List (List (JsonNode R))) :
    tally f xs = (f.bestOf (xs.map firstArg)).elim .null .node := by
  cases f with
  | min | max => cases xs <;> rfl
  | _ => cases hf

theorem xBestStep_eq (better : Int → Bool) {v : JsonNode R} (hv : v ≠ .nullptr) (best : Option (JsonNode R)) :
    xStep.xBestStep better v (best.elim .null .node) =
      if best.all fun b => better (xjd1JsonCompare v b) then (.node v,true) else (best.elim .null .node,false) := by
  cases best with
  | none => cases v <;> first | rfl | exact absurd rfl hv
  | some b => cases v <;> first | rfl | exact absurd rfl hv

theorem best_step {f : Function} (hf : f.isBest) {v : JsonNode R} (hv : v ≠ .nullptr)
    (xs : List (List (JsonNode R))) :
    xStep f [v] (tally f xs) = .ok (tally f (xs ++ [[v]]),f.asks xs [v]) := by
  have hx : xStep f [v] (tally f xs) = .ok (if (f.bestOf (xs.map firstArg)).all fun b => f.better v b then
      (.node v,true) else ((f.bestOf (xs.map firstArg)).elim .null .node,false)) := by
    rw [tally_best hf]
    cases f with
    | min | max => exact congrArg Run.ok (xBestStep_eq _ hv _)
    | _ => cases hf
  have hasks : f.asks xs [v] = (f.bestOf (xs.map firstArg)).all fun b => f.better v b := by
    rw [Function.asks,hf,Bool.true_and]
    rfl
  rw [hx,hasks,tally_best hf,List.map_append]
  show _ = Run.ok ((f.bestOf (xs.map firstArg ++ [v])).elim _ _,_)
  rw [bestOf_concat]
  cases (f.bestOf (xs.map firstArg)).all fun b => f.better v b <;> rfl

/-- A step takes the context of a column to that of the column with one more row. -/
theorem xStep_tally {f : Function} (h : f.Takes (xs ++ [vs])) :
    xStep f vs (tally f xs) = .ok (tally f (xs ++ [vs]),f.asks xs vs) := by
  generalize hc : xs ++ [vs] = col at h
  cases h with
  | rows hn =>
    have hvs : vs ∈ xs ++ [vs] := List.mem_append_right xs (List.mem_singleton_self vs)
    have hlen := congrArg List.length hc
    rw [List.length_replicate] at hlen
    rw [hc] at hvs
    obtain rfl := List.eq_of_mem_replicate hvs
    rw [← hc]
    exact count_step nofun (Nat.lt_of_le_of_lt List.countP_le_length (by rwa [hlen]))
  | count hv hn =>
    obtain ⟨ys,v,rfl,rfl,rfl⟩ := unary_eq_concat hc.symm
    rw [← hc]
    refine count_step (fun h => hv ?_) ?_
    · rw [Option.some.inj h]
      exact List.mem_append_right ys (List.mem_singleton_self _)
    · rwa [hc,countP_unary]
  | best hf hv ho =>
    obtain ⟨ys,v,rfl,rfl,rfl⟩ := unary_eq_concat hc.symm
    rw [← hc]
    refine best_step hf (fun h => hv ?_) _
    rw [h]
    exact List.mem_append_right ys (List.mem_singleton_self _)
  | array hn =>
    obtain ⟨ys,v,rfl,rfl,rfl⟩ := unary_eq_concat hc.symm
    rw [← hc]
    rw [List.length_append] at hn
    exact array_step (by rwa [length_unary])
  | sum zs =>
    obtain ⟨ys,v,rfl,rfl,rfl⟩ := unary_eq_concat hc.symm
    rw [← hc]
    exact sum_step _ v
  | avg hn =>
    obtain ⟨ys,v,rfl,rfl,rfl⟩ := unary_eq_concat hc.symm
    rw [← hc]
    rw [List.length_append] at hn
    exact avg_step (by rwa [length_unary])

end Step

theorem bestOf_firstBest {f : Function} (hf : f.isBest) {xs : List (JsonNode R)} (ho : Ordered xjd1JsonCompare (· ∈ xs))
    (hx : xs ≠ []) : ∃ v, f.bestOf xs = some v ∧ v ∈ xs ∧ ∀ w ∈ xs, ¬ f.better w v := by
  obtain ⟨v,hv,hbest⟩ := scan_firstBest (weak_better hf ho) hx
  exact ⟨v,hv,hbest.mem,hbest.1⟩

theorem xFinal_best {f : Function} (hf : f.isBest) {xs : List (JsonNode R)} (ho : Ordered xjd1JsonCompare (· ∈ xs)) :
    Aggregated f (unary xs) (xFinal f (tally f (unary xs))) := by
  rw [tally_best hf,map_firstArg]
  by_cases hx : xs = []
  · subst hx
    cases f with
    | min => exact .noMin
    | max => exact .noMax
    | _ => cases hf
  · obtain ⟨v,hv,hmem,hbest⟩ := bestOf_firstBest hf ho hx
    rw [hv]
    cases f with
    | min =>
      refine .min hmem fun w hw => ?_
      have hwv : ¬ xjd1JsonCompare w v < 0 := fun h => hbest w hw (decide_eq_true h)
      have hswap := ho.swap w v hw hmem
      show xjd1JsonCompare v w ≤ 0
      omega
    | max =>
      refine .max hmem fun w hw => ?_
      exact Int.not_lt.mp fun h => hbest w hw (decide_eq_true h)
    | _ => cases hf

theorem xFinal_count (xs : List (List (JsonNode R))) :
    xFinal .count (tally .count xs) = .real (CDouble.ofInt (xs.countP counted)) := by
  cases xs <;> rfl

theorem xFinal_array (xs : List (JsonNode R)) : xFinal .array (tally .array (unary xs)) = .array xs := by
  have h : xFinal .array (tally .array (unary xs)) = .array ((unary xs).map firstArg) := by
    cases xs <;> rfl
  rw [h,map_firstArg]

theorem xFinal_sum (xs : List (JsonNode R)) : xFinal .sum (tally .sum (unary xs)) = .real (total xs) := by
  have h : xFinal .sum (tally .sum (unary xs)) = .real (total ((unary xs).map firstArg)) := by
    cases xs <;> rfl
  rw [h,map_firstArg]

theorem xFinal_avg {xs : List (JsonNode R)} (hx : xs ≠ []) :
    xFinal .avg (tally .avg (unary xs)) = .real (CDouble.div (total xs) (CDouble.ofInt xs.length)) := by
  have h : xFinal .avg (tally .avg (unary xs)) =
      .real (CDouble.div (total ((unary xs).map firstArg)) (CDouble.ofInt (unary xs).length)) := by
    cases xs with
    | nil => exact absurd rfl hx
    | cons x xs => rfl
  rw [h,map_firstArg,length_unary]

theorem xFinal_tally {f : Function} {xs : List (List (JsonNode R))} (h : f.Takes xs) :
    Aggregated f xs (xFinal f (tally f xs)) := by
  cases h with
  | @rows n hn =>
    have hn : (List.replicate n ([] : List (JsonNode R))).countP counted = n := by
      rw [List.countP_replicate]
      exact if_pos rfl
    rw [xFinal_count,hn]
    exact .rows n
  | count hv hn =>
    rw [xFinal_count,countP_unary]
    exact .count _
  | best hf hv ho => exact xFinal_best hf ho
  | array hn =>
    rw [xFinal_array]
    exact .array _
  | sum xs =>
    rw [xFinal_sum]
    exact .sum xs
  | @avg xs hn =>
    by_cases hx : xs = []
    · subst hx
      exact .noAvg
    · rw [xFinal_avg hx]
      exact .avg hx

end Tally

end Xjd1
