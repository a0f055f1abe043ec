import Xjd1.Query.Step

/-! The circle of calls closed: each unit of fuel is one level of calls and one
turn of every loop. -/
namespace Xjd1

open Fueled

variable {R : Type} [CDouble R]

/-- The engine whose functions call those of `I`. -/
def Interp.next (I : Interp R) (n : ℕ) : Interp R where
  xjd1ExprEval := exprEval I
  xjd1DataSrcStep := dataSrcStep I n
  selectStepCompounded := stepCompounded I n
  xjd1QueryStep := queryStep I n
  xjd1QueryDoc := queryDoc I

def interp : ℕ → Interp R
  | 0 => ⟨fun _ _ => .more,fun _ _ => .more,fun _ _ => .more,fun _ _ => .more,fun _ _ _ => .more⟩
  | n+1 => (interp n).next n

end Xjd1
