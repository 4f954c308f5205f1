import TlVoix.Matlab.Builtin
import TlVoix.Lib.Sliding
import Mathlib.Algebra.Order.Group.Unbundled.Abs

/-!
# `remove_blanc.m`

A recording is a vector of at least one sample.
-/

namespace TlVoix.Matlab

open Checked

variable {K : Type} [Ring K] [LinearOrder K]

def removeBlanc (son : List K) : Run (List K) :=
  let conv := Sliding.conv (son.map abs) (List.replicate 100 1)
  let sonSortie := conv.map fun x => decide (x > ((3 : ℕ) : K))
  match findFirst sonSortie, findLast sonSortie with
  | some a, some b => colon son a b
  -- `son([]:[])`
  | _, _ => pure []

end TlVoix.Matlab
