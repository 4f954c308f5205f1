import TlVoix.Lib.Arr
import Mathlib.Algebra.Order.Monoid.WithTop
import Mathlib.Algebra.Ring.Defs

/-!
# `dist_globale.m` and `dist_local.m`

The Matlab version of the comparison of two recordings. Indices start at 1. The table
`distance_cumul` has one row and one column more than there are frames; `realmax` is read as an
infinite distance.

A coefficient that is not a number (`Inf`, `-Inf` or `NaN`) is `none`. A distance is a number, `⊤`
(`realmax`), or `NaN`, the top element above these: `min` prefers every other value to a `NaN`, and
a sum with one is one.
-/

namespace TlVoix.Matlab

open Checked

variable {K : Type}

/-- `dist_local`, on two rows of `length` coefficients; `none` is `NaN`. -/
def distLocal [Ring K] (length : ℕ) (x y : ℕ → Option K) : Option K :=
  (List.range' 1 length).foldlM (fun d i => do
    let a ← x i
    let b ← y i
    pure (d + (a - b) * (a - b))) 0

/-- The table before the loops: `realmax` everywhere, then zeros in the square `(1:2, 1:2)`. -/
def distGlobale.init [Zero K] (realmax : K) (nFramesRef nFrames : ℕ) : Arr (ℕ × ℕ) K where
  dom p := decide (1 ≤ p.1 ∧ p.1 ≤ nFramesRef + 1 ∧ 1 ≤ p.2 ∧ p.2 ≤ nFrames + 1)
  val p := some (if p.1 ≤ 2 ∧ p.2 ≤ 2 then 0 else realmax)

/-- `distance_cumul(i + 1, j + 1)`, from the cells before it. -/
def distGlobale.cell [Add K] [LinearOrder K] (distanceCumul : Arr (ℕ × ℕ) K) (dist : ℕ → ℕ → K)
    (i j : ℕ) : Run (Arr (ℕ × ℕ) K) := do
  distanceCumul.set (i + 1, j + 1)
    (min (min (← distanceCumul.get (i, j)) (← distanceCumul.get (i + 1, j)))
      (← distanceCumul.get (i, j + 1)) + dist i j)

/-- `dist_globale` for the local distances `dist i j` of the frames `i` and `j`, over distances of
any kind. -/
def distGlobale.table [AddZeroClass K] [LinearOrder K] (realmax : K) (nFramesRef nFrames : ℕ)
    (dist : ℕ → ℕ → K) : Run K := do
  let distanceCumul := distGlobale.init realmax nFramesRef nFrames
  let (_, distanceCumul) ← forUp 1 (nFramesRef + 1) distanceCumul fun i distanceCumul => do
    let (_, distanceCumul) ← forUp 1 (nFrames + 1) distanceCumul fun j distanceCumul =>
      distGlobale.cell distanceCumul dist i j
    pure distanceCumul
  distanceCumul.get (nFramesRef + 1, nFrames + 1)

/-- `dist_globale` for local distances that are numbers. -/
def distGlobale.cumul [AddZeroClass K] [LinearOrder K] (nFramesRef nFrames : ℕ)
    (dist : ℕ → ℕ → K) : Run (WithTop K) :=
  distGlobale.table ⊤ nFramesRef nFrames fun i j => (dist i j : WithTop K)

/-- A local distance among the distances. -/
def distGlobale.valeur : Option K → WithTop (WithTop K)
  | none => ⊤
  | some d => ((d : WithTop K) : WithTop (WithTop K))

/-- `dist_globale`, on matrices of `length` coefficients a row. -/
def distGlobale [Ring K] [LinearOrder K] (nFramesRef nFrames length : ℕ)
    (coeffsCaracRef coeffsCarac : ℕ → ℕ → Option K) : Run (WithTop (WithTop K)) :=
  distGlobale.table ((⊤ : WithTop K) : WithTop (WithTop K)) nFramesRef nFrames fun i j =>
    distGlobale.valeur (distLocal length (coeffsCaracRef i) (coeffsCarac j))

end TlVoix.Matlab
