import TlVoix.Cpp.Morceau

/-!
# `main.cpp`: `distance` and `dtw`

`dtw` accumulates the local distances of two pieces in the table `distances`, and divides the cell
that the counters `i` and `j` left by the loops designate. `dtw.distances` is the computation of
that cell from any local distance; the local distance of two pieces reads their frames.
-/

namespace TlVoix

open Checked

section
variable {K : Type} [Add K] [LinearOrder K]

/-- The cell `distances[i-1][j-1]` that `dtw` reads after its loops, for the local distance `dist`
(which may fault). -/
def dtw.distances (n1 n2 : ℕ) (dist : ℕ → ℕ → Run K) : Run K := do
  let distances : Arr (ℕ × ℕ) K := Arr.fresh2 n1 n2
  let distances ← distances.set (0, 0) (← dist 0 0)
  let (j, distances) ← forUp 1 n2 distances fun j distances => do
    distances.set (0, j) ((← distances.get (0, j - 1)) + (← dist 0 j))
  let (i, j, distances) ← forUp 1 n1 (j, distances) fun i (_, distances) => do
    let distances ← distances.set (i, 0) ((← distances.get (i - 1, 0)) + (← dist i 0))
    forUp 1 n2 distances fun j distances => do
      distances.set (i, j) (min (← distances.get (i - 1, j - 1))
        (min (← distances.get (i - 1, j)) (← distances.get (i, j - 1))) + (← dist i j))
  distances.get (i - 1, j - 1)

end

variable {P : Parameters} {K : Type} [Field K] [LibM K]

def distance (f1 f2 : Frame P K) : K :=
  let dist : K := (List.finRange P.nbMfcc).foldl (fun dist i =>
    dist + LibM.sqrt ((f1.getMfcc[i] - f2.getMfcc[i]) * (f1.getMfcc[i] - f2.getMfcc[i]))) 0
  -- the coefficients of the linear prediction are weighted by 0
  (List.finRange P.ordreLpc).foldl (fun dist i =>
    dist + LibM.sqrt ((f1.getLpc[i] - f2.getLpc[i]) * (f1.getLpc[i] - f2.getLpc[i])) * 0) dist

def dtw [LinearOrder K] (m1 m2 : Morceau P K) : Run K := do
  let cell ← dtw.distances m1.getNFrames m2.getNFrames fun i j => do
    pure (distance (← m1.frame i) (← m2.frame j))
  pure (cell / (m1.getNFrames + m2.getNFrames : ℕ))

end TlVoix
