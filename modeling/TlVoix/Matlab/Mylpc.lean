import TlVoix.Matlab.Builtin
import Mathlib.Algebra.Star.Basic

/-!
# `mylevinsondurbin.m` and `mylpc.m`

The Levinson-Durbin recursion on the autocorrelation of a row, and its coefficients for the frames
of a recording. `mylpc` repeats the statements of `mylevinsondurbin`: both are `levinsonDurbin`. The
outputs `ff` and `mydsp`, which no statement assigns, are left out. `conj` is `star`.
-/

namespace TlVoix.Matlab

open Checked

/-! ## Builtins on complex rows -/

section
variable {K : Type} [Field K] [StarRing K]

/-- `real(z)`. -/
def real (z : K) : K := (z + star z) / (2 : ℕ)

/-- `v(i) = x`: a vector that is too short is filled with zeros. -/
def assign (v : List K) (i : ℕ) (x : K) : List K :=
  (v ++ List.replicate (i - v.length) 0).set (i - 1) x

/-- `u * v'`, for two rows. -/
def dot (u v : List K) : K := (List.zipWith (fun x y => x * star y) u v).sum

/-- Lag `m` of the autocorrelation. -/
def xcorr.lag (x : List K) (m : ℕ) : K :=
  (∑ j ∈ Finset.range (x.length - m), x.getD (j + m) 0 * star (x.getD j 0)) / x.length

/-- `xcorr(x, maxlag, 'biased')`: the lags from `-maxlag` to `maxlag`. -/
def xcorr (x : List K) (maxlag : ℕ) : List K :=
  (List.range (2 * maxlag + 1)).map fun k =>
    if maxlag ≤ k then xcorr.lag x (k - maxlag) else star (xcorr.lag x (maxlag - k))

/-! ## The recursion -/

/-- The AR coefficients, the variance of the noise and the reflection coefficients. -/
structure Ar (K : Type) where
  aa : List K
  sigma2 : K
  ref : List K

/-- Iteration `tt` of the loop. -/
def levinsonDurbin.step (acf : List K) (tt : ℕ) (s : Ar K) : Run (Ar K) := do
  let gg := -((← index acf (tt + 1)) + dot s.aa (← colon acf 2 tt).reverse) / s.sigma2
  pure { aa := List.zipWith (fun x y => x + gg * star y) s.aa
           (← colon s.aa 1 (tt - 1)).reverse ++ [gg]
         sigma2 := s.sigma2 * (1 - real (gg * star gg))
         ref := assign s.ref tt gg }

/-- The recursion up to order `pp`. -/
def levinsonDurbin (xx : List K) (pp : ℕ) : Run (Ar K) := do
  -- the negative lags are removed
  let acf := (xcorr xx (pp + 1)).drop (pp + 1)
  let acf := acf.set 0 (real (← index acf 1))
  let gg := -(← index acf 2) / (← index acf 1)
  let s : Ar K :=
    { aa := [gg]
      sigma2 := real ((1 - gg * star gg) * (← index acf 1))
      ref := assign (List.replicate pp 0) 1 gg }
  let (_, s) ← forUp 2 (pp + 1) s fun tt s => levinsonDurbin.step acf tt s
  pure s

def mylevinsondurbin (xx : List K) (pp : ℕ) : Run (Ar K) := do
  let s ← levinsonDurbin xx pp
  pure { s with aa := 1 :: s.aa }

end

/-! ## Frames -/

section
variable {K : Type} [Field K] [StarRing K] [LibMatlab K]

/-- `mylpc`; the rows of `frames` and of `lpc_frames` are written and read as a whole, and a row of
another length than that of `lpc_frames` is an error. -/
def mylpc (son : List K) (framesLength ordre : ℕ) : Run (Arr ℕ (List K)) := do
  let nFrames := son.length / framesLength * 2 - 1
  let frames := Arr.full (row nFrames) fun _ => List.replicate framesLength 0
  let fen := hamming framesLength
  let lpcFrames := Arr.full (row nFrames) fun _ => List.replicate (ordre + 1) 0
  let (_, frames) ← forUp 1 (nFrames + 1) frames fun frame frames => do
    let tranche ← colon son (framesLength * (frame - 1) / 2 + 1) (framesLength * (frame + 1) / 2)
    frames.set frame (List.zipWith (· * ·) fen tranche)
  let (_, lpcFrames) ← forUp 1 (nFrames + 1) lpcFrames fun frame lpcFrames => do
    let s ← levinsonDurbin (← frames.get frame) ordre
    if s.aa.length = ordre then lpcFrames.set frame (1 :: s.aa) else throw .outOfBounds
  pure lpcFrames

end

end TlVoix.Matlab
