import TlVoix.Matlab.Builtin
import Mathlib.Algebra.Order.Floor.Defs
import Mathlib.Algebra.Order.Group.Unbundled.Abs

/-!
# `mymfcc.m`

The frames of a recording, their spectra, the bank of filters on the mel scale, the logarithm and
the DCT; the plots are left out. `power(10, x)` is `LibM.pow 10 x`. `frames_length` is even. The
logarithm of a silent filter is `-Inf`, read as `none`; a sum with it is not a number either.
-/

namespace TlVoix.Matlab

open Checked

variable {K : Type} [Field K] [LinearOrder K] [FloorRing K] [LibMatlab K]

/-- `abscisse(k)`. -/
def mymfcc.abscisse (fEch : K) (framesLength k : ℕ) : K := fEch * ((k : K) - 1) / framesLength

/-- `abscisse_mel(k)`. -/
def mymfcc.abscisseMel (fEch : K) (framesLength k : ℕ) : K :=
  2595 * LibM.log (mymfcc.abscisse fEch framesLength k / 700 + 1) / LibM.log 10

/-- The frequency at `i` steps `w` from `b` on the mel scale. -/
def mymfcc.borne (w b i : K) : K := 700 * (LibM.pow 10 ((b + i * w) / 2595) - 1)

/-- `log10 |s|`; `none` is `-Inf`. -/
def mymfcc.logAbs (s : K) : Option K := if s = 0 then none else some (LibM.log |s| / LibM.log 10)

/-- `fmin`, `fcentre` and `fmax` of each filter. -/
def mymfcc.bornesFiltres (nFiltres : ℕ) (fMin w : K) : Run (Arr (ℕ × ℕ) K) := do
  let bornesFiltres := Arr.full (matrix 3 nFiltres) fun _ => fMin
  let (_, bornesFiltres) ← forUp 1 (nFiltres + 1) bornesFiltres fun i bornesFiltres => do
    let bornesFiltres ← bornesFiltres.set (1, i)
      (mymfcc.borne w (← bornesFiltres.get (1, i)) (i - 1))
    let bornesFiltres ← bornesFiltres.set (2, i)
      (mymfcc.borne w (← bornesFiltres.get (2, i)) i)
    bornesFiltres.set (3, i) (mymfcc.borne w (← bornesFiltres.get (3, i)) (i + 1))
  pure bornesFiltres

/-- The two loops that apply the filters: `spectres` and `sum_s`. -/
def mymfcc.appliquer (nFiltres : ℕ) (coeff : K) (bornesFiltres : Arr (ℕ × ℕ) K)
    (sonFft : List K) : Run (Arr (ℕ × ℤ) K × Arr ℕ K) := do
  let spectres : Arr (ℕ × ℤ) K := Arr.full (matrixInt nFiltres sonFft.length) fun _ => 0
  -- `zeros(n_filtres)` is square: the loops use the first `n_filtres` of its linear indices
  let sumS : Arr ℕ K := Arr.full (row (nFiltres * nFiltres)) fun _ => 0
  let (_, spectres, sumS) ← forUp 1 (nFiltres + 1) (spectres, sumS) fun i (spectres, sumS) => do
    let first := ⌊(← bornesFiltres.get (1, i)) * coeff⌋ + 1
    let last := ⌊(← bornesFiltres.get (3, i)) * coeff⌋
    forRange first last (spectres, sumS) fun j (spectres, sumS) => do
      let spectres ← spectres.set (i, j)
        ((← index sonFft j) * (j / coeff - (← bornesFiltres.get (1, i))) /
          ((← bornesFiltres.get (2, i)) - (← bornesFiltres.get (1, i))))
      let sumS ← sumS.set i ((← sumS.get i) + (← spectres.get (i, j)))
      pure (spectres, sumS)
  pure (spectres, sumS)

/-- The bank of filters, from the spectrum of a frame: `spectres` and `sum_s`. -/
def mymfcc.bancFiltres (fEch : K) (framesLength nFiltres : ℕ) (sonFft : List K) :
    Run (Arr (ℕ × ℤ) K × Arr ℕ K) := do
  let fMin := mymfcc.abscisseMel fEch framesLength 1
  let fMax := mymfcc.abscisseMel fEch framesLength (framesLength / 2)
  let w := (fMax - fMin) / (nFiltres + 1)
  let bornesFiltres ← mymfcc.bornesFiltres nFiltres fMin w
  let coeff := sonFft.length / mymfcc.abscisse fEch framesLength sonFft.length
  mymfcc.appliquer nFiltres coeff bornesFiltres sonFft

def mymfcc.dct (nFiltres : ℕ) (sonLog : Arr ℕ K) : Run (Arr ℕ K) := do
  let n := nFiltres
  let w : Arr ℕ K := Arr.full (row n) fun _ => (2 : ℕ)
  let w ← w.set 1 1
  let w := w.map fun x : K => LibM.sqrt (x / n)
  let sonDct : Arr ℕ K := Arr.full (row n) fun _ => 0
  let (_, sonDct) ← forUp 1 (n + 1) sonDct fun j sonDct => do
    let (_, sonDct) ← forUp 1 (n + 1) sonDct fun i sonDct => do
      sonDct.set j ((← sonDct.get j) +
        (← w.get i) *
          LibM.cos ((((2 * j - 3) * (i - 1) : ℤ) : K) * LibMatlab.pi / (2 * n : ℕ)) *
            (← sonLog.get i))
    pure sonDct
  pure sonDct

/-- `son_dct`. A cell is a sum over all of `son_log`: with `-Inf` in it, it is infinite or `NaN`. -/
def mymfcc.sonDct (nFiltres : ℕ) (sonLog : Arr ℕ (Option K)) : Run (Arr ℕ (Option K)) := do
  if (← lire nFiltres sonLog).all Option.isSome then
    let sonDct ← mymfcc.dct nFiltres (sonLog.map fun x => x.getD 0)
    pure (sonDct.map some)
  else pure (Arr.full (row nFiltres) fun _ => none)

/-- `mymfcc`; the rows of `frames` and of `sons_dct_frames` are written and read as a whole. -/
def mymfcc (fEch : K) (son : List K) (framesLength nFiltres : ℕ) :
    Run (Arr ℕ (Arr ℕ (Option K))) := do
  let nFrames := son.length / framesLength * 2 - 1
  let frames := Arr.full (row nFrames) fun _ => List.replicate framesLength 0
  let (_, frames) ← forUp 1 (nFrames + 1) frames fun frame frames => do
    let tranche ← colon son (framesLength * (frame - 1) / 2 + 1) (framesLength * (frame + 1) / 2)
    frames.set frame (List.zipWith (· * ·) (hamming framesLength) tranche)
  let sonsDctFrames := Arr.full (row nFrames) fun _ => Arr.full (row nFiltres) fun _ => some 0
  let (_, sonsDctFrames) ← forUp 1 (nFrames + 1) sonsDctFrames fun frame sonsDctFrames => do
    let sonFen ← frames.get frame
    let sonFft ← colon (absFft sonFen) 1 (framesLength / 2)
    let (_, sumS) ← mymfcc.bancFiltres fEch framesLength nFiltres sonFft
    let sonLog := sumS.map mymfcc.logAbs
    sonsDctFrames.set frame (← mymfcc.sonDct nFiltres sonLog)
  pure sonsDctFrames

end TlVoix.Matlab
