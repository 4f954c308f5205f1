import TlVoix.Lib.Arr
import Mathlib.Analysis.SpecialFunctions.Pow.Real

/-!
# `libmfcc.c`: the MFCC filter bank

`getCoefficient` and the functions it calls, over a field `K` with the functions of `math.h`
(`LibM`); `float` and `double` are both read as `K`. The `unsigned int` products and differences
that can wrap are reduced modulo `2 ^ 32` (`u32`). The sixteen accumulators of the unrolled inner
loop stay an array of sixteen cells.
-/

namespace TlVoix

open Checked

/-- The functions of `math.h` the program calls. -/
class LibM (K : Type) where
  sqrt : K → K
  log : K → K
  cos : K → K
  pow : K → K → K

noncomputable instance : LibM ℝ where
  sqrt := Real.sqrt
  log := Real.log
  cos := Real.cos
  pow x y := x ^ y

/-- The value of an `unsigned int`. -/
def u32 (n : ℕ) : ℕ := n % 2 ^ 32

namespace Libmfcc

variable {K : Type} [Field K] [LinearOrder K] [LibM K]

/-- The constant `PI` of `libmfcc.h`. -/
def pi : K := 3.14159265358979323846264338327

def logAdapte (var : K) : K := if var > 0 then LibM.log var else var

def normalizationFactor (numFilters m : ℕ) : K :=
  if m = 0 then LibM.sqrt (1 / numFilters) else LibM.sqrt (2 / numFilters)

def getCenterFrequency (filterBand : ℕ) : K :=
  if filterBand = 0 then 0
  else if filterBand ≥ 1 ∧ filterBand ≤ 14 then 200 * filterBand / 3
  else LibM.pow (1.0711703 : K) ((filterBand : K) - 14) * 1073.4

def getMagnitudeFactor (filterBand : ℕ) : K :=
  if filterBand ≥ 1 ∧ filterBand ≤ 14 then 0.015
  else if filterBand ≥ 15 ∧ filterBand ≤ 48 then
    2 / (getCenterFrequency (filterBand + 1) - getCenterFrequency (filterBand - 1))
  else 0

def getFilterParameter (samplingRate binSize frequencyBand filterBand : ℕ) : K :=
  -- the division is the integer one: `boundary` is a whole number of hertz
  let boundary : K := (u32 (frequencyBand * samplingRate) / binSize : ℕ)
  let prevCenterFrequency := getCenterFrequency (u32 (filterBand + (2 ^ 32 - 1)))
  let thisCenterFrequency := getCenterFrequency filterBand
  let nextCenterFrequency := getCenterFrequency (u32 (filterBand + 1))
  if boundary ≥ 0 ∧ boundary < prevCenterFrequency then 0
  else if boundary ≥ prevCenterFrequency ∧ boundary < thisCenterFrequency then
    (boundary - prevCenterFrequency) / (thisCenterFrequency - prevCenterFrequency) *
      getMagnitudeFactor filterBand
  else if boundary ≥ thisCenterFrequency ∧ boundary < nextCenterFrequency then
    (boundary - nextCenterFrequency) / (thisCenterFrequency - nextCenterFrequency) *
      getMagnitudeFactor filterBand
  else 0

/-- The energy `sumTot` of filter band `l`, before its logarithm. -/
def getCoefficient.sumTot (spectralData : Arr ℕ K) (samplingRate binSize l : ℕ) : Run K := do
  let innerSum : Arr ℕ K := Arr.ofFn 16 fun _ => 0
  let (_, innerSum) ← forStep 0 (u32 (binSize + (2 ^ 32 - 1))) 16 innerSum fun k innerSum => do
    -- the sixteen statements of the unrolled body
    let (_, innerSum) ← forUp 0 16 innerSum fun r innerSum => do
      innerSum.set r ((← innerSum.get r) +
        |(← spectralData.get (k + r)) * getFilterParameter samplingRate binSize (k + r) l|)
    pure innerSum
  let (_, sumTot) ← forUp 0 16 0 fun r sumTot => do
    pure (sumTot + (← innerSum.get r))
  pure sumTot

def getCoefficient (spectralData : Arr ℕ K) (samplingRate numFilters binSize m : ℕ) : Run K := do
  if m ≥ numFilters then pure 0
  else
    let result : K := normalizationFactor numFilters m
    let (_, outerSum) ← forUp 1 (numFilters + 1) 0 fun l outerSum => do
      let sumTot ← getCoefficient.sumTot spectralData samplingRate binSize l
      let sumTot := logAdapte sumTot * logAdapte sumTot *
        LibM.cos ((m : K) * pi / numFilters * ((l : K) - 0.5))
      pure (outerSum + sumTot)
    pure (result * outerSum)

end Libmfcc

end TlVoix
