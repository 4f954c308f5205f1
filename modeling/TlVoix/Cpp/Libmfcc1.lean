import TlVoix.Cpp.Libmfcc

/-!
# `libmfcc1.c`: the filter bank before it was unrolled

`GetCoefficient` of `libmfcc1.c`, with the loop that `libmfcc.c` unrolls. The functions it calls are
the same in the two files.
-/

namespace TlVoix

open Checked

namespace Libmfcc1

variable {K : Type} [Field K] [LinearOrder K] [LibM K]

/-- The energy `innerSum` of filter band `l`, before its logarithm. -/
def getCoefficient.innerSum (spectralData : Arr ℕ K) (samplingRate binSize l : ℕ) : Run K := do
  let (_, innerSum) ← forUp 0 (u32 (binSize + (2 ^ 32 - 1))) 0 fun k innerSum => do
    pure (innerSum +
      |(← spectralData.get k) * Libmfcc.getFilterParameter samplingRate binSize k l|)
  pure innerSum

def getCoefficient (spectralData : Arr ℕ K) (samplingRate numFilters binSize m : ℕ) : Run K := do
  if m ≥ numFilters then pure 0
  else
    let result : K := Libmfcc.normalizationFactor numFilters m
    let (_, outerSum) ← forUp 1 (numFilters + 1) 0 fun l outerSum => do
      let innerSum ← getCoefficient.innerSum spectralData samplingRate binSize l
      let innerSum := if innerSum > 0 then LibM.log innerSum else innerSum
      pure (outerSum +
        innerSum * LibM.cos ((m : K) * Libmfcc.pi / numFilters * ((l : K) - 0.5)))
    pure (result * outerSum)

end Libmfcc1

end TlVoix
