import TlVoix.Cpp.Libmfcc
import Mathlib.Analysis.SpecialFunctions.Trigonometric.Arctan

/-!
# `Fourier.cpp`: the transform behind the display of a spectrum

`CFourier.complexFFT` is `CFourier::ComplexFFT`: the samples are padded to `sample_rate` complex
points, which are interleaved in one array (real part, imaginary part), permuted by binary inversion
two pairs at a time, and joined by the Danielson-Lanczos routine. The array `vector` and the
position of the greatest modulus stay in the object.

`sample_rate` is an `unsigned int`, so that its double is reduced (`u32`), and the position goes
through a `float` (`toFloat`); the samples are read as elements of `K`.
-/

namespace TlVoix

open Checked

/-- The functions of `math.h` that only `Fourier.cpp` calls. -/
class LibTrig (K : Type) where
  sin : K → K
  atan : K → K

noncomputable instance : LibTrig ℝ where
  sin := Real.sin
  atan := Real.arctan

/-- The class `CFourier`. Before the first transform `vector` is `NULL` and the frequency has no
value. -/
structure CFourier (K : Type) where
  pi : K
  fundamentalFrequency : Option ℕ
  vector : Option (Arr ℕ K)

namespace CFourier

variable {K : Type} [Field K] [LinearOrder K] [LibM K] [LibTrig K]

/-- The constructor. -/
def create : CFourier K := ⟨4 * LibTrig.atan 1, none, none⟩

/-- `SWAP(vector[a], vector[b])`. -/
def swap (a b : ℕ) (vector : Arr ℕ K) : Run (Arr ℕ K) := do
  let tempr ← vector.get a
  let vector ← vector.set a (← vector.get b)
  vector.set b tempr

/-- Sample `n`, and zero after the last one. -/
def complexFFT.sample (data : Arr ℕ K) (numberOfSamples n : ℕ) : Run K :=
  if n < numberOfSamples then data.get n else pure 0

/-- The samples as complex points, followed by zeros. -/
def complexFFT.points (data : Arr ℕ K) (numberOfSamples sampleRate : ℕ) : Run (Arr ℕ K) := do
  let (_, vector) ← forUp 0 sampleRate (Arr.fresh (u32 (2 * sampleRate))) fun n vector => do
    let vector ← vector.set (2 * n) (← complexFFT.sample data numberOfSamples n)
    vector.set (2 * n + 1) 0
  pure vector

/-- `while (m >= 2 && j >= m) { j -= m; m >>= 1; }`: the final `j` and `m`. -/
def complexFFT.carry (j m : ℕ) : Run (ℕ × ℕ) :=
  whileLoop (fun p => decide (2 ≤ p.2 ∧ p.2 ≤ p.1)) (fun p => pure (p.1 - p.2, p.2 / 2)) j (j, m)

/-- The exchanges of one iteration of the binary inversion: the points at `i` and `j`, and the
mirrored ones if `j` is in the first half too. -/
def complexFFT.exchange (n i j : ℕ) (vector : Arr ℕ K) : Run (Arr ℕ K) := do
  if j > i then
    let vector ← swap j i vector
    let vector ← swap (j + 1) (i + 1) vector
    if j / 2 < n / 4 then
      let vector ← swap (n - (i + 2)) (n - (j + 2)) vector
      swap (n - (i + 2) + 1) (n - (j + 2) + 1) vector
    else pure vector
  else pure vector

/-- The binary inversion of an array of `n` cells. -/
def complexFFT.binaryInversion (n : ℕ) (vector : Arr ℕ K) : Run (Arr ℕ K) := do
  let (_, _, vector) ← forStep 0 (n / 2) 2 (0, vector) fun i (j, vector) => do
    let vector ← complexFFT.exchange n i j vector
    let (j, m) ← complexFFT.carry j (n / 2)
    pure (j + m, vector)
  pure vector

/-- The body of the inner loop: `i` and `j` are the cells of two imaginary parts. -/
def complexFFT.butterfly (wr wi : K) (mmax i : ℕ) (vector : Arr ℕ K) : Run (Arr ℕ K) := do
  let j := i + mmax
  let tempr := wr * (← vector.get (j - 1)) - wi * (← vector.get j)
  let tempi := wr * (← vector.get j) + wi * (← vector.get (j - 1))
  let vector ← vector.set (j - 1) ((← vector.get (i - 1)) - tempr)
  let vector ← vector.set j ((← vector.get i) - tempi)
  let vector ← vector.set (i - 1) ((← vector.get (i - 1)) + tempr)
  vector.set i ((← vector.get i) + tempi)

/-- The stage that joins the blocks of `mmax` cells, with the root `1 + wpr + i wpi`. -/
def complexFFT.stage (n mmax : ℕ) (wpr wpi : K) (vector : Arr ℕ K) : Run (Arr ℕ K) := do
  let istep := mmax * 2
  let (_, _, _, vector) ← forStep 1 mmax 2 (1, 0, vector) fun m (wr, wi, vector) => do
    let (_, vector) ← forStep m (n + 1) istep vector (complexFFT.butterfly wr wi mmax)
    let wtemp := wr
    let wr := wtemp * wpr - wi * wpi + wr
    let wi := wi * wpr + wtemp * wpi + wi
    pure (wr, wi, vector)
  pure vector

/-- The Danielson-Lanczos routine on an array of `n` cells. -/
def complexFFT.danielsonLanczos (pi : K) (sign : ℤ) (n : ℕ) (vector : Arr ℕ K) :
    Run (Arr ℕ K) := do
  let (_, vector) ← whileLoop (fun s => decide (s.1 < n)) (fun (mmax, vector) => do
    let theta := sign * ((2 : ℕ) * pi / mmax)
    let wtemp := LibTrig.sin (0.5 * theta)
    let wpr := -2.0 * wtemp * wtemp
    let wpi := LibTrig.sin theta
    let vector ← complexFFT.stage n mmax wpr wpi vector
    pure (mmax * 2, vector)) n (2, vector)
  pure vector

/-- The squared modulus of the point at the cells `i` and `i + 1`. -/
def complexFFT.modulus (vector : Arr ℕ K) (i : ℕ) : Run K := do
  pure (LibM.pow (← vector.get i) (2 : ℕ) + LibM.pow (← vector.get (i + 1)) (2 : ℕ))

/-- `(float)n`: the nearest number of 24 significant bits, the even one of two. -/
def toFloat (n : ℕ) : ℕ :=
  let ulp := 2 ^ (Nat.log2 n - 23)
  let rest := n % ulp
  if ulp < 2 * rest ∨ ulp = 2 * rest ∧ n / ulp % 2 = 1 then (n / ulp + 1) * ulp else n / ulp * ulp

/-- The search of the greatest modulus, up to the cell `sample_rate`. -/
def complexFFT.fundamental (sampleRate : ℕ) (vector : Arr ℕ K) : Run ℕ := do
  let (_, fundamentalFrequency) ← forStep 2 (sampleRate + 1) 2 0 fun i fundamentalFrequency => do
    if (← complexFFT.modulus vector i) > (← complexFFT.modulus vector fundamentalFrequency) then
      pure i
    else pure fundamentalFrequency
  -- `floor` of the half: a cell to a point
  pure (toFloat fundamentalFrequency / 2)

/-- `CFourier::ComplexFFT`. -/
def complexFFT (fft : CFourier K) (data : Arr ℕ K) (numberOfSamples sampleRate : ℕ) (sign : ℤ) :
    Run (CFourier K) := do
  let vector ← complexFFT.points data numberOfSamples sampleRate
  let n := u32 (sampleRate * 2)
  let vector ← complexFFT.binaryInversion n vector
  let vector ← complexFFT.danielsonLanczos fft.pi sign n vector
  let fundamentalFrequency ← complexFFT.fundamental sampleRate vector
  pure { fft with vector := some vector, fundamentalFrequency := some fundamentalFrequency }

end CFourier

end TlVoix
