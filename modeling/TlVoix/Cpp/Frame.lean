import TlVoix.Cpp.Libmfcc

/-!
# `frame.cpp`: frames and their features

`Frame P K` is the class `Frame`, compiled with the macros `P` of `parameters.h`. Its constructor
is `Frame.create`, which runs `setLpc` (Levinson-Durbin) and `setMfcc` (the in-place `fft`, the
modulus, the filter bank) on the copied signal.

Every array access is checked. A local array starts unassigned, except `autocorr`: it starts with
the contents `pile` of the stack, so that a run with `pile = fun _ => none` faults on the first
unassigned value it uses, and a run with `pile i = some _` goes on with a stale one.
-/

namespace TlVoix

open Checked

/-- The macros of `parameters.h`. -/
structure Parameters where
  tailleFrame : ℕ
  ordreLpc : ℕ
  nbMfcc : ℕ

/-- `parameters.h` as it is shipped. -/
def parameters : Parameters := ⟨256, 1, 25⟩

/-- The class `Frame`. -/
structure Frame (P : Parameters) (K : Type) where
  signal : Vector K P.tailleFrame
  taille : ℕ
  lpc : Vector K P.ordreLpc
  mfcc : Vector K P.nbMfcc

namespace Frame

variable {K : Type} [Field K] [LinearOrder K] [LibM K]

/-! ## Linear prediction -/

/-- The first loop of `set_lpc`: the autocorrelation up to the order. -/
def setLpc.autocorr (signal : Arr ℕ K) (taille ordreLpc : ℕ) (autocorr : Arr ℕ K) :
    Run (Arr ℕ K) := do
  let (_, autocorr) ← forUp 0 ordreLpc autocorr fun i autocorr => do
    let autocorr ← autocorr.set i 0
    let (_, autocorr) ← forUp 0 (taille - i) autocorr fun j autocorr => do
      autocorr.set i ((← autocorr.get i) + (← signal.get j) * (← signal.get (j + i)) / taille)
    pure autocorr
  pure autocorr

/-- The body of the Levinson-Durbin loop of `set_lpc`. -/
def setLpc.step (autocorr : Arr ℕ K) (ordreLpc k : ℕ) :
    Arr ℕ K × Arr ℕ K × K → Run (Arr ℕ K × Arr ℕ K × K)
  | (lpc, lpcUp, sigma2) => do
    let tmp ← autocorr.get k
    let (_, tmp) ← forUp 1 k tmp fun j tmp => do
      pure (tmp + (← lpc.get (j - 1)) * (← autocorr.get (k - j)))
    let tmp := tmp / -sigma2
    let (_, lpcUp) ← forUp 1 k lpcUp fun j lpcUp => do
      lpcUp.set (j - 1) ((← lpc.get (j - 1)) + tmp * (← lpc.get (k - 1 - j)))
    -- `memcpy` of the whole of `lpc_up`, cells not yet computed included
    let lpc ← lpcUp.copyTo ordreLpc lpc 0
    let lpc ← lpc.set (k - 1) tmp
    pure (lpc, lpcUp, sigma2 * (1 - tmp * tmp))

/-- `Frame::set_lpc`, on the members `signal`, `taille` and `lpc`; returns `lpc`. -/
def setLpc (pile : ℕ → Option K) (signal : Arr ℕ K) (taille ordreLpc : ℕ) (lpc : Arr ℕ K) :
    Run (Arr ℕ K) := do
  let lpcUp := Arr.fresh ordreLpc
  let autocorr ← setLpc.autocorr signal taille ordreLpc (Arr.alloc (taille - ordreLpc) pile)
  let tmp := -(← autocorr.get 1) / (← autocorr.get 0)
  let lpc ← lpc.set 0 tmp
  let sigma2 := (1 - tmp * tmp) * (← autocorr.get 0)
  let (_, lpc, _, _) ← forUp 2 ordreLpc (lpc, lpcUp, sigma2) (setLpc.step autocorr ordreLpc)
  lpc.set (ordreLpc - 1) 1

/-! ## Fourier transform -/

/-- The exchange of the points `i` and `j`. -/
def fft.swap (i j : ℕ) : Arr ℕ K × Arr ℕ K → Run (Arr ℕ K × Arr ℕ K)
  | (x, y) => do
    let tx ← x.get i
    let ty ← y.get i
    let x ← x.set i (← x.get j)
    let y ← y.set i (← y.get j)
    let x ← x.set j tx
    let y ← y.set j ty
    pure (x, y)

/-- `while (k <= j) { j -= k; k >>= 1; }`: the final `j` and `k`. Every iteration with a non-zero
`k` lowers `j`, so a loop that ends does it within `j + 1` tests. -/
def fft.carry (j k : ℕ) : Run (ℕ × ℕ) :=
  whileLoop (fun p => decide (p.2 ≤ p.1)) (fun p => pure (p.1 - p.2, p.2 / 2)) (j + 1) (j, k)

/-- The bit reversal of `FFT`. -/
def fft.bitReversal (n : ℕ) (x y : Arr ℕ K) : Run (Arr ℕ K × Arr ℕ K) := do
  let i2 := n / 2
  let (_, _, xy) ← forUp 0 (n - 1) (0, (x, y)) fun i (j, xy) => do
    let xy ← if i < j then fft.swap i j xy else pure xy
    let (j, k) ← fft.carry j i2
    pure (j + k, xy)
  pure xy

/-- The body of the inner loop of `FFT`: points `i` and `i1` with the twiddle factor `u`. -/
def fft.butterfly (u1 u2 : K) (i i1 : ℕ) : Arr ℕ K × Arr ℕ K → Run (Arr ℕ K × Arr ℕ K)
  | (x, y) => do
    let t1 := u1 * (← x.get i1) - u2 * (← y.get i1)
    let t2 := u1 * (← y.get i1) + u2 * (← x.get i1)
    let x ← x.set i1 ((← x.get i) - t1)
    let y ← y.set i1 ((← y.get i) - t2)
    let x ← x.set i ((← x.get i) + t1)
    let y ← y.set i ((← y.get i) + t2)
    pure (x, y)

/-- The stage of `FFT` that joins blocks of `l1` points, with the root `c1 + i c2`. -/
def fft.stage (n l1 : ℕ) (c1 c2 : K) (xy : Arr ℕ K × Arr ℕ K) : Run (Arr ℕ K × Arr ℕ K) := do
  let l2 := l1 * 2
  let (_, _, _, xy) ← forUp 0 l1 (1, 0, xy) fun j (u1, u2, xy) => do
    let (_, xy) ← forStep j n l2 xy fun i xy => fft.butterfly u1 u2 i (i + l1) xy
    let z := u1 * c1 - u2 * c2
    let u2 := u1 * c2 + u2 * c1
    pure (z, u2, xy)
  pure xy

/-- `Frame::FFT`; returns the arrays `x` and `y`. -/
def fft (dir : ℤ) (m : ℕ) (x y : Arr ℕ K) : Run (Arr ℕ K × Arr ℕ K) := do
  let (_, n) ← forUp 0 m 1 fun _ n => pure (n * 2)
  let xy ← fft.bitReversal n x y
  let (_, _, _, _, xy) ← forUp 0 m (-1, 0, 1, xy) fun _ (c1, c2, l2, xy) => do
    let l1 := l2
    let xy ← fft.stage n l1 c1 c2 xy
    let c2 := LibM.sqrt ((1 - c1) / 2.0)
    let c2 := if dir = 1 then -c2 else c2
    let c1 := LibM.sqrt ((1 + c1) / 2.0)
    pure (c1, c2, l1 * 2, xy)
  if dir = 1 then
    let (_, xy) ← forUp 0 n xy fun i (x, y) => do
      let x ← x.set i ((← x.get i) / n)
      let y ← y.set i ((← y.get i) / n)
      pure (x, y)
    pure xy
  else pure xy

/-! ## Mel-frequency cepstral coefficients -/

/-- The array `fft2` that `set_mfcc` hands to `GetCoefficient`. -/
def setMfcc.fft2 (signal : Arr ℕ K) (taille : ℕ) : Run (Arr ℕ K) := do
  let fft : Arr ℕ K := Arr.fresh taille
  let dataIm : Arr ℕ K := Arr.fresh taille
  let (_, fft, dataIm) ← forUp 0 taille (fft, dataIm) fun i (fft, dataIm) => do
    let fft ← fft.set i (← signal.get i)
    let dataIm ← dataIm.set i 0
    pure (fft, dataIm)
  let (fft, dataIm) ← Frame.fft (-1) 8 fft dataIm
  let fft2 : Arr ℕ K := Arr.fresh taille
  let (_, _, fft2) ← forUp 0 taille (fft, fft2) fun i (fft, fft2) => do
    let fft ← fft.set i (LibM.sqrt
      ((← fft.get i) * (← fft.get i) + (← dataIm.get i) * (← dataIm.get i)))
    let fft2 ← fft2.set i (← fft.get i)
    pure (fft, fft2)
  pure fft2

/-- `Frame::set_mfcc`, on the members `signal`, `taille` and `mfcc`; returns `mfcc`. -/
def setMfcc (signal : Arr ℕ K) (taille nbMfcc : ℕ) (mfcc : Arr ℕ K) : Run (Arr ℕ K) := do
  let fft2 ← setMfcc.fft2 signal taille
  let mfcc ← mfcc.set 0 (← Libmfcc.getCoefficient fft2 16000 nbMfcc taille 1)
  let (_, mfcc) ← forUp 2 (nbMfcc / 2 + 2) mfcc fun coeff mfcc => do
    let mfcc ← mfcc.set (coeff - 1)
      ((← Libmfcc.getCoefficient fft2 16000 nbMfcc taille coeff) * LibM.pow (0.95 : K) coeff)
    mfcc.set (coeff + nbMfcc / 2 - 1) ((← mfcc.get (coeff - 1)) - (← mfcc.get (coeff - 2)))
  pure mfcc

/-! ## Construction -/

variable {P : Parameters}

/-- The constructor of `Frame`. Its result exists when every cell of the members is assigned. -/
def create (P : Parameters) (pile : ℕ → Option K) (signalDonne : Arr ℕ K)
    (tailleDonne ordreLpc nbMfcc : ℕ) : Run (Frame P K) := do
  let signal ← signalDonne.copyTo tailleDonne (Arr.fresh P.tailleFrame) 0
  let lpc ← setLpc pile signal tailleDonne ordreLpc (Arr.fresh P.ordreLpc)
  let mfcc ← setMfcc signal tailleDonne nbMfcc (Arr.fresh P.nbMfcc)
  pure {
    signal := ← signal.toVector P.tailleFrame
    taille := tailleDonne
    lpc := ← lpc.toVector P.ordreLpc
    mfcc := ← mfcc.toVector P.nbMfcc }

def getLpc (f : Frame P K) : Vector K P.ordreLpc := f.lpc

def getMfcc (f : Frame P K) : Vector K P.nbMfcc := f.mfcc

def getSignal (f : Frame P K) : Vector K P.tailleFrame := f.signal

end Frame

end TlVoix
