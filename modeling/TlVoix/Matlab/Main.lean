import TlVoix.Matlab.DistGlobale
import TlVoix.Matlab.Mylpc
import TlVoix.Matlab.Mymfcc
import TlVoix.Matlab.RemoveBlanc

/-!
# `main.m` and `get_carac.m`

The script that names the word of a recording: the one of the nearest of four references. `wavread`
is a parameter: the samples of a file. A coefficient that is not a number is `none`; among the
distances `NaN` is the top element.
-/

namespace TlVoix.Matlab

open Checked

section
variable {K : Type} [Field K]

/-- `mean(v)`. -/
def mean (v : List K) : K := v.sum / v.length

/-- `var(v)`, divided by one less than the length. -/
def variance (v : List K) : K :=
  (v.map fun x => (x - mean v) * (x - mean v)).sum / ((v.length - 1 : ℕ) : K)

/-- `(v - mean(v)) / (var(v) * n)`. If the cells are all equal they are all `0 / 0`, and if one is
not a number the variance is `NaN`. -/
def getCarac.normaliser [DecidableEq K] (n : ℕ) (v : List (Option K)) : List (Option K) :=
  if v.all Option.isSome then
    let w := v.map fun x => x.getD 0
    let d := variance w * n
    w.map fun x => if d = 0 then none else some ((x - mean w) / d)
  else v.map fun _ => none

variable [LinearOrder K]

/-- The index of the first least entry, from 1 on: the second result of `min`. -/
def indiceMin (d : ℕ → K) (n : ℕ) : ℕ :=
  (List.range n).foldl (fun b k => if d k < d b then k else b) 0 + 1

end

section
variable {K : Type} [Field K] [LinearOrder K] [FloorRing K] [StarRing K] [LibMatlab K]

/-- `get_carac`; the rows are concatenated as they are normalised. -/
def getCarac (fEch : K) (son : List K) (nFrames framesLength nFiltres ordreLpc : ℕ) :
    Run (Arr ℕ (List (Option K))) := do
  let coeffsMfcc ← mymfcc fEch son framesLength nFiltres
  let coeffsLpc ← mylpc son framesLength ordreLpc
  let coeffsCarac := Arr.full (row nFrames) fun _ => List.replicate (ordreLpc + nFiltres) (some 0)
  let (_, coeffsCarac) ← forUp 1 (nFrames + 1) coeffsCarac fun i coeffsCarac => do
    let mfcc := getCarac.normaliser nFrames (← lire nFiltres (← coeffsMfcc.get i))
    let lpc := getCarac.normaliser nFrames ((← coeffsLpc.get i).map some)
    coeffsCarac.set i (lpc ++ mfcc)
  pure coeffsCarac

/-- A recording that the script has studied. -/
structure Etude (K : Type) where
  name : String
  nFrames : ℕ
  carac : Arr ℕ (List (Option K))

/-- Coefficient `j` of frame `i`; the loops of `dist_globale` stay in the matrix. -/
def Etude.coeff (e : Etude K) (i j : ℕ) : Option K :=
  ((e.carac.val i).getD []).getD (j - 1) (some 0)

/-- The names of the references. -/
def references : List String :=
  ["test3/adroite.wav", "test3/agauche.wav", "test3/enavant.wav", "test3/stop.wav"]

/-- The study of one recording, with the parameters of the script. -/
def etudier (wavread : String → List K) (name : String) : Run (Etude K) := do
  let son ← removeBlanc (wavread name)
  let nFrames := son.length / 320 * 2 - 1
  let carac ← getCarac ((16000 : ℕ) : K) son nFrames 320 40 10
  pure { name, nFrames, carac }

/-- The loop on the distances. -/
def mainScript.dist (refSon : List (Etude K)) (son : Etude K) :
    Run (List (WithTop (WithTop K))) := do
  let (_, dist) ← forUp 1 5 [] fun i dist => do
    match refSon[i - 1]? with
    | some r => pure (dist ++ [← distGlobale r.nFrames son.nFrames 51 r.coeff son.coeff])
    | none => throw .outOfBounds
  pure dist

/-- `main.m`: the name of the nearest reference. -/
def mainScript (wavread : String → List K) : Run String := do
  let (_, refSon) ← forUp 1 5 [] fun i refSon => do
    pure (refSon ++ [← etudier wavread (references.getD (i - 1) "")])
  let son ← etudier wavread "test3/enavant2.wav"
  let dist ← mainScript.dist refSon son
  let b := indiceMin (fun k => dist.getD k ⊤) dist.length
  match refSon[b - 1]? with
  | some r => pure r.name
  | none => throw .outOfBounds

end

end TlVoix.Matlab
