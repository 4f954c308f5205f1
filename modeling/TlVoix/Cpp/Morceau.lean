import TlVoix.Cpp.Frame

/-!
# `morceau.cpp`: pieces, and `lecture`

`Morceau P K` is the class `Morceau`: the frames its constructor allocates, their number and the
class of the recording. `lecture` reads a recording by half frames and builds its `Morceau`.

`libsndfile` is the parameter `Sndfile`: what `sf_read_double` does to an opened file. Its
documented behaviour is `Sndfile.Reads`. A file that cannot be opened is the null pointer `none`.
-/

namespace TlVoix

open Checked

/-- The class `Morceau`. -/
structure Morceau (P : Parameters) (K : Type) where
  frames : Array (Frame P K)
  nFrames : ℕ
  classe : ℤ
  /-- the constructor allocates `n_frames` frames -/
  alloc : frames.size = nFrames

namespace Morceau

variable {P : Parameters} {K : Type}

/-- The constructor of `Morceau`: `new Frame[n_frames_donne]`, then a copy of the list into it. -/
def create (framesDonne : List (Frame P K)) (nFramesDonne : ℕ) (classeDonne : ℤ) :
    Run (Morceau P K) :=
  if h : framesDonne.length = nFramesDonne then
    pure ⟨framesDonne.toArray, nFramesDonne, classeDonne, h⟩
  else if framesDonne.length < nFramesDonne then throw .uninitialised
  else throw .outOfBounds

def getNFrames (m : Morceau P K) : ℕ := m.nFrames

def getFrames (m : Morceau P K) : Array (Frame P K) := m.frames

def getClasse (m : Morceau P K) : ℤ := m.classe

/-- `m.get_frames()[i]`. -/
def frame (m : Morceau P K) (i : ℕ) : Run (Frame P K) :=
  match m.getFrames[i]? with
  | some f => pure f
  | none => throw .outOfBounds

end Morceau

/-! ## Reading a recording -/

/-- `sf_read_double` on an opened file: the number of items read, the buffer and the file after
the call. -/
structure Sndfile (σ K : Type) where
  readDouble : σ → Arr ℕ K → ℕ → ℕ × Arr ℕ K × σ

/-- `sf_read_double` returns the smaller of the number of items requested and the number of items
that remain (`son s`), and stores that many items at the head of the buffer. Nothing is said of the
cells after them. -/
structure Sndfile.Reads {σ K : Type} (sf : Sndfile σ K) (son : σ → List K) : Prop where
  count : ∀ s data len, (sf.readDouble s data len).1 = min len (son s).length
  dom : ∀ s data len, (sf.readDouble s data len).2.1.dom = data.dom
  head : ∀ s data len i, i < min len (son s).length →
    (sf.readDouble s data len).2.1.val i = (son s)[i]?
  rest : ∀ s data len, son (sf.readDouble s data len).2.2 = (son s).drop len

section
variable {σ K : Type}

/-- `sf_read_double`: it returns 0 on a null pointer. -/
def sfReadDouble (sf : Sndfile σ K) (infile : Option σ) (data : Arr ℕ K) (len : ℕ) :
    ℕ × Arr ℕ K × Option σ :=
  match infile with
  | none => (0, data, none)
  | some s =>
    let (n, data, s) := sf.readDouble s data len
    (n, data, some s)

/-- The state of the loop of `lecture`; `lu` is the result of the last read. -/
structure Lecture (P : Parameters) (σ K : Type) where
  lu : ℕ
  infile : Option σ
  data : Arr ℕ K
  concat : Arr ℕ K
  frames : List (Frame P K)
  nFrames : ℕ

variable [Field K] [LinearOrder K] [LibM K]

/-- The body of the loop of `lecture`, and the read that its next test makes. -/
def lecture.step (P : Parameters) (sf : Sndfile σ K) (pile : ℕ → ℕ → Option K)
    (s : Lecture P σ K) : Run (Lecture P σ K) := do
  let framesLength := P.tailleFrame
  let nFrames := s.nFrames + 1
  let concat ← s.data.copyTo (framesLength / 2) s.concat (framesLength / 2)
  let frame ← Frame.create P (pile nFrames) concat framesLength P.ordreLpc P.nbMfcc
  let concat ← s.data.copyTo (framesLength / 2) concat 0
  let frames := s.frames ++ [frame]
  let (lu, data, infile) := sfReadDouble sf s.infile s.data (framesLength / 2)
  pure { lu, infile, data, concat, frames, nFrames }

/-- `lecture` of an opened (or not opened) file, for at most `fuel` frames; `pile n` is the stack
under the `n`-th call of the constructor of `Frame`. -/
def lecture (P : Parameters) (sf : Sndfile σ K) (pile : ℕ → ℕ → Option K) (fuel : ℕ)
    (infile : Option σ) (classeDonne : ℤ) : Run (Morceau P K) := do
  let framesLength := P.tailleFrame
  let data : Arr ℕ K := Arr.fresh (framesLength / 2)
  let concat : Arr ℕ K := Arr.fresh framesLength
  let (_, data, infile) := sfReadDouble sf infile data (framesLength / 2)
  let concat ← data.copyTo (framesLength / 2) concat 0
  let (lu, data, infile) := sfReadDouble sf infile data (framesLength / 2)
  let s ← whileLoop (fun s : Lecture P σ K => framesLength / 2 == s.lu) (lecture.step P sf pile)
    fuel { lu, infile, data, concat, frames := [], nFrames := 0 }
  Morceau.create s.frames s.nFrames classeDonne

end

end TlVoix
