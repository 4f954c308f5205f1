import TlVoix.Cpp.Classif
import TlVoix.Cpp.Serie
import TlVoix.Cpp.Istream

/-!
# `main.cpp`: `main`

`main` reads its base from a text, a file name and a class on successive lines (`main.base`), then
answers requests for ever: the name of a recording is read, the recording is classified, and the
order of its class is sent (`main.tour`). `main.tours` is the state after a number of rounds.

`disque n nom` is what the `n`-th call of `sf_open` returns for the file `nom`, and `pile n` is the
stack under the `n`-th call of `lecture`. The player of the recording, which `main` starts with the
text `command`, is left out: its result is not looked at.
-/

namespace TlVoix

open Checked

/-- The default constructor of `Morceau`: no frame, and the class `indet` that the memory had
before. -/
def Morceau.defaut {P : Parameters} {K : Type} (indet : ℤ) : Morceau P K := ⟨#[], 0, indet, rfl⟩

/-- A text and its null stored in an array of `taille` characters: `strcpy`, `strcat`, and the
extraction of a word. -/
def copieTexte (taille : ℕ) (s : List Char) : Run (List Char) :=
  if s.length < taille then pure s else throw .outOfBounds

/-- The state of the loop that fills `base`; `lu` is the result of the last `getline`. -/
structure Chargement (P : Parameters) (K : Type) where
  lu : Bool
  f : Istream
  line : List Char
  i : ℕ
  base : Arr ℕ (Morceau P K)

/-- The state of the loop that answers the requests; `nom0` is the text of the array, if something
was stored there. -/
structure Session where
  cin : Istream
  nom0 : Option (List Char)
  ouvertures : ℕ
  port : Option PortSerie

section
variable {σ K : Type} [Field K] [LinearOrder K] [LibM K]

/-- The body of the loop that fills `base`, and the read that its next test makes. -/
def main.charge (P : Parameters) (sf : Sndfile σ K) (disque : ℕ → List Char → Option σ)
    (pile : ℕ → ℕ → ℕ → Option K) (fuel : ℕ) (s : Chargement P K) : Run (Chargement P K) := do
  let nom ← copieTexte 50 s.line
  let (f, line) := s.f.getline s.line
  let m ← lecture P sf (pile s.i) fuel (disque s.i nom) (atoi line)
  let base ← s.base.set s.i m
  let i := s.i + 1
  let (f, line) := f.getline line
  pure { lu := !f.fail, f, line, i, base }

/-- The base of `lBase` pieces that `main` reads from the text `fichiers`; also returns the number
of files opened. -/
def main.base (P : Parameters) (sf : Sndfile σ K) (disque : ℕ → List Char → Option σ)
    (pile : ℕ → ℕ → ℕ → Option K) (fuel : ℕ) (indet : ℕ → ℤ) (lBase : ℕ) (fichiers : List Char) :
    Run (ℕ × List (Morceau P K)) := do
  let base := Arr.ofFn lBase fun i => Morceau.defaut (indet i)
  let (f, line) := (Istream.ofText (cString fichiers)).getline []
  let s ← whileLoop (fun s : Chargement P K => s.lu) (main.charge P sf disque pile fuel) fuel
    { lu := !f.fail, f, line, i := 0, base }
  let base ← s.base.toVector lBase
  pure (s.i, base.toList)

omit [Field K] [LinearOrder K] [LibM K] in
/-- `cin >> nom0`, and the text that `nom0` then has. -/
def main.nom (s : Session) : Run (Istream × List Char) :=
  match s.cin.mot, s.nom0 with
  | (cin, some m), _ => do pure (cin, cString (← copieTexte 50 m))
  | (cin, none), some nom => pure (cin, nom)
  | (_, none), none => throw .uninitialised

variable {P : Parameters}

/-- The body of the loop that answers the requests. -/
def main.tour (sf : Sndfile σ K) (disque : ℕ → List Char → Option σ)
    (pile : ℕ → ℕ → ℕ → Option K) (oracle : ℕ → List Char → Ecriture) (fuel : ℕ)
    (base : List (Morceau P K)) (s : Session) : Run Session := do
  let (cin, nom) ← main.nom s
  let _ ← copieTexte 100 ("play ".toList ++ nom)
  let classe ← classif sf (pile s.ouvertures) fuel base (disque s.ouvertures nom) 3
  let port ← commande oracle fuel s.port classe
  pure { cin, nom0 := some nom, ouvertures := s.ouvertures + 1, port }

/-- The state after `n` rounds of the loop `while(true)`. -/
def main.tours (sf : Sndfile σ K) (disque : ℕ → List Char → Option σ)
    (pile : ℕ → ℕ → ℕ → Option K) (oracle : ℕ → List Char → Ecriture) (fuel : ℕ)
    (base : List (Morceau P K)) : ℕ → Session → Run Session
  | 0, s => pure s
  | n + 1, s => main.tour sf disque pile oracle fuel base s >>=
      main.tours sf disque pile oracle fuel base n

/-- `main` up to the end of round `n`, with the port that it opened (or not). -/
def main (P : Parameters) (sf : Sndfile σ K) (disque : ℕ → List Char → Option σ)
    (pile : ℕ → ℕ → ℕ → Option K) (oracle : ℕ → List Char → Ecriture) (fuel : ℕ) (indet : ℕ → ℤ)
    (lBase : ℕ) (fichiers cin : List Char) (port : Option PortSerie) (n : ℕ) : Run Session := do
  let (ouvertures, base) ← main.base P sf disque pile fuel indet lBase fichiers
  main.tours sf disque pile oracle fuel base n
    { cin := .ofText cin, nom0 := none, ouvertures, port }

end

/-! ## The shipped base -/

/-- `NB_FICHIERS`. -/
def nbFichiers : ℕ := 36

/-- Two lines of `FICHIERS`. -/
def fichiers.lignes (nom : String) (version classe : ℕ) : List Char :=
  "../test3/creations/".toList ++ nom.toList ++ Nat.toDigits 10 version ++ ".wav".toList ++
    '\n' :: (Nat.toDigits 10 classe ++ ['\n'])

/-- `FICHIERS`. -/
def fichiers : List Char :=
  [7, 8, 9, 5, 10, 11, 12, 13, 14].flatMap fun version : ℕ =>
    fichiers.lignes "adroite" version 1 ++ fichiers.lignes "agauche" version 2 ++
      fichiers.lignes "enavant" version 3 ++ fichiers.lignes "stop" version 4

end TlVoix
