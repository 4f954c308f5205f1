import Mathlib.Algebra.Group.Int.Defs
import Mathlib.Algebra.Group.Nat.Defs
import Mathlib.Data.Nat.Basic
import Mathlib.Tactic.Common

/-!
# Text streams

What `main.cpp` uses of `std::istream`: `std::getline`, and the extraction of a word into an array
of characters. A stream is the text that remains, with its flags `eof` and `fail`. `atoi` and
`cString` (the text of an array of characters, up to its first null) go with it.
-/

namespace TlVoix

/-- `isspace`. -/
def isspace (c : Char) : Bool := c == ' ' || (9 ≤ c.toNat && c.toNat ≤ 13)

/-- The text of an array of characters. -/
def cString (s : List Char) : List Char := s.takeWhile (· != '\x00')

/-- The number that a text begins with. -/
def strtol.chiffres (s : List Char) : ℕ := Nat.ofDigitChars 10 (s.takeWhile Char.isDigit) 0

/-- The same after spaces and a sign; 0 where no number is read. -/
def strtol.nombre (s : List Char) : ℤ :=
  match s.dropWhile isspace with
  | '-' :: s => -(strtol.chiffres s : ℤ)
  | '+' :: s => strtol.chiffres s
  | s => strtol.chiffres s

/-- `strtol` in base 10: the nearest `long`. -/
def strtol (s : List Char) : ℤ := max (-2 ^ 63) (min (2 ^ 63 - 1) (strtol.nombre s))

/-- `atoi`: the result of `strtol`, as an `int`. -/
def atoi (s : List Char) : ℤ := (strtol s).bmod (2 ^ 32)

/-- `std::istream`. -/
structure Istream where
  reste : List Char
  eof : Bool
  fail : Bool
  deriving DecidableEq, Repr

namespace Istream

/-- A stream before its first read. -/
def ofText (s : List Char) : Istream := ⟨s, false, false⟩

/-- `std::getline`: the line is erased, then read up to the end of the line; the read fails if
nothing is there, not even the end of a line. On a stream that is not good it fails at once, and
the line is left as it is. -/
def getline (f : Istream) (line : List Char) : Istream × List Char :=
  if f.eof || f.fail then ({ f with fail := true }, line)
  else
    match f.reste.dropWhile (· != '\n') with
    | [] => (⟨[], true, f.reste.isEmpty⟩, f.reste)
    | _ :: reste => (ofText reste, f.reste.takeWhile (· != '\n'))

/-- `operator>>` into an array of characters: spaces are skipped, then a word is read, if there is
one; else the array is left as it is. -/
def mot (f : Istream) : Istream × Option (List Char) :=
  if f.eof || f.fail then ({ f with fail := true }, none)
  else
    match f.reste.dropWhile isspace with
    | [] => (⟨[], true, true⟩, none)
    | c :: s =>
      let reste := (c :: s).dropWhile fun c => !isspace c
      (⟨reste, reste.isEmpty, false⟩, some ((c :: s).takeWhile fun c => !isspace c))

end Istream

end TlVoix
