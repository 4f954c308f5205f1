import TlVoix.Lib.Arr

/-!
# `serie.cpp`: reading from the serial port

`lecturePortSerie`, as it is compiled for Linux, over an oracle for the system call `read`: on its
`n`-th call, for at most `len` bytes, it gives some bytes (none at the end of the file), or fails.
-/

namespace TlVoix

open Checked

/-- An open serial port, as it is read; `appels` is the number of calls of `read` so far. -/
structure PortLu where
  appels : ℕ
  bloque : Bool
  deriving DecidableEq, Repr

/-- The state of the loop of `lecturePortSerie`; `rendu` says that the function has returned. -/
structure LecturePort where
  appels : ℕ
  totalBytesRead : ℕ
  c : Arr ℕ Char
  rendu : Bool

/-- The test of the loop. -/
def LecturePort.encore (len : ℕ) (s : LecturePort) : Bool :=
  !s.rendu && decide (s.totalBytesRead < len)

/-- One call of `read`, for the bytes that are missing. A failure counts as no byte. -/
def lecturePortSerie.read (oracle : ℕ → ℕ → Option (List Char)) (len : ℕ) (s : LecturePort) :
    Run LecturePort := do
  let lus := (oracle s.appels (len - s.totalBytesRead)).getD []
  let c ← (Arr.ofFn lus.length fun i => lus.getD i '\x00').copyTo lus.length s.c s.totalBytesRead
  pure { s with appels := s.appels + 1, totalBytesRead := s.totalBytesRead + lus.length, c }

/-- The body of the loop. -/
def lecturePortSerie.step (oracle : ℕ → ℕ → Option (List Char)) (bloque : Bool) (len : ℕ)
    (s : LecturePort) : Run LecturePort := do
  let s ← lecturePortSerie.read oracle len s
  if s.totalBytesRead < len ∧ bloque = false then do
    let s ← lecturePortSerie.read oracle len s
    pure { s with rendu := true }
  else pure s

/-- `lecturePortSerie`, for at most `fuel` iterations: the number of bytes read, the array and the
port. -/
def lecturePortSerie (oracle : ℕ → ℕ → Option (List Char)) (fuel : ℕ) (h : Option PortLu)
    (c : Arr ℕ Char) (len : ℕ) : Run (ℕ × Arr ℕ Char × Option PortLu) :=
  match h with
  | none => pure (0, c, none)
  | some h => do
    let s ← whileLoop (LecturePort.encore len) (lecturePortSerie.step oracle h.bloque len) fuel
      { appels := h.appels, totalBytesRead := 0, c, rendu := false }
    pure (s.totalBytesRead, s.c, some { h with appels := s.appels })

end TlVoix
