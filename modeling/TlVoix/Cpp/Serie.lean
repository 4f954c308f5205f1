import TlVoix.Lib.Run

/-!
# `serie.cpp` and `main.cpp`: writing to the serial port

`ecriturePortSerie` and `commande`, over an oracle for the system call `write`: on its `n`-th call
with a buffer, it accepts a prefix of the buffer, or is refused with `EAGAIN` (or `EWOULDBLOCK`),
or fails for another reason. A port keeps the number of calls made and the bytes accepted.
-/

namespace TlVoix

open Checked

/-- The result of a call of `write`. -/
inductive Ecriture
  | accepte (n : ℕ)
  | eagain
  | erreur
  deriving DecidableEq, Repr

/-- An open serial port. -/
structure PortSerie where
  appels : ℕ
  recu : List Char
  deriving DecidableEq, Repr

/-- One call of `write` on the buffer `c`. -/
def ecriturePortSerie.write (oracle : ℕ → List Char → Ecriture) (c : List Char) (h : PortSerie) :
    Ecriture × PortSerie :=
  match oracle h.appels c with
  | .accepte n => (.accepte n, ⟨h.appels + 1, h.recu ++ c.take n⟩)
  | r => (r, ⟨h.appels + 1, h.recu⟩)

/-- `ecriturePortSerie`, for at most `fuel` refusals; returns the number of bytes written and the
port. A port that could not be opened is the null pointer `none`. -/
def ecriturePortSerie (oracle : ℕ → List Char → Ecriture) (fuel : ℕ) (h : Option PortSerie)
    (c : List Char) : Run (ℕ × Option PortSerie) :=
  match h with
  | none => pure (0, none)
  | some h => do
    -- the `do { } while` makes a first call before its test
    let (r, h) ← whileLoop (fun s : Ecriture × PortSerie => s.1 == .eagain)
      (fun s => pure (ecriturePortSerie.write oracle c s.2)) fuel
      (ecriturePortSerie.write oracle c h)
    match r with
    | .accepte n => pure (n, some h)
    | _ => pure (0, some h)

def consigneSTOP : List Char := "D,0,0\n".toList
def consigne3 : List Char := "D,10,10\n".toList
def consigne2 : List Char := "D,-20,20\n".toList
def consigne1 : List Char := "D,20,-20\n".toList

/-- The order that the `switch` of `commande` sends for a class. -/
def commande.consigne (classe : ℤ) : List Char :=
  if classe = 4 then consigneSTOP
  else if classe = 3 then consigne3
  else if classe = 2 then consigne2
  else if classe = 1 then consigne1
  else consigneSTOP

/-- `commande`: the numbers of bytes written are not looked at. -/
def commande (oracle : ℕ → List Char → Ecriture) (fuel : ℕ) (port : Option PortSerie)
    (classe : ℤ) : Run (Option PortSerie) := do
  let (_, port) ← ecriturePortSerie oracle fuel port (commande.consigne classe)
  let (_, port) ← ecriturePortSerie oracle fuel port consigneSTOP
  pure port

end TlVoix
