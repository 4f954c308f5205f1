import TlVoix.Cpp.Dtw
import Mathlib.Tactic.Linarith

/-!
# `main.cpp`: `classif`

The distances of a piece to the pieces of the base are the keys of a `std::map` (`Std.TreeMap`),
the classes its values: a piece at a distance already in the map replaces the class stored there.
The map is then read by increasing distance until a class has `k` votes.
-/

namespace TlVoix

open Checked

variable {P : Parameters} {σ K : Type} [Field K] [LinearOrder K] [LibM K]

/-- The map `hashmap` of `classif`: `hashmap[dtw(m, base[i])] = base[i].get_classe()` for every
piece of the base in turn. -/
def classif.hashmap (m : Morceau P K) (base : List (Morceau P K)) : Run (Std.TreeMap K ℤ) :=
  base.foldlM (fun hashmap b => do pure (hashmap.insert (← dtw m b) b.getClasse)) ∅

omit [Field K] [LinearOrder K] [LibM K] in
/-- The loop of `classif` over the sorted map: the first class with `k` votes, else -1. -/
def classif.vote (k : ℕ) : List (K × ℤ) → Arr ℤ ℕ → Run ℤ
  | [], _ => pure (-1)
  | (_, second) :: it, classes => do
    let classes ← classes.set (second - 1) ((← classes.get (second - 1)) + 1)
    if (← classes.get (second - 1)) = k then pure second else classif.vote k it classes

/-- `int classes[4] = {0}`. -/
def classif.classes : Arr ℤ ℕ := ⟨fun i => decide (0 ≤ i ∧ i < 4), fun _ => some 0⟩

/-- `classif`, once the unknown piece is read. -/
def classif.morceau (base : List (Morceau P K)) (m : Morceau P K) (k : ℕ) : Run ℤ := do
  let hashmap ← classif.hashmap m base
  classif.vote k hashmap.toList classif.classes

def classif (sf : Sndfile σ K) (pile : ℕ → ℕ → Option K) (fuel : ℕ)
    (base : List (Morceau P K)) (nom : Option σ) (k : ℕ) : Run ℤ := do
  let m ← lecture P sf pile fuel nom 0
  classif.morceau base m k

end TlVoix
