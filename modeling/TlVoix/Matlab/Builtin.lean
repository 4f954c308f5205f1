import TlVoix.Lib.Arr
import TlVoix.Cpp.Libmfcc
import Mathlib.Analysis.SpecialFunctions.Trigonometric.Basic

/-!
# The Matlab functions that the scripts call

Indices start at 1. A vector that a script takes or computes as a whole is a list, one that it
writes cell by cell an array. Over `ℝ` the functions are the exact ones.
-/

namespace TlVoix.Matlab

open Checked

/-- The functions of `math.h`, with `sin` and `pi`. -/
class LibMatlab (K : Type) extends LibM K where
  sin : K → K
  pi : K

noncomputable instance : LibMatlab ℝ where
  sin := Real.sin
  pi := Real.pi

/-- The cells of a vector. -/
def row (n i : ℕ) : Bool := decide (1 ≤ i ∧ i ≤ n)

@[simp] theorem row_eq_true {n i : ℕ} : row n i = true ↔ 1 ≤ i ∧ i ≤ n := by simp [row]

/-- A loop over a row of `c`, of which iteration `k` sets cell `k` to `g k`. -/
theorem ends_fillRow {α : Type} {n : ℕ} {c : α} {g : ℕ → α} {body : ℕ → Arr ℕ α → Run (Arr ℕ α)}
    (h : ∀ k, 1 ≤ k → k ≤ n → ∀ f, f k = c → Ends (body k (Arr.full (row n) f)) fun a =>
      a = Arr.full (row n) (Function.update f k (g k))) :
    Ends (forUp 1 (n + 1) (Arr.full (row n) fun _ => c) body) fun r =>
      r.2 = Arr.full (row n) g := by
  refine (Ends.forUp (fun k a => a = Arr.full (row n) (Arr.replaced k g fun _ => c))
    (by omega) ?_ ?_).mono ?_
  · refine Arr.full_inj.2 fun k hk => ?_
    rw [Arr.replaced_of_le (row_eq_true.1 hk).1]
  · intro k a hk1 hk ha
    rw [ha, ← Arr.update_replaced]
    exact h k hk1 (Nat.lt_succ_iff.1 hk) _ (Arr.replaced_self ..)
  · intro r hr
    refine hr.2.trans (Arr.full_inj.2 fun k hk => ?_)
    exact Arr.replaced_of_lt (Nat.lt_succ_iff.2 (row_eq_true.1 hk).2) _ _

/-- The cells `1` to `n` of a row. -/
def lire {α : Type} (n : ℕ) (v : Arr ℕ α) : Run (List α) := do
  let (_, l) ← forUp 1 (n + 1) [] fun j l => do
    pure (l ++ [← v.get j])
  pure l

/-- The values `a 1, …, a n`. -/
def coeffs {α : Type} (a : ℕ → α) (n : ℕ) : List α := (List.range n).map fun j => a (j + 1)

@[simp] theorem length_coeffs {α : Type} (a : ℕ → α) (n : ℕ) : (coeffs a n).length = n := by
  rw [coeffs, List.length_map, List.length_range]

theorem ends_lire {α : Type} {n : ℕ} {v : Arr ℕ α} {f : ℕ → α}
    (h : ∀ j, 1 ≤ j → j ≤ n → v.Holds j (f j)) : Ends (lire n v) (· = coeffs f n) := by
  refine Ends.bind (Ends.forUp (fun j l => l = coeffs f (j - 1)) (Nat.le_add_left 1 n) rfl ?_)
    fun r hr => Ends.ok hr.2
  intro j l h1 hj hl
  obtain ⟨i, rfl⟩ : ∃ i, j = i + 1 := ⟨j - 1, by omega⟩
  rw [Arr.get_ok (h (i + 1) h1 (by omega)), hl]
  refine Ends.ok ?_
  rw [Nat.add_sub_cancel, Nat.add_sub_cancel, coeffs, coeffs, List.range_succ, List.map_append,
    List.map_singleton]

/-- The cells of a matrix. -/
def matrix (n m : ℕ) (p : ℕ × ℕ) : Bool := row n p.1 && row m p.2

@[simp] theorem matrix_eq_true {n m : ℕ} {p : ℕ × ℕ} :
    matrix n m p = true ↔ (1 ≤ p.1 ∧ p.1 ≤ n) ∧ 1 ≤ p.2 ∧ p.2 ≤ m := by simp [matrix]

/-- The cells of a matrix of which the column is a computed index. -/
def matrixInt (n m : ℕ) (p : ℕ × ℤ) : Bool := row n p.1 && decide (1 ≤ p.2 ∧ p.2 ≤ m)

@[simp] theorem matrixInt_eq_true {n m : ℕ} {p : ℕ × ℤ} :
    matrixInt n m p = true ↔ (1 ≤ p.1 ∧ p.1 ≤ n) ∧ 1 ≤ p.2 ∧ p.2 ≤ m := by simp [matrixInt]

/-- `find(v, 1, 'first')`; `none` is the empty matrix. -/
def findFirst (v : List Bool) : Option ℕ := (v.findIdx? id).map (· + 1)

/-- `find(v, 1, 'last')`. -/
def findLast (v : List Bool) : Option ℕ := (v.reverse.findIdx? id).map (v.length - ·)

section
variable {K : Type}

/-- `v(j)`. -/
def index (v : List K) (j : ℤ) : Run K :=
  if 1 ≤ j then
    match v[j.toNat - 1]? with
    | some x => pure x
    | none => throw .outOfBounds
  else throw .outOfBounds

/-- `v(a:b)`: a range with `b < a` is empty, an index outside `v` is an error. -/
def colon (v : List K) (a b : ℕ) : Run (List K) :=
  if b < a then pure []
  else if 1 ≤ a ∧ b ≤ v.length then pure ((v.take b).drop (a - 1))
  else throw .outOfBounds

theorem index_ok {v : List K} {j : ℕ} (hj : 1 ≤ j) (hlen : j ≤ v.length) (d : K) :
    index v j = .ok (v.getD (j - 1) d) := by
  have hlt : j - 1 < v.length := by omega
  have hj' : (1 : ℤ) ≤ j := by exact_mod_cast hj
  rw [index, if_pos hj', Int.toNat_natCast, List.getD_eq_getElem?_getD,
    List.getElem?_eq_getElem hlt]
  rfl

theorem colon_ok {v : List K} {a b : ℕ} (ha : 1 ≤ a) (hab : a ≤ b) (hb : b ≤ v.length) :
    colon v a b = .ok ((v.take b).drop (a - 1)) := by
  rw [colon, if_neg (Nat.not_lt.2 hab), if_pos ⟨ha, hb⟩]
  rfl

theorem colon_outOfBounds {v : List K} {a b : ℕ} (hab : a ≤ b) (hb : v.length < b) :
    colon v a b = .error .outOfBounds := by
  rw [colon, if_neg (Nat.not_lt.2 hab), if_neg fun h => Nat.not_lt.2 h.2 hb]
  rfl

end

section
variable {K : Type} [Field K] [LibMatlab K]

def hamming (n : ℕ) : List K :=
  (List.range n).map fun k : ℕ =>
    if n = 1 then 1 else 0.54 - 0.46 * LibM.cos (LibMatlab.pi * (2 * k : ℕ) / ((n : K) - 1))

/-- `abs(fft(x))`. -/
def absFft (x : List K) : List K :=
  (List.range x.length).map fun k : ℕ =>
    let angle (m : ℕ) : K := LibMatlab.pi * (2 * k * m : ℕ) / x.length
    let re := ∑ m ∈ Finset.range x.length, x.getD m 0 * LibM.cos (angle m)
    let im := -∑ m ∈ Finset.range x.length, x.getD m 0 * LibMatlab.sin (angle m)
    LibM.sqrt (re * re + im * im)

end

end TlVoix.Matlab
