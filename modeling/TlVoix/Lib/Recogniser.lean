import TlVoix.Lib.Ballot
import TlVoix.Lib.Warp
import Mathlib.Algebra.Order.Field.Basic
import Mathlib.Order.ConditionallyCompleteLattice.Basic

/-!
# Recognition by the nearest sequences

A recogniser turns a signal into the sequence of its features (`trace`), and measures how far apart
two features are (`gap`). Two signals are as far apart as the least cost of a warping path between
their traces, over the sum of their lengths (`distance`). The class of a signal is the one that
first has `k` of the signals of a base, from the nearest one on, of those that no later signal of
the base is exactly as far as (`verdict`).

* `distance_eq`: the distance from a least cost.
* `distance_congr`, `distance_reverse`: signals are known by their traces, and traces that are both
  read from their end are as far apart.
* `distance_replicate`: a constant trace, from one feature.
* `distance_append`: the parts of two traces bound the whole.
* `verdict_congr`: the verdict depends on the distances.
-/

/-- Sequences of features, and how far apart two features are. -/
structure Recogniser (S F K : Type) where
  trace : S → List F
  gap : F → F → K

namespace Recogniser

open Warp Ballot

variable {S S' F K ι : Type}

section
variable [Zero K]

/-- The gaps of two sequences; 0 outside of their table. -/
def table (R : Recogniser S F K) (a b : List F) (p : ℕ × ℕ) : K :=
  match a[p.1]?, b[p.2]? with
  | some f, some g => R.gap f g
  | _, _ => 0

theorem table_nil_left (R : Recogniser S F K) (b : List F) : R.table [] b = 0 := rfl

theorem table_nil_right (R : Recogniser S F K) (a : List F) : R.table a [] = 0 := by
  funext p
  unfold table
  cases a[p.1]? <;> rfl

theorem table_reverse (R : Recogniser S F K) {a b : List F} {p : ℕ × ℕ} (h1 : p.1 < a.length)
    (h2 : p.2 < b.length) :
    R.table a.reverse b.reverse (a.length - 1 - p.1, b.length - 1 - p.2) = R.table a b p := by
  have hrev : ∀ {l : List F} {i : ℕ}, i < l.length → l.reverse[l.length - 1 - i]? = l[i]? := by
    intro l i hi
    rw [List.getElem?_reverse (by omega)]
    congr 1
    omega
  unfold table
  dsimp only
  rw [hrev h1, hrev h2]

theorem table_append_left (R : Recogniser S F K) {a a' b b' : List F} {p : ℕ × ℕ}
    (h1 : p.1 < a.length) (h2 : p.2 < b.length) :
    R.table (a ++ a') (b ++ b') p = R.table a b p := by
  unfold table
  rw [List.getElem?_append_left h1, List.getElem?_append_left h2]

theorem table_append_right (R : Recogniser S F K) {a a' b b' : List F} (p : ℕ × ℕ) :
    R.table (a ++ a') (b ++ b') (a.length + p.1, b.length + p.2) = R.table a' b' p := by
  unfold table
  dsimp only
  rw [List.getElem?_append_right (Nat.le_add_right _ _),
    List.getElem?_append_right (Nat.le_add_right _ _), Nat.add_sub_cancel_left,
    Nat.add_sub_cancel_left]

end

variable [Field K] [ConditionallyCompleteLinearOrder K]

/-- How far apart two signals are. -/
noncomputable def distance (R : Recogniser S F K) (x y : S) : K :=
  sInf (costs (R.table (R.trace x) (R.trace y)) {(0, 0)}
    ((R.trace x).length - 1, (R.trace y).length - 1)) /
      ((R.trace x).length + (R.trace y).length : ℕ)

/-- The signals of a base: how far each one is from `x`, and its class. -/
noncomputable def entries (R : Recogniser S F K) (base : List (S × ι)) (x : S) : List (K × ι) :=
  base.map fun b => (R.distance x b.1, b.2)

/-- The first class with `k` of the nearest signals, from the nearest one on. Of the signals of the
base at one distance the last one counts, and the others do not (`Ballot.kept`). -/
noncomputable def verdict [DecidableEq ι] (R : Recogniser S F K) (k : ℕ) (base : List (S × ι))
    (x : S) : Option ι :=
  choice k (R.entries base x)

theorem distance_eq (R : Recogniser S F K) {x y : S} {v : K}
    (hne : (((R.trace x).length + (R.trace y).length : ℕ) : K) ≠ 0)
    (h : IsLeast (costs (R.table (R.trace x) (R.trace y)) {(0, 0)}
      ((R.trace x).length - 1, (R.trace y).length - 1))
        (v * ((R.trace x).length + (R.trace y).length : ℕ))) : R.distance x y = v := by
  rw [distance, h.csInf_eq, mul_div_cancel_right₀ _ hne]

/-! ## What a recogniser does not see -/

/-- Two ways to read signals that give `x` and `x'` one trace. -/
theorem distance_congr {R : Recogniser S F K} {R' : Recogniser S' F K} (hgap : R.gap = R'.gap)
    {x y : S} {x' y' : S'} (hx : R.trace x = R'.trace x') (hy : R.trace y = R'.trace y') :
    R.distance x y = R'.distance x' y' := by
  have htable : R.table = R'.table := by
    funext a b p
    unfold table
    rw [hgap]
  rw [distance, distance, hx, hy, htable]

/-- Traces that are both read from their end. -/
theorem distance_reverse {R : Recogniser S F K} {x y x' y' : S}
    (hx : R.trace x' = (R.trace x).reverse) (hy : R.trace y' = (R.trace y).reverse) :
    R.distance x' y' = R.distance x y := by
  rw [distance, distance, hx, hy, List.length_reverse, List.length_reverse]
  congr 2
  rcases List.eq_nil_or_concat (R.trace x) with h | ⟨_, _, h⟩
  · rw [h, List.reverse_nil, R.table_nil_left, R.table_nil_left]
  rcases List.eq_nil_or_concat (R.trace y) with h' | ⟨_, _, h'⟩
  · rw [h', List.reverse_nil, R.table_nil_right, R.table_nil_right]
  have hlx : 0 < (R.trace x).length := by simp [h]
  have hly : 0 < (R.trace y).length := by simp [h']
  exact costs_reverse fun p h1 h2 => R.table_reverse (by omega) (by omega)

section
variable [IsStrictOrderedRing K]

/-- The distance of two signals, times their lengths, is the least cost. -/
theorem isLeast_distance (R : Recogniser S F K) {x y : S} (hx : R.trace x ≠ []) :
    IsLeast (costs (R.table (R.trace x) (R.trace y)) {(0, 0)}
      ((R.trace x).length - 1, (R.trace y).length - 1))
        (R.distance x y * ((R.trace x).length + (R.trace y).length : ℕ)) := by
  obtain ⟨v, hv⟩ := exists_isLeast (R.table (R.trace x) (R.trace y)) ((R.trace x).length - 1)
    ((R.trace y).length - 1)
  have hpos := List.length_pos_iff.2 hx
  have hne : (((R.trace x).length + (R.trace y).length : ℕ) : K) ≠ 0 :=
    Nat.cast_ne_zero.2 (by omega)
  rwa [distance, hv.csInf_eq, div_mul_cancel₀ _ hne]

/-- **A constant trace**, from one feature. -/
theorem distance_replicate {R : Recogniser S F K} {x y : S} {f g : F} {n : ℕ}
    (hx : R.trace x = [f]) (hy : R.trace y = List.replicate (n + 1) g) (hgap : 0 ≤ R.gap f g) :
    R.distance x y = (n + 1 : ℕ) * R.gap f g / (n + 2 : ℕ) := by
  obtain ⟨v, hv⟩ := exists_isLeast (R.table [f] (List.replicate (n + 1) g)) 0 n
  have hcell : ∀ p : ℕ × ℕ, p.1 ≤ 0 → p.2 ≤ n →
      R.gap f g ≤ R.table [f] (List.replicate (n + 1) g) p ∧
        R.table [f] (List.replicate (n + 1) g) p ≤ R.gap f g := by
    intro p h1 h2
    obtain ⟨i, j⟩ := p
    obtain rfl := Nat.le_zero.1 h1
    rw [table, List.getElem?_replicate_of_lt (Nat.lt_succ_of_le h2)]
    exact ⟨le_rfl, le_rfl⟩
  have hbounds := isLeast_bounds hgap hgap hcell hv
  rw [Nat.zero_max, Nat.zero_add] at hbounds
  have hv' := hv
  rw [le_antisymm hbounds.2 hbounds.1] at hv'
  rw [distance, hx, hy, List.length_singleton, List.length_replicate, Nat.sub_self,
    Nat.add_sub_cancel, hv'.csInf_eq, nsmul_eq_mul, Nat.add_comm 1]

/-- **Concatenation**: the costs of the parts bound the cost of the whole. -/
theorem distance_append {R : Recogniser S F K} {x y x1 y1 x2 y2 : S}
    (hx : R.trace x = R.trace x1 ++ R.trace x2) (hy : R.trace y = R.trace y1 ++ R.trace y2)
    (hx1 : R.trace x1 ≠ []) (hy1 : R.trace y1 ≠ []) (hx2 : R.trace x2 ≠ [])
    (hy2 : R.trace y2 ≠ []) :
    R.distance x y * ((R.trace x).length + (R.trace y).length : ℕ) ≤
      R.distance x1 y1 * ((R.trace x1).length + (R.trace y1).length : ℕ) +
        R.distance x2 y2 * ((R.trace x2).length + (R.trace y2).length : ℕ) := by
  have hwhole := R.isLeast_distance (x := x) (y := y) (by simp [hx, hx1])
  rw [hx, hy, List.length_append, List.length_append] at hwhole ⊢
  refine isLeast_append (List.length_pos_iff.2 hx1) (List.length_pos_iff.2 hy1)
    (List.length_pos_iff.2 hx2) (List.length_pos_iff.2 hy2) (fun p h1 h2 => ?_) (fun p _ _ => ?_)
    hwhole (R.isLeast_distance hx1) (R.isLeast_distance hx2)
  · exact R.table_append_left h1 h2
  · exact R.table_append_right p

end

/-- The verdict depends on the distances. -/
theorem verdict_congr [DecidableEq ι] {R : Recogniser S F K} {R' : Recogniser S' F K} (k : ℕ)
    {base : List (S × ι)} {base' : List (S' × ι)} {x : S} {x' : S'}
    (h : List.Forall₂ (fun b b' => R.distance x b.1 = R'.distance x' b'.1 ∧ b.2 = b'.2)
      base base') :
    R.verdict k base x = R'.verdict k base' x' := by
  have : R.entries base x = R'.entries base' x' := by
    unfold entries
    induction h with
    | nil => rfl
    | cons h _ ih => rw [List.map_cons, List.map_cons, ih, h.1, h.2]
  rw [verdict, verdict, this]

end Recogniser
