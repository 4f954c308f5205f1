import Mathlib.Algebra.BigOperators.Field
import Mathlib.Algebra.BigOperators.Intervals
import Mathlib.Algebra.BigOperators.Ring.Finset
import Mathlib.Algebra.Order.BigOperators.Group.Finset
import Mathlib.Algebra.Order.Field.Basic
import Mathlib.Algebra.Order.Ring.Abs
import Mathlib.Data.Nat.Dist
import Mathlib.Tactic.FieldSimp
import Mathlib.Tactic.Ring

/-!
# Symmetric Toeplitz systems

* `row R n a i` is the `i`-th equation of the system with the entries `R |i - j|`.
* `Predictor R n a σ`: the coefficients `a 0 = 1, a 1, …, a n` solve the normal equations of order
  `n`, with the error `σ`. The Levinson step `next` gives the predictor of order `n + 1`
  (`Predictor.next`), by the symmetry of the system under reversal (`row_reflect`).
* `Predictor.error_pos`: the error is positive if the form of the system is; that of the
  autocorrelation of a signal that is not zero is (`form_autocorrelation_pos`), since it is the
  energy of the signal filtered by the coefficients.
-/

namespace Toeplitz

open Finset

section
variable {K : Type*} [Field K] {R : ℕ → K} {n : ℕ} {a : ℕ → K}

/-- Equation `i` of the Toeplitz system of `R`, at the coefficients `a 0, …, a n`. -/
def row (R : ℕ → K) (n : ℕ) (a : ℕ → K) (i : ℕ) : K :=
  ∑ j ∈ range (n + 1), a j * R (Nat.dist i j)

/-- The quadratic form of the system. -/
def form (R : ℕ → K) (n : ℕ) (a : ℕ → K) : K := ∑ i ∈ range (n + 1), a i * row R n a i

theorem dist_sub_sub {i j n : ℕ} (hi : i ≤ n) (hj : j ≤ n) :
    Nat.dist i (n - j) = Nat.dist (n - i) j := by
  unfold Nat.dist
  omega

/-- The system is its own mirror image. -/
theorem row_reflect (R : ℕ → K) (a : ℕ → K) {i : ℕ} (hi : i ≤ n) :
    row R n (fun j => a (n - j)) i = row R n a (n - i) := by
  rw [row, row, ← sum_range_reflect]
  refine sum_congr rfl fun j hj => ?_
  have hj' : j ≤ n := Nat.lt_succ_iff.1 (mem_range.1 hj)
  rw [Nat.add_sub_cancel, Nat.sub_sub_self hj', dist_sub_sub hi hj']

/-- A coefficient of order `n` solves the normal equations with the error `σ`. -/
structure Predictor (R : ℕ → K) (n : ℕ) (a : ℕ → K) (σ : K) : Prop where
  head : a 0 = 1
  tail : ∀ j, n < j → a j = 0
  error : row R n a 0 = σ
  normal : ∀ i, 1 ≤ i → i ≤ n → row R n a i = 0

/-- The coefficients of order `n + 1`, by the reflection coefficient `t`. -/
def next (n : ℕ) (a : ℕ → K) (t : K) (j : ℕ) : K :=
  if j ≤ n + 1 then a j + t * a (n + 1 - j) else 0

theorem predictor_zero (R : ℕ → K) : Predictor R 0 (fun j => if j = 0 then 1 else 0) (R 0) where
  head := rfl
  tail j hj := if_neg (Nat.ne_of_gt hj)
  error := by simp [row]
  normal i h1 h2 := by omega

variable {σ : K}

theorem Predictor.row_succ (h : Predictor R n a σ) (i : ℕ) :
    row R (n + 1) a i = row R n a i := by
  rw [row, sum_range_succ, h.tail (n + 1) (Nat.lt_succ_self n), zero_mul, add_zero, row]

theorem Predictor.row_next (h : Predictor R n a σ) (t : K) {i : ℕ} (hi : i ≤ n + 1) :
    row R (n + 1) (next n a t) i = row R n a i + t * row R n a (n + 1 - i) := by
  rw [← h.row_succ, ← h.row_succ, ← row_reflect R a hi, row, row, row, mul_sum,
    ← sum_add_distrib]
  refine sum_congr rfl fun j hj => ?_
  rw [next, if_pos (Nat.lt_succ_iff.1 (mem_range.1 hj))]
  ring

/-- **The Levinson step**: the reflection coefficient that cancels the new equation. -/
theorem Predictor.next (h : Predictor R n a σ) (hσ : σ ≠ 0) {t : K}
    (ht : t = row R n a (n + 1) / -σ) : Predictor R (n + 1) (next n a t) (σ * (1 - t * t)) := by
  have hΔ : row R n a (n + 1) = -(t * σ) := by
    rw [ht]
    field_simp
  constructor
  · rw [Toeplitz.next, if_pos (Nat.zero_le _), Nat.sub_zero, h.head,
      h.tail (n + 1) (Nat.lt_succ_self n), mul_zero, add_zero]
  · exact fun j hj => if_neg (Nat.not_le.2 hj)
  · rw [h.row_next t (Nat.zero_le _), Nat.sub_zero, h.error, hΔ]
    ring
  · intro i h1 h2
    rw [h.row_next t h2]
    rcases Nat.lt_or_eq_of_le h2 with hi | rfl
    · rw [h.normal i h1 (by omega), h.normal (n + 1 - i) (by omega) (by omega), mul_zero, add_zero]
    · rw [Nat.sub_self, h.error, hΔ, neg_add_cancel]

theorem Predictor.next_last (h : Predictor R n a σ) (t : K) : Toeplitz.next n a t (n + 1) = t := by
  rw [Toeplitz.next, if_pos (Nat.le_refl _), h.tail (n + 1) (Nat.lt_succ_self n), Nat.sub_self,
    h.head, mul_one, zero_add]

/-- Only the error is left of the form. -/
theorem Predictor.form_eq (h : Predictor R n a σ) : form R n a = σ := by
  rw [form, sum_range_succ', h.head, h.error, one_mul]
  rw [sum_eq_zero fun i hi => ?_, zero_add]
  rw [h.normal (i + 1) (by omega) (Nat.succ_le_of_lt (mem_range.1 hi)), mul_zero]

theorem Predictor.error_pos [LinearOrder K] (h : Predictor R n a σ)
    (hR : ∀ n a, a 0 ≠ 0 → 0 < form R n a) : 0 < σ :=
  h.form_eq ▸ hR n a (h.head ▸ one_ne_zero)

/-- The errors stay positive by reflection coefficients below 1. -/
theorem abs_lt_one_of_error [LinearOrder K] [IsStrictOrderedRing K] {σ t : K} (hσ : 0 < σ)
    (hnext : 0 < σ * (1 - t * t)) : |t| < 1 := by
  have hpos : 0 < 1 - t * t := pos_of_mul_pos_right hnext hσ.le
  rw [← sq, sub_pos] at hpos
  exact (sq_lt_one_iff_abs_lt_one t).1 hpos

end

/-! ## Autocorrelation -/

section
variable {K : Type*} [Field K]

/-- The biased autocorrelation of the `n` samples of `s`. -/
def autocorrelation (s : ℕ → K) (n i : ℕ) : K := (∑ j ∈ range (n - i), s j * s (j + i)) / n

/-- The signal delayed by `i`, zero outside its `T` samples. -/
def delayed (s : ℕ → K) (T i u : ℕ) : K := if i ≤ u ∧ u - i < T then s (u - i) else 0

theorem sum_delayed (s : ℕ → K) {T n i d : ℕ} (h : i + d ≤ n) :
    ∑ u ∈ range (T + n), delayed s T i u * delayed s T (i + d) u =
      ∑ j ∈ range (T - d), s j * s (j + d) := by
  obtain ⟨m, rfl⟩ := Nat.exists_eq_add_of_le h
  -- the second factor is zero before `i + d`, the first from `i + T` on
  have hlen : T + (i + d + m) = i + d + (T - d) + (T + m - (T - d)) := by omega
  have hhead : ∑ u ∈ range (i + d), delayed s T i u * delayed s T (i + d) u = 0 :=
    sum_eq_zero fun u hu => by
      have := mem_range.1 hu
      rw [delayed.eq_def s T (i + d), if_neg (by omega), mul_zero]
  have htail : ∑ u ∈ range (T + m - (T - d)), delayed s T i (i + d + (T - d) + u) *
      delayed s T (i + d) (i + d + (T - d) + u) = 0 :=
    sum_eq_zero fun u hu => by
      rw [delayed.eq_def s T i, if_neg (by omega), zero_mul]
  rw [hlen, sum_range_add, sum_range_add, hhead, htail, zero_add, add_zero]
  refine sum_congr rfl fun j hj => ?_
  have := mem_range.1 hj
  have h1 : i + d + j - i = j + d := by omega
  have h2 : i + d + j - (i + d) = j := by omega
  rw [delayed, if_pos (by omega), delayed, if_pos (by omega), h1, h2, mul_comm]

theorem sum_delayed_dist (s : ℕ → K) {T n i j : ℕ} (hi : i ≤ n) (hj : j ≤ n) :
    ∑ u ∈ range (T + n), delayed s T i u * delayed s T j u =
      ∑ k ∈ range (T - Nat.dist i j), s k * s (k + Nat.dist i j) := by
  rcases Nat.le_total i j with h | h
  · obtain ⟨d, rfl⟩ := Nat.exists_eq_add_of_le h
    rw [Nat.dist_eq_sub_of_le h, Nat.add_sub_cancel_left, sum_delayed s hj]
  · obtain ⟨d, rfl⟩ := Nat.exists_eq_add_of_le h
    rw [Nat.dist_eq_sub_of_le_right h, Nat.add_sub_cancel_left, ← sum_delayed s hi]
    exact sum_congr rfl fun u _ => mul_comm _ _

/-- The form of the autocorrelation is the energy of the filtered signal. -/
theorem form_autocorrelation (s : ℕ → K) (T n : ℕ) (a : ℕ → K) :
    form (autocorrelation s T) n a =
      (∑ u ∈ range (T + n), (∑ i ∈ range (n + 1), a i * delayed s T i u) ^ 2) / T := by
  have hsq : ∀ u, (∑ i ∈ range (n + 1), a i * delayed s T i u) ^ 2 =
      ∑ i ∈ range (n + 1), ∑ j ∈ range (n + 1),
        a i * (a j * (delayed s T i u * delayed s T j u)) := fun u => by
    rw [sq, sum_mul_sum]
    exact sum_congr rfl fun i _ => sum_congr rfl fun j _ => by ring
  simp only [hsq]
  rw [sum_comm, sum_div, form]
  refine sum_congr rfl fun i hi => ?_
  rw [sum_comm, row, mul_sum, sum_div]
  refine sum_congr rfl fun j hj => ?_
  rw [← mul_sum, ← mul_sum, sum_delayed_dist s (Nat.lt_succ_iff.1 (mem_range.1 hi))
    (Nat.lt_succ_iff.1 (mem_range.1 hj)), autocorrelation]
  ring

/-- **The form of the autocorrelation is positive** on a signal that is not zero. -/
theorem form_autocorrelation_pos [LinearOrder K] [IsStrictOrderedRing K] {s : ℕ → K} {T : ℕ}
    (hs : ∃ j < T, s j ≠ 0) (n : ℕ) (a : ℕ → K) (ha : a 0 ≠ 0) :
    0 < form (autocorrelation s T) n a := by
  classical
  -- the first sample that is not zero meets only the coefficient `a 0`
  obtain ⟨⟨hvT, hv⟩, hmin⟩ := And.intro (Nat.find_spec hs) fun j => @Nat.find_min _ _ hs j
  generalize Nat.find hs = v at hvT hv hmin
  have hfilter : ∑ i ∈ range (n + 1), a i * delayed s T i v = a 0 * s v := by
    rw [sum_range_succ', sum_eq_zero fun i _ => ?_, zero_add]
    · rw [delayed, if_pos ⟨Nat.zero_le v, by simpa using hvT⟩, Nat.sub_zero]
    · by_cases hi : i + 1 ≤ v
      · have hz : s (v - (i + 1)) = 0 := by
          by_contra hne
          exact hmin (v - (i + 1)) (by omega) ⟨by omega, hne⟩
        rw [delayed, hz, ite_self, mul_zero]
      · rw [delayed, if_neg fun h => hi h.1, mul_zero]
  rw [form_autocorrelation]
  refine div_pos (sum_pos' (fun u _ => sq_nonneg _) ⟨v, mem_range.2 (by omega), ?_⟩) ?_
  · rw [hfilter]
    exact sq_pos_of_ne_zero (mul_ne_zero ha hv)
  · exact_mod_cast Nat.pos_of_ne_zero (by omega)

end

end Toeplitz
