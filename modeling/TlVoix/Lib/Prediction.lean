import TlVoix.Lib.Toeplitz
import Mathlib.Analysis.Complex.Basic

/-!
# Linear prediction

The predictor of the autocorrelation of a signal, as a filter.

* `Predictor.residual_add`: on the coefficients that begin with 1, the energy of the filtered signal
  is that of the predictor and the one of the difference; so the predictor is the only one of least
  energy (`Predictor.residual_le`, `Predictor.eq_of_residual_le`, `Predictor.unique`).
* `Predictor.stable`: the roots of the predictor are outside the unit disk, by the symmetry
  between a filter and its mirror image (`Stable.next`).
-/

namespace Toeplitz

open Finset

section
variable {K : Type*} [Field K] {R : ℕ → K} {n : ℕ} {a : ℕ → K} {σ : K}

theorem sum_mul_row_comm (R : ℕ → K) (n : ℕ) (a b : ℕ → K) :
    ∑ i ∈ range (n + 1), a i * row R n b i = ∑ i ∈ range (n + 1), b i * row R n a i := by
  simp only [row, mul_sum]
  rw [sum_comm]
  refine sum_congr rfl fun i _ => sum_congr rfl fun j _ => ?_
  rw [Nat.dist_comm]
  ring

theorem row_add (R : ℕ → K) (n : ℕ) (a b : ℕ → K) (i : ℕ) :
    row R n (fun j => a j + b j) i = row R n a i + row R n b i := by
  simp only [row, add_mul, sum_add_distrib]

/-- The form, from the predictor on. -/
theorem Predictor.form_add (h : Predictor R n a σ) {d : ℕ → K} (hd : d 0 = 0) :
    form R n (fun i => a i + d i) = σ + form R n d := by
  have hcross : ∑ i ∈ range (n + 1), d i * row R n a i = 0 := by
    rw [sum_range_succ', hd, zero_mul, add_zero]
    refine sum_eq_zero fun i hi => ?_
    rw [h.normal (i + 1) (by omega) (Nat.succ_le_of_lt (mem_range.1 hi)), mul_zero]
  have hcross' : ∑ i ∈ range (n + 1), a i * row R n d i = 0 := by
    rw [sum_mul_row_comm, hcross]
  calc form R n (fun i => a i + d i)
      = ∑ i ∈ range (n + 1), (a i * row R n a i + a i * row R n d i +
          (d i * row R n a i + d i * row R n d i)) :=
        sum_congr rfl fun i _ => by rw [row_add]; ring
    _ = form R n a + form R n d := by
        rw [sum_add_distrib, sum_add_distrib, sum_add_distrib, hcross, hcross', add_zero, zero_add]
        rfl
    _ = σ + form R n d := by rw [h.form_eq]

/-- A multiple of the system has the same predictor. -/
theorem Predictor.smul (h : Predictor R n a σ) (c : K) :
    Predictor (fun i => c * R i) n a (c * σ) := by
  have hrow : ∀ i, row (fun i => c * R i) n a i = c * row R n a i := by
    intro i
    rw [row, row, mul_sum]
    exact sum_congr rfl fun j _ => mul_left_comm _ _ _
  refine ⟨h.head, h.tail, by rw [hrow, h.error], fun i h1 h2 => ?_⟩
  rw [hrow, h.normal i h1 h2, mul_zero]

end

/-! ## The energy of the filtered signal -/

section
variable {K : Type*} [Field K] {s : ℕ → K} {T n : ℕ} {a : ℕ → K} {σ : K}

/-- The energy of the `T` samples of `s`, filtered by `a 0, …, a n`. -/
def residual (s : ℕ → K) (T n : ℕ) (a : ℕ → K) : K :=
  ∑ u ∈ range (T + n), (∑ i ∈ range (n + 1), a i * delayed s T i u) ^ 2

variable [LinearOrder K] [IsStrictOrderedRing K]

theorem residual_nonneg (s : ℕ → K) (T n : ℕ) (a : ℕ → K) : 0 ≤ residual s T n a :=
  sum_nonneg fun _ _ => sq_nonneg _

/-- A filter that is not zero leaves something of a signal that is not zero. -/
theorem residual_pos (hs : ∃ j < T, s j ≠ 0) (ha : ∃ i ≤ n, a i ≠ 0) : 0 < residual s T n a := by
  classical
  -- the first coefficient and the first sample that are not zero meet alone
  obtain ⟨⟨hvT, hv⟩, hvmin⟩ := And.intro (Nat.find_spec hs) fun j => @Nat.find_min _ _ hs j
  obtain ⟨⟨hin, hi⟩, himin⟩ := And.intro (Nat.find_spec ha) fun j => @Nat.find_min _ _ ha j
  generalize Nat.find hs = v at hvT hv hvmin
  generalize Nat.find ha = i at hin hi himin
  have hfilter : ∑ j ∈ range (n + 1), a j * delayed s T j (i + v) = a i * s v := by
    rw [sum_eq_single_of_mem i (mem_range.2 (by omega)) fun j hj hne => ?_]
    · rw [delayed, if_pos ⟨by omega, by omega⟩, Nat.add_sub_cancel_left]
    · rcases Nat.lt_or_gt_of_ne hne with hlt | hgt
      · have hz : a j = 0 := by
          by_contra h
          exact himin j hlt ⟨by omega, h⟩
        rw [hz, zero_mul]
      · rw [delayed]
        split
        · rename_i h
          have hz : s (i + v - j) = 0 := by
            by_contra h'
            exact hvmin (i + v - j) (by omega) ⟨h.2, h'⟩
          rw [hz, mul_zero]
        · rw [mul_zero]
  refine sum_pos' (fun u _ => sq_nonneg _) ⟨i + v, mem_range.2 (by omega), ?_⟩
  rw [hfilter]
  exact sq_pos_of_ne_zero (mul_ne_zero hi hv)

theorem eq_of_residual_eq_zero (hs : ∃ j < T, s j ≠ 0) (h : residual s T n a = 0) :
    ∀ i ≤ n, a i = 0 := by
  intro i hi
  by_contra hne
  exact (residual_pos hs ⟨i, hi, hne⟩).ne' h

theorem Predictor.residual_eq (h : Predictor (autocorrelation s T) n a σ) (hT : 0 < T) :
    residual s T n a = T * σ := by
  have hT : (T : K) ≠ 0 := Nat.cast_ne_zero.2 hT.ne'
  rw [← h.form_eq, form_autocorrelation, mul_div_cancel₀ _ hT, residual]

/-- **The energy left by a filter** that begins with 1: the one that the predictor leaves, and that
of the difference. -/
theorem Predictor.residual_add (h : Predictor (autocorrelation s T) n a σ) (hT : 0 < T)
    {b : ℕ → K} (hb : b 0 = 1) :
    residual s T n b = residual s T n a + residual s T n fun i => b i - a i := by
  have hT : (T : K) ≠ 0 := Nat.cast_ne_zero.2 hT.ne'
  have hd : b 0 - a 0 = 0 := by rw [hb, h.head, sub_self]
  have hform := h.form_add (d := fun i => b i - a i) hd
  simp only [add_sub_cancel] at hform
  rw [← h.form_eq, form_autocorrelation, form_autocorrelation, form_autocorrelation, ← add_div,
    div_left_inj' hT] at hform
  exact hform

/-- **The predictor leaves the least energy.** -/
theorem Predictor.residual_le (h : Predictor (autocorrelation s T) n a σ) (hT : 0 < T)
    {b : ℕ → K} (hb : b 0 = 1) : residual s T n a ≤ residual s T n b := by
  rw [h.residual_add hT hb]
  exact le_add_of_nonneg_right (residual_nonneg s T n _)

/-- It is the only filter that does. -/
theorem Predictor.eq_of_residual_le (h : Predictor (autocorrelation s T) n a σ)
    (hs : ∃ j < T, s j ≠ 0) {b : ℕ → K} (hb : b 0 = 1)
    (hle : residual s T n b ≤ residual s T n a) : ∀ i ≤ n, b i = a i := by
  obtain ⟨j, hj, -⟩ := id hs
  rw [h.residual_add (by omega) hb, add_le_iff_nonpos_right] at hle
  have hzero := le_antisymm hle (residual_nonneg s T n _)
  exact fun i hi => sub_eq_zero.1 (eq_of_residual_eq_zero hs hzero i hi)

theorem Predictor.unique (h : Predictor (autocorrelation s T) n a σ) (hs : ∃ j < T, s j ≠ 0)
    {b : ℕ → K} {τ : K} (h' : Predictor (autocorrelation s T) n b τ) : b = a ∧ τ = σ := by
  obtain ⟨j, hj, -⟩ := id hs
  have hab : b = a := by
    funext i
    rcases Nat.lt_or_ge n i with hi | hi
    · rw [h.tail i hi, h'.tail i hi]
    · exact h.eq_of_residual_le hs h'.head (h'.residual_le (by omega) h.head) i hi
  subst hab
  exact ⟨rfl, by rw [← h'.form_eq, ← h.form_eq]⟩

end

/-! ## Stability -/

section
variable {n : ℕ} {a : ℕ → ℝ} {t : ℝ}

/-- The filter of `a`, at the delay `w`. -/
def transfer (n : ℕ) (a : ℕ → ℝ) (w : ℂ) : ℂ := ∑ i ∈ range (n + 1), a i * w ^ i

/-- The roots of the filter are outside the unit disk; inside, its mirror image is below it. -/
def Stable (n : ℕ) (a : ℕ → ℝ) : Prop :=
  ∀ w, ‖w‖ ≤ 1 → transfer n a w ≠ 0 ∧
    ‖transfer n (fun i => a (n - i)) w‖ ≤ ‖transfer n a w‖

theorem stable_zero : Stable 0 fun j => if j = 0 then 1 else 0 := by
  intro w _
  simp [transfer]

/-- The mirror image, one delay later. -/
theorem transfer_succ_mirror (ha : a (n + 1) = 0) (w : ℂ) :
    transfer (n + 1) (fun i => a (n + 1 - i)) w = w * transfer n (fun i => a (n - i)) w := by
  rw [transfer, sum_range_succ', Nat.sub_zero, ha, Complex.ofReal_zero, zero_mul, add_zero,
    transfer, mul_sum]
  refine sum_congr rfl fun i _ => ?_
  rw [Nat.add_sub_add_right, pow_succ]
  ring

theorem transfer_succ (ha : a (n + 1) = 0) (w : ℂ) : transfer (n + 1) a w = transfer n a w := by
  rw [transfer, sum_range_succ, ha, Complex.ofReal_zero, zero_mul, add_zero, transfer]

theorem transfer_next (ha : a (n + 1) = 0) (t : ℝ) (w : ℂ) :
    transfer (n + 1) (next n a t) w =
      transfer n a w + t * (w * transfer n (fun i => a (n - i)) w) := by
  rw [← transfer_succ ha, ← transfer_succ_mirror ha, transfer, transfer, transfer, mul_sum,
    ← sum_add_distrib]
  refine sum_congr rfl fun i hi => ?_
  rw [next, if_pos (Nat.lt_succ_iff.1 (mem_range.1 hi))]
  push_cast
  ring

theorem transfer_next_mirror (ha : a (n + 1) = 0) (t : ℝ) (w : ℂ) :
    transfer (n + 1) (fun i => next n a t (n + 1 - i)) w =
      w * transfer n (fun i => a (n - i)) w + t * transfer n a w := by
  rw [← transfer_succ ha, ← transfer_succ_mirror ha, transfer, transfer, transfer, mul_sum,
    ← sum_add_distrib]
  refine sum_congr rfl fun i hi => ?_
  have hi : i ≤ n + 1 := Nat.lt_succ_iff.1 (mem_range.1 hi)
  rw [next, if_pos (Nat.sub_le _ _), Nat.sub_sub_self hi]
  push_cast
  ring

/-- Of two sums that mix `A` and `C`, the one with the larger share of the larger is larger. -/
theorem norm_add_mul_le {A C : ℂ} (ht : |t| < 1) (h : ‖C‖ ≤ ‖A‖) : ‖C + t * A‖ ≤ ‖A + t * C‖ := by
  have hdiff : Complex.normSq (A + t * C) - Complex.normSq (C + t * A) =
      (1 - t * t) * (Complex.normSq A - Complex.normSq C) := by
    simp only [Complex.normSq_apply, Complex.add_re, Complex.add_im, Complex.re_ofReal_mul,
      Complex.im_ofReal_mul]
    ring
  have hsq : Complex.normSq C ≤ Complex.normSq A := by
    rw [← Complex.sq_norm, ← Complex.sq_norm]
    exact pow_le_pow_left₀ (norm_nonneg C) h 2
  have hpos : 0 ≤ 1 - t * t := by
    rw [← sq]
    exact sub_nonneg.2 ((sq_lt_one_iff_abs_lt_one t).2 ht).le
  refine le_of_sq_le_sq ?_ (norm_nonneg _)
  rw [Complex.sq_norm, Complex.sq_norm, ← sub_nonneg, hdiff]
  exact mul_nonneg hpos (sub_nonneg.2 hsq)

/-- **A reflection coefficient below 1 keeps the filter stable.** -/
theorem Stable.next (h : Stable n a) (ha : a (n + 1) = 0) (ht : |t| < 1) :
    Stable (n + 1) (next n a t) := by
  intro w hw
  obtain ⟨hne, hle⟩ := h w hw
  have hmirror : ‖w * transfer n (fun i => a (n - i)) w‖ ≤ ‖transfer n a w‖ := by
    rw [norm_mul]
    exact (mul_le_of_le_one_left (norm_nonneg _) hw).trans hle
  rw [transfer_next ha, transfer_next_mirror ha]
  refine ⟨fun hzero => ?_, norm_add_mul_le ht hmirror⟩
  have hnorm := congrArg norm (eq_neg_of_add_eq_zero_left hzero)
  rw [norm_neg, norm_mul, Complex.norm_real, Real.norm_eq_abs] at hnorm
  have hpos : 0 < ‖transfer n a w‖ := norm_pos_iff.2 hne
  have hlt : |t| * ‖w * transfer n (fun i => a (n - i)) w‖ < ‖transfer n a w‖ :=
    calc |t| * ‖w * transfer n (fun i => a (n - i)) w‖
        ≤ |t| * ‖transfer n a w‖ := mul_le_mul_of_nonneg_left hmirror (abs_nonneg t)
      _ < ‖transfer n a w‖ := mul_lt_of_lt_one_left hpos ht
  exact absurd hnorm hlt.ne'

/-- **The predictor of a signal that is not zero is stable.** -/
theorem Predictor.stable {s : ℕ → ℝ} {T : ℕ} {σ : ℝ}
    (h : Predictor (autocorrelation s T) n a σ) (hs : ∃ j < T, s j ≠ 0) : Stable n a := by
  have hpos := fun n a => form_autocorrelation_pos hs n a
  -- one by one, the predictors of all the orders
  have hexists : ∀ n, ∃ b τ, Predictor (autocorrelation s T) n b τ ∧ Stable n b := by
    intro n
    induction n with
    | zero => exact ⟨_, _, predictor_zero _, stable_zero⟩
    | succ n ih =>
      obtain ⟨b, τ, hb, hstable⟩ := ih
      have hτ : 0 < τ := hb.error_pos hpos
      have hnext := hb.next hτ.ne' rfl
      have habs := abs_lt_one_of_error hτ (hnext.error_pos hpos)
      exact ⟨_, _, hnext, hstable.next (hb.tail (n + 1) (Nat.lt_succ_self n)) habs⟩
  obtain ⟨b, τ, hb, hstable⟩ := hexists n
  obtain ⟨rfl, -⟩ := h.unique hs hb
  exact hstable

end

end Toeplitz
