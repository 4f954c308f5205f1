import TlVoix.Cpp.Proof.Fourier

/-!
# The fundamental frequency of a mixture of tones

On a whole period of samples of tones below `sample_rate / 2`, a point of the transform is the tone
of its number (`norm_transform_tones`), so that `fundamental_frequency` is the strongest tone
(`complexFFT_tones`).
-/

namespace TlVoix

open Checked CFourier Finset

theorem isPrimitiveRoot_fourierRoot {sign : ℤ} (hsign : Odd sign) (q : ℕ) :
    IsPrimitiveRoot (fourierRoot sign q) (2 ^ q) := by
  cases q with
  | zero =>
    have hone : fourierRoot sign 0 = 1 := by
      rw [← fourierRoot_succ_sq, sq]
      have := fourierRoot_pow_half hsign 0
      rw [pow_zero, pow_one] at this
      rw [this, neg_one_mul, neg_neg]
    rw [hone]
    exact IsPrimitiveRoot.one
  | succ q => exact isPrimitiveRoot_of_half (fourierRoot_pow_half hsign q)

/-! ## One tone -/

/-- Tone `f` of amplitude `a` and phase `φ`, at sample `n` of a period of `2 ^ q`. -/
noncomputable def tone (q f : ℕ) (a φ : ℝ) (n : ℕ) : ℝ :=
  a * Real.cos (2 • Real.pi * f * n / (2 ^ q : ℕ) + φ)

/-- A tone is two opposite rotations. -/
theorem tone_eq (q f : ℕ) (a φ : ℝ) (n : ℕ) : (tone q f a φ n : ℂ) =
    a / 2 * (Complex.exp (φ * Complex.I) * (fourierRoot 1 q ^ (f : ℤ)) ^ n +
      Complex.exp (-φ * Complex.I) * (fourierRoot 1 q ^ (-f : ℤ)) ^ n) := by
  have hrot : ∀ d : ℤ, (fourierRoot 1 q ^ d) ^ n =
      Complex.exp ((2 • Real.pi * d * n / (2 ^ q : ℕ) : ℝ) * Complex.I) := fun d => by
    rw [fourierRoot, ← Complex.exp_int_mul, ← Complex.exp_nat_mul]
    congr 1
    push_cast
    ring
  rw [hrot, hrot, ← Complex.exp_add, ← Complex.exp_add, tone, Complex.ofReal_mul,
    Complex.ofReal_cos, Complex.cos]
  push_cast
  ring_nf

theorem exp_factor (sign : ℤ) (q k n : ℕ) :
    Complex.exp ((sign * (2 • Real.pi) * n * k / (2 ^ q : ℕ) : ℝ) * Complex.I) =
      (fourierRoot 1 q ^ (sign * k)) ^ n := by
  rw [fourierRoot, ← Complex.exp_int_mul, ← Complex.exp_nat_mul]
  congr 1
  push_cast
  ring

theorem sum_tone (sign : ℤ) (q f k : ℕ) (a φ : ℝ) :
    ∑ n ∈ range (2 ^ q), (tone q f a φ n : ℂ) *
        Complex.exp ((sign * (2 • Real.pi) * n * k / (2 ^ q : ℕ) : ℝ) * Complex.I) =
      a / 2 * (Complex.exp (φ * Complex.I) *
          (if ((2 ^ q : ℕ) : ℤ) ∣ f + sign * k then 2 ^ q else 0) +
        Complex.exp (-φ * Complex.I) *
          if ((2 ^ q : ℕ) : ℤ) ∣ -f + sign * k then 2 ^ q else 0) := by
  have hw := isPrimitiveRoot_fourierRoot odd_one q
  have hw0 : fourierRoot 1 q ≠ 0 := hw.ne_zero (Nat.two_pow_pos q).ne'
  have hsum : ∀ d : ℤ, ∑ n ∈ range (2 ^ q), (fourierRoot 1 q ^ d) ^ n *
      (fourierRoot 1 q ^ (sign * k)) ^ n =
        if ((2 ^ q : ℕ) : ℤ) ∣ d + sign * k then (2 : ℂ) ^ q else 0 := fun d => by
    have h := sum_zpow_pow hw (d + sign * k)
    push_cast at h ⊢
    rw [← h]
    refine sum_congr rfl fun n _ => ?_
    rw [zpow_add₀ hw0, mul_pow]
  rw [← hsum, ← hsum, mul_sum, mul_sum, ← sum_add_distrib, mul_sum]
  refine sum_congr rfl fun n _ => ?_
  rw [tone_eq, exp_factor]
  ring

/-- Of the two rotations of a tone below the half, one is seen at the point of its number, and none
at the other points of the first half. -/
theorem sum_tone_half {sign : ℤ} (hsign : sign = 1 ∨ sign = -1) (q : ℕ) {f k : ℕ}
    (hf : 0 < f) (hfq : 2 * f < 2 ^ q) (hk : 2 * k ≤ 2 ^ q) (a φ : ℝ) :
    ∑ n ∈ range (2 ^ q), (tone q f a φ n : ℂ) *
        Complex.exp ((sign * (2 • Real.pi) * n * k / (2 ^ q : ℕ) : ℝ) * Complex.I) =
      if k = f then a / 2 * 2 ^ q * Complex.exp (-(sign * φ) * Complex.I) else 0 := by
  rw [sum_tone]
  rcases hsign with rfl | rfl
  · have h1 : ¬((2 ^ q : ℕ) : ℤ) ∣ f + 1 * k := by
      rw [natCast_dvd_iff (by omega) (by omega)]
      omega
    have h2 : ((2 ^ q : ℕ) : ℤ) ∣ -f + 1 * k ↔ k = f := by
      rw [natCast_dvd_iff (by omega) (by omega)]
      omega
    simp only [h1, h2, ↓reduceIte, mul_zero, zero_add, mul_ite]
    congr 1
    rw [Int.cast_one, one_mul]
    ring
  · have h1 : ((2 ^ q : ℕ) : ℤ) ∣ f + -1 * k ↔ k = f := by
      rw [natCast_dvd_iff (by omega) (by omega)]
      omega
    have h2 : ¬((2 ^ q : ℕ) : ℤ) ∣ -f + -1 * k := by
      rw [natCast_dvd_iff (by omega) (by omega)]
      omega
    simp only [h1, h2, ↓reduceIte, mul_zero, add_zero, mul_ite]
    congr 1
    rw [Int.cast_neg, Int.cast_one, neg_one_mul, neg_neg]
    ring

/-! ## Mixtures -/

/-- A mixture of the tones below the half, at sample `n`. -/
noncomputable def tones (q : ℕ) (a φ : ℕ → ℝ) (n : ℕ) : ℝ :=
  ∑ f ∈ Ioo 0 (2 ^ q / 2), tone q f (a f) (φ f) n

/-- **The modulus of a point of the first half is the amplitude of its tone**, up to a factor. -/
theorem norm_transform_tones {sign : ℤ} (hsign : sign = 1 ∨ sign = -1) (q : ℕ) {N k : ℕ}
    (hN : 2 ^ q ≤ N) (hk : 2 * k ≤ 2 ^ q) (a φ : ℕ → ℝ) :
    ‖transform sign q N (tones q a φ) k‖ =
      if k ∈ Ioo 0 (2 ^ q / 2) then |a k| / 2 * 2 ^ q else 0 := by
  have hsum : transform sign q N (tones q a φ) k = ∑ f ∈ Ioo 0 (2 ^ q / 2),
      if k = f then a f / 2 * 2 ^ q * Complex.exp (-(sign * φ f) * Complex.I) else 0 := by
    rw [transform, Nat.min_eq_right hN]
    simp only [tones, Complex.ofReal_sum, sum_mul]
    rw [sum_comm]
    refine sum_congr rfl fun f hf => ?_
    rw [mem_Ioo] at hf
    exact sum_tone_half hsign q hf.1 (by omega) hk (a f) (φ f)
  rw [hsum, sum_ite_eq]
  split
  · have hexp : (-(sign * φ k) * Complex.I : ℂ) = (-(sign * φ k) : ℝ) * Complex.I := by
      push_cast
      rfl
    rw [norm_mul, hexp, Complex.norm_exp_ofReal_mul_I, mul_one, norm_mul, norm_div, norm_pow,
      Complex.norm_real, Complex.norm_two, Real.norm_eq_abs]
  · rw [norm_zero]

/-- The strongest tone is the first greatest modulus of the first half. -/
theorem firstMax_tones {sign : ℤ} (hsign : sign = 1 ∨ sign = -1) (q : ℕ) {N f : ℕ}
    (hN : 2 ^ q ≤ N) (a φ : ℕ → ℝ) (hf : 0 < f) (hfq : 2 * f < 2 ^ q) (hne : a f ≠ 0)
    (hle : ∀ f', 0 < f' → 2 * f' < 2 ^ q → |a f'| ≤ |a f|)
    (hlt : ∀ f', 0 < f' → f' < f → |a f'| < |a f|) :
    FirstMax (fun k => ‖transform sign q N (tones q a φ) k‖) (2 ^ q / 2 + 1) f := by
  have hmem : ∀ k, k ∈ Ioo 0 (2 ^ q / 2) ↔ 0 < k ∧ 2 * k < 2 ^ q := fun k => by
    rw [mem_Ioo]
    rcases q with _ | q
    · omega
    · rw [pow_succ]
      omega
  have hpos : 0 < |a f| / 2 * 2 ^ q := by positivity
  have hmodf : ‖transform sign q N (tones q a φ) f‖ = |a f| / 2 * 2 ^ q := by
    rw [norm_transform_tones hsign q hN (by omega), if_pos ((hmem f).2 ⟨hf, hfq⟩)]
  refine ⟨by omega, fun k hk => ?_, fun k hk => ?_⟩
  · rw [hmodf, norm_transform_tones hsign q hN (by omega)]
    split
    · rename_i hk
      have := hle k ((hmem k).1 hk).1 ((hmem k).1 hk).2
      gcongr
    · exact hpos.le
  · rw [hmodf, norm_transform_tones hsign q hN (by omega)]
    split
    · rename_i hk'
      have := hlt k ((hmem k).1 hk').1 hk
      gcongr
    · exact hpos

/-- **The fundamental frequency is the strongest tone**: on a whole period of at most `2 ^ 25`
samples of any mixture of tones below `sample_rate / 2`, for both signs, `ComplexFFT` finds the
first tone of greatest amplitude. -/
theorem complexFFT_tones (fft : CFourier ℝ) (hpi : fft.pi = (create : CFourier ℝ).pi) (sign : ℤ)
    (hsign : sign = 1 ∨ sign = -1) (q N : ℕ) (hq : q ≤ 25) (hN : 2 ^ q ≤ N) (a φ : ℕ → ℝ)
    (data : Arr ℕ ℝ) (hdata : ∀ n < 2 ^ q, data.Holds n (tones q a φ n)) (f : ℕ) (hf : 0 < f)
    (hfq : 2 * f < 2 ^ q) (hne : a f ≠ 0) (hle : ∀ f', 0 < f' → 2 * f' < 2 ^ q → |a f'| ≤ |a f|)
    (hlt : ∀ f', 0 < f' → f' < f → |a f'| < |a f|) :
    Ends (fft.complexFFT data N (2 ^ q) sign) fun r => r.fundamentalFrequency = some f := by
  have hodd : Odd sign := by
    rcases hsign with rfl | rfl
    · exact odd_one
    · exact odd_neg_one
  refine (ends_transform hpi hodd (hq.trans (by decide)) fun n _ hn => hdata n hn).mono
    fun r hr => ?_
  obtain ⟨-, -, g, hg, hmax⟩ := hr
  have hg25 : g ≤ 2 ^ 24 := by
    have := Nat.pow_le_pow_right Nat.two_pos hq
    have := hmax.lt
    omega
  rw [hg, frequence_eq hg25]
  exact congrArg some (hmax.unique (firstMax_tones hsign q hN a φ hf hfq hne hle hlt))

theorem complexFFT_tones_two :
    Ends ((create : CFourier ℝ).complexFFT
        (Arr.ofFn 16 (tones 4 (fun f => if f = 2 then 1 else if f = 5 then -3 else 0) fun _ => 0))
        16 (2 ^ 4) 1) fun r => r.fundamentalFrequency = some 5 := by
  refine complexFFT_tones create rfl 1 (.inl rfl) 4 16 (by decide) (by norm_num) _ _ _
    (fun n hn => Arr.holds_ofFn _ hn) 5 (by norm_num) (by norm_num) (by norm_num) ?_ ?_
  · intro f' _ _
    by_cases h2 : f' = 2
    · rw [h2]
      norm_num
    · by_cases h5 : f' = 5
      · rw [h5]
      · simp [h2, h5]
  · intro f' _ hlt
    by_cases h2 : f' = 2
    · rw [h2]
      norm_num
    · simp [h2, hlt.ne]

end TlVoix
