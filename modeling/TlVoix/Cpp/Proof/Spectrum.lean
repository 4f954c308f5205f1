import TlVoix.Cpp.Proof.Mfcc

/-!
# The spectrum that `set_mfcc` gives to the filter bank

`set_mfcc` asks `FFT` for 256 points, in the reverse direction, whatever the length of the frame.

* `norm_dft_reverse`: on a real signal the direction does not change the modulus.
* `eq_zero_of_spectrum`: on longer frames the cells after the first 256 are the samples; the array
  has the energy of the spectrum of the frame only if there is none.
* `fft2_spectrum_iff`: the array is the spectrum of the frame exactly on frames of 256 samples, and
  on longer ones of which every sample is zero.
-/

namespace TlVoix

open Checked Finset

/-! ## The direction -/

theorem conj_fftRoot (l : ℕ) : starRingEnd ℂ (fftRoot 1 l) = fftRoot (-1) l := by
  rw [fftRoot, fftRoot, ← Complex.exp_conj, map_mul, Complex.conj_ofReal, Complex.conj_I,
    show fftSign 1 = -1 from rfl, show fftSign (-1) = 1 from rfl]
  congr 1
  push_cast
  ring

/-- The reverse transform of a real signal is the conjugate of the forward one. -/
theorem norm_dft_reverse (l n : ℕ) (s : ℕ → ℝ) (k : ℕ) :
    ‖dft (fftRoot 1 l) n (fun j => (s j : ℂ)) k‖ =
      ‖dft (fftRoot (-1) l) n (fun j => (s j : ℂ)) k‖ := by
  rw [← Complex.norm_conj, map_dft, conj_fftRoot]
  simp only [Complex.conj_ofReal]

/-- The modulus of point `k` of the transform of `2 ^ l` samples. -/
noncomputable def spectrum (s : ℕ → ℝ) (l k : ℕ) : ℝ :=
  ‖dft (fftRoot (-1) l) (2 ^ l) (fun j => (s j : ℂ)) k‖

theorem norm_sum_exp (q : ℕ) (s : ℕ → ℝ) (k : ℕ) :
    ‖∑ j ∈ range (2 ^ q), (s j : ℂ) * Complex.exp (-2 * Real.pi * Complex.I * j * k / 2 ^ q)‖ =
      spectrum s q k := by
  rw [spectrum, ← norm_dft_reverse]
  congr 1
  refine sum_congr rfl fun j _ => ?_
  rw [fftRoot_pow, show fftSign 1 = -1 from rfl]
  congr 2
  push_cast
  ring

/-! ## The energy -/

theorem sum_spectrum_sq (s : ℕ → ℝ) (l : ℕ) :
    ∑ k ∈ range (2 ^ l), spectrum s l k ^ 2 = 2 ^ l * ∑ t ∈ range (2 ^ l), s t ^ 2 := by
  unfold spectrum
  rw [sum_norm_dft_sq l fun l' hl' => hl' ▸ fftRoot_pow_half (-1) l']
  simp only [Complex.norm_real, Real.norm_eq_abs, sq_abs]

/-- The spectrum of more than 256 samples is that of the first ones, followed by the samples
themselves, only in silence. -/
theorem eq_zero_of_spectrum {q : ℕ} {s : ℕ → ℝ} (hq : 256 < 2 ^ q)
    (hlow : ∀ k < 256, spectrum s q k = spectrum s 8 k)
    (hhigh : ∀ k < 2 ^ q, 256 ≤ k → spectrum s q k = |s k|) : ∀ j < 2 ^ q, s j = 0 := by
  obtain ⟨r, hr⟩ := Nat.exists_eq_add_of_le hq.le
  set A := ∑ t ∈ range 256, s t ^ 2 with hA
  set B := ∑ t ∈ range r, s (256 + t) ^ 2 with hB
  have htotal : ∑ t ∈ range (2 ^ q), s t ^ 2 = A + B := by rw [hr, sum_range_add]
  -- the energy of the array, counted in both ways
  have henergy : (2 : ℝ) ^ q * (A + B) = 256 * A + B :=
    calc (2 : ℝ) ^ q * (A + B) = ∑ k ∈ range (256 + r), spectrum s q k ^ 2 := by
          rw [← htotal, ← sum_spectrum_sq, hr]
      _ = ∑ k ∈ range (2 ^ 8), spectrum s 8 k ^ 2 + B := by
          rw [sum_range_add]
          congr 1
          · exact sum_congr rfl fun k hk => by rw [hlow k (mem_range.1 hk)]
          · refine sum_congr rfl fun t ht => ?_
            have := mem_range.1 ht
            rw [hhigh (256 + t) (by omega) (Nat.le_add_right 256 t), sq_abs]
      _ = 256 * A + B := by
          rw [sum_spectrum_sq, hA]
          norm_num
  have hA0 : 0 ≤ A := sum_nonneg fun t _ => sq_nonneg (s t)
  have hB0 : 0 ≤ B := sum_nonneg fun t _ => sq_nonneg (s (256 + t))
  have h257 : (257 : ℝ) * (A + B) ≤ 2 ^ q * (A + B) :=
    mul_le_mul_of_nonneg_right (by exact_mod_cast hq) (add_nonneg hA0 hB0)
  have hzero : ∑ t ∈ range (2 ^ q), s t ^ 2 = 0 := by
    rw [htotal]
    linarith
  intro j hj
  exact pow_eq_zero_iff two_ne_zero |>.1
    ((sum_eq_zero_iff_of_nonneg fun t _ => sq_nonneg (s t)).1 hzero j (mem_range.2 hj))

/-! ## The array `fft2` -/

theorem spectrum_of_ends {q : ℕ} {s : ℕ → ℝ}
    (h : Ends (Frame.setMfcc.fft2 (Arr.ofFn (2 ^ q) s) (2 ^ q)) fun b => ∀ k < 2 ^ q,
      b.Holds k (spectrum s q k)) : q = 8 ∨ 8 < q ∧ ∀ j < 2 ^ q, s j = 0 := by
  obtain ⟨b, hb, hcells⟩ := h
  obtain ⟨h255, -⟩ := yields_fft2 _ _ b hb
  obtain ⟨b', hb', hlow, hhigh⟩ := ends_fft2 (fun j hj => Arr.holds_ofFn s hj) h255
  obtain rfl : b = b' := Except.ok.inj (hb.symm.trans hb')
  have h8 : 8 ≤ q := by
    by_contra hq
    have : 2 ^ q ≤ 2 ^ 7 := Nat.pow_le_pow_right Nat.two_pos (by omega)
    omega
  rcases Nat.eq_or_lt_of_le h8 with rfl | hq
  · exact .inl rfl
  · have h256 : 2 ^ 8 < 2 ^ q := Nat.pow_lt_pow_right (Nat.lt_succ_self 1) hq
    refine .inr ⟨hq, eq_zero_of_spectrum h256 (fun k hk => ?_) fun k hk hge => ?_⟩
    · exact (hcells k (hk.trans h256)).inj (hlow k hk)
    · exact (hcells k hk).inj (hhigh k hk hge)

theorem spectrum_eq_zero {q l : ℕ} {s : ℕ → ℝ} (hs : ∀ j < 2 ^ q, s j = 0) (hl : l ≤ q) (k : ℕ) :
    spectrum s l k = 0 := by
  have hle : 2 ^ l ≤ 2 ^ q := Nat.pow_le_pow_right Nat.two_pos hl
  have : dft (fftRoot (-1) l) (2 ^ l) (fun j => (s j : ℂ)) k = 0 := by
    refine sum_eq_zero fun t ht => ?_
    simp only [hs t (Nat.lt_of_lt_of_le (mem_range.1 ht) hle), Complex.ofReal_zero, zero_mul]
  rw [spectrum, this, norm_zero]

theorem ends_fft2_zero {q : ℕ} {s : ℕ → ℝ} (hq : 8 < q) (hs : ∀ j < 2 ^ q, s j = 0) :
    Ends (Frame.setMfcc.fft2 (Arr.ofFn (2 ^ q) s) (2 ^ q)) fun b => ∀ k < 2 ^ q,
      b.Holds k (spectrum s q k) := by
  have h256 : 2 ^ 8 < 2 ^ q := Nat.pow_lt_pow_right (Nat.lt_succ_self 1) hq
  refine (ends_fft2 (fun j hj => Arr.holds_ofFn s hj) h256.le).mono fun b hb k hk => ?_
  rw [spectrum_eq_zero hs (Nat.le_refl q)]
  rcases Nat.lt_or_ge k 256 with hlt | hge
  · rw [← spectrum_eq_zero hs hq.le k]
    exact hb.1 k hlt
  · rw [← abs_zero, ← hs k hk]
    exact hb.2 k hk hge

/-- **The filter bank gets the spectrum of the whole frame exactly if the frame has 256 samples**,
or is longer and silent. -/
theorem fft2_spectrum_iff (q : ℕ) (s : ℕ → ℝ) :
    Ends (Frame.setMfcc.fft2 (Arr.ofFn (2 ^ q) s) (2 ^ q)) (fun b => ∀ k < 2 ^ q, b.Holds k
        ‖∑ j ∈ range (2 ^ q), (s j : ℂ) *
          Complex.exp (-2 * Real.pi * Complex.I * j * k / 2 ^ q)‖) ↔
      q = 8 ∨ 8 < q ∧ ∀ j < 2 ^ q, s j = 0 := by
  simp only [norm_sum_exp]
  refine ⟨spectrum_of_ends, fun h => ?_⟩
  rcases h with rfl | h
  · refine (ends_fft2 (fun j hj => Arr.holds_ofFn s hj) (Nat.le_refl 256)).mono fun b hb => ?_
    exact hb.1
  · exact ends_fft2_zero h.1 h.2

/-- A frame of 512 samples that is not silent. -/
theorem not_fft2_spectrum :
    ¬Ends (Frame.setMfcc.fft2 (Arr.ofFn (2 ^ 9) fun _ => 1) (2 ^ 9)) fun b => ∀ k < 2 ^ 9,
      b.Holds k ‖∑ j ∈ range (2 ^ 9), ((1 : ℝ) : ℂ) *
        Complex.exp (-2 * Real.pi * Complex.I * j * k / 2 ^ 9)‖ := by
  intro h
  rcases spectrum_of_ends (h.mono fun b hb k hk => norm_sum_exp 9 (fun _ => 1) k ▸ hb k hk) with
    h9 | ⟨-, hzero⟩
  · exact absurd h9 (by decide)
  · exact one_ne_zero (hzero 0 (by decide))

end TlVoix
