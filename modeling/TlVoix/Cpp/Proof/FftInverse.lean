import TlVoix.Cpp.Proof.Spectrum

/-!
# `FFT` undoes itself

`ends_fft_twice` is what two calls of `FFT` leave in the arrays, whatever their directions.
`fft_roundtrip_iff`: the second call undoes the first one exactly if the arrays have a cell for
every point, and the directions are opposite.
-/

namespace TlVoix

open Checked Finset

/-! ## Opposite roots -/

theorem fftRoot_of_ne {dir : ℤ} (h : dir ≠ 1) (l : ℕ) : fftRoot dir l = fftRoot (-1) l := by
  rw [fftRoot, fftRoot, fftSign, fftSign, if_neg h, if_neg (by decide)]

theorem fftRoot_inv (l : ℕ) : (fftRoot 1 l)⁻¹ = fftRoot (-1) l := by
  have hnorm : ‖fftRoot 1 l‖ = 1 := Complex.norm_exp_ofReal_mul_I _
  rw [Complex.inv_eq_conj hnorm, conj_fftRoot]

/-- The roots of opposite directions. -/
theorem fftRoot_opposite {d d' : ℤ} (h : d = 1 ↔ d' ≠ 1) (l : ℕ) :
    fftRoot d' l = (fftRoot d l)⁻¹ := by
  by_cases hd : d = 1
  · rw [fftRoot_of_ne (h.1 hd), hd, fftRoot_inv]
  · have hd' : d' = 1 := not_not.1 (mt h.2 hd)
    rw [fftRoot_of_ne hd, ← fftRoot_inv, inv_inv, hd']

theorem isPrimitiveRoot_fftRoot (dir : ℤ) (m : ℕ) : IsPrimitiveRoot (fftRoot dir m) (2 ^ m) := by
  cases m with
  | zero =>
    have hone : fftRoot dir 0 = 1 := by
      rw [← fftRoot_succ_sq, fftRoot_one, neg_one_sq]
    rw [hone]
    exact IsPrimitiveRoot.one
  | succ m => exact isPrimitiveRoot_of_half (fftRoot_pow_half dir m)

/-! ## Two calls -/

/-- What `FFT` divides by, inverted. -/
noncomputable def fftScale (dir : ℤ) (m : ℕ) : ℂ := if dir = 1 then ((2 ^ m : ℕ) : ℂ)⁻¹ else 1

/-- One call, with its scale. -/
theorem ends_fft_scale (dir : ℤ) (m : ℕ) {N : ℕ} (hN : 2 ^ m ≤ N) {z : ℕ → ℂ} {x y : Arr ℕ ℝ}
    (h : Points N z (x, y)) :
    Ends (Frame.fft dir m x y) fun xy => ∃ z', Points N z' xy ∧
      (∀ k < 2 ^ m, z' k = fftScale dir m * dft (fftRoot dir m) (2 ^ m) z k) ∧
      ∀ k, 2 ^ m ≤ k → z' k = z k := by
  refine (ends_fft dir m hN h).mono fun xy hxy => ?_
  obtain ⟨z', hz', hlow, hhigh⟩ := hxy
  refine ⟨z', hz', fun k hk => ?_, hhigh⟩
  rw [hlow k hk, fftScale]
  split
  · rw [div_eq_inv_mul]
    push_cast
    rfl
  · rw [one_mul]

theorem ends_fft_twice (d d' : ℤ) (m : ℕ) {N : ℕ} (hN : 2 ^ m ≤ N) {z : ℕ → ℂ} {x y : Arr ℕ ℝ}
    (h : Points N z (x, y)) :
    Ends (Frame.fft d m x y >>= fun xy => Frame.fft d' m xy.1 xy.2) fun xy => ∃ z', Points N z' xy ∧
      (∀ k < 2 ^ m, z' k = fftScale d m * fftScale d' m *
        dft (fftRoot d' m) (2 ^ m) (dft (fftRoot d m) (2 ^ m) z) k) ∧
      ∀ k, 2 ^ m ≤ k → z' k = z k := by
  refine (ends_fft_scale d m hN h).bind fun xy hxy => ?_
  obtain ⟨z1, hz1, hlow, hhigh⟩ := hxy
  refine (ends_fft_scale d' m hN hz1).mono fun xy' hxy' => ?_
  obtain ⟨z2, hz2, hlow2, hhigh2⟩ := hxy'
  refine ⟨z2, hz2, fun k hk => ?_, fun k hk => (hhigh2 k hk).trans (hhigh k hk)⟩
  rw [hlow2 k hk, dft_congr k hlow, dft_mul_left]
  ring

theorem fftScale_opposite {d d' : ℤ} (h : d = 1 ↔ d' ≠ 1) (m : ℕ) :
    fftScale d m * fftScale d' m * (2 ^ m : ℕ) = 1 := by
  have hne : ((2 ^ m : ℕ) : ℂ) ≠ 0 := Nat.cast_ne_zero.2 (Nat.two_pow_pos m).ne'
  by_cases hd : d = 1
  · rw [fftScale, fftScale, if_pos hd, if_neg (h.1 hd), mul_one, inv_mul_cancel₀ hne]
  · have hd' : d' = 1 := not_not.1 (mt h.2 hd)
    rw [fftScale, fftScale, if_neg hd, if_pos hd', one_mul, inv_mul_cancel₀ hne]

/-- The first point, after two calls in the same direction. -/
theorem fftScale_ne_one {d d' : ℤ} {m : ℕ} (hm : 1 ≤ m) (h : ¬(d = 1 ↔ d' ≠ 1)) :
    fftScale d m * fftScale d' m * (2 ^ m : ℕ) ≠ 1 := by
  have h2 : 1 < 2 ^ m := Nat.one_lt_two_pow (Nat.one_le_iff_ne_zero.1 hm)
  have hne0 : ((2 ^ m : ℕ) : ℂ) ≠ 0 := Nat.cast_ne_zero.2 (by omega)
  have hne1 : ((2 ^ m : ℕ) : ℂ) ≠ 1 := Nat.cast_ne_one.2 (by omega)
  by_cases hd : d = 1
  · have hd' : d' = 1 := by
      by_contra hd'
      exact h (iff_of_true hd hd')
    rw [fftScale, fftScale, if_pos hd, if_pos hd', inv_mul_cancel_right₀ hne0]
    exact inv_ne_one.2 hne1
  · have hd' : d' ≠ 1 := fun hd' => h (iff_of_false hd (not_not.2 hd'))
    rw [fftScale, fftScale, if_neg hd, if_neg hd', one_mul, one_mul]
    exact hne1

theorem dft_inv_fftRoot (d : ℤ) (m : ℕ) (z : ℕ → ℂ) {k : ℕ} (hk : k < 2 ^ m) :
    dft (fftRoot d m)⁻¹ (2 ^ m) (dft (fftRoot d m) (2 ^ m) z) k = (2 ^ m : ℕ) * z k :=
  dft_inv_dft (isPrimitiveRoot_fftRoot d m) z hk

/-- The first point after two calls, which does not depend on the root of the second one. -/
theorem dft_twice_zero (d d' : ℤ) (m : ℕ) (z : ℕ → ℂ) :
    dft (fftRoot d' m) (2 ^ m) (dft (fftRoot d m) (2 ^ m) z) 0 = (2 ^ m : ℕ) * z 0 := by
  rw [dft_zero _ (fftRoot d m)⁻¹, dft_inv_fftRoot d m z (Nat.two_pow_pos m)]

/-- Two calls in opposite directions. -/
theorem ends_fft_opposite {d d' : ℤ} (hdir : d = 1 ↔ d' ≠ 1) (m : ℕ) {N : ℕ} (hN : 2 ^ m ≤ N)
    {z : ℕ → ℂ} {x y : Arr ℕ ℝ} (h : Points N z (x, y)) :
    Ends (Frame.fft d m x y >>= fun xy => Frame.fft d' m xy.1 xy.2) (Points N z) := by
  refine (ends_fft_twice d d' m hN h).mono fun xy hxy => ?_
  obtain ⟨z', hz', hlow, hhigh⟩ := hxy
  refine hz'.congr fun i _ => ?_
  rcases Nat.lt_or_ge i (2 ^ m) with hi | hi
  · rw [hlow i hi, fftRoot_opposite hdir, dft_inv_fftRoot d m z hi, ← mul_assoc,
      fftScale_opposite hdir, one_mul]
  · exact hhigh i hi

/-- Calls that leave the first point of an impulse have opposite directions. -/
theorem opposite_of_fft_twice {d d' : ℤ} {m N : ℕ} (hm : 1 ≤ m) (hN : 2 ^ m ≤ N) {z : ℕ → ℂ}
    {x y : Arr ℕ ℝ} (h : Points N z (x, y)) (hz : z 0 = 1) {xy : Arr ℕ ℝ × Arr ℕ ℝ}
    (hxy : (Frame.fft d m x y >>= fun xy => Frame.fft d' m xy.1 xy.2) = .ok xy)
    (hre : xy.1.Holds 0 1) (him : xy.2.Holds 0 0) : d = 1 ↔ d' ≠ 1 := by
  by_contra hdir
  obtain ⟨xy', hxy', z', hz', hlow, -⟩ := ends_fft_twice d d' m hN h
  obtain rfl := Except.ok.inj (hxy.symm.trans hxy')
  have h0 : 0 < N := (Nat.two_pow_pos m).trans_le hN
  have hone : z' 0 = 1 :=
    Complex.ext ((hz'.re.holds 0 h0).inj hre) ((hz'.im.holds 0 h0).inj him)
  have hfirst := hlow 0 (Nat.two_pow_pos m)
  rw [hone, dft_twice_zero, hz, mul_one] at hfirst
  exact fftScale_ne_one hm hdir hfirst.symm

/-- **The second call undoes the first one** exactly if the arrays have a cell for every point, and
the directions are opposite. -/
theorem fft_roundtrip_iff (d d' : ℤ) (m N : ℕ) (hm : 1 ≤ m) :
    (∀ x y : ℕ → ℝ, Ends (Frame.fft d m (Arr.ofFn N x) (Arr.ofFn N y) >>= fun xy =>
        Frame.fft d' m xy.1 xy.2) fun xy => ∀ i < N, xy.1.Holds i (x i) ∧ xy.2.Holds i (y i)) ↔
      2 ^ m ≤ N ∧ (d = 1 ↔ d' ≠ 1) := by
  have hpoints : ∀ x y : ℕ → ℝ,
      Points N (fun i => (⟨x i, y i⟩ : ℂ)) (Arr.ofFn N x, Arr.ofFn N y) := fun x y =>
    ⟨Arr.is_ofFn N x, Arr.is_ofFn N y⟩
  constructor
  · intro h
    obtain ⟨xy, hxy, hback⟩ := h (fun _ => 1) fun _ => 0
    obtain ⟨xy1, hxy1, -⟩ := bind_eq_ok.1 hxy
    have hlast := yields_fft d hm _ _ xy1 hxy1
    rw [Arr.dom_ofFn] at hlast
    have hN : 2 ^ m ≤ N := by omega
    obtain ⟨hre, him⟩ := hback 0 ((Nat.two_pow_pos m).trans_le hN)
    exact ⟨hN, opposite_of_fft_twice hm hN (hpoints _ _) rfl hxy hre him⟩
  · intro h x y
    obtain ⟨hN, hdir⟩ := h
    refine (ends_fft_opposite hdir m hN (hpoints x y)).mono fun xy hxy => fun i hi => ?_
    exact ⟨hxy.re.holds i hi, hxy.im.holds i hi⟩

/-- Eight points, there and back. -/
theorem fft_roundtrip_eight :
    Ends (Frame.fft 1 3 (Arr.ofFn 8 fun i => (i : ℝ)) (Arr.ofFn 8 fun _ => 0) >>= fun xy =>
      Frame.fft (-1) 3 xy.1 xy.2) fun xy => ∀ i < 8, xy.1.Holds i (i : ℝ) ∧ xy.2.Holds i 0 :=
  (fft_roundtrip_iff 1 (-1) 3 8 (by decide)).2 ⟨le_rfl, by decide⟩ _ _

end TlVoix
