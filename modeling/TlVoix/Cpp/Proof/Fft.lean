import TlVoix.Cpp.Proof.BitReversal
import TlVoix.Lib.Dft
import Mathlib.Analysis.SpecialFunctions.Trigonometric.Basic

/-!
# `FFT` computes the discrete Fourier transform

The arrays `x` and `y` are read as one sequence of complex points (`Points`). Each part of `FFT` is
a function of this sequence:

* `ends_bitReversal`: the exchanges permute the points by `bitRev`;
* `ends_stage`: a stage joins the blocks of `l1` points (`joined`), whatever the root `w`;
* `sqrt_fftRoot_re`, `sqrt_fftRoot_im`: the square roots of `FFT` halve the angle of its root, so
  that stage `l` runs with a root of `-1` of order `2 ^ l`;
* `ends_fft`, `fft_dft`: from these, by `Blocks`, the transform of any `2 ^ m` points.
-/

namespace TlVoix

open Checked

/-- Two arrays of `N` cells hold the real and the imaginary parts of the points `z`. -/
structure Points (N : ℕ) (z : ℕ → ℂ) (xy : Arr ℕ ℝ × Arr ℕ ℝ) : Prop where
  re : xy.1.Is N fun i => (z i).re
  im : xy.2.Is N fun i => (z i).im

theorem Points.congr {N : ℕ} {z z' : ℕ → ℂ} {xy : Arr ℕ ℝ × Arr ℕ ℝ} (h : Points N z xy)
    (hz : ∀ i < N, z i = z' i) : Points N z' xy :=
  ⟨h.re.congr fun i hi => by rw [hz i hi], h.im.congr fun i hi => by rw [hz i hi]⟩

/-- The two arrays after both were written at `i`. -/
theorem Points.update {N i : ℕ} {z : ℕ → ℂ} {v : ℂ} {x y : Arr ℕ ℝ}
    (hx : x.Is N (Function.update (fun i => (z i).re) i v.re))
    (hy : y.Is N (Function.update (fun i => (z i).im) i v.im)) :
    Points N (Function.update z i v) (x, y) := by
  refine ⟨hx.congr fun j _ => ?_, hy.congr fun j _ => ?_⟩
  · exact (congrFun (Function.comp_update Complex.re z i v) j).symm
  · exact (congrFun (Function.comp_update Complex.im z i v) j).symm

/-! ## The loops -/

section
variable {N : ℕ} {z : ℕ → ℂ}

theorem ends_butterfly {x y : Arr ℕ ℝ} (h : Points N z (x, y)) {i i1 : ℕ} (hi : i < N)
    (hi1 : i1 < N) (hne : i ≠ i1) (u : ℂ) :
    Ends (Frame.fft.butterfly u.re u.im i i1 (x, y)) (Points N
      (Function.update (Function.update z i1 (z i - u * z i1)) i (z i + u * z i1))) := by
  have hre : u.re * (z i1).re - u.im * (z i1).im = (u * z i1).re := (Complex.mul_re _ _).symm
  have him : u.re * (z i1).im + u.im * (z i1).re = (u * z i1).im := (Complex.mul_im _ _).symm
  simp only [Frame.fft.butterfly, h.re.get_ok hi, h.im.get_ok hi, h.re.get_ok hi1, h.im.get_ok hi1,
    ok_bind, hre, him]
  refine (h.re.ends_set hi1 _).bind fun x1 hx1 => (h.im.ends_set hi1 _).bind fun y1 hy1 => ?_
  have h1 : Points N (Function.update z i1 (z i - u * z i1)) (x1, y1) := Points.update hx1 hy1
  -- the point `i` is not changed by the writes at `i1`
  have hx : x1.get i = .ok (z i).re := by
    rw [h1.re.get_ok hi, Function.update_of_ne hne]
  have hy : y1.get i = .ok (z i).im := by
    rw [h1.im.get_ok hi, Function.update_of_ne hne]
  simp only [hx, hy, ok_bind]
  refine (h1.re.ends_set hi _).bind fun x2 hx2 => (h1.im.ends_set hi _).bind fun y2 hy2 => ?_
  exact Ends.ok (Points.update hx2 hy2)

/-- The exchanges permute the first `2 ^ m` points by bit reversal. -/
theorem ends_bitReversal (m : ℕ) (hN : 2 ^ m ≤ N) {x y : Arr ℕ ℝ} (h : Points N z (x, y)) :
    Ends (Frame.fft.bitReversal (2 ^ m) x y) fun xy => ∃ z', Points N z' xy ∧
      (∀ p < 2 ^ m, z' p = z (bitRev m p)) ∧ ∀ p, 2 ^ m ≤ p → z' p = z p := by
  refine (ends_bitReversal_arrays hN h.re h.im).mono fun xy hxy => ?_
  refine ⟨swapped m (2 ^ m - 1) z, ⟨?_, ?_⟩, fun p hp => swapped_last m z hp, fun p hp =>
    swapped_of_le m _ z hp⟩
  · exact hxy.1.congr fun i _ => swapped_map Complex.re m _ z i
  · exact hxy.2.congr fun i _ => swapped_map Complex.im m _ z i

/-- A stage joins the blocks of `l1` points. -/
theorem ends_stage {n l1 : ℕ} (hl1 : 0 < l1) (hn : 2 * l1 ∣ n) (hnN : n ≤ N) (w : ℂ)
    {xy : Arr ℕ ℝ × Arr ℕ ℝ} (h : Points N z xy) :
    Ends (Frame.fft.stage n l1 w.re w.im xy) fun xy => ∃ z', Points N z' xy ∧
      (∀ p < n, z' p = joined w l1 z p) ∧ ∀ p, n ≤ p → z' p = z p := by
  refine (Ends.forUp (fun j s => s.1 = (w ^ j).re ∧ s.2.1 = (w ^ j).im ∧
    Points N (joining w l1 n j 0 z) s.2.2) (Nat.zero_le _)
    ⟨by simp, by simp, by rwa [joining_start]⟩ ?_).bind ?_
  · intro j r _ hj hr
    obtain ⟨u1, u2, xy⟩ := r
    obtain ⟨hu1, hu2, h⟩ := hr
    obtain ⟨rfl, rfl⟩ : u1 = (w ^ j).re ∧ u2 = (w ^ j).im := ⟨hu1, hu2⟩
    rw [← joining_lane] at h
    refine (Ends.forStep (fun i xy => i % (2 * l1) = j ∧ Points N (joining w l1 n j i z) xy)
      (by omega) ⟨Nat.mod_eq_of_lt (by omega), h⟩ ?_).bind ?_
    · intro i r _ hi hr
      obtain ⟨x, y⟩ := r
      obtain ⟨hij, h⟩ := hr
      -- `n` is a multiple of `2 * l1`: the partner of `i` exists
      have hi1 : i + l1 < n := by
        obtain ⟨b, rfl⟩ := hn
        have hib : i / (2 * l1) < b := Nat.div_lt_of_lt_mul hi
        have hdm := Nat.div_add_mod i (2 * l1)
        have hle : 2 * l1 * (i / (2 * l1) + 1) ≤ 2 * l1 * b := Nat.mul_le_mul_left _ hib
        rw [Nat.mul_succ] at hle
        omega
      refine (ends_butterfly h (by omega) (by omega) (by omega) (w ^ j)).mono fun xy hxy =>
        ⟨?_, ?_⟩
      · rw [Nat.mul_comm l1, Nat.add_mod_right, hij]
      · rw [Nat.mul_comm l1, ← joining_step w hj hij hi1]
        exact hxy
    · intro r hr
      obtain ⟨i, xy⟩ := r
      obtain ⟨hi, -, hxy⟩ := hr
      refine Ends.ok ⟨?_, ?_, ?_⟩
      · rw [pow_succ, Complex.mul_re]
      · rw [pow_succ, Complex.mul_im]
      · rw [← joining_next w hi]
        exact hxy
  · intro r hr
    obtain ⟨_, _, _, xy⟩ := r
    obtain ⟨-, -, -, hxy⟩ := hr
    exact Ends.ok ⟨_, hxy, fun p hp => joining_end w hl1 hp z,
      fun p hp => joining_of_le w l1 hp _ _ z⟩

end

/-! ## The roots -/

/-- The sign of the exponent: `dir = 1` is the forward transform. -/
def fftSign (dir : ℤ) : ℝ := if dir = 1 then -1 else 1

/-- The root of the transform of `2 ^ l` points. -/
noncomputable def fftRoot (dir : ℤ) (l : ℕ) : ℂ :=
  Complex.exp ((fftSign dir * (2 • Real.pi / (2 ^ l : ℕ)) : ℝ) * Complex.I)

theorem fftSign_eq (dir : ℤ) : fftSign dir = 1 ∨ fftSign dir = -1 := by
  unfold fftSign
  split
  · exact .inr rfl
  · exact .inl rfl

theorem fftRoot_succ_sq (dir : ℤ) (l : ℕ) : fftRoot dir (l + 1) ^ 2 = fftRoot dir l := by
  rw [fftRoot, fftRoot, ← Complex.exp_nat_mul]
  congr 1
  push_cast
  ring

theorem half_turn (l : ℕ) : 2 • Real.pi / (2 ^ (l + 1) : ℕ) = Real.pi / 2 ^ l := by
  rw [nsmul_eq_mul, pow_succ]
  push_cast
  field_simp

theorem fftRoot_succ_re (dir : ℤ) (l : ℕ) :
    (fftRoot dir (l + 1)).re = Real.cos (Real.pi / 2 ^ l) := by
  rw [fftRoot, Complex.exp_ofReal_mul_I_re, half_turn]
  rcases fftSign_eq dir with h | h
  · rw [h, one_mul]
  · rw [h, neg_one_mul, Real.cos_neg]

theorem fftRoot_succ_im (dir : ℤ) (l : ℕ) :
    (fftRoot dir (l + 1)).im = fftSign dir * Real.sin (Real.pi / 2 ^ l) := by
  rw [fftRoot, Complex.exp_ofReal_mul_I_im, half_turn]
  rcases fftSign_eq dir with h | h
  · rw [h, one_mul, one_mul]
  · rw [h, neg_one_mul, neg_one_mul, Real.sin_neg]

theorem fftRoot_one (dir : ℤ) : fftRoot dir 1 = -1 := by
  refine Complex.ext ?_ ?_
  · rw [fftRoot_succ_re]
    simp
  · rw [fftRoot_succ_im]
    simp

/-- Half a period of the root changes the sign. -/
theorem fftRoot_pow_half (dir : ℤ) (l : ℕ) : fftRoot dir (l + 1) ^ 2 ^ l = -1 := by
  induction l with
  | zero => rw [pow_zero, pow_one, fftRoot_one]
  | succ l ih => rw [pow_succ' 2 l, pow_mul, fftRoot_succ_sq, ih]

theorem half_angle (l : ℕ) : Real.pi / 2 ^ (l + 1) = Real.pi / 2 ^ l / 2 := by
  rw [pow_succ, div_div]

theorem angle_le_pi (l : ℕ) : 0 < Real.pi / 2 ^ l ∧ Real.pi / 2 ^ l ≤ Real.pi :=
  ⟨div_pos Real.pi_pos (by positivity), div_le_self Real.pi_pos.le (one_le_pow₀ one_le_two)⟩

theorem two_eq : (2.0 : ℝ) = 2 := by norm_num

/-- The new `c1` of `FFT`: the cosine of half the angle. -/
theorem sqrt_fftRoot_re (dir : ℤ) (l : ℕ) :
    Real.sqrt ((1 + (fftRoot dir (l + 1)).re) / 2.0) = (fftRoot dir (l + 1 + 1)).re := by
  obtain ⟨hpos, hle⟩ := angle_le_pi l
  rw [fftRoot_succ_re, fftRoot_succ_re, two_eq, half_angle, Real.cos_half (by linarith) hle]

/-- The new `c2` of `FFT`: the sine of half the angle, with the sign of the direction. -/
theorem sqrt_fftRoot_im (dir : ℤ) (l : ℕ) :
    (if dir = 1 then -Real.sqrt ((1 - (fftRoot dir (l + 1)).re) / 2.0)
      else Real.sqrt ((1 - (fftRoot dir (l + 1)).re) / 2.0)) = (fftRoot dir (l + 1 + 1)).im := by
  obtain ⟨hpos, hle⟩ := angle_le_pi l
  rw [fftRoot_succ_re, fftRoot_succ_im, two_eq, half_angle,
    Real.sin_half_eq_sqrt hpos.le (by linarith), fftSign]
  split
  · rw [neg_one_mul]
  · rw [one_mul]

/-! ## The transform -/

/-- The division by the number of points that ends a forward transform. -/
theorem ends_scaling {n N : ℕ} {z : ℕ → ℂ} (hn : n ≤ N) {xy : Arr ℕ ℝ × Arr ℕ ℝ}
    (h : Points N z xy) :
    Ends (forUp 0 n xy fun i (x, y) => do
      let x ← x.set i ((← x.get i) / n)
      let y ← y.set i ((← y.get i) / n)
      pure (x, y)) fun r => Points N (Arr.replaced n (fun p => z p / n) z) r.2 := by
  refine (Ends.forUp (fun i => Points N (Arr.replaced i (fun p => z p / n) z)) (Nat.zero_le _)
    (by rwa [Arr.replaced_zero]) ?_).mono fun r hr => hr.2
  intro i s _ hi h
  obtain ⟨x, y⟩ := s
  have hx : x.get i = .ok (z i).re := by
    rw [h.re.get_ok (by omega), Arr.replaced_self]
  have hy : y.get i = .ok (z i).im := by
    rw [h.im.get_ok (by omega), Arr.replaced_self]
  simp only [hx, hy, ok_bind]
  refine (h.re.ends_set (by omega) _).bind fun x1 hx1 =>
    (h.im.ends_set (by omega) _).bind fun y1 hy1 => Ends.ok ?_
  rw [← Complex.div_natCast_re] at hx1
  rw [← Complex.div_natCast_im] at hy1
  rw [← Arr.update_replaced]
  exact Points.update hx1 hy1

/-- A stage with the root of its level doubles the length of the blocks. -/
theorem ends_nextStage (dir : ℤ) {m l N : ℕ} (hl : l < m) (hN : 2 ^ m ≤ N) {z z' : ℕ → ℂ}
    {xy : Arr ℕ ℝ × Arr ℕ ℝ} (h : Points N z' xy) (hb : Blocks (m - l) l (fftRoot dir l) z z') :
    Ends (Frame.fft.stage (2 ^ m) (2 ^ l) (fftRoot dir (l + 1)).re (fftRoot dir (l + 1)).im xy)
      fun xy => ∃ z'', Points N z'' xy ∧
        Blocks (m - (l + 1)) (l + 1) (fftRoot dir (l + 1)) z z'' ∧
        ∀ p, 2 ^ m ≤ p → z'' p = z' p := by
  obtain ⟨q, rfl⟩ : ∃ q, m = q + (l + 1) := ⟨m - (l + 1), by omega⟩
  have hq : q + (l + 1) - l = q + 1 := by omega
  have hdvd : 2 * 2 ^ l ∣ 2 ^ (q + (l + 1)) := ⟨2 ^ q, by
    rw [pow_add, pow_succ' 2 l, Nat.mul_comm]⟩
  rw [hq, ← fftRoot_succ_sq] at hb
  rw [Nat.add_sub_cancel]
  refine (ends_stage (Nat.two_pow_pos l) hdvd hN _ h).mono fun xy hxy => ?_
  obtain ⟨z2, hz2, hjoined, hrest⟩ := hxy
  refine ⟨z2, hz2, fun b hb' k hk => (hjoined _ ?_).trans
    (hb.joined (fftRoot_pow_half dir l) b hb' k hk), hrest⟩
  -- block `b` ends before the last point
  have hle : (b + 1) * 2 ^ (l + 1) ≤ 2 ^ q * 2 ^ (l + 1) := Nat.mul_le_mul_right _ hb'
  rw [Nat.succ_mul] at hle
  rw [pow_add 2 q (l + 1)]
  omega

/-- `FFT` on arrays of at least `2 ^ m` cells: the cells after them are not changed. -/
theorem ends_fft (dir : ℤ) (m : ℕ) {N : ℕ} (hN : 2 ^ m ≤ N) {z : ℕ → ℂ} {x y : Arr ℕ ℝ}
    (h : Points N z (x, y)) :
    Ends (Frame.fft dir m x y) fun xy => ∃ z', Points N z' xy ∧ (∀ k < 2 ^ m,
      z' k = if dir = 1 then dft (fftRoot dir m) (2 ^ m) z k / 2 ^ m
        else dft (fftRoot dir m) (2 ^ m) z k) ∧ ∀ k, 2 ^ m ≤ k → z' k = z k := by
  refine (Ends.forUp (fun i n => n = 2 ^ i) (Nat.zero_le m) rfl fun i n _ _ hn =>
    Ends.ok (hn ▸ (pow_succ 2 i).symm)).bind ?_
  intro t hs
  obtain ⟨_, n⟩ := t
  obtain ⟨-, hn⟩ := hs
  obtain rfl : n = 2 ^ m := hn
  refine (ends_bitReversal m hN h).bind ?_
  intro xy hs
  obtain ⟨z1, hz1, hrev, hrest⟩ := hs
  -- stage `l` runs with the root of level `l + 1`, on blocks of `2 ^ l` points
  refine Ends.bind (Ends.forUp (fun l s => s.1 = (fftRoot dir (l + 1)).re ∧
    s.2.1 = (fftRoot dir (l + 1)).im ∧ s.2.2.1 = 2 ^ l ∧
    ∃ z', Points N z' s.2.2.2 ∧ Blocks (m - l) l (fftRoot dir l) z z' ∧
      ∀ p, 2 ^ m ≤ p → z' p = z p) (Nat.zero_le m)
    ⟨by simp [fftRoot_one], by simp [fftRoot_one], rfl, z1, hz1, blocks_zero _ hrev, hrest⟩ ?_) ?_
  · intro l t _ hl hs
    obtain ⟨c1, c2, l2, xy⟩ := t
    obtain ⟨hc1, hc2, hl2, z', hz', hb, hrest⟩ := hs
    simp only at hc1 hc2 hl2 hz'
    subst hc1 hc2 hl2
    refine (ends_nextStage dir hl hN hz' hb).bind ?_
    intro xy hxy
    obtain ⟨z2, hz2, hb2, hrest2⟩ := hxy
    exact Ends.ok ⟨sqrt_fftRoot_re dir l, sqrt_fftRoot_im dir l, (pow_succ 2 l).symm, z2, hz2, hb2,
      fun p hp => (hrest2 p hp).trans (hrest p hp)⟩
  · intro t hs
    obtain ⟨_, _, _, _, xy⟩ := t
    obtain ⟨-, -, -, -, z', hz', hb, hrest⟩ := hs
    rw [Nat.sub_self] at hb
    by_cases hdir : dir = 1
    · simp only [if_pos hdir]
      refine (ends_scaling hN hz').bind fun r hr => Ends.ok ⟨_, hr, fun k hk => ?_, fun k hk => ?_⟩
      · simp only [Arr.replaced_of_lt hk, hb.last hk]
        push_cast
        rfl
      · rw [Arr.replaced_of_le hk, hrest k hk]
    · simp only [if_neg hdir]
      exact Ends.ok ⟨z', hz', fun k hk => hb.last hk, hrest⟩

/-- The powers of the root, as in the definition of the transform. -/
theorem fftRoot_pow (dir : ℤ) (m j k : ℕ) : fftRoot dir m ^ (j * k) =
    Complex.exp (fftSign dir * 2 * Real.pi * Complex.I * j * k / 2 ^ m) := by
  rw [fftRoot, ← Complex.exp_nat_mul]
  congr 1
  push_cast
  ring

/-- **`FFT` is the discrete Fourier transform**, of any size and in both directions: cell `k` holds
the sum over `j < 2 ^ m` of the points `x j + i y j` times `exp (s 2 π i j k / 2 ^ m)`, with
`s = -1` and a final division by `2 ^ m` for `dir = 1`, and with `s = 1` otherwise. -/
theorem fft_dft (dir : ℤ) (m : ℕ) (x y : ℕ → ℝ) :
    Ends (Frame.fft dir m (Arr.ofFn (2 ^ m) x) (Arr.ofFn (2 ^ m) y)) fun xy => ∀ k < 2 ^ m,
      ∃ a b : ℝ, xy.1.Holds k a ∧ xy.2.Holds k b ∧ (a + b * Complex.I : ℂ) =
        (∑ j ∈ Finset.range (2 ^ m), (x j + y j * Complex.I) *
          Complex.exp (fftSign dir * 2 * Real.pi * Complex.I * j * k / 2 ^ m)) /
          if dir = 1 then 2 ^ m else 1 := by
  have h : Points (2 ^ m) (fun j => (x j + y j * Complex.I : ℂ))
      (Arr.ofFn (2 ^ m) x, Arr.ofFn (2 ^ m) y) :=
    ⟨(Arr.is_ofFn _ x).congr fun i _ => by simp, (Arr.is_ofFn _ y).congr fun i _ => by simp⟩
  refine (ends_fft dir m (Nat.le_refl _) h).mono ?_
  intro xy hr k hk
  obtain ⟨z', hz', hdft, -⟩ := hr
  refine ⟨_, _, hz'.re.holds k hk, hz'.im.holds k hk, ?_⟩
  rw [Complex.re_add_im, hdft k hk]
  simp only [dft, fftRoot_pow]
  split
  · rfl
  · rw [div_one]

end TlVoix
