import TlVoix.Cpp.Proof.BinaryInversion
import TlVoix.Cpp.Proof.Fft
import TlVoix.Lib.Scan

/-!
# `ComplexFFT` computes the discrete Fourier transform

* `ends_fourierStage`: a stage of the Danielson-Lanczos routine joins the blocks of its points, with
  the root whose real part comes from `wpr = -2 sin²(θ / 2)` (`root_eq`).
* `toFloat_of_even`: the cast of the position is exact up to `2 ^ 25`.
* `ends_complexFFT`: on `2 ^ q` points the run ends; for an odd sign the array holds the transform
  of the padded samples, and the fundamental frequency comes from the first greatest modulus of its
  first half.
* `complexFFT_fft`: with the sign of a direction it computes what `FFT` does.
-/

namespace TlVoix

open Checked CFourier Finset

/-- An array of `2 S` cells holds the points `z`, interleaved. -/
def Interleaved (S : ℕ) (z : ℕ → ℂ) (v : Arr ℕ ℝ) : Prop :=
  v.Is (2 * S) (Arr.interleave (fun p => (z p).re) fun p => (z p).im)

section
variable {S : ℕ} {z : ℕ → ℂ} {v : Arr ℕ ℝ}

theorem Interleaved.congr {z' : ℕ → ℂ} (h : Interleaved S z v) (hz : ∀ p < S, z p = z' p) :
    Interleaved S z' v := by
  refine Arr.Is.congr h fun k hk => ?_
  have : k / 2 < S := by omega
  simp only [Arr.interleave, hz _ this]

theorem Interleaved.get_re (h : Interleaved S z v) {p : ℕ} (hp : p < S) :
    v.get (2 * p) = .ok (z p).re := by
  rw [Arr.Is.get_ok h (by omega), Arr.interleave_even]

theorem Interleaved.get_im (h : Interleaved S z v) {p : ℕ} (hp : p < S) :
    v.get (2 * p + 1) = .ok (z p).im := by
  rw [Arr.Is.get_ok h (by omega), Arr.interleave_odd]

/-- The two cells of a point were written. -/
theorem Interleaved.update {p : ℕ} {u : ℂ}
    (h : v.Is (2 * S) (Arr.interleave (Function.update (fun p => (z p).re) p u.re)
      (Function.update (fun p => (z p).im) p u.im))) :
    Interleaved S (Function.update z p u) v := by
  refine h.congr fun k _ => ?_
  congr 1
  · exact (Function.comp_update Complex.re z p u).symm
  · exact (Function.comp_update Complex.im z p u).symm

end

/-! ## The points -/

/-- The samples, followed by zeros. -/
def padded (N : ℕ) (s : ℕ → ℝ) (n : ℕ) : ℝ := if n < N then s n else 0

theorem u32_double {S : ℕ} (hS : S < 2 ^ 31) : u32 (2 * S) = 2 * S :=
  Nat.mod_eq_of_lt (by omega)

theorem ends_fourierPoints {data : Arr ℕ ℝ} {N S : ℕ} {s : ℕ → ℝ} (hS : S < 2 ^ 31)
    (hs : ∀ n, n < N → n < S → data.Holds n (s n)) :
    Ends (complexFFT.points data N S)
      (fun v => v.Is (2 * S) (Arr.interleave (padded N s) fun _ => 0)) := by
  unfold complexFFT.points
  rw [u32_double hS]
  refine (Ends.forUp (fun n v => v.Fills (2 * S) (2 * n) (Arr.interleave (padded N s) fun _ => 0))
    (Nat.zero_le S) (Arr.fills_fresh _ _) ?_).bind fun r hr => Ends.ok hr.2.is
  intro n v _ hn hv
  have hre : complexFFT.sample data N n = .ok (padded N s n) := by
    unfold complexFFT.sample padded
    split
    · exact Arr.get_ok (hs n ‹_› hn)
    · rfl
  rw [hre, ok_bind]
  have h1 := hv.ends_set (show 2 * n < 2 * S by omega)
  rw [Arr.interleave_even] at h1
  refine h1.bind fun v1 hv1 => ?_
  have h2 := hv1.ends_set (show 2 * n + 1 < 2 * S by omega)
  rwa [Arr.interleave_odd] at h2

/-! ## The Danielson-Lanczos routine -/

section
variable {S : ℕ} {z : ℕ → ℂ} {v : Arr ℕ ℝ}

theorem ends_fourierButterfly (h : Interleaved S z v) {p L : ℕ} (hL : 0 < L) (hp : p + L < S)
    (u : ℂ) :
    Ends (complexFFT.butterfly u.re u.im (2 * L) (2 * p + 1) v) (Interleaved S
      (Function.update (Function.update z (p + L) (z p - u * z (p + L))) p
        (z p + u * z (p + L)))) := by
  have hj : 2 * p + 1 + 2 * L = 2 * (p + L) + 1 := by omega
  have hre : u.re * (z (p + L)).re - u.im * (z (p + L)).im = (u * z (p + L)).re :=
    (Complex.mul_re _ _).symm
  have him : u.re * (z (p + L)).im + u.im * (z (p + L)).re = (u * z (p + L)).im :=
    (Complex.mul_im _ _).symm
  have hp0 : p < S := by omega
  have hne : p ≠ p + L := by omega
  simp only [complexFFT.butterfly, hj, Nat.add_sub_cancel, h.get_re hp, h.get_im hp, h.get_re hp0,
    ok_bind, hre, him]
  refine (Arr.Is.ends_set h (by omega) _).bind fun v1 h1 => ?_
  rw [Arr.update_interleave_even] at h1
  have hget : v1.get (2 * p + 1) = .ok (z p).im := by
    rw [h1.get_ok (by omega), Arr.interleave_odd]
  rw [hget, ok_bind]
  refine (h1.ends_set (by omega) _).bind fun v2 h2 => ?_
  rw [Arr.update_interleave_odd] at h2
  have h2 : Interleaved S (Function.update z (p + L) (z p - u * z (p + L))) v2 :=
    Interleaved.update h2
  -- the point `p` is not changed by the writes at `p + L`
  have hpre : v2.get (2 * p) = .ok (z p).re := by
    rw [h2.get_re hp0, Function.update_of_ne hne]
  rw [hpre, ok_bind]
  refine (Arr.Is.ends_set h2 (by omega) _).bind fun v3 h3 => ?_
  rw [Arr.update_interleave_even] at h3
  have hpim : v3.get (2 * p + 1) = .ok (z p).im := by
    rw [h3.get_ok (by omega), Arr.interleave_odd, Function.update_of_ne hne]
  rw [hpim, ok_bind]
  refine (h3.ends_set (by omega) _).mono fun v4 h4 => ?_
  rw [Arr.update_interleave_odd] at h4
  exact Interleaved.update h4

/-- The partner of a point of a lane exists. -/
theorem partner_lt {L p : ℕ} (hS : 2 * L ∣ S) (hp : p < S) (hlane : p % (2 * L) < L) :
    p + L < S := by
  obtain ⟨b, rfl⟩ := hS
  have hpb : p / (2 * L) < b := Nat.div_lt_of_lt_mul hp
  have hdm := Nat.div_add_mod p (2 * L)
  have hle : 2 * L * (p / (2 * L) + 1) ≤ 2 * L * b := Nat.mul_le_mul_left _ hpb
  rw [Nat.mul_succ] at hle
  omega

/-- The factor of the next lane. -/
theorem next_factor (w u : ℂ) : u.re * (w.re - 1) - u.im * w.im + u.re = (u * w).re ∧
    u.im * (w.re - 1) + u.re * w.im + u.im = (u * w).im := by
  rw [Complex.mul_re, Complex.mul_im]
  constructor <;> ring

/-- A stage joins the blocks of `L` points. -/
theorem ends_fourierStage {L : ℕ} (hL : 0 < L) (hS : 2 * L ∣ S) (w : ℂ)
    (h : Interleaved S z v) :
    Ends (complexFFT.stage (2 * S) (2 * L) (w.re - 1) w.im v)
      (Interleaved S (joined w L z)) := by
  refine (Ends.forStep (fun m s => ∃ a, m = 2 * a + 1 ∧ a ≤ L ∧ s.1 = (w ^ a).re ∧
    s.2.1 = (w ^ a).im ∧ Interleaved S (joining w L S a 0 z) s.2.2) Nat.two_pos
    ⟨0, rfl, Nat.zero_le L, by simp, by simp, by rwa [joining_start]⟩ ?_).bind ?_
  · intro m r _ hm hr
    obtain ⟨wr, wi, v⟩ := r
    obtain ⟨a, rfl, -, hwr, hwi, h⟩ := hr
    obtain ⟨rfl, rfl⟩ : wr = (w ^ a).re ∧ wi = (w ^ a).im := ⟨hwr, hwi⟩
    have ha : a < L := by omega
    rw [← joining_lane] at h
    refine (Ends.forStep (fun i v => ∃ p, i = 2 * p + 1 ∧ p % (2 * L) = a ∧
      Interleaved S (joining w L S a p z) v) (by omega)
      ⟨a, rfl, Nat.mod_eq_of_lt (by omega), h⟩ ?_).bind ?_
    · intro i v _ hi hr
      obtain ⟨p, rfl, hpa, h⟩ := hr
      have hpL : p + L < S := partner_lt hS (by omega) (by omega)
      refine (ends_fourierButterfly h hL hpL (w ^ a)).mono fun v1 h1 =>
        ⟨p + 2 * L, by ring, ?_, ?_⟩
      · rw [Nat.add_mod_right, hpa]
      · rw [← joining_step w ha hpa hpL]
        exact h1
    · intro r hr
      obtain ⟨i, v⟩ := r
      obtain ⟨hi, p, rfl, -, h⟩ := hr
      obtain ⟨hre, him⟩ := next_factor w (w ^ a)
      refine Ends.ok ⟨a + 1, by ring, ha, ?_, ?_, ?_⟩
      · rw [pow_succ, ← hre]
      · rw [pow_succ, ← him]
      · rw [← joining_next w (show S ≤ p by omega)]
        exact h
  · intro r hr
    obtain ⟨m, _, _, v⟩ := r
    obtain ⟨hm, a, rfl, haL, -, -, h⟩ := hr
    obtain rfl : a = L := by omega
    exact Ends.ok (h.congr fun p hp => joining_end w hL hp z)

end

/-! ## The roots -/

/-- The root of the transform of `2 ^ l` points. -/
noncomputable def fourierRoot (sign : ℤ) (l : ℕ) : ℂ :=
  Complex.exp ((sign * (2 • Real.pi / (2 ^ l : ℕ)) : ℝ) * Complex.I)

theorem fourierRoot_succ_sq (sign : ℤ) (l : ℕ) :
    fourierRoot sign (l + 1) ^ 2 = fourierRoot sign l := by
  rw [fourierRoot, fourierRoot, ← Complex.exp_nat_mul]
  congr 1
  push_cast
  rw [pow_succ]
  ring

/-- Half a period of the root changes the sign, if that of the exponent is odd. -/
theorem fourierRoot_pow_half {sign : ℤ} (hs : Odd sign) (l : ℕ) :
    fourierRoot sign (l + 1) ^ 2 ^ l = -1 := by
  induction l with
  | zero =>
    obtain ⟨r, rfl⟩ := hs
    have hexp : (((2 * r + 1 : ℤ) * (2 • Real.pi / (2 ^ (0 + 1) : ℕ)) : ℝ) : ℂ) * Complex.I =
        Real.pi * Complex.I + r * (2 * Real.pi * Complex.I) := by
      push_cast
      ring
    rw [pow_zero, pow_one, fourierRoot, hexp, Complex.exp_add, Complex.exp_pi_mul_I,
      Complex.exp_int_mul_two_pi_mul_I, mul_one]
  | succ l ih => rw [pow_succ' 2 l, pow_mul, fourierRoot_succ_sq, ih]

/-- The root of a stage, from the sine of half its angle. -/
theorem root_eq (theta : ℝ) :
    -2.0 * Real.sin (0.5 * theta) * Real.sin (0.5 * theta) =
      (Complex.exp (theta * Complex.I)).re - 1 ∧
    Real.sin theta = (Complex.exp (theta * Complex.I)).im := by
  rw [Complex.exp_ofReal_mul_I_re, Complex.exp_ofReal_mul_I_im]
  have h2 : theta = 2 * (0.5 * theta) := by ring
  have hcos : Real.cos theta = 2 * Real.cos (0.5 * theta) ^ 2 - 1 := by
    conv_lhs => rw [h2, Real.cos_two_mul]
  have hsq := Real.sin_sq_add_cos_sq (0.5 * theta)
  refine ⟨?_, rfl⟩
  rw [hcos]
  linarith

/-! ## The whole routine -/

/-- The routine joins blocks until one is left. -/
theorem ends_danielsonLanczos (pi : ℝ) (sign : ℤ) {q : ℕ} {z z₀ : ℕ → ℂ} {v : Arr ℕ ℝ}
    (h : Interleaved (2 ^ q) z v) (hz : ∀ p < 2 ^ q, z p = z₀ (bitRev q p)) :
    Ends (complexFFT.danielsonLanczos pi sign (2 * 2 ^ q) v) fun v => ∃ z',
      Interleaved (2 ^ q) z' v ∧ (pi = Real.pi → Odd sign →
        ∀ k < 2 ^ q, z' k = dft (fourierRoot sign q) (2 ^ q) z₀ k) := by
  refine (Ends.whileLoop (fun s => ∃ l ≤ q, s.1 = 2 * 2 ^ l ∧ ∃ z', Interleaved (2 ^ q) z' s.2 ∧
    (pi = Real.pi → Odd sign → Blocks (q - l) l (fourierRoot sign l) z₀ z'))
    (fun s => 2 * 2 ^ q - s.1) ?_ _ _ ⟨0, Nat.zero_le q, rfl, z, h, fun _ _ => blocks_zero _ hz⟩
    (Nat.sub_le _ _)).bind ?_
  · intro s hs hc
    obtain ⟨mmax, v⟩ := s
    obtain ⟨l, -, hl, z', h, hb⟩ := hs
    obtain rfl : mmax = 2 * 2 ^ l := hl
    have hlt : 2 * 2 ^ l < 2 * 2 ^ q := of_decide_eq_true hc
    have hlq : l < q := (Nat.pow_lt_pow_iff_right Nat.one_lt_two).1 (by omega)
    obtain ⟨m, rfl⟩ : ∃ m, q = m + (l + 1) := ⟨q - (l + 1), by omega⟩
    have hdvd : 2 * 2 ^ l ∣ 2 ^ (m + (l + 1)) := ⟨2 ^ m, by
      rw [pow_add, pow_succ' 2 l, Nat.mul_comm]⟩
    set theta : ℝ := sign * ((2 : ℕ) * pi / (2 * 2 ^ l : ℕ)) with htheta
    obtain ⟨hre, him⟩ := root_eq theta
    have hstage := ends_fourierStage (Nat.two_pow_pos l) hdvd (Complex.exp (theta * Complex.I)) h
    rw [← hre, ← him] at hstage
    refine Ends.bind hstage fun v1 h1 => Ends.ok ⟨⟨l + 1, hlq, ?_, _, h1, ?_⟩, ?_⟩
    · show 2 * 2 ^ l * 2 = 2 * 2 ^ (l + 1)
      rw [pow_succ, Nat.mul_assoc]
    · intro hpi hsign
      have hroot : Complex.exp (theta * Complex.I) = fourierRoot sign (l + 1) := by
        rw [htheta, hpi, fourierRoot, pow_succ', nsmul_eq_mul]
      have hq : m + (l + 1) - l = m + 1 := by omega
      have hb := hb hpi hsign
      rw [hq, ← fourierRoot_succ_sq] at hb
      rw [hroot, Nat.add_sub_cancel]
      exact hb.joined (fourierRoot_pow_half hsign l)
    · show 2 * 2 ^ (m + (l + 1)) - 2 * 2 ^ l * 2 < 2 * 2 ^ (m + (l + 1)) - 2 * 2 ^ l
      have := Nat.two_pow_pos l
      omega
  · intro s hs
    obtain ⟨mmax, v⟩ := s
    obtain ⟨⟨l, hlq, hl, z', h, hb⟩, hc⟩ := hs
    obtain rfl : mmax = 2 * 2 ^ l := hl
    have hge : ¬2 * 2 ^ l < 2 * 2 ^ q := of_decide_eq_false hc
    have hql : q ≤ l := (Nat.pow_le_pow_iff_right Nat.one_lt_two).1 (by omega)
    obtain rfl : l = q := Nat.le_antisymm hlq hql
    rw [Nat.sub_self] at hb
    exact Ends.ok ⟨z', h, fun hpi hsign k hk => (hb hpi hsign).last hk⟩

/-! ## The fundamental frequency -/

theorem toFloat_of_dvd {n : ℕ} (h : 2 ^ (Nat.log2 n - 23) ∣ n) : toFloat n = n := by
  have hulp : 0 < 2 ^ (Nat.log2 n - 23) := Nat.two_pow_pos _
  have hrest : n % 2 ^ (Nat.log2 n - 23) = 0 := Nat.mod_eq_zero_of_dvd h
  unfold toFloat
  dsimp only
  rw [hrest, if_neg (by omega), Nat.div_mul_cancel h]

/-- An even number of at most 25 bits has 24 significant ones. -/
theorem toFloat_of_even {n : ℕ} (h2 : 2 ∣ n) (hn : n ≤ 2 ^ 25) : toFloat n = n := by
  refine toFloat_of_dvd ?_
  rcases hn.lt_or_eq with hn | rfl
  · have hlog : Nat.log2 n - 23 ≤ 1 := by
      rcases Nat.eq_zero_or_pos n with rfl | hpos
      · decide
      · have := (Nat.log2_lt hpos.ne').2 hn
        omega
    exact (Nat.pow_dvd_pow 2 hlog).trans h2
  · decide

/-- `fundamental_frequency`, of which the greatest modulus is at point `g`. -/
def frequence (g : ℕ) : ℕ := toFloat (2 * g) / 2

theorem frequence_eq {g : ℕ} (h : g ≤ 2 ^ 24) : frequence g = g := by
  rw [frequence, toFloat_of_even (Nat.dvd_mul_right 2 g) (by omega),
    Nat.mul_div_cancel_left _ Nat.two_pos]

/-- The search meets the points of the first half, the middle one included. -/
theorem ends_fundamental {S : ℕ} {z : ℕ → ℂ} {v : Arr ℕ ℝ} (h : Interleaved S z v) :
    Ends (complexFFT.fundamental S v) fun f =>
      ∃ g, f = frequence g ∧ FirstMax (fun k => ‖z k‖) (S / 2 + 1) g := by
  have hmod : ∀ p < S, complexFFT.modulus v (2 * p) = .ok (Complex.normSq (z p)) := by
    intro p hp
    have hsq : (z p).re ^ ((2 : ℕ) : ℝ) + (z p).im ^ ((2 : ℕ) : ℝ) = Complex.normSq (z p) := by
      rw [Complex.normSq_apply, Real.rpow_natCast, Real.rpow_natCast, sq, sq]
    simp only [complexFFT.modulus, h.get_re hp, h.get_im hp, ok_bind, pure_eq_ok, ← hsq]
    rfl
  refine (Ends.forStep (fun i f => ∃ k, i = 2 * k ∧ 1 ≤ k ∧ k ≤ S / 2 + 1 ∧
    ∃ g, f = 2 * g ∧ FirstMax (fun k => Complex.normSq (z k)) k g) Nat.two_pos
    ⟨1, rfl, le_rfl, by omega, 0, rfl, firstMax_one _⟩ ?_).bind ?_
  · intro i f _ hi hf
    obtain ⟨k, rfl, hk1, -, g, rfl, hg⟩ := hf
    have hgk := hg.lt
    simp only [hmod k (by omega), hmod g (by omega), ok_bind, gt_iff_lt]
    refine ⟨2 * if Complex.normSq (z g) < Complex.normSq (z k) then k else g, ?_, k + 1, by ring,
      by omega, by omega, _, rfl, hg.step⟩
    rw [apply_ite (2 * ·)]
    split <;> rfl
  · intro r hr
    obtain ⟨i, f⟩ := r
    obtain ⟨hi, k, rfl, -, hk, g, rfl, hg⟩ := hr
    obtain rfl : k = S / 2 + 1 := by omega
    refine Ends.ok ⟨g, rfl, hg.congr fun a _ b _ => ?_⟩
    rw [Complex.normSq_eq_norm_sq, Complex.normSq_eq_norm_sq,
      sq_lt_sq₀ (norm_nonneg _) (norm_nonneg _)]

/-- What a transform leaves in the object. -/
structure Transformed (fft : CFourier ℝ) (q : ℕ) (z : ℕ → ℂ) (r : CFourier ℝ) : Prop where
  pi : r.pi = fft.pi
  vector : ∃ v, r.vector = some v ∧ Interleaved (2 ^ q) z v
  fundamental : ∃ g, r.fundamentalFrequency = some (frequence g) ∧
    FirstMax (fun k => ‖z k‖) (2 ^ q / 2 + 1) g

/-- The samples as complex points. -/
noncomputable def complexSamples (N : ℕ) (s : ℕ → ℝ) (n : ℕ) : ℂ := padded N s n

/-- The run on `2 ^ q` points, whatever the object and the sign. -/
theorem ends_complexFFT (fft : CFourier ℝ) (sign : ℤ) {q : ℕ} (hq : q ≤ 30) {N : ℕ} {s : ℕ → ℝ}
    {data : Arr ℕ ℝ} (hs : ∀ n, n < N → n < 2 ^ q → data.Holds n (s n)) :
    Ends (fft.complexFFT data N (2 ^ q) sign) fun r => ∃ z, Transformed fft q z r ∧
      (fft.pi = Real.pi → Odd sign →
        ∀ k < 2 ^ q, z k = dft (fourierRoot sign q) (2 ^ q) (complexSamples N s) k) := by
  have hlt : 2 ^ q < 2 ^ 31 := Nat.pow_lt_pow_right Nat.one_lt_two (Nat.lt_succ_of_le hq)
  unfold CFourier.complexFFT
  refine (ends_fourierPoints hlt hs).bind fun v0 h0 => ?_
  rw [Nat.mul_comm (2 ^ q) 2, u32_double hlt]
  refine (ends_binaryInversion q h0).bind fun v1 hv1 => ?_
  obtain ⟨f, g, h1, hfg⟩ := hv1
  have hz : Interleaved (2 ^ q) (fun p => (⟨f p, g p⟩ : ℂ)) v1 := h1
  have hrev : ∀ p < 2 ^ q, (⟨f p, g p⟩ : ℂ) = complexSamples N s (bitRev q p) := fun p hp => by
    rw [(hfg p hp).1, (hfg p hp).2]
    rfl
  refine (ends_danielsonLanczos fft.pi sign hz hrev).bind fun v2 hv2 => ?_
  obtain ⟨z, h2, hdft⟩ := hv2
  refine (ends_fundamental h2).bind fun f hf => ?_
  obtain ⟨g, rfl, hg⟩ := hf
  exact Ends.ok ⟨z, ⟨rfl, ⟨v2, rfl, h2⟩, g, rfl, hg⟩, hdft⟩

/-- The powers of the root, as in the definition of the transform. -/
theorem fourierRoot_pow (sign : ℤ) (q j k : ℕ) : fourierRoot sign q ^ (j * k) =
    Complex.exp ((sign * (2 • Real.pi) * j * k / (2 ^ q : ℕ) : ℝ) * Complex.I) := by
  rw [fourierRoot, ← Complex.exp_nat_mul]
  congr 1
  push_cast
  ring

/-- The transform of the samples `s 0, …, s (N - 1)`, padded to `2 ^ q` points. -/
noncomputable def transform (sign : ℤ) (q N : ℕ) (s : ℕ → ℝ) (k : ℕ) : ℂ :=
  ∑ j ∈ range (min N (2 ^ q)), (s j : ℂ) *
    Complex.exp ((sign * (2 • Real.pi) * j * k / (2 ^ q : ℕ) : ℝ) * Complex.I)

theorem dft_complexSamples (sign : ℤ) (q N : ℕ) (s : ℕ → ℝ) (k : ℕ) :
    dft (fourierRoot sign q) (2 ^ q) (complexSamples N s) k = transform sign q N s k := by
  have hsub : range (min N (2 ^ q)) ⊆ range (2 ^ q) := range_mono (Nat.min_le_right _ _)
  refine (sum_subset_zero_on_sdiff hsub (fun j hj => ?_) fun j hj => ?_).symm
  · rw [mem_sdiff, mem_range, mem_range] at hj
    have hjN : ¬j < N := by omega
    rw [complexSamples, padded, if_neg hjN, Complex.ofReal_zero, zero_mul]
  · have hjN : j < N := (mem_range.1 hj).trans_le (Nat.min_le_left _ _)
    rw [complexSamples, padded, if_pos hjN, fourierRoot_pow]

theorem pi_create {fft : CFourier ℝ} (hpi : fft.pi = (create : CFourier ℝ).pi) :
    fft.pi = Real.pi := by
  have h4 : 4 * Real.arctan 1 = Real.pi := by
    rw [Real.arctan_one]
    ring
  exact hpi.trans h4

theorem Transformed.congr {fft r : CFourier ℝ} {q : ℕ} {z z' : ℕ → ℂ} (h : Transformed fft q z r)
    (hz : ∀ k < 2 ^ q, z k = z' k) : Transformed fft q z' r := by
  obtain ⟨hpi, ⟨v, hv, hvz⟩, g, hg, hmax⟩ := h
  have hhalf : ∀ k < 2 ^ q / 2 + 1, z k = z' k := fun k hk => by
    have := Nat.two_pow_pos q
    exact hz k (by omega)
  refine ⟨hpi, ⟨v, hv, hvz.congr hz⟩, g, hg, hmax.congr fun a ha b hb => ?_⟩
  rw [hhalf a ha, hhalf b hb]

theorem ends_transform {fft : CFourier ℝ} (hpi : fft.pi = (create : CFourier ℝ).pi) {sign : ℤ}
    (hsign : Odd sign) {q : ℕ} (hq : q ≤ 30) {N : ℕ} {s : ℕ → ℝ} {data : Arr ℕ ℝ}
    (hs : ∀ n, n < N → n < 2 ^ q → data.Holds n (s n)) :
    Ends (fft.complexFFT data N (2 ^ q) sign) (Transformed fft q (transform sign q N s)) := by
  refine (ends_complexFFT fft sign hq hs).mono fun r hr => ?_
  obtain ⟨z, hz, hdft⟩ := hr
  exact hz.congr fun k hk =>
    (hdft (pi_create hpi) hsign k hk).trans (dft_complexSamples sign q N s k)

/-- **`ComplexFFT` is the discrete Fourier transform** of the samples padded to `2 ^ q` points, for
every odd sign, and the fundamental frequency is that of the first greatest modulus of its first
half: its number, on at most `2 ^ 25` points. -/
theorem complexFFT_dft (fft : CFourier ℝ) (hpi : fft.pi = (create : CFourier ℝ).pi) (sign : ℤ)
    (hsign : Odd sign) (q N : ℕ) (hq : q ≤ 30) (s : ℕ → ℝ) (data : Arr ℕ ℝ)
    (hs : ∀ n, n < N → n < 2 ^ q → data.Holds n (s n)) :
    Ends (fft.complexFFT data N (2 ^ q) sign) fun r => r.pi = fft.pi ∧
      ∃ v g, r.vector = some v ∧ r.fundamentalFrequency = some (toFloat (2 * g) / 2) ∧
        (q ≤ 25 → r.fundamentalFrequency = some g) ∧
        (∀ k < 2 ^ q, v.Holds (2 * k) (transform sign q N s k).re ∧
          v.Holds (2 * k + 1) (transform sign q N s k).im) ∧
        g ≤ 2 ^ q / 2 ∧ (∀ k ≤ 2 ^ q / 2, ‖transform sign q N s k‖ ≤ ‖transform sign q N s g‖) ∧
        ∀ k < g, ‖transform sign q N s k‖ < ‖transform sign q N s g‖ := by
  refine (ends_transform hpi hsign hq hs).mono fun r hr => ?_
  obtain ⟨hrpi, ⟨v, hv, hz⟩, g, hg, hmax⟩ := hr
  refine ⟨hrpi, v, g, hv, hg, fun hq => ?_, fun k hk => ⟨?_, ?_⟩, Nat.lt_succ_iff.1 hmax.lt,
    fun k hk => hmax.le k (Nat.lt_succ_of_le hk), hmax.first⟩
  · have := Nat.pow_le_pow_right Nat.two_pos hq
    have := hmax.lt
    rw [hg, frequence_eq (by omega)]
  · exact Arr.get_eq_ok.1 (hz.get_re hk)
  · exact Arr.get_eq_ok.1 (hz.get_im hk)

/-- Three samples, padded to eight points. -/
theorem complexFFT_dft_padded :
    Ends ((create : CFourier ℝ).complexFFT (Arr.ofFn 3 fun _ => 1) 3 (2 ^ 3) 1) fun r =>
      r.pi = (create : CFourier ℝ).pi ∧
      ∃ v g, r.vector = some v ∧ r.fundamentalFrequency = some (toFloat (2 * g) / 2) ∧
        (3 ≤ 25 → r.fundamentalFrequency = some g) ∧
        (∀ k < 2 ^ 3, v.Holds (2 * k) (transform 1 3 3 (fun _ => 1) k).re ∧
          v.Holds (2 * k + 1) (transform 1 3 3 (fun _ => 1) k).im) ∧
        g ≤ 2 ^ 3 / 2 ∧
        (∀ k ≤ 2 ^ 3 / 2, ‖transform 1 3 3 (fun _ => 1) k‖ ≤ ‖transform 1 3 3 (fun _ => 1) g‖) ∧
        ∀ k < g, ‖transform 1 3 3 (fun _ => 1) k‖ < ‖transform 1 3 3 (fun _ => 1) g‖ :=
  complexFFT_dft create rfl 1 odd_one 3 3 (by decide) (fun _ => 1) _ fun _ hn _ =>
    Arr.holds_ofFn _ hn

/-! ## The two transforms of the repository -/

/-- The sign that `ComplexFFT` takes for a direction of `FFT`. -/
def directionSign (dir : ℤ) : ℤ := if dir = 1 then -1 else 1

theorem fourierRoot_direction (dir : ℤ) (q : ℕ) :
    fourierRoot (directionSign dir) q = fftRoot dir q := by
  have hsign : ((directionSign dir : ℤ) : ℝ) = fftSign dir := by
    unfold directionSign fftSign
    split <;> simp
  rw [fourierRoot, fftRoot, hsign]

theorem odd_direction (dir : ℤ) : Odd (directionSign dir) := by
  unfold directionSign
  split
  · exact odd_neg_one
  · exact odd_one

/-- **`ComplexFFT` and `FFT` agree**: on the same samples, in both directions and for every number
of points, cell `2 k` and cell `2 k + 1` hold what `FFT` leaves in `x[k]` and `y[k]`, before the
division by the number of points that ends the forward transform. -/
theorem complexFFT_fft (fft : CFourier ℝ) (hpi : fft.pi = (create : CFourier ℝ).pi) (dir : ℤ)
    (q N : ℕ) (hq : q ≤ 30) (s : ℕ → ℝ) (data : Arr ℕ ℝ)
    (hs : ∀ n, n < N → n < 2 ^ q → data.Holds n (s n)) :
    Ends (do
      let r ← fft.complexFFT data N (2 ^ q) (if dir = 1 then -1 else 1)
      let xy ← Frame.fft dir q (Arr.ofFn (2 ^ q) (padded N s)) (Arr.ofFn (2 ^ q) fun _ => 0)
      pure (r, xy)) fun p => ∃ v, p.1.vector = some v ∧ ∀ k < 2 ^ q, ∃ a b : ℝ,
        p.2.1.Holds k a ∧ p.2.2.Holds k b ∧
        v.Holds (2 * k) ((if dir = 1 then 2 ^ q else 1) * a) ∧
        v.Holds (2 * k + 1) ((if dir = 1 then 2 ^ q else 1) * b) := by
  refine (ends_complexFFT fft (directionSign dir) hq hs).bind fun r hr => ?_
  obtain ⟨z, ⟨-, ⟨v, hv, hz⟩, -⟩, hdft⟩ := hr
  have hpoints : Points (2 ^ q) (complexSamples N s)
      (Arr.ofFn (2 ^ q) (padded N s), Arr.ofFn (2 ^ q) fun _ => 0) := by
    refine ⟨(Arr.is_ofFn _ _).congr fun i _ => ?_, (Arr.is_ofFn _ _).congr fun i _ => ?_⟩
    · exact (Complex.ofReal_re _).symm
    · exact (Complex.ofReal_im _).symm
  refine (ends_fft dir q le_rfl hpoints).bind fun xy hxy => Ends.ok ⟨v, hv, fun k hk => ?_⟩
  obtain ⟨z', hz', hfft, -⟩ := hxy
  have hk' := hdft (pi_create hpi) (odd_direction dir) k hk
  rw [fourierRoot_direction] at hk'
  have heq : z k = ((if dir = 1 then 2 ^ q else 1 : ℝ) : ℂ) * z' k := by
    rw [hk', hfft k hk]
    split
    · push_cast
      rw [mul_div_cancel₀ _ (pow_ne_zero q two_ne_zero)]
    · rw [Complex.ofReal_one, one_mul]
  refine ⟨_, _, hz'.re.holds k hk, hz'.im.holds k hk, ?_, ?_⟩
  · have := Arr.get_eq_ok.1 (hz.get_re hk)
    rwa [heq, Complex.re_ofReal_mul] at this
  · have := Arr.get_eq_ok.1 (hz.get_im hk)
    rwa [heq, Complex.im_ofReal_mul] at this

theorem complexFFT_fft_padded :
    Ends (do
      let r ← (create : CFourier ℝ).complexFFT (Arr.ofFn 3 fun _ => 1) 3 (2 ^ 3)
        (if (1 : ℤ) = 1 then -1 else 1)
      let xy ← Frame.fft 1 3 (Arr.ofFn (2 ^ 3) (padded 3 fun _ => 1))
        (Arr.ofFn (2 ^ 3) fun _ => 0)
      pure (r, xy)) fun p => ∃ v, p.1.vector = some v ∧ ∀ k < 2 ^ 3, ∃ a b : ℝ,
        p.2.1.Holds k a ∧ p.2.2.Holds k b ∧
        v.Holds (2 * k) ((if (1 : ℤ) = 1 then 2 ^ 3 else 1) * a) ∧
        v.Holds (2 * k + 1) ((if (1 : ℤ) = 1 then 2 ^ 3 else 1) * b) :=
  complexFFT_fft create rfl 1 3 3 (by decide) (fun _ => 1) _ fun _ hn _ => Arr.holds_ofFn _ hn

end TlVoix
