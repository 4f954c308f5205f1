import TlVoix.Cpp.Proof.Fft
import TlVoix.Cpp.Proof.Libmfcc

/-!
# The memory accesses of `set_mfcc`

`set_mfcc` transforms 256 points whatever the length of the frame, and the filter bank reads the
spectrum by blocks of sixteen cells.

* `ends_fft2`: on frames of at least 256 samples, the array it gives to `GetCoefficient`.
* `yields_fft`, `yields_setMfcc`: on shorter frames the transform leaves its arrays, and on frames
  of most lengths the last block of `GetCoefficient` does.
-/

namespace TlVoix

open Checked

/-! ## The transform on short frames -/

section
variable {K : Type}

theorem yields_swap (i j : ℕ) (x y : Arr ℕ K) :
    Yields (Frame.fft.swap i j (x, y)) fun xy => xy.1.dom = x.dom := by
  refine (Arr.yields_get x i).bind fun _ _ => (Arr.yields_get y i).bind fun _ _ =>
    (Arr.yields_get x j).bind fun _ _ => (Arr.yields_set x i _).bind fun x1 hx1 => ?_
  refine (Arr.yields_get y j).bind fun _ _ => (Arr.yields_set y i _).bind fun _ _ =>
    (Arr.yields_set x1 j _).bind fun x2 hx2 => (Arr.yields_set _ j _).bind fun _ _ => ?_
  exact Yields.ok (by rw [Arr.dom_set hx2.2, Arr.dom_set hx1.2])

theorem yields_bitReversal (n : ℕ) (x y : Arr ℕ K) :
    Yields (Frame.fft.bitReversal n x y) fun xy => xy.1.dom = x.dom := by
  refine Yields.bind (Yields.forUp (fun _ s => s.2.1.dom = x.dom) (Nat.zero_le _) rfl ?_)
    fun r hr => Yields.ok hr.2
  intro i t _ _ hdom
  obtain ⟨j, x', y'⟩ := t
  have hdom : x'.dom = x.dom := hdom
  by_cases hij : i < j
  · simp only [if_pos hij]
    exact (yields_swap i j x' y').bind fun xy hxy => (Yields.self _).bind fun _ _ =>
      Yields.ok (hxy.trans hdom)
  · simp only [if_neg hij, pure_eq_ok, ok_bind]
    exact (Yields.self _).bind fun _ _ => Yields.ok hdom

variable [Field K]

/-- A butterfly needs its second point. -/
theorem yields_butterfly (u1 u2 : K) (i i1 : ℕ) (x y : Arr ℕ K) :
    Yields (Frame.fft.butterfly u1 u2 i i1 (x, y)) fun xy =>
      xy.1.dom = x.dom ∧ x.dom i1 = true := by
  refine (Arr.yields_get x i1).bind fun _ hx => (Arr.yields_get y i1).bind fun _ _ =>
    (Arr.yields_get y i1).bind fun _ _ => (Arr.yields_get x i1).bind fun _ _ => ?_
  refine (Arr.yields_get x i).bind fun _ _ => (Arr.yields_set x i1 _).bind fun x1 hx1 =>
    (Arr.yields_get y i).bind fun _ _ => (Arr.yields_set y i1 _).bind fun y1 _ => ?_
  refine (Arr.yields_get x1 i).bind fun _ _ => (Arr.yields_set x1 i _).bind fun x2 hx2 =>
    (Arr.yields_get y1 i).bind fun _ _ => (Arr.yields_set y1 i _).bind fun _ _ => ?_
  exact Yields.ok ⟨by rw [Arr.dom_set hx2.2, Arr.dom_set hx1.2], hx.1⟩

/-- The first stage needs every point. -/
theorem yields_firstStage (n : ℕ) (c1 c2 : K) (x y : Arr ℕ K) :
    Yields (Frame.fft.stage n 1 c1 c2 (x, y)) fun _ =>
      ∀ i < n, i % 2 = 0 → x.dom (i + 1) = true := by
  refine Yields.bind (Yields.forUp (fun j s => (j = 0 → s.2.2.1.dom = x.dom) ∧
    (0 < j → ∀ i < n, i % 2 = 0 → x.dom (i + 1) = true)) (Nat.zero_le _)
    ⟨fun _ => rfl, fun h => absurd h (Nat.lt_irrefl 0)⟩ ?_) fun r hr =>
      Yields.ok (hr.2.2 Nat.one_pos)
  intro j t _ hj h
  obtain ⟨u1, u2, x', y'⟩ := t
  obtain rfl : j = 0 := by omega
  have hdom : x'.dom = x.dom := h.1 rfl
  refine Yields.bind (Yields.forStep (fun i xy => i % 2 = 0 ∧ xy.1.dom = x.dom ∧
    ∀ i' < i, i' % 2 = 0 → x.dom (i' + 1) = true)
    ⟨rfl, hdom, fun i' hi' => absurd hi' (Nat.not_lt_zero i')⟩ ?_) fun r hr => Yields.ok
      ⟨fun h => absurd h (Nat.succ_ne_zero 0),
        fun _ i hi => hr.2.2.2 i (Nat.lt_of_lt_of_le hi hr.1)⟩
  intro i xy _ _ h
  obtain ⟨xi, yi⟩ := xy
  obtain ⟨hi, hdom, hread⟩ := h
  refine (yields_butterfly u1 u2 i (i + 1) xi yi).mono fun xy hxy =>
    ⟨by omega, hxy.1.trans hdom, fun i' hi' heven => ?_⟩
  rcases Nat.lt_or_ge i' i with hlt | hge
  · exact hread i' hlt heven
  · obtain rfl : i' = i := by omega
    rw [← hdom]
    exact hxy.2

variable [LibM K]

/-- The transform of `2 ^ m` points needs as many cells. -/
theorem yields_fft (dir : ℤ) {m : ℕ} (hm : 1 ≤ m) (x y : Arr ℕ K) :
    Yields (Frame.fft dir m x y) fun _ => x.dom (2 ^ m - 1) = true := by
  refine Yields.bind (Yields.forUp (fun i n => n = 2 ^ i) (Nat.zero_le m) rfl fun i n _ _ hn =>
    Yields.ok (hn ▸ (pow_succ 2 i).symm)) ?_
  intro s hr
  obtain ⟨_, n⟩ := s
  obtain ⟨-, hn⟩ := hr
  obtain rfl : n = 2 ^ m := hn
  refine (yields_bitReversal (2 ^ m) x y).bind ?_
  intro xy hdom
  refine Yields.bind (Yields.forUp (fun l s => (l = 0 → s.2.2.1 = 1 ∧ s.2.2.2 = xy) ∧
    (0 < l → x.dom (2 ^ m - 1) = true)) (Nat.zero_le m)
    ⟨fun _ => ⟨rfl, rfl⟩, fun h => absurd h (Nat.lt_irrefl 0)⟩ ?_) fun r hr _ _ => hr.2.2 hm
  intro l s _ _ h
  obtain ⟨c1, c2, l2, x', y'⟩ := s
  obtain ⟨hfirst, hrest⟩ := h
  rcases Nat.eq_zero_or_pos l with rfl | hl
  · obtain ⟨rfl, rfl⟩ : l2 = 1 ∧ (x', y') = xy := hfirst rfl
    refine (yields_firstStage (2 ^ m) c1 c2 x' y').bind fun _ hread => Yields.ok
      ⟨fun h => absurd h (Nat.succ_ne_zero 0), fun _ => ?_⟩
    -- the last point is the partner of the last even one
    have heven : 2 ^ m % 2 = 0 := Nat.mod_eq_zero_of_dvd (dvd_pow_self 2 (by omega))
    have h2 : 2 ≤ 2 ^ m := Nat.le_self_pow (by omega) 2
    have := hread (2 ^ m - 2) (by omega) (by omega)
    rw [show 2 ^ m - 2 + 1 = 2 ^ m - 1 by omega, show x'.dom = x.dom from hdom] at this
    exact this
  · exact (Yields.self _).bind fun _ _ => Yields.ok
      ⟨fun h => absurd h (Nat.succ_ne_zero l), fun _ => hrest hl⟩

end

/-! ## `set_mfcc` -/

/-- The expression under the square root of `set_mfcc`. -/
theorem modulus (z : ℂ) : LibM.sqrt (z.re * z.re + z.im * z.im) = ‖z‖ := by
  rw [Complex.norm_def, Complex.normSq_apply]
  rfl

/-- The first 256 cells are the spectrum of the first 256 samples; the cells after them are the
samples themselves, in absolute value. -/
theorem ends_fft2 {signal : Arr ℕ ℝ} {s : ℕ → ℝ} {taille : ℕ}
    (hs : ∀ j < taille, signal.Holds j (s j)) (h256 : 256 ≤ taille) :
    Ends (Frame.setMfcc.fft2 signal taille) fun b =>
      (∀ k < 256, b.Holds k ‖dft (fftRoot (-1) 8) 256 (fun j => (s j : ℂ)) k‖) ∧
      ∀ k < taille, 256 ≤ k → b.Holds k |s k| := by
  refine Ends.bind (Ends.forUp (fun i p => p.1.Fills taille i s ∧ p.2.Fills taille i fun _ => 0)
    (Nat.zero_le _) ⟨Arr.fills_fresh taille s, Arr.fills_fresh taille _⟩ ?_) ?_
  · intro i t _ hi h
    obtain ⟨fft, dataIm⟩ := t
    obtain ⟨hre, him⟩ := h
    rw [Arr.get_ok (hs i hi)]
    exact (hre.ends_set hi).bind fun fft' hre' => (him.ends_set hi).bind fun im' him' =>
      Ends.ok ⟨hre', him'⟩
  intro t h
  obtain ⟨_, fft, dataIm⟩ := t
  obtain ⟨-, hre, him⟩ := h
  have hpoints : Points taille (fun j => (s j : ℂ)) (fft, dataIm) := ⟨hre.is, him.is⟩
  refine (ends_fft (-1) 8 h256 hpoints).bind ?_
  intro t h
  obtain ⟨fft, dataIm⟩ := t
  obtain ⟨z, hz, hdft, hrest⟩ := h
  refine Ends.bind (Ends.forUp (fun i p =>
    p.1.Is taille (Arr.replaced i (fun k => ‖z k‖) fun k => (z k).re) ∧
    p.2.Fills taille i fun k => ‖z k‖) (Nat.zero_le _)
    ⟨by rw [Arr.replaced_zero]; exact hz.re, Arr.fills_fresh taille _⟩ ?_) ?_
  · intro i t _ hi h
    obtain ⟨fft, fft2⟩ := t
    obtain ⟨hf, hf2⟩ := h
    have hre : fft.get i = .ok (z i).re := by
      rw [hf.get_ok hi, Arr.replaced_self]
    simp only [hre, hz.im.get_ok hi, ok_bind, modulus (z i)]
    refine (hf.ends_set hi ‖z i‖).bind fun fft' hf' => ?_
    rw [hf'.get_ok hi, Function.update_self]
    rw [Arr.update_replaced i fun k => ‖z k‖] at hf'
    exact (hf2.ends_set hi).bind fun fft2' hf2' => Ends.ok ⟨hf', hf2'⟩
  · intro r hr
    obtain ⟨_, _, fft2⟩ := r
    obtain ⟨-, -, hf2⟩ := hr
    have hp := hf2.holds
    refine Ends.ok ⟨fun k hk => ?_, fun k hk h => ?_⟩
    · have := hp k (by omega)
      rw [hdft k hk] at this
      exact this
    · have := hp k hk
      rw [hrest k h, Complex.norm_real, Real.norm_eq_abs] at this
      exact this

/-- The coefficients that `set_mfcc` uses. -/
theorem exists_coefficients {fft2 : Arr ℕ ℝ} {taille nbMfcc : ℕ} (h1 : 1 ≤ taille)
    (h16 : nbMfcc = 1 ∨ taille % 16 ≤ 1) (hfft2 : ∀ i < taille, fft2.Assigned i) :
    ∃ c : ℕ → ℝ, ∀ m, 1 ≤ m → Libmfcc.getCoefficient fft2 16000 nbMfcc taille m = .ok (c m) := by
  have hex : ∀ m, ∃ c : ℝ, 1 ≤ m →
      Libmfcc.getCoefficient fft2 16000 nbMfcc taille m = .ok c := by
    intro m
    by_cases hm : 1 ≤ m
    · have hread : m < nbMfcc → ∀ i < binsRead taille, fft2.Assigned i := fun hlt i hi =>
        hfft2 i (Nat.lt_of_lt_of_le hi (binsRead_le h1 (h16.resolve_left (by omega))))
      obtain ⟨c, hc, -⟩ := ends_getCoefficient 16000 hread
      exact ⟨c, fun _ => hc⟩
    · exact ⟨0, fun h => absurd h hm⟩
  choose c hc using hex
  exact ⟨c, hc⟩

section
variable {K : Type} [Field K] [LibM K]

theorem yields_fft2 (signal : Arr ℕ K) (taille : ℕ) :
    Yields (Frame.setMfcc.fft2 signal taille) fun b =>
      255 < taille ∧ ∀ i, b.dom i = true → i < taille := by
  refine Yields.bind (Yields.forUp (fun _ p => p.1.dom = (Arr.fresh taille : Arr ℕ K).dom)
    (Nat.zero_le _) rfl ?_) ?_
  · intro i s _ _ hd
    obtain ⟨fft, dataIm⟩ := s
    refine (Arr.yields_get signal i).bind fun _ _ => (Arr.yields_set fft i _).bind fun _ h =>
      (Arr.yields_set dataIm i _).bind fun _ _ => Yields.ok ((Arr.dom_set h.2).trans hd)
  intro s hr
  obtain ⟨_, fft, dataIm⟩ := s
  obtain ⟨-, hd⟩ := hr
  have hd : fft.dom = (Arr.fresh taille : Arr ℕ K).dom := hd
  refine (yields_fft (-1) (m := 8) (by decide) fft dataIm).bind ?_
  intro s h255
  obtain ⟨fft', dataIm'⟩ := s
  rw [hd, Arr.dom_fresh] at h255
  refine Yields.bind (Yields.forUp (fun _ p => p.2.dom = (Arr.fresh taille : Arr ℕ K).dom)
    (Nat.zero_le _) rfl ?_) ?_
  · intro i s _ _ hd
    obtain ⟨fft, fft2⟩ := s
    refine (Arr.yields_get _ i).bind fun _ _ => (Arr.yields_get _ i).bind fun _ _ =>
      (Arr.yields_get _ i).bind fun _ _ => (Arr.yields_get _ i).bind fun _ _ => ?_
    refine (Arr.yields_set _ i _).bind fun _ _ => (Arr.yields_get _ i).bind fun _ _ =>
      (Arr.yields_set _ i _).bind fun _ h => Yields.ok ((Arr.dom_set h.2).trans hd)
  · intro s hr
    obtain ⟨_, _, fft2⟩ := s
    obtain ⟨-, hd⟩ := hr
    refine Yields.ok ⟨h255, fun i hi => ?_⟩
    have hi : fft2.dom i = true := hi
    rw [show fft2.dom = _ from hd, Arr.dom_fresh] at hi
    exact hi

variable [LinearOrder K]

/-- A run of `set_mfcc` that does not fault has 256 samples at least. With more than one coefficient
the length is a multiple of 16, or one more, and the cell after the two equal halves of `mfcc`
exists. -/
theorem yields_setMfcc (signal mfcc : Arr ℕ K) {taille nbMfcc : ℕ} (hint : taille < 2 ^ 31) :
    Yields (Frame.setMfcc signal taille nbMfcc mfcc) fun _ => 256 ≤ taille ∧
      (1 < nbMfcc → taille % 16 ≤ 1 ∧ mfcc.dom (2 * (nbMfcc / 2)) = true) := by
  refine (yields_fft2 signal taille).bind fun fft2 ⟨h255, hdom⟩ => ?_
  refine (Yields.self _).bind fun c hc => (Arr.yields_set mfcc 0 c).bind fun mfcc1 h1 => ?_
  -- the last iteration writes the cell `2 * (nbMfcc / 2)`
  refine Yields.bind (Yields.forUp (fun coeff b => b.dom = mfcc.dom ∧
    (2 < coeff → mfcc.dom (coeff - 1 + nbMfcc / 2 - 1) = true)) (by omega)
    ⟨Arr.dom_set h1.2, fun h => absurd h (Nat.lt_irrefl 2)⟩ ?_) ?_
  · intro coeff b _ _ h
    obtain ⟨hb, -⟩ := h
    refine (Yields.self _).bind fun _ _ => (Arr.yields_set b _ _).bind fun b1 hb1 =>
      (Arr.yields_get b1 _).bind fun _ _ => (Arr.yields_get b1 _).bind fun _ _ =>
      (Arr.yields_set b1 _ _).mono fun b2 hb2 => ?_
    have hdom1 : b1.dom = mfcc.dom := (Arr.dom_set hb1.2).trans hb
    refine ⟨(Arr.dom_set hb2.2).trans hdom1, fun _ => ?_⟩
    rw [← hdom1]
    exact hb2.1
  · intro r hr
    obtain ⟨_, b⟩ := r
    obtain ⟨-, -, hlast⟩ := hr
    refine Yields.ok ⟨h255, fun hnb => ⟨?_, ?_⟩⟩
    · have hread := yields_getCoefficient fft2 hnb c hc
      rw [u32_pred (by omega), Nat.mod_eq_of_lt (by omega)] at hread
      -- the last block begins at the greatest multiple of 16 below `taille - 1`
      have := hdom _ (hread (16 * ((taille - 2) / 16)) (by omega) (Nat.mul_mod_right _ _) 15
        (by decide))
      omega
    · have := hlast (by omega)
      rw [show nbMfcc / 2 + 2 - 1 + nbMfcc / 2 - 1 = 2 * (nbMfcc / 2) by omega] at this
      exact this

end

end TlVoix
