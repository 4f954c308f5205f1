import TlVoix.Cpp.Proof.Acoustic
import TlVoix.Cpp.Proof.FilterBank
import TlVoix.Cpp.Proof.Tones
import Mathlib.Analysis.Real.Pi.Bounds

/-!
# Silence and pure tones

* `energy_tone`: the energy of a tone in a band is its amplitude times the weight of its bin.
* `distance_silence`: how far a frame is from a silence; the longer, the farther
  (`strictMono_distance`), as for the tone of bin 1 (`gap_tone_pos`).
-/

namespace TlVoix

open Checked Finset Hat

namespace Acoustic

/-! ## Tones -/

theorem fftRoot_reverse (q : ℕ) : fftRoot (-1) q = fourierRoot 1 q := by
  rw [fftRoot, fourierRoot, show fftSign (-1) = 1 from rfl, Int.cast_one]

/-- The bins of a tone, in the first half of the spectrum. -/
theorem spectrum_tone {f k : ℕ} (hf : 0 < f) (hf128 : f < 128) (hk : k ≤ 128) (a φ : ℝ) :
    spectrum (tone 8 f a φ) 8 k = if k = f then |a| * 128 else 0 := by
  have hdft : dft (fftRoot (-1) 8) (2 ^ 8) (fun j => (tone 8 f a φ j : ℂ)) k =
      if k = f then a / 2 * 2 ^ 8 * Complex.exp (-(((1 : ℤ) : ℝ) * φ : ℝ) * Complex.I) else 0 := by
    have hsum := sum_tone_half (.inl rfl) 8 hf (by omega) (show 2 * k ≤ 2 ^ 8 by omega) a φ
    push_cast at hsum ⊢
    rw [← hsum, fftRoot_reverse]
    refine sum_congr rfl fun j _ => ?_
    have := exp_factor 1 8 k j
    push_cast at this
    rw [this, one_mul, zpow_natCast, ← pow_mul, Nat.mul_comm k j]
  rw [spectrum, hdft]
  split
  · rw [norm_mul, ← Complex.ofReal_neg, Complex.norm_exp_ofReal_mul_I, mul_one, norm_mul, norm_div,
      Complex.norm_real, Real.norm_eq_abs]
    norm_num
    ring
  · exact norm_zero

/-- **The energy of a tone** in a band is its amplitude times the weight of its bin. -/
theorem energy_tone {f l : ℕ} (hf : 0 < f) (hf128 : f < 128) (h1 : 1 ≤ l) (h25 : l ≤ 25)
    (a φ : ℝ) : energy (tone 8 f a φ) l =
      |a| * 128 * |Libmfcc.getFilterParameter 16000 256 f l| := by
  have hterm : ∀ i ∈ range 256, binEnergy (spectrum (tone 8 f a φ) 8) 16000 256 l i =
      if i = f then |a| * 128 * |Libmfcc.getFilterParameter 16000 256 i l| else 0 := by
    intro i hi
    rw [binEnergy, abs_mul]
    rcases Nat.lt_or_ge 128 i with h128 | h128
    · -- the bank does not weigh the second half
      have hw : Libmfcc.getFilterParameter 16000 256 i l = (0 : ℝ) := by
        by_contra hw
        have := (hears_iff (mem_range.1 hi)).1 ⟨l, h1, h25, hw⟩
        omega
      rw [hw, abs_zero, mul_zero, if_neg (by omega)]
    · rw [spectrum_tone hf hf128 h128]
      split
      · rw [abs_mul, abs_abs, abs_of_pos (by norm_num : (0 : ℝ) < 128)]
      · rw [abs_zero, zero_mul]
  rw [energy, sum_congr rfl hterm, sum_ite_eq', if_pos (mem_range.2 (by omega))]

/-- The weight of bin 1 in the first band. -/
theorem getFilterParameter_one_one : Libmfcc.getFilterParameter 16000 256 1 1 = (0.01395 : ℝ) := by
  have hhertz : hertz 16000 256 1 = 62 := rfl
  have h0 : Libmfcc.getCenterFrequency (1 - 1) = (0 : ℝ) := getCenterFrequency_zero
  have h1 : Libmfcc.getCenterFrequency 1 = (200 * (1 : ℕ) / 3 : ℝ) :=
    getCenterFrequency_low (by decide)
  rw [getFilterParameter_eq 16000 256 1 le_rfl (by decide), hhertz, hats, h0, h1,
    hat_rising (by norm_num) (by norm_num), ramp, Libmfcc.getMagnitudeFactor, if_pos (by decide)]
  norm_num

/-- The other bands do not weigh it. -/
theorem getFilterParameter_one {l : ℕ} (h2 : 2 ≤ l) (h48 : l ≤ 48) :
    Libmfcc.getFilterParameter 16000 256 1 l = (0 : ℝ) := by
  have hhertz : hertz 16000 256 1 = 62 := rfl
  have h1 : Libmfcc.getCenterFrequency 1 = (200 * (1 : ℕ) / 3 : ℝ) :=
    getCenterFrequency_low (by decide)
  have hle : Libmfcc.getCenterFrequency 1 ≤ (Libmfcc.getCenterFrequency (l - 1) : ℝ) :=
    strictMono_getCenterFrequency.monotone (by omega)
  rw [getFilterParameter_eq 16000 256 1 (by omega) h48, hhertz,
    hats_of_le strictMono_getCenterFrequency (by omega), zero_mul]
  refine le_trans ?_ hle
  rw [h1]
  norm_num

/-- The tone of bin 1 has a first coefficient. -/
theorem cepstrum_tone_ne_zero : cepstrum (tone 8 1 1 0) 1 ≠ 0 := by
  have hlow : energy (tone 8 1 1 0) 1 = 1.7856 := by
    rw [energy_tone one_pos (by decide) le_rfl (by decide), getFilterParameter_one_one]
    norm_num
  have hrest : ∀ l ∈ Ico 2 26, Libmfcc.logAdapte (energy (tone 8 1 1 0) l) ^ 2 *
      LibM.cos (((1 : ℕ) : ℝ) * Libmfcc.pi / (25 : ℕ) * ((l : ℝ) - 0.5)) = 0 := by
    intro l hl
    obtain ⟨h2, h26⟩ := mem_Ico.1 hl
    rw [energy_tone one_pos (by decide) (by omega) (by omega),
      getFilterParameter_one h2 (by omega), abs_zero, mul_zero, Libmfcc.logAdapte,
      if_neg (lt_irrefl 0), sq, zero_mul, zero_mul]
  have hcos : 0 < Real.cos (((1 : ℕ) : ℝ) * Libmfcc.pi / (25 : ℕ) * (((1 : ℕ) : ℝ) - 0.5)) := by
    refine Real.cos_pos_of_mem_Ioo ⟨?_, ?_⟩
    · have := Real.pi_pos
      unfold Libmfcc.pi
      norm_num
      linarith
    · have := Real.pi_gt_three
      unfold Libmfcc.pi
      norm_num
      linarith
  have hlog : 0 < Real.log 1.7856 := Real.log_pos (by norm_num)
  have hnorm : Libmfcc.normalizationFactor 25 1 ≠ (0 : ℝ) := by
    rw [Libmfcc.normalizationFactor, if_neg one_ne_zero]
    exact (Real.sqrt_pos.2 (by norm_num)).ne'
  rw [cepstrum, sum_eq_sum_Ico_succ_bot (by decide), sum_eq_zero hrest, add_zero, hlow,
    Libmfcc.logAdapte, if_pos (by norm_num)]
  exact mul_ne_zero hnorm (mul_ne_zero (pow_ne_zero 2 hlog.ne') hcos.ne')

/-! ## Silence -/

theorem cepstrum_silence (m : ℕ) : cepstrum (fun _ => 0) m = 0 := by
  have henergy : ∀ l, energy (fun _ => 0) l = 0 := by
    intro l
    refine sum_eq_zero fun i _ => ?_
    rw [binEnergy, spectrum_eq_zero (q := 8) (fun _ _ => rfl) le_rfl, zero_mul, abs_zero]
  rw [cepstrum, sum_eq_zero, mul_zero]
  intro l _
  rw [henergy, Libmfcc.logAdapte, if_neg (lt_irrefl 0), sq, zero_mul, zero_mul]

theorem trace_silence (n : ℕ) : trace (List.replicate (128 * (n + 2)) 0) =
    List.replicate (n + 1) (feature fun _ => 0) := by
  have hwindow : ∀ t, window (List.replicate (128 * (n + 2)) 0) t = fun _ => 0 := by
    intro t
    funext u
    rw [window, List.getD_eq_getElem?_getD, List.getElem?_replicate]
    split <;> rfl
  have hlen : 128 * (n + 2) / 128 - 1 = n + 1 := by omega
  rw [trace, List.length_replicate, hlen]
  simp only [hwindow, List.map_const', List.length_range]

theorem gap_eq (f g : Vector ℝ parameters.nbMfcc) :
    acoustic.gap f g = ∑ i, |f.get i - g.get i| := rfl

theorem gap_nonneg (f g : Vector ℝ parameters.nbMfcc) : 0 ≤ acoustic.gap f g := by
  rw [gap_eq]
  exact sum_nonneg fun i _ => abs_nonneg (f.get i - g.get i)

theorem gap_pos {f g : Vector ℝ parameters.nbMfcc} (h : f ≠ g) : 0 < acoustic.gap f g := by
  refine lt_of_le_of_ne (gap_nonneg f g) fun h0 => h (Vector.ext fun i hi => ?_)
  rw [gap_eq, eq_comm,
    sum_eq_zero_iff_of_nonneg fun i _ => abs_nonneg (f.get i - g.get i)] at h0
  exact sub_eq_zero.1 (abs_eq_zero.1 (h0 ⟨i, hi⟩ (mem_univ _)))

/-- The tone of bin 1 is not silence. -/
theorem gap_tone_pos : 0 < acoustic.gap (feature (tone 8 1 1 0)) (feature fun _ => 0) := by
  have hfirst : ∀ s : ℕ → ℝ, getElem (feature s) 0 (by decide) = cepstrum s 1 := by
    intro s
    rw [feature, Vector.getElem_ofFn]
    rfl
  refine gap_pos fun h => cepstrum_tone_ne_zero ?_
  rw [← hfirst, h, hfirst, cepstrum_silence]

/-- **How far a frame is from a silence** of `n + 1` frames. -/
theorem distance_silence {x : List ℝ} {s : ℕ → ℝ} (hx : trace x = [feature s]) (n : ℕ) :
    acoustic.distance x (List.replicate (128 * (n + 2)) 0) =
      (n + 1 : ℕ) * acoustic.gap (feature s) (feature fun _ => 0) / (n + 2 : ℕ) :=
  Recogniser.distance_replicate hx (trace_silence n) (gap_nonneg _ _)

theorem strictMono_distance {a : ℝ} (ha : 0 < a) :
    StrictMono fun n : ℕ => (n + 1 : ℕ) * a / (n + 2 : ℕ) := by
  refine strictMono_nat_of_lt_succ fun n => ?_
  rw [div_lt_div_iff₀ (by positivity) (by positivity)]
  push_cast
  nlinarith

end Acoustic

end TlVoix
