import TlVoix.Cpp.Proof.Features
import TlVoix.Cpp.Proof.Spectrum
import TlVoix.Lib.Recogniser
import Mathlib.Data.List.GetD

/-!
# What a recording sounds like

The recogniser of the program, as functions of the samples: overlapping frames of 256 samples, the
modulus of the transform of each one, the energies of the 25 bands, the cosine transform of their
squared logarithms, and the 25 features: weighted coefficients, and differences of successive ones.

* `acoustic`: the recogniser.
* `feature_congr`: the features of a frame depend on the spectrum of its 256 samples.
* `Alike.trace`: two recordings sound the same if they have the same whole half frames, or opposite
  ones.
* `trace_reverse`: a recording of whole half frames, read from its end, has its trace read from the
  end.
-/

namespace TlVoix

open Checked Finset Frame.setMfcc

namespace Acoustic

/-- Sample `u` of frame `t`. -/
def window (x : List ℝ) (t u : ℕ) : ℝ := x.getD (128 * t + u) 0

/-- The energy of the frame `s` in band `l`. -/
noncomputable def energy (s : ℕ → ℝ) (l : ℕ) : ℝ :=
  ∑ i ∈ range 256, binEnergy (spectrum s 8) 16000 256 l i

/-- Coefficient `m` of the frame `s`. -/
noncomputable def cepstrum (s : ℕ → ℝ) (m : ℕ) : ℝ :=
  Libmfcc.normalizationFactor 25 m * ∑ l ∈ Ico 1 26, Libmfcc.logAdapte (energy s l) ^ 2 *
    LibM.cos ((m : ℝ) * Libmfcc.pi / (25 : ℕ) * ((l : ℝ) - 0.5))

/-- The features of the frame `s`. -/
noncomputable def feature (s : ℕ → ℝ) : Vector ℝ parameters.nbMfcc :=
  Vector.ofFn fun i =>
    if i.val ≤ 12 then weighted (cepstrum s) (i.val + 1)
    else weighted (cepstrum s) (i.val - 11) - weighted (cepstrum s) (i.val - 12)

/-- The features of the frames that begin every 128 samples. -/
noncomputable def trace (x : List ℝ) : List (Vector ℝ parameters.nbMfcc) :=
  (List.range (x.length / 128 - 1)).map fun t => feature (window x t)

/-! ## Frames with the same spectrum -/

theorem feature_congr {s s' : ℕ → ℝ} (h : spectrum s 8 = spectrum s' 8) :
    feature s = feature s' := by
  have henergy : energy s = energy s' := by
    funext l
    rw [energy, energy, h]
  have hcepstrum : cepstrum s = cepstrum s' := by
    funext m
    rw [cepstrum, cepstrum, henergy]
  rw [feature, feature, hcepstrum]

theorem spectrum_congr {s s' : ℕ → ℝ} (h : ∀ u < 256, s u = s' u) :
    spectrum s 8 = spectrum s' 8 := by
  funext k
  rw [spectrum, spectrum, dft_congr k fun u hu => by rw [h u hu]]

theorem spectrum_neg (s : ℕ → ℝ) : spectrum (fun u => -s u) 8 = spectrum s 8 := by
  funext k
  rw [spectrum, spectrum, ← norm_neg, dft, dft, ← sum_neg_distrib]
  congr 1
  refine sum_congr rfl fun u _ => ?_
  push_cast
  ring

/-- A frame, and the frame read from its end. -/
theorem spectrum_reverse (s : ℕ → ℝ) : spectrum (fun u => s (255 - u)) 8 = spectrum s 8 := by
  funext k
  have hnorm : ‖fftRoot 1 8‖ = 1 := Complex.norm_exp_ofReal_mul_I _
  have hinv : fftRoot 1 8 * fftRoot (-1) 8 = 1 := by
    rw [← conj_fftRoot, ← Complex.inv_eq_conj hnorm]
    exact mul_inv_cancel₀ (norm_ne_zero_iff.1 (hnorm ▸ one_ne_zero))
  have hturned := dft_reverse hinv (2 ^ 8) (fun j => (s j : ℂ)) k
  rw [spectrum, spectrum, ← norm_dft_reverse]
  calc ‖dft (fftRoot 1 8) (2 ^ 8) (fun j => ((s (255 - j) : ℝ) : ℂ)) k‖
      = ‖fftRoot 1 8 ^ ((2 ^ 8 - 1) * k) * dft (fftRoot (-1) 8) (2 ^ 8) (fun j => (s j : ℂ)) k‖ :=
        congrArg norm hturned
    _ = ‖dft (fftRoot (-1) 8) (2 ^ 8) (fun j => (s j : ℂ)) k‖ := by
        rw [norm_mul, norm_pow, hnorm, one_pow, one_mul]

/-! ## Recordings with the same trace -/

theorem length_trace (x : List ℝ) : (trace x).length = x.length / 128 - 1 := by
  rw [trace, List.length_map, List.length_range]

theorem trace_congr {x y : List ℝ} (hlen : x.length / 128 = y.length / 128)
    (h : ∀ t < x.length / 128 - 1, spectrum (window x t) 8 = spectrum (window y t) 8) :
    trace x = trace y := by
  rw [trace, trace, ← hlen]
  exact List.map_congr_left fun t ht => feature_congr (h t (List.mem_range.1 ht))

/-- **The opposite of a recording.** -/
theorem trace_map_neg (x : List ℝ) : trace (x.map (-·)) = trace x := by
  refine trace_congr (by rw [List.length_map]) fun t _ => ?_
  rw [← spectrum_neg]
  refine spectrum_congr fun u _ => ?_
  have hmap := List.getD_map (l := x) (d := (0 : ℝ)) (n := 128 * t + u) (-·)
  rw [neg_zero] at hmap
  rw [window, window, hmap, neg_neg]

/-- **What follows a recording** adds frames after its own. -/
theorem trace_prefix (x y : List ℝ) : trace x <+: trace (x ++ y) := by
  have hle : x.length / 128 - 1 ≤ (x ++ y).length / 128 - 1 := by
    rw [List.length_append]
    omega
  obtain ⟨n, hn⟩ := Nat.exists_eq_add_of_le hle
  rw [trace, trace, hn, List.range_add, List.map_append]
  refine ⟨_, congrArg (· ++ _) (List.map_congr_left fun t ht => ?_)⟩
  refine feature_congr (spectrum_congr fun u hu => ?_)
  have ht := List.mem_range.1 ht
  exact (List.getD_append x y 0 _ (by omega)).symm

/-- The whole half frames of a recording. -/
def whole (x : List ℝ) : List ℝ := x.take (128 * (x.length / 128))

theorem length_whole (x : List ℝ) : (whole x).length = 128 * (x.length / 128) := by
  rw [whole, List.length_take]
  omega

/-- **The end of a recording** that is shorter than a half frame. -/
theorem trace_whole (x : List ℝ) : trace (whole x) = trace x := by
  have hpre := trace_prefix (whole x) (x.drop (128 * (x.length / 128)))
  rw [show whole x ++ x.drop (128 * (x.length / 128)) = x from List.take_append_drop _ x] at hpre
  refine hpre.eq_of_length ?_
  rw [length_trace, length_trace, length_whole, Nat.mul_div_cancel_left _ (by decide)]

/-- Recordings with the same whole half frames, or opposite ones. -/
def Alike (x y : List ℝ) : Prop := whole y = whole x ∨ whole y = (whole x).map (-·)

theorem Alike.length {x y : List ℝ} (h : Alike x y) : y.length / 128 = x.length / 128 := by
  have hlen : (whole y).length = (whole x).length := by
    rcases h with h | h
    · rw [h]
    · rw [h, List.length_map]
  rw [length_whole, length_whole] at hlen
  omega

theorem Alike.trace {x y : List ℝ} (h : Alike x y) : trace y = trace x := by
  rw [← trace_whole y, ← trace_whole x]
  rcases h with h | h
  · rw [h]
  · rw [h, trace_map_neg]

/-- **A recording of whole half frames, read from its end.** -/
theorem trace_reverse {x : List ℝ} (h : 128 ∣ x.length) : trace x.reverse = (trace x).reverse := by
  obtain ⟨q, hq⟩ := h
  refine List.ext_getElem (by simp [length_trace]) fun t h1 h2 => ?_
  have ht : t < q - 1 := by
    simpa [length_trace, hq] using h1
  rw [List.getElem_reverse]
  simp only [trace, List.length_map, List.length_range, List.getElem_map, List.getElem_range,
    hq, Nat.mul_div_cancel_left q (show 0 < 128 by decide)]
  refine feature_congr ((spectrum_reverse _).symm.trans (spectrum_congr fun u hu => ?_)).symm
  rw [window, window, List.getD_eq_getElem x _ (by omega),
    List.getD_eq_getElem _ _ (by rw [List.length_reverse]; omega), List.getElem_reverse]
  congr 1
  omega

end Acoustic

/-- The recogniser of recordings. -/
noncomputable def acoustic : Recogniser (List ℝ) (Vector ℝ parameters.nbMfcc) ℝ where
  trace := Acoustic.trace
  gap f g := ∑ i, |f.get i - g.get i|

end TlVoix
