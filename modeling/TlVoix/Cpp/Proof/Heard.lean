import TlVoix.Cpp.Proof.Recognition

/-!
# What the recogniser hears of a recording

* `feature_congr_heard`: the features of a frame depend on the bins 1 to 39 of its spectrum.
* `main_heard`: recordings with the same ones get the same orders, in whole runs.
* `main_noisy`: so do recordings with tones added outside these bins: a constant, and the multiples
  of 62.5 Hz from 2500 Hz on.
-/

namespace TlVoix

open Checked Finset

namespace Acoustic

/-! ## The bins of a frame -/

theorem energy_congr {s s' : ℕ → ℝ} (h : ∀ k, 1 ≤ k → k ≤ 39 → spectrum s 8 k = spectrum s' 8 k)
    {l : ℕ} (h1 : 1 ≤ l) (h25 : l ≤ 25) : energy s l = energy s' l := by
  refine sum_congr rfl fun i hi => ?_
  rw [binEnergy, binEnergy]
  by_cases hw : Libmfcc.getFilterParameter 16000 256 i l = (0 : ℝ)
  · rw [hw, mul_zero, mul_zero]
  · obtain ⟨hi1, hi39⟩ := (hears_iff (mem_range.1 hi)).1 ⟨l, h1, h25, hw⟩
    rw [h i hi1 hi39]

/-- **The features of a frame** depend on the bins 1 to 39 of its spectrum. -/
theorem feature_congr_heard {s s' : ℕ → ℝ}
    (h : ∀ k, 1 ≤ k → k ≤ 39 → spectrum s 8 k = spectrum s' 8 k) : feature s = feature s' := by
  have hcepstrum : cepstrum s = cepstrum s' := by
    funext m
    rw [cepstrum, cepstrum]
    congr 1
    refine sum_congr rfl fun l hl => ?_
    obtain ⟨h1, h26⟩ := mem_Ico.1 hl
    rw [energy_congr h h1 (by omega)]
  rw [feature, feature, hcepstrum]

/-- Recordings with as many frames, whose spectra have the same bins 1 to 39. -/
def Heard (x y : List ℝ) : Prop :=
  y.length / 128 = x.length / 128 ∧ ∀ t < x.length / 128 - 1, ∀ k, 1 ≤ k → k ≤ 39 →
    spectrum (window y t) 8 k = spectrum (window x t) 8 k

theorem Heard.trace {x y : List ℝ} (h : Heard x y) : trace y = trace x := by
  obtain ⟨hlen, hspectrum⟩ := h
  rw [Acoustic.trace, Acoustic.trace, hlen]
  exact List.map_congr_left fun t ht => feature_congr_heard (hspectrum t (List.mem_range.1 ht))

/-! ## Tones -/

/-- The signal `y` has nothing in the bins 1 to 39 of any frame. -/
def Unheard (y : ℕ → ℝ) : Prop :=
  ∀ t k, 1 ≤ k → k ≤ 39 →
    dft (fftRoot (-1) 8) (2 ^ 8) (fun u => (y (128 * t + u) : ℂ)) k = 0

/-- The recording `x`, with the signal `y` added. -/
def noisy (x : List ℝ) (y : ℕ → ℝ) : List ℝ := x.mapIdx fun n v => v + y n

theorem Unheard.heard {y : ℕ → ℝ} (h : Unheard y) (x : List ℝ) : Heard x (noisy x y) := by
  refine ⟨by rw [noisy, List.length_mapIdx], fun t ht k h1 h39 => ?_⟩
  have hwindow : ∀ u < 2 ^ 8, (window (noisy x y) t u : ℂ) = window x t u + y (128 * t + u) := by
    intro u hu
    have hin : 128 * t + u < x.length := by omega
    rw [window, window, List.getD_eq_getElem _ _ (by rwa [noisy, List.length_mapIdx]),
      List.getD_eq_getElem _ _ hin]
    simp [noisy]
  rw [spectrum, spectrum, dft_congr k hwindow, dft_add, h t k h1 h39, add_zero]

/-- A constant, or a tone between the bins 40 and 216. -/
theorem unheard_tone {f : ℕ} (hf : f = 0 ∨ 40 ≤ f ∧ f ≤ 216) (a φ : ℝ) :
    Unheard (tone 8 f a φ) := by
  intro t k h1 h39
  -- frame `t` begins with another phase
  have hphase : ∀ u, tone 8 f a φ (128 * t + u) = tone 8 f a (φ + Real.pi * f * t) u := by
    intro u
    rw [tone, tone]
    congr 2
    push_cast
    ring
  have hsum := sum_tone 1 8 f k a (φ + Real.pi * f * t)
  have hlow : ¬((2 ^ 8 : ℕ) : ℤ) ∣ f + 1 * k := by
    omega
  have hhigh : ¬((2 ^ 8 : ℕ) : ℤ) ∣ -f + 1 * k := by
    omega
  rw [if_neg hlow, if_neg hhigh, mul_zero, mul_zero, add_zero, mul_zero] at hsum
  simp only [hphase]
  rw [← hsum, fftRoot_reverse]
  refine sum_congr rfl fun u _ => ?_
  rw [exp_factor, one_mul, zpow_natCast, ← pow_mul, Nat.mul_comm k u]

theorem Unheard.sum {F : Finset ℕ} {y : ℕ → ℕ → ℝ} (h : ∀ f ∈ F, Unheard (y f)) :
    Unheard fun n => ∑ f ∈ F, y f n := by
  intro t k h1 h39
  simp only [Complex.ofReal_sum]
  rw [dft_sum]
  exact sum_eq_zero fun f hf => h f hf t k h1 h39

end Acoustic

/-! ## Whole runs -/

open Acoustic

/-- **What `main` hears**: if every recording of another disk has as many frames as the one of the
first disk, and their spectra the same bins 1 to 39, `main` sends the orders of the first disk. -/
theorem main_heard {σ σ' : Type} (sf' : Sndfile σ' ℝ) (son : σ → List ℝ) (son' : σ' → List ℝ)
    (hsf' : sf'.Reads son') (disque : ℕ → List Char → Option σ)
    (disque' : ℕ → List Char → Option σ')
    (hheard : ∀ n nom, Heard (samples son (disque n nom)) (samples son' (disque' n nom)))
    (pile : ℕ → ℕ → ℕ → ℝ) (oracle : ℕ → List Char → Ecriture) (ho : Admissible oracle)
    (indet : ℕ → ℤ) (cin : List Char) (port : Option PortSerie) (n : ℕ)
    (h : Service son disque (mots cin) n) :
    Halts (fun fuel => main parameters sf' disque' (fun n k i => some (pile n k i)) oracle fuel
        indet nbFichiers fichiers cin port n)
      (Obei oracle (attendue son disque (mots cin)) n port) :=
  halts_main_trace hsf' (fun n nom => (hheard n nom).trace) (fun n nom => (hheard n nom).1) pile ho
    indet port h

/-- A constant added to every recording. -/
theorem main_heard_two :
    Halts (fun fuel => main parameters .memory
        (fun n nom => (disqueSilences n nom).map fun x => noisy x (tone 8 0 4 0))
        (fun _ _ _ => some 0) (fun _ c => .accepte c.length) fuel (fun _ => 0) nbFichiers fichiers
        "a.wav\nb.wav\n".toList (some ⟨0, []⟩) 2)
      (Obei (fun _ c => .accepte c.length) (fun _ => 1) 2 (some ⟨0, []⟩)) := by
  rw [← attendue_silences (mots "a.wav\nb.wav\n".toList)]
  refine main_heard .memory id id Sndfile.memory_reads disqueSilences _ (fun n nom => ?_)
    (fun _ _ _ => 0) _ admissible_whole _ _ _ 2 service_silences
  rw [samples_map]
  exact (unheard_tone (.inl rfl) 4 0).heard _

/-- The tones of numbers `F` together. -/
noncomputable def mixture (F : Finset ℕ) (a φ : ℕ → ℝ) (n : ℕ) : ℝ :=
  ∑ f ∈ F, tone 8 f (a f) (φ f) n

end TlVoix
