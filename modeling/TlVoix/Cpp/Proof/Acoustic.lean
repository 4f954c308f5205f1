import TlVoix.Cpp.Proof.Bounds
import TlVoix.Cpp.Proof.DtwLaws
import TlVoix.Spec.Acoustic

/-!
# The features of a recording

* `getCoefficient_eq`: the sum that `GetCoefficient` computes.
* `ends_setMfcc_feature`, `yields_create_sounds`: the features of a frame of 256 samples.
* `Lu.mfccs`: the features of the frames of a recording are its trace.
-/

namespace TlVoix

open Checked Finset Acoustic Frame.setMfcc

section
variable {K : Type} [Field K] [LinearOrder K] [LibM K] {spectralData : Arr ℕ K}

theorem getCoefficient_eq {s : ℕ → K} (samplingRate : ℕ) {numFilters binSize m : ℕ}
    (hm : m < numFilters) (hs : ∀ i < binsRead binSize, spectralData.Holds i (s i)) :
    Libmfcc.getCoefficient spectralData samplingRate numFilters binSize m =
      .ok (Libmfcc.normalizationFactor numFilters m * ∑ l ∈ Ico 1 (numFilters + 1),
        Libmfcc.logAdapte
            (∑ i ∈ range (binsRead binSize), binEnergy s samplingRate binSize l i) ^ 2 *
          LibM.cos ((m : K) * Libmfcc.pi / numFilters * ((l : K) - 0.5))) := by
  rw [← ends_eq_iff]
  unfold Libmfcc.getCoefficient
  rw [if_neg (Nat.not_le.2 hm)]
  refine Ends.bind (Ends.forUp (fun n t => t = ∑ l ∈ Ico 1 n, Libmfcc.logAdapte
    (∑ i ∈ range (binsRead binSize), binEnergy s samplingRate binSize l i) ^ 2 *
      LibM.cos ((m : K) * Libmfcc.pi / numFilters * ((l : K) - 0.5))) (Nat.le_add_left 1 _)
    (by simp) fun l t hl _ ht => ?_) fun p hp => ?_
  · refine (ends_sumTot samplingRate l hs).bind fun e he => Ends.ok ?_
    rw [ht, he, sum_Ico_succ_top hl, sq]
  · obtain ⟨_, t⟩ := p
    obtain ⟨-, ht⟩ := hp
    exact Ends.ok (congrArg (_ * ·) ht)

end

theorem ends_setMfcc_feature {signal mfcc : Arr ℕ ℝ} {s : ℕ → ℝ}
    (hs : ∀ j < 256, signal.Holds j (s j)) (hd : ∀ i < 25, mfcc.dom i = true) :
    Ends (Frame.setMfcc signal 256 25 mfcc) fun b =>
      ∀ i (hi : i < parameters.nbMfcc), b.Holds i (getElem (feature s) i hi) := by
  obtain ⟨fft2, c, j, hfft2, hc, -, hrun, hfeatures⟩ :=
    fillsMfcc hs (Nat.le_refl 256) (.inr (by decide)) (by decide) hd
  obtain ⟨b, hb, hspectrum, -⟩ := ends_fft2 hs (Nat.le_refl 256)
  obtain rfl := Except.ok.inj (hfft2.symm.trans hb)
  have hbins : binsRead 256 = 256 := by decide
  -- the coefficients are those of the spectrum
  have hcepstrum : ∀ m, 1 ≤ m → m ≤ 13 → c m = cepstrum s m := by
    intro m h1 h13
    have hread : ∀ i < binsRead 256, fft2.Holds i (spectrum s 8 i) := fun i hi =>
      hspectrum i (hbins ▸ hi)
    have hsum := getCoefficient_eq 16000 (show m < 25 by omega) hread
    rw [hbins] at hsum
    exact Except.ok.inj ((hc m h1 (by omega)).symm.trans hsum)
  have hweighted : ∀ m, 1 ≤ m → m ≤ 13 → weighted c m = weighted (cepstrum s) m := by
    intro m h1 h13
    rw [weighted, weighted, hcepstrum m h1 h13]
  refine ⟨j.arr, hrun, fun i hi => ?_⟩
  have hi25 : i < 25 := hi
  rw [feature, Vector.getElem_ofFn]
  dsimp only
  split
  · rename_i hi12
    rw [← hweighted (i + 1) (by omega) (by omega)]
    exact hfeatures.front i hi12
  · rename_i hi12
    obtain ⟨t, rfl⟩ : ∃ t, i = 13 + t := ⟨i - 13, by omega⟩
    obtain ⟨u, v, hu, hv, huv⟩ := hfeatures.back t hi25
    have hu' := hu.inj (hfeatures.front (t + 1) (by omega))
    have hv' := hv.inj (hfeatures.front t (by omega))
    rw [show 13 + t - 11 = t + 1 + 1 by omega, show 13 + t - 12 = t + 1 by omega,
      ← hweighted _ (by omega) (by omega), ← hweighted _ (by omega) (by omega), ← hu', ← hv']
    exact huv

/-! ## Frames -/

/-- The samples of a frame. -/
def Frame.sample (f : Frame parameters ℝ) (u : ℕ) : ℝ := f.getSignal[u]?.getD 0

/-- The features of a frame are those of its samples. -/
def Frame.Sounds (f : Frame parameters ℝ) : Prop := f.getMfcc = feature f.sample

/-- Every frame that the constructor builds. -/
theorem yields_create_sounds (pile : ℕ → Option ℝ) (signal : Arr ℕ ℝ) :
    Yields (Frame.create parameters pile signal parameters.tailleFrame parameters.ordreLpc
      parameters.nbMfcc) Frame.Sounds := by
  intro f hf
  unfold Frame.create at hf
  obtain ⟨signal', -, hf⟩ := bind_eq_ok.1 hf
  obtain ⟨lpc, -, hf⟩ := bind_eq_ok.1 hf
  obtain ⟨mfcc, hmfcc, hf⟩ := bind_eq_ok.1 hf
  obtain ⟨vsignal, hvsignal, hf⟩ := bind_eq_ok.1 hf
  obtain ⟨vlpc, -, hf⟩ := bind_eq_ok.1 hf
  obtain ⟨vmfcc, hvmfcc, hf⟩ := bind_eq_ok.1 hf
  obtain rfl := Except.ok.inj hf
  have hs : ∀ j < 256, signal'.Holds j (vsignal[j]?.getD 0) := by
    intro j hj
    rw [Vector.getElem?_eq_getElem (show j < parameters.tailleFrame from hj)]
    exact Arr.holds_of_toVector hvsignal hj
  obtain ⟨b, hb, hfeature⟩ := ends_setMfcc_feature hs fun i hi => (Arr.dom_fresh 25 i).2 hi
  obtain rfl := Except.ok.inj (hmfcc.symm.trans hb)
  exact Vector.ext fun i hi => (Arr.holds_of_toVector hvmfcc hi).inj (hfeature i hi)

/-! ## Recordings -/

section
variable {σ : Type} {sf : Sndfile σ ℝ} {son : σ → List ℝ}

/-- Every frame of a piece that `lecture` builds. -/
theorem yields_lecture_sounds (sf : Sndfile σ ℝ) (pile : ℕ → ℕ → Option ℝ) (fuel : ℕ)
    (infile : Option σ) (classe : ℤ) :
    Yields (lecture parameters sf pile fuel infile classe) fun m =>
      ∀ f ∈ m.getFrames, f.Sounds := by
  unfold lecture
  refine (Yields.self _).bind fun _ _ => Yields.bind
    (Yields.whileLoop (fun s => ∀ f ∈ s.frames, f.Sounds) (fun s hs _ => ?_) fuel _ nofun) ?_
  · refine (Yields.self _).bind fun _ _ => (yields_create_sounds _ _).bind fun f hf =>
      (Yields.self _).bind fun _ _ => Yields.ok fun f' hf' => ?_
    rcases List.mem_append.1 hf' with hf' | hf'
    · exact hs f' hf'
    · rwa [List.mem_singleton.1 hf']
  · intro s hr m hm
    obtain ⟨hs, -⟩ := hr
    unfold Morceau.create at hm
    split at hm
    · obtain rfl := Except.ok.inj hm
      exact fun f hf => hs f (List.mem_toArray.1 hf)
    · split at hm <;> cases hm

theorem Lu.framed (hsf : sf.Reads son) {infile : Option σ} {m : Morceau parameters ℝ}
    (h : Lu sf son infile m) : Framed 128 (samples son infile) m := by
  obtain ⟨pile, fuel, classe, hfuel, hm⟩ := h
  obtain ⟨m', hm', hf⟩ := ends_lecture hsf (h := 128) (by decide) (.inr ⟨le_rfl, by decide⟩) pile
    hfuel classe
  obtain rfl := Except.ok.inj (hm.symm.trans hm')
  exact hf

theorem Lu.sounds {infile : Option σ} {m : Morceau parameters ℝ} (h : Lu sf son infile m) :
    ∀ f ∈ m.getFrames, f.Sounds := by
  obtain ⟨pile, fuel, classe, -, hm⟩ := h
  exact yields_lecture_sounds sf _ fuel infile classe m hm

/-- **The features of a recording** are its trace. -/
theorem Lu.mfccs (hsf : sf.Reads son) {infile : Option σ} {m : Morceau parameters ℝ}
    (h : Lu sf son infile m) : m.mfccs = trace (samples son infile) := by
  have hlen := h.getNFrames hsf
  refine List.ext_getElem (by rw [length_mfccs, length_trace, hlen]) fun t h1 h2 => ?_
  have ht : t < m.getNFrames := length_mfccs m ▸ h1
  have hsize : t < m.frames.size := m.alloc.symm ▸ ht
  obtain ⟨f, hf, hsignal⟩ := (h.framed hsf).signal t ht
  obtain rfl := Except.ok.inj ((Morceau.frame_ok ht).symm.trans hf)
  have hsounds : m.frames[t].Sounds := h.sounds _ (Array.getElem_mem hsize)
  have hmfcc : m.mfccs[t] = m.frames[t].getMfcc := by
    simp [Morceau.mfccs, Morceau.getFrames]
  rw [hmfcc, hsounds]
  simp only [trace, List.getElem_map, List.getElem_range]
  refine feature_congr (spectrum_congr fun u hu => ?_)
  rw [window, List.getD_eq_getElem?_getD, hsignal u hu, Frame.sample,
    Vector.getElem?_eq_getElem (show u < parameters.tailleFrame from hu)]
  rfl

end

end TlVoix
