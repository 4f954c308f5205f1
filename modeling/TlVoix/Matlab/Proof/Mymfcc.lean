import TlVoix.Matlab.Proof.Dct
import TlVoix.Matlab.Proof.MelFilters

/-!
# A run of `mymfcc`

* `mymfcc_eq`: on every recording, each frame gives the row `cepstre` of the logarithms of the
  sums of its windowed spectrum, or a row without a number if one of the sums is zero.
* `mymfcc_twice`: with two filters or more, the first two features of a frame are the same
  number.
-/

namespace TlVoix.Matlab

open Checked Finset

section
variable (fEch : ℝ) (son : List ℝ) (framesLength nFiltres frame : ℕ)

/-- Row `frame` of `frames`. -/
noncomputable def mymfcc.sonFen : List ℝ :=
  List.zipWith (· * ·) (hamming framesLength)
    ((son.take (framesLength * (frame + 1) / 2)).drop (framesLength * (frame - 1) / 2))

/-- The lower half of the spectrum of a frame. -/
noncomputable def mymfcc.sonFft : List ℝ :=
  (absFft (mymfcc.sonFen son framesLength frame)).take (framesLength / 2)

/-- `son_log(i)`. -/
noncomputable def mymfcc.sonLog (i : ℕ) : Option ℝ :=
  mymfcc.logAbs (∑ j ∈ mymfcc.raies (mymfcc.coeff fEch framesLength)
      (mymfcc.bornesMel fEch framesLength nFiltres) i,
    (mymfcc.sonFft son framesLength frame).getD (j - 1) 0 *
      weight fEch framesLength nFiltres i j)

/-- Cell `j` of `son_dct`, from `son_log`. -/
noncomputable def mymfcc.cellule (sonLog : ℕ → Option ℝ) (j : ℕ) : Option ℝ :=
  if (coeffs sonLog nFiltres).all Option.isSome then
    some (mymfcc.cepstre nFiltres (fun i => (sonLog i).getD 0) j)
  else none

/-- Row `frame` of `sons_dct_frames`. -/
noncomputable def mymfcc.ligne (j : ℕ) : Option ℝ :=
  mymfcc.cellule nFiltres (mymfcc.sonLog fEch son framesLength nFiltres frame) j

end

theorem sonDct_of_holds {n : ℕ} (hn : 1 ≤ n) {v : Arr ℕ (Option ℝ)} {f : ℕ → Option ℝ}
    (h : ∀ i, 1 ≤ i → i ≤ n → v.Holds i (f i)) :
    mymfcc.sonDct n v = .ok (Arr.full (row n) (mymfcc.cellule n f)) := by
  unfold mymfcc.sonDct mymfcc.cellule
  rw [ends_eq_iff.1 (ends_lire h), ok_bind]
  split
  · rw [dct_of_holds hn fun i h1 hin => (h i h1 hin).map fun x => x.getD 0, ok_bind, Arr.map_full]
    rfl
  · rfl

section
variable {fEch : ℝ} {son : List ℝ} {framesLength nFiltres frame : ℕ}

theorem tranche (hL : 2 ∣ framesLength) (h0 : 0 < framesLength) (h1 : 1 ≤ frame)
    (hn : frame ≤ son.length / framesLength * 2 - 1) :
    framesLength * (frame - 1) / 2 + framesLength = framesLength * (frame + 1) / 2 ∧
      framesLength * (frame + 1) / 2 ≤ son.length := by
  obtain ⟨h, rfl⟩ := hL
  obtain ⟨k, rfl⟩ := Nat.exists_eq_add_of_le' h1
  have hstart : 2 * h * (k + 1 - 1) / 2 = h * k := by
    rw [Nat.add_sub_cancel, mul_assoc, Nat.mul_div_cancel_left _ (by decide)]
  have hend : 2 * h * (k + 1 + 1) / 2 = h * k + 2 * h := by
    rw [mul_assoc, Nat.mul_div_cancel_left _ (by decide)]
    ring
  rw [hstart, hend]
  refine ⟨rfl, ?_⟩
  calc h * k + 2 * h = h * (k + 2) := by ring
    _ ≤ h * (son.length / (2 * h) * 2) := Nat.mul_le_mul_left h (by omega)
    _ = 2 * h * (son.length / (2 * h)) := by ring
    _ ≤ son.length := Nat.mul_div_le _ _

theorem length_sonFen (hL : 2 ∣ framesLength) (h0 : 0 < framesLength) (h1 : 1 ≤ frame)
    (hn : frame ≤ son.length / framesLength * 2 - 1) :
    (mymfcc.sonFen son framesLength frame).length = framesLength := by
  obtain ⟨hlen, hin⟩ := tranche hL h0 h1 hn
  rw [mymfcc.sonFen, List.length_zipWith, List.length_drop, List.length_take, hamming,
    List.length_map, List.length_range]
  omega

theorem length_sonFft (hL : 2 ∣ framesLength) (h0 : 0 < framesLength) (h1 : 1 ≤ frame)
    (hn : frame ≤ son.length / framesLength * 2 - 1) :
    (mymfcc.sonFft son framesLength frame).length = framesLength / 2 := by
  rw [mymfcc.sonFft, List.length_take, absFft, List.length_map, List.length_range,
    length_sonFen hL h0 h1 hn]
  exact Nat.min_eq_left (Nat.div_le_self framesLength 2)

theorem frame_eq (hn : 1 ≤ nFiltres) (h4 : 4 ≤ framesLength) (hf : 0 < fEch)
    (hlen : (mymfcc.sonFft son framesLength frame).length = framesLength / 2) :
    (do
      let (_, sumS) ← mymfcc.bancFiltres fEch framesLength nFiltres
        (mymfcc.sonFft son framesLength frame)
      mymfcc.sonDct nFiltres (sumS.map mymfcc.logAbs)) =
      .ok (Arr.full (row nFiltres) (mymfcc.ligne fEch son framesLength nFiltres frame)) := by
  have hramps : Ramps fEch framesLength nFiltres _ := ramps_bancFiltres hf h4 hlen
  obtain ⟨r, hrun, -, hsum⟩ := hramps
  rw [hrun, ok_bind]
  exact sonDct_of_holds hn fun i hi1 hin => (hsum i hi1 hin).map _

/-- The features of every recording. -/
theorem mymfcc_eq (hn : 1 ≤ nFiltres) (hL : 2 ∣ framesLength) (h4 : 4 ≤ framesLength)
    (hf : 0 < fEch) :
    mymfcc fEch son framesLength nFiltres =
      .ok (Arr.full (row (son.length / framesLength * 2 - 1)) fun frame =>
        Arr.full (row nFiltres) (mymfcc.ligne fEch son framesLength nFiltres frame)) := by
  have h0 : 0 < framesLength := by omega
  refine ends_eq_iff.1 (Ends.bind (ends_fillRow (g := mymfcc.sonFen son framesLength)
    fun k hk1 hkn f _ => ?_) fun r hr => Ends.bind (ends_fillRow fun k hk1 hkn f _ => ?_)
      fun r hr => Ends.ok hr)
  · obtain ⟨hlen, hin⟩ := tranche hL h0 hk1 hkn
    rw [colon_ok (Nat.le_add_left 1 _) (by omega) hin, ok_bind,
      Arr.set_full _ (row_eq_true.2 ⟨hk1, hkn⟩), Nat.add_sub_cancel]
    exact Ends.ok rfl
  · have hk : row (son.length / framesLength * 2 - 1) k = true := row_eq_true.2 ⟨hk1, hkn⟩
    have hfen := length_sonFen hL h0 hk1 hkn
    have hfft : (absFft (mymfcc.sonFen son framesLength k)).length = framesLength := by
      rw [absFft, List.length_map, List.length_range, hfen]
    have hcolon : colon (absFft (mymfcc.sonFen son framesLength k)) 1 (framesLength / 2) =
        .ok (mymfcc.sonFft son framesLength k) :=
      colon_ok le_rfl (by omega) (hfft.symm ▸ Nat.div_le_self framesLength 2)
    obtain ⟨p, hbanc, hdct⟩ := bind_eq_ok.1
      (frame_eq hn h4 hf (length_sonFft hL h0 hk1 hkn))
    rw [hr, Arr.get_full _ hk, ok_bind, hcolon, ok_bind, hbanc, ok_bind]
    simp only [hdct, ok_bind]
    rw [Arr.set_full _ hk]
    exact Ends.ok rfl

/-- The second feature of a frame repeats the first one. -/
theorem mymfcc_twice (hn : 2 ≤ nFiltres) (hL : 2 ∣ framesLength) (h4 : 4 ≤ framesLength)
    (hf : 0 < fEch) :
    Ends (mymfcc fEch son framesLength nFiltres) fun a =>
      ∀ frame, 1 ≤ frame → frame ≤ son.length / framesLength * 2 - 1 →
        ∃ sonDct x, a.Holds frame sonDct ∧ sonDct.Holds 1 x ∧ sonDct.Holds 2 x := by
  refine ⟨_, mymfcc_eq (by omega) hL h4 hf, fun frame h1 hframe => ?_⟩
  refine ⟨_, _, Arr.holds_full _ (row_eq_true.2 ⟨h1, hframe⟩),
    Arr.holds_full _ (row_eq_true.2 ⟨le_rfl, by omega⟩), ?_⟩
  have htwice : mymfcc.ligne fEch son framesLength nFiltres frame 1 =
      mymfcc.ligne fEch son framesLength nFiltres frame 2 := by
    rw [mymfcc.ligne, mymfcc.ligne, mymfcc.cellule, mymfcc.cellule, cepstre_one_eq_two]
  rw [htwice]
  exact Arr.holds_full _ (row_eq_true.2 ⟨by decide, hn⟩)

end

end TlVoix.Matlab
