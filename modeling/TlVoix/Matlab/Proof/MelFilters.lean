import TlVoix.Matlab.Proof.BancFiltres
import Mathlib.Analysis.SpecialFunctions.Log.Base
import Mathlib.Data.List.GetD

/-!
# The filters of `mymfcc` are ramps

The weight of a bin is the rising side of the triangle, on both slopes.

* `strictMono_noeud`, `noeud_last`: the bounds of the bank rise from 0 to the last bin.
* `mymfcc_filtres_iff`: the indices are those of the spectrum, but the last filter always weighs
  the last bin by more than 1; the sums are those of the triangles exactly if the spectrum is
  silent above the first centre.
-/

namespace TlVoix.Matlab

open Checked Finset Hat

section
variable (fEch : ℝ) (framesLength nFiltres : ℕ)

/-- The mel step `W` of the bank. -/
noncomputable def mymfcc.pas : ℝ :=
  (mymfcc.abscisseMel fEch framesLength (framesLength / 2) -
    mymfcc.abscisseMel fEch framesLength 1) / (nFiltres + 1)

/-- The bounds of the bank. -/
noncomputable def mymfcc.bornesMel : ℕ × ℕ → ℝ :=
  mymfcc.bornes (mymfcc.abscisseMel fEch framesLength 1) (mymfcc.pas fEch framesLength nFiltres)

/-- Bins per hertz. -/
noncomputable def mymfcc.coeff : ℝ :=
  (framesLength / 2 : ℕ) / mymfcc.abscisse fEch framesLength (framesLength / 2)

/-- Bound `k` of the bank: filter `i` has the bounds `i - 1`, `i` and `i + 1`. -/
noncomputable def mymfcc.noeud (k : ℕ) : ℝ :=
  mymfcc.borne (mymfcc.pas fEch framesLength nFiltres) 0 k

end

/-! ## The mel scale -/

section
variable {fEch : ℝ} {framesLength : ℕ}

theorem borne_real (w b k : ℝ) :
    mymfcc.borne w b k = 700 * ((10 : ℝ) ^ ((b + k * w) / 2595) - 1) := rfl

theorem abscisseMel_one : mymfcc.abscisseMel fEch framesLength 1 = 0 := by
  have h0 : mymfcc.abscisse fEch framesLength 1 = 0 := by simp [mymfcc.abscisse]
  have hlog : LibM.log (0 / 700 + 1 : ℝ) = 0 := by
    show Real.log (0 / 700 + 1) = 0
    norm_num
  rw [mymfcc.abscisseMel, h0, hlog, mul_zero, zero_div]

variable (nFiltres : ℕ) (hf : 0 < fEch) (hL : 4 ≤ framesLength)
include hf hL

theorem abscisse_pos : 0 < mymfcc.abscisse fEch framesLength (framesLength / 2) := by
  have hH : (2 : ℝ) ≤ (framesLength / 2 : ℕ) := by
    exact_mod_cast (by omega : 2 ≤ framesLength / 2)
  have hL' : (0 : ℝ) < framesLength := by exact_mod_cast (by omega : 0 < framesLength)
  exact div_pos (mul_pos hf (by linarith)) hL'

theorem coeff_pos : 0 < mymfcc.coeff fEch framesLength := by
  have hH : (0 : ℝ) < (framesLength / 2 : ℕ) := by
    exact_mod_cast (by omega : 0 < framesLength / 2)
  exact div_pos hH (abscisse_pos hf hL)

theorem pas_pos : 0 < mymfcc.pas fEch framesLength nFiltres := by
  have hM := abscisse_pos hf hL
  have hlog : 0 < Real.log (mymfcc.abscisse fEch framesLength (framesLength / 2) / 700 + 1) :=
    Real.log_pos (by linarith [div_pos hM (by norm_num : (0 : ℝ) < 700)])
  have hmel : 0 < mymfcc.abscisseMel fEch framesLength (framesLength / 2) :=
    div_pos (mul_pos (by norm_num) hlog) (Real.log_pos (by norm_num))
  rw [mymfcc.pas, abscisseMel_one, sub_zero]
  positivity

theorem strictMono_noeud : StrictMono (mymfcc.noeud fEch framesLength nFiltres) := by
  intro k l hkl
  have hw := pas_pos nFiltres hf hL
  have hkl' : (k : ℝ) < l := by exact_mod_cast hkl
  have hexp : (0 + k * mymfcc.pas fEch framesLength nFiltres) / 2595 <
      (0 + l * mymfcc.pas fEch framesLength nFiltres) / 2595 := by gcongr
  have hpow := Real.rpow_lt_rpow_of_exponent_lt (by norm_num : (1 : ℝ) < 10) hexp
  rw [mymfcc.noeud, mymfcc.noeud, borne_real, borne_real]
  linarith

omit hf hL in
theorem noeud_zero : mymfcc.noeud fEch framesLength nFiltres 0 = 0 := by
  simp [mymfcc.noeud, borne_real]

theorem noeud_nonneg (k : ℕ) : 0 ≤ mymfcc.noeud fEch framesLength nFiltres k :=
  (noeud_zero nFiltres).symm.le.trans ((strictMono_noeud _ hf hL).monotone (Nat.zero_le k))

/-- The last bound is the frequency of the last bin. -/
theorem noeud_last : mymfcc.noeud fEch framesLength nFiltres (nFiltres + 1) =
    mymfcc.abscisse fEch framesLength (framesLength / 2) := by
  have hM := abscisse_pos hf hL
  have hn : (nFiltres : ℝ) + 1 ≠ 0 := by positivity
  have hexp : (0 + ((nFiltres + 1 : ℕ) : ℝ) * mymfcc.pas fEch framesLength nFiltres) / 2595 =
      Real.logb 10 (mymfcc.abscisse fEch framesLength (framesLength / 2) / 700 + 1) := by
    rw [mymfcc.pas, abscisseMel_one, sub_zero, zero_add, Nat.cast_add_one, mul_div_cancel₀ _ hn,
      mymfcc.abscisseMel, mul_div_assoc, mul_div_cancel_left₀ _ (by norm_num)]
    rfl
  rw [mymfcc.noeud, borne_real, hexp,
    Real.rpow_logb (by norm_num) (by norm_num) (by positivity), add_sub_cancel_right]
  exact mul_div_cancel₀ _ (by norm_num)

theorem last_div_coeff : (framesLength / 2 : ℕ) / mymfcc.coeff fEch framesLength =
    mymfcc.noeud fEch framesLength nFiltres (nFiltres + 1) := by
  have hH : ((framesLength / 2 : ℕ) : ℝ) ≠ 0 := by
    exact_mod_cast (by omega : framesLength / 2 ≠ 0)
  rw [noeud_last _ hf hL, mymfcc.coeff, div_div_cancel₀ hH]

/-- The bank ends at the last bin. -/
theorem div_coeff_le_iff {j : ℕ} :
    j / mymfcc.coeff fEch framesLength ≤ mymfcc.noeud fEch framesLength nFiltres (nFiltres + 1) ↔
      j ≤ framesLength / 2 := by
  rw [← last_div_coeff _ hf hL, div_le_div_iff_of_pos_right (coeff_pos hf hL), Nat.cast_le]

end

/-! ## The bounds of a filter -/

section
variable {fEch : ℝ} {framesLength nFiltres i : ℕ}

theorem bornesMel_one (hi : 1 ≤ i) : mymfcc.bornesMel fEch framesLength nFiltres (1, i) =
    mymfcc.noeud fEch framesLength nFiltres (i - 1) := by
  rw [mymfcc.bornesMel, bornes_one, abscisseMel_one, mymfcc.noeud, Nat.cast_pred hi]

theorem bornesMel_two : mymfcc.bornesMel fEch framesLength nFiltres (2, i) =
    mymfcc.noeud fEch framesLength nFiltres i := by
  rw [mymfcc.bornesMel, bornes_two, abscisseMel_one, mymfcc.noeud]

theorem bornesMel_three : mymfcc.bornesMel fEch framesLength nFiltres (3, i) =
    mymfcc.noeud fEch framesLength nFiltres (i + 1) := by
  rw [mymfcc.bornesMel, bornes_three, abscisseMel_one, mymfcc.noeud, Nat.cast_add_one]

end

/-! ## The filters -/

section
variable (fEch : ℝ) (framesLength nFiltres : ℕ) (sonFft : List ℝ)

/-- Filter `i` uses bin `j`. -/
def Uses (i j : ℕ) : Prop :=
  1 ≤ i ∧ i ≤ nFiltres ∧
    j ∈ mymfcc.raies (mymfcc.coeff fEch framesLength)
      (mymfcc.bornesMel fEch framesLength nFiltres) i

/-- The weight of bin `j` in filter `i`. -/
noncomputable def weight (i j : ℕ) : ℝ :=
  mymfcc.pente (mymfcc.coeff fEch framesLength) (mymfcc.bornesMel fEch framesLength nFiltres) i j

/-- Used bins are stored in `spectres` and added to `sum_s`, with their weights. -/
def Ramps : Prop :=
  Ends (mymfcc.bancFiltres fEch framesLength nFiltres sonFft) fun r =>
    (∀ i j, Uses fEch framesLength nFiltres i j → r.1.Holds (i, (j : ℤ))
      (sonFft.getD (j - 1) 0 * weight fEch framesLength nFiltres i j)) ∧
    ∀ i, 1 ≤ i → i ≤ nFiltres → r.2.Holds i
      (∑ j ∈ mymfcc.raies (mymfcc.coeff fEch framesLength)
        (mymfcc.bornesMel fEch framesLength nFiltres) i,
        sonFft.getD (j - 1) 0 * weight fEch framesLength nFiltres i j)

/-- The sum of the spectrum under the triangle over the bounds of filter `i`. -/
noncomputable def triangleSum (i : ℕ) : ℝ :=
  ∑ j ∈ Icc 1 (framesLength / 2), sonFft.getD (j - 1) 0 *
    hat (mymfcc.bornesMel fEch framesLength nFiltres (1, i))
      (mymfcc.bornesMel fEch framesLength nFiltres (2, i))
      (mymfcc.bornesMel fEch framesLength nFiltres (3, i)) (j / mymfcc.coeff fEch framesLength)

/-- The sums of the bank are those of the triangles. -/
def TriangleSums : Prop :=
  Ends (mymfcc.bancFiltres fEch framesLength nFiltres sonFft) fun r =>
    ∀ i, 1 ≤ i → i ≤ nFiltres →
      r.2.Holds i (triangleSum fEch framesLength nFiltres sonFft i)

/-- No magnitude above the centre of the first filter. -/
def SilentAbove : Prop :=
  ∀ j : ℕ, mymfcc.bornesMel fEch framesLength nFiltres (2, 1) <
      j / mymfcc.coeff fEch framesLength →
    j ≤ framesLength / 2 → sonFft.getD (j - 1) 0 = 0

/-- The filters are triangles. -/
structure Triangles : Prop where
  sums : TriangleSums fEch framesLength nFiltres sonFft
  weights : ∀ i j, Uses fEch framesLength nFiltres i j →
    weight fEch framesLength nFiltres i j ∈ Set.Icc (0 : ℝ) 1
  indices : ∀ i j, Uses fEch framesLength nFiltres i j → 1 ≤ j ∧ j ≤ framesLength / 2

end

section
variable {fEch : ℝ} {framesLength nFiltres : ℕ} {sonFft : List ℝ}
variable (hf : 0 < fEch) (hL : 4 ≤ framesLength)
include hf hL

theorem uses_iff {i j : ℕ} : Uses fEch framesLength nFiltres i j ↔ 1 ≤ i ∧ i ≤ nFiltres ∧
    mymfcc.noeud fEch framesLength nFiltres (i - 1) < j / mymfcc.coeff fEch framesLength ∧
    j / mymfcc.coeff fEch framesLength ≤ mymfcc.noeud fEch framesLength nFiltres (i + 1) := by
  refine and_congr_right fun hi => and_congr_right fun _ => ?_
  rw [mymfcc.raies, bornesMel_one hi, bornesMel_three, mem_bins (coeff_pos hf hL)
    (noeud_nonneg _ hf hL _) (noeud_nonneg _ hf hL _)]

/-- Every bin used is a bin of the spectrum. -/
theorem Uses.mem {i j : ℕ} (h : Uses fEch framesLength nFiltres i j) :
    1 ≤ j ∧ j ≤ framesLength / 2 := by
  obtain ⟨-, hin, hlo, hhi⟩ := (uses_iff hf hL).1 h
  refine ⟨?_, (div_coeff_le_iff nFiltres hf hL).1 (hhi.trans ?_)⟩
  · rcases Nat.eq_zero_or_pos j with rfl | hj
    · rw [Nat.cast_zero, zero_div] at hlo
      exact absurd hlo (not_lt.2 (noeud_nonneg _ hf hL _))
    · exact hj
  · exact (strictMono_noeud _ hf hL).monotone (Nat.succ_le_succ hin)

/-- The last filter weighs the last bin by more than 1. -/
theorem exists_one_lt_weight (hn : 1 ≤ nFiltres) :
    Uses fEch framesLength nFiltres nFiltres (framesLength / 2) ∧
      1 < weight fEch framesLength nFiltres nFiltres (framesLength / 2) := by
  have hmono := strictMono_noeud nFiltres hf hL
  have hlast := last_div_coeff nFiltres hf hL
  refine ⟨(uses_iff hf hL).2 ⟨hn, le_rfl, ?_, hlast.le⟩, ?_⟩
  · rw [hlast]
    exact hmono (by omega)
  · rw [weight, mymfcc.pente, bornesMel_one hn, bornesMel_two, one_lt_ramp_iff (hmono (by omega)),
      hlast]
    exact hmono (Nat.lt_succ_self nFiltres)

/-- The run of the bank on a spectrum. -/
theorem ramps_bancFiltres (hlen : sonFft.length = framesLength / 2) :
    Ramps fEch framesLength nFiltres sonFft := by
  have hmono := strictMono_noeud nFiltres hf hL
  have hk := coeff_pos hf hL
  have hcoeff : (sonFft.length : ℝ) / mymfcc.abscisse fEch framesLength sonFft.length =
      mymfcc.coeff fEch framesLength := by rw [hlen, mymfcc.coeff]
  unfold Ramps mymfcc.bancFiltres
  simp only [bornesFiltres_eq, ok_bind, hcoeff]
  refine (ends_appliquer fun i hi1 hin => ?_).mono fun r hr => ?_
  · show 0 ≤ mymfcc.bornesMel fEch framesLength nFiltres (1, i) * _ ∧
      mymfcc.bornesMel fEch framesLength nFiltres (1, i) * _ ≤
        mymfcc.bornesMel fEch framesLength nFiltres (3, i) * _ ∧
      mymfcc.bornesMel fEch framesLength nFiltres (3, i) * _ ≤ _
    rw [bornesMel_one hi1, bornesMel_three, hlen]
    refine ⟨mul_nonneg (noeud_nonneg _ hf hL _) hk.le,
      mul_le_mul_of_nonneg_right (hmono.monotone (by omega)) hk.le, ?_⟩
    rw [← le_div_iff₀ hk, last_div_coeff nFiltres hf hL]
    exact hmono.monotone (Nat.succ_le_succ hin)
  · exact ⟨fun i j hij => (hr i hij.1 hij.2.1).1 j hij.2.2, fun i hi1 hin => (hr i hi1 hin).2⟩

/-- The last bin is above every centre. -/
theorem not_silentAbove (hn : 1 ≤ nFiltres) (hlast : sonFft.getD (framesLength / 2 - 1) 0 ≠ 0) :
    ¬SilentAbove fEch framesLength nFiltres sonFft := by
  intro h
  refine hlast (h (framesLength / 2) ?_ le_rfl)
  rw [bornesMel_two, last_div_coeff nFiltres hf hL]
  exact strictMono_noeud _ hf hL (by omega)

/-- One filter. -/
theorem sum_weight_eq_iff (hs : ∀ x ∈ sonFft, 0 ≤ x) {i : ℕ} (hi : 1 ≤ i) (hin : i ≤ nFiltres) :
    ∑ j ∈ mymfcc.raies (mymfcc.coeff fEch framesLength)
        (mymfcc.bornesMel fEch framesLength nFiltres) i,
        sonFft.getD (j - 1) 0 * weight fEch framesLength nFiltres i j =
      triangleSum fEch framesLength nFiltres sonFft i ↔
    ∀ j : ℕ, mymfcc.noeud fEch framesLength nFiltres i < j / mymfcc.coeff fEch framesLength →
      j / mymfcc.coeff fEch framesLength ≤ mymfcc.noeud fEch framesLength nFiltres (i + 1) →
        sonFft.getD (j - 1) 0 = 0 := by
  have hmono := strictMono_noeud nFiltres hf hL
  have hk := coeff_pos hf hL
  have hs' : ∀ j, 0 ≤ sonFft.getD (j - 1) 0 := by
    intro j
    rw [List.getD_eq_getElem?_getD]
    cases h : sonFft[j - 1]? with
    | none => exact le_rfl
    | some x => exact hs x (List.mem_of_getElem? h)
  unfold triangleSum weight mymfcc.pente mymfcc.raies
  rw [bornesMel_one hi, bornesMel_two, bornesMel_three]
  apply sum_ramp_eq_iff hk (noeud_nonneg _ hf hL _) (hmono (by omega)) (hmono (by omega)) _ hs'
  rw [← le_div_iff₀ hk, last_div_coeff nFiltres hf hL]
  exact hmono.monotone (Nat.succ_le_succ hin)

theorem triangleSums_iff (hlen : sonFft.length = framesLength / 2) (hs : ∀ x ∈ sonFft, 0 ≤ x) :
    TriangleSums fEch framesLength nFiltres sonFft ↔
      SilentAbove fEch framesLength nFiltres sonFft := by
  have hmono := strictMono_noeud nFiltres hf hL
  have hramps : Ramps fEch framesLength nFiltres sonFft := ramps_bancFiltres hf hL hlen
  obtain ⟨r, hrun, -, hsum⟩ := hramps
  have hiff : TriangleSums fEch framesLength nFiltres sonFft ↔ ∀ i, 1 ≤ i → i ≤ nFiltres →
      ∑ j ∈ mymfcc.raies (mymfcc.coeff fEch framesLength)
        (mymfcc.bornesMel fEch framesLength nFiltres) i,
        sonFft.getD (j - 1) 0 * weight fEch framesLength nFiltres i j =
      triangleSum fEch framesLength nFiltres sonFft i := by
    refine ⟨fun h i hi hin => ?_, fun h => ⟨r, hrun, fun i hi hin => h i hi hin ▸ hsum i hi hin⟩⟩
    obtain ⟨r', hrun', htri⟩ := h
    obtain rfl : r = r' := Except.ok.inj (hrun.symm.trans hrun')
    exact (hsum i hi hin).inj (htri i hi hin)
  rw [hiff]
  unfold SilentAbove
  rw [bornesMel_two]
  refine ⟨fun h j hlo hj => ?_, fun h i hi hin => ?_⟩
  · -- the bin lies between two bounds
    obtain ⟨i, hi, hin, hij, hji⟩ := Hat.exists_between
      (mymfcc.noeud fEch framesLength nFiltres) hlo ((div_coeff_le_iff _ hf hL).2 hj)
    exact (sum_weight_eq_iff hf hL hs hi hin).1 (h i hi hin) j hij hji
  · refine (sum_weight_eq_iff hf hL hs hi hin).2 fun j hij hji => ?_
    exact h j ((hmono.monotone hi).trans_lt hij) ((div_coeff_le_iff nFiltres hf hL).1
      (hji.trans (hmono.monotone (Nat.succ_le_succ hin))))

end

/-- The filters of the bank are ramps, never triangles. -/
theorem mymfcc_filtres_iff (nFiltres framesLength : ℕ) (fEch : ℝ) (sonFft : List ℝ)
    (hn : 1 ≤ nFiltres) (hL : 4 ≤ framesLength) (hf : 0 < fEch)
    (hlen : sonFft.length = framesLength / 2) (hs : ∀ x ∈ sonFft, 0 ≤ x) :
    ¬Triangles fEch framesLength nFiltres sonFft ∧
      (TriangleSums fEch framesLength nFiltres sonFft ↔
        SilentAbove fEch framesLength nFiltres sonFft) ∧
      Ramps fEch framesLength nFiltres sonFft ∧
      ∀ i j, Uses fEch framesLength nFiltres i j → 1 ≤ j ∧ j ≤ framesLength / 2 := by
  refine ⟨fun h => ?_, triangleSums_iff hf hL hlen hs, ramps_bancFiltres hf hL hlen,
    fun i j hij => hij.mem hf hL⟩
  obtain ⟨huse, hlt⟩ := exists_one_lt_weight hf hL hn
  exact absurd (h.weights _ _ huse).2 (not_le.2 hlt)

theorem flat_nonneg (n : ℕ) : ∀ x ∈ List.replicate n (1 : ℝ), 0 ≤ x := by
  intro x hx
  rw [List.eq_of_mem_replicate hx]
  exact zero_le_one

theorem mymfcc_filtres_iff_flat :
    ¬Triangles 16000 320 40 (List.replicate 160 1) ∧
      (TriangleSums 16000 320 40 (List.replicate 160 1) ↔
        SilentAbove 16000 320 40 (List.replicate 160 1)) := by
  have h := mymfcc_filtres_iff 40 320 16000 (List.replicate 160 1) (by decide) (by decide)
    (by norm_num) (List.length_replicate ..) (flat_nonneg 160)
  exact ⟨h.1, h.2.1⟩

/-- A flat spectrum, at the sizes of `main.m`. -/
theorem not_mymfcc_filtres : ¬TriangleSums 16000 320 40 (List.replicate 160 1) := by
  have hlast : (List.replicate 160 (1 : ℝ)).getD (320 / 2 - 1) 0 ≠ 0 := by
    rw [List.getD_replicate _ (by decide)]
    exact one_ne_zero
  intro h
  exact not_silentAbove (by norm_num) (by decide) (by decide) hlast
    ((triangleSums_iff (by norm_num) (by decide) (List.length_replicate ..)
      (flat_nonneg 160)).1 h)

end TlVoix.Matlab
