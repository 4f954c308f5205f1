import TlVoix.Cpp.Proof.Libmfcc
import TlVoix.Lib.Hat

/-!
# What the filter bank hears

`getFilterParameter` is a triangle between the neighbouring centre frequencies, times
`getMagnitudeFactor` (`getFilterParameter_eq`).

* `getFilterParameter_ne_zero_iff`: the bins that a bank of `numFilters` bands weighs.
* `sum_getFilterParameter_eq_one_iff`: the bins that it counts once.
* `hears_iff`: `set_mfcc` weighs the bins 1 to 39 of 256.
-/

namespace TlVoix

open Checked Finset Hat

/-- The frequency of a bin, a whole number of hertz. -/
def hertz (samplingRate binSize i : ℕ) : ℕ := u32 (i * samplingRate) / binSize

/-! ## Centre frequencies -/

theorem getCenterFrequency_zero : Libmfcc.getCenterFrequency 0 = (0 : ℝ) := if_pos rfl

theorem getCenterFrequency_low {b : ℕ} (hb : b ≤ 14) :
    Libmfcc.getCenterFrequency b = (200 * b / 3 : ℝ) := by
  cases b with
  | zero => simp [Libmfcc.getCenterFrequency]
  | succ b =>
    rw [Libmfcc.getCenterFrequency, if_neg (Nat.succ_ne_zero b), if_pos ⟨by omega, hb⟩]

theorem getCenterFrequency_high (n : ℕ) :
    Libmfcc.getCenterFrequency (n + 15) = (1.0711703 ^ (n + 1) * 1073.4 : ℝ) := by
  rw [Libmfcc.getCenterFrequency, if_neg (by omega), if_neg (by omega)]
  congr 1
  rw [show ((n + 15 : ℕ) : ℝ) - 14 = ((n + 1 : ℕ) : ℝ) by push_cast; ring]
  exact Real.rpow_natCast _ _

theorem strictMono_getCenterFrequency :
    StrictMono (Libmfcc.getCenterFrequency : ℕ → ℝ) := by
  refine strictMono_nat_of_lt_succ fun b => ?_
  rcases Nat.lt_trichotomy b 14 with hb | rfl | hb
  · rw [getCenterFrequency_low hb.le, getCenterFrequency_low hb]
    push_cast
    linarith
  · have hnext : Libmfcc.getCenterFrequency (14 + 1) = (1.0711703 ^ 1 * 1073.4 : ℝ) :=
      getCenterFrequency_high 0
    rw [getCenterFrequency_low le_rfl, hnext]
    norm_num
  · obtain ⟨n, rfl⟩ : ∃ n, b = n + 15 := ⟨b - 15, by omega⟩
    have hnext : Libmfcc.getCenterFrequency (n + 15 + 1) =
        (1.0711703 ^ (n + 1 + 1) * 1073.4 : ℝ) := getCenterFrequency_high (n + 1)
    rw [getCenterFrequency_high, hnext]
    refine mul_lt_mul_of_pos_right ?_ (by norm_num)
    exact pow_lt_pow_right₀ (by norm_num) (Nat.lt_succ_self _)

theorem getMagnitudeFactor_pos {l : ℕ} (h1 : 1 ≤ l) (h48 : l ≤ 48) :
    (0 : ℝ) < Libmfcc.getMagnitudeFactor l := by
  cases Nat.lt_or_ge 14 l with
  | inl h14 =>
    rw [Libmfcc.getMagnitudeFactor, if_neg (by omega), if_pos ⟨h14, h48⟩]
    have : Libmfcc.getCenterFrequency (l - 1) < (Libmfcc.getCenterFrequency (l + 1) : ℝ) :=
      strictMono_getCenterFrequency (by omega)
    exact div_pos two_pos (sub_pos.2 this)
  | inr h14 =>
    rw [Libmfcc.getMagnitudeFactor, if_pos ⟨h1, h14⟩]
    norm_num

/-! ## Triangles -/

/-- **The weight of a bin** in a band that has one. -/
theorem getFilterParameter_eq (samplingRate binSize i : ℕ) {l : ℕ} (h1 : 1 ≤ l) (h48 : l ≤ 48) :
    Libmfcc.getFilterParameter samplingRate binSize i l =
      (hats Libmfcc.getCenterFrequency l (hertz samplingRate binSize i : ℝ) *
        Libmfcc.getMagnitudeFactor l : ℝ) := by
  have hprev : u32 (l + (2 ^ 32 - 1)) = l - 1 := by
    rw [u32_pred h1, Nat.mod_eq_of_lt (by omega)]
  have hnext : u32 (l + 1) = l + 1 := Nat.mod_eq_of_lt (by omega)
  have hlow : Libmfcc.getCenterFrequency (l - 1) < (Libmfcc.getCenterFrequency l : ℝ) :=
    strictMono_getCenterFrequency (by omega)
  unfold Libmfcc.getFilterParameter
  rw [hprev, hnext, ← hertz]
  set x : ℝ := Nat.cast (hertz samplingRate binSize i)
  have hx : 0 ≤ x := Nat.cast_nonneg _
  dsimp only
  split
  · rename_i h
    rw [hats_of_le strictMono_getCenterFrequency h1 h.2.le, zero_mul]
  · rename_i h
    have hge : Libmfcc.getCenterFrequency (l - 1) ≤ x := not_lt.1 fun hlt => h ⟨hx, hlt⟩
    split
    · rename_i h
      rw [hats, hat_rising h.1 h.2.le, ramp]
    · rename_i h
      have hge : Libmfcc.getCenterFrequency l ≤ x := not_lt.1 fun hlt => h ⟨hge, hlt⟩
      split
      · rename_i h
        rw [hats, hat_falling hlow (hge.trans_lt h.2) hge h.2.le, ← neg_div_neg_eq, neg_sub,
          neg_sub]
      · rename_i h
        have hge : Libmfcc.getCenterFrequency (l + 1) ≤ x := not_lt.1 fun hlt => h ⟨hge, hlt⟩
        rw [hats_of_ge strictMono_getCenterFrequency hge, zero_mul]

theorem getFilterParameter_of_gt (samplingRate binSize i : ℕ) {l : ℕ} (h48 : 48 < l) :
    Libmfcc.getFilterParameter samplingRate binSize i l = (0 : ℝ) := by
  rw [Libmfcc.getFilterParameter, getMagnitudeFactor_eq_zero h48]
  simp only [mul_zero, ite_self]

theorem getFilterParameter_eq_zero_iff (samplingRate binSize i : ℕ) {l : ℕ} (h1 : 1 ≤ l)
    (h48 : l ≤ 48) : Libmfcc.getFilterParameter samplingRate binSize i l = (0 : ℝ) ↔
      ¬0 < hats Libmfcc.getCenterFrequency l (hertz samplingRate binSize i : ℝ) := by
  rw [getFilterParameter_eq samplingRate binSize i h1 h48,
    mul_eq_zero_iff_right (getMagnitudeFactor_pos h1 h48).ne', not_lt]
  exact ⟨fun h => h.le, fun h => le_antisymm h (hats_nonneg strictMono_getCenterFrequency _ h1)⟩

/-- The bins that a bank of at most 48 bands weighs. -/
theorem exists_weight_iff (samplingRate binSize i : ℕ) {numFilters : ℕ} (h1 : 1 ≤ numFilters)
    (h48 : numFilters ≤ 48) :
    (∃ l, 1 ≤ l ∧ l ≤ numFilters ∧
        Libmfcc.getFilterParameter samplingRate binSize i l ≠ (0 : ℝ)) ↔
      0 < hertz samplingRate binSize i ∧
        (hertz samplingRate binSize i : ℝ) < Libmfcc.getCenterFrequency (numFilters + 1) := by
  have hcover := exists_hats_pos_iff (x := (hertz samplingRate binSize i : ℝ))
    strictMono_getCenterFrequency h1
  rw [getCenterFrequency_zero, Nat.cast_pos] at hcover
  rw [← hcover]
  refine exists_congr fun l => and_congr_right fun hl1 => and_congr_right fun hl => ?_
  rw [Ne, getFilterParameter_eq_zero_iff samplingRate binSize i hl1 (hl.trans h48), not_not]

/-- **The bins that a bank weighs** are those between 0 and the centre of the band after its last
one; the bands after the 48th have no weight. -/
theorem getFilterParameter_ne_zero_iff (samplingRate binSize numFilters i : ℕ)
    (hn : 1 ≤ numFilters) :
    (∃ l, 1 ≤ l ∧ l ≤ numFilters ∧
        Libmfcc.getFilterParameter samplingRate binSize i l ≠ (0 : ℝ)) ↔
      0 < hertz samplingRate binSize i ∧
        (hertz samplingRate binSize i : ℝ) <
          Libmfcc.getCenterFrequency (min numFilters 48 + 1) := by
  rw [← exists_weight_iff samplingRate binSize i (show 1 ≤ min numFilters 48 by omega)
    (min_le_right _ _)]
  constructor
  · rintro ⟨l, h1, hl, hne⟩
    have h48 : l ≤ 48 := by
      by_contra h48
      exact hne (getFilterParameter_of_gt samplingRate binSize i (Nat.not_le.1 h48))
    exact ⟨l, h1, le_min hl h48, hne⟩
  · rintro ⟨l, h1, hl, hne⟩
    exact ⟨l, h1, hl.trans (min_le_left _ _), hne⟩

/-- One hundred bands, and the last bin of a frame. -/
theorem getFilterParameter_ne_zero_iff_last :
    ¬∃ l, 1 ≤ l ∧ l ≤ 100 ∧ Libmfcc.getFilterParameter 16000 256 255 l ≠ (0 : ℝ) := by
  rw [getFilterParameter_ne_zero_iff 16000 256 100 255 (by decide)]
  intro h
  have hlt : ((hertz 16000 256 255 : ℕ) : ℝ) < Libmfcc.getCenterFrequency 49 := h.2
  have hle : Libmfcc.getCenterFrequency 49 ≤ (15937 : ℝ) := getCenterFrequency_le le_rfl
  rw [show hertz 16000 256 255 = 15937 from rfl, Nat.cast_ofNat] at hlt
  exact absurd hlt (not_lt.2 hle)

/-- **The bins that a bank counts once**, before the magnitude factors, are those between its first
centre frequency and its last one. -/
theorem sum_getFilterParameter_eq_one_iff (samplingRate binSize numFilters i : ℕ)
    (hn : 1 ≤ numFilters) (hn48 : numFilters ≤ 48) :
    ∑ l ∈ Icc 1 numFilters, Libmfcc.getFilterParameter samplingRate binSize i l /
        Libmfcc.getMagnitudeFactor l = (1 : ℝ) ↔
      Libmfcc.getCenterFrequency 1 ≤ (hertz samplingRate binSize i : ℝ) ∧
        (hertz samplingRate binSize i : ℝ) ≤ Libmfcc.getCenterFrequency numFilters := by
  have hterm : ∑ l ∈ Icc 1 numFilters, Libmfcc.getFilterParameter samplingRate binSize i l /
      Libmfcc.getMagnitudeFactor l = ∑ l ∈ Icc 1 numFilters,
        hats Libmfcc.getCenterFrequency l (hertz samplingRate binSize i : ℝ) := by
    refine sum_congr rfl fun l hl => ?_
    obtain ⟨h1, hl⟩ := mem_Icc.1 hl
    rw [getFilterParameter_eq samplingRate binSize i h1 (hl.trans hn48),
      mul_div_cancel_right₀ _ (getMagnitudeFactor_pos h1 (hl.trans hn48)).ne']
  rw [hterm]
  exact sum_hats_eq_one_iff strictMono_getCenterFrequency hn

/-- The bank of `set_mfcc`, and one of its bins. -/
theorem sum_getFilterParameter_eq_one_iff_ten :
    ∑ l ∈ Icc 1 25, Libmfcc.getFilterParameter 16000 256 10 l / Libmfcc.getMagnitudeFactor l =
      (1 : ℝ) := by
  refine (sum_getFilterParameter_eq_one_iff 16000 256 25 10 (by decide) (by decide)).2 ⟨?_, ?_⟩
  · rw [getCenterFrequency_low (by decide), show hertz 16000 256 10 = 625 from rfl]
    norm_num
  · rw [getCenterFrequency_high 10, show hertz 16000 256 10 = 625 from rfl]
    norm_num

/-! ## The bank of `set_mfcc` -/

/-- Of the 256 bins at 16 kHz, the 25 bands weigh the bins 1 to 39, that is 62 Hz to 2437 Hz. -/
theorem hears_iff {i : ℕ} (hi : i < 256) :
    (∃ l, 1 ≤ l ∧ l ≤ 25 ∧ Libmfcc.getFilterParameter 16000 256 i l ≠ (0 : ℝ)) ↔
      1 ≤ i ∧ i ≤ 39 := by
  have hhertz : hertz 16000 256 i = 125 * i / 2 := by
    rw [hertz, u32, Nat.mod_eq_of_lt (by omega)]
    omega
  have hlast : Libmfcc.getCenterFrequency (25 + 1) = (1.0711703 ^ 12 * 1073.4 : ℝ) :=
    getCenterFrequency_high 11
  rw [exists_weight_iff 16000 256 i (by decide) (by decide), hlast, hhertz]
  constructor
  · intro h
    obtain ⟨hpos, hlt⟩ := h
    have : ((125 * i / 2 : ℕ) : ℝ) < (2500 : ℕ) := hlt.trans (by norm_num)
    have := Nat.cast_lt.1 this
    omega
  · intro h
    obtain ⟨h1, h39⟩ := h
    have hle : 125 * i / 2 ≤ 2437 := by omega
    have : ((125 * i / 2 : ℕ) : ℝ) ≤ (2437 : ℕ) := Nat.cast_le.2 hle
    exact ⟨by omega, this.trans_lt (by norm_num)⟩

end TlVoix
