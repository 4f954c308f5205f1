import TlVoix.Cpp.Libmfcc1
import Mathlib.Algebra.BigOperators.Intervals

/-!
# The filter bank, unrolled and plain

The unrolled loop of `GetCoefficient` adds the bins of a spectrum in sixteen accumulators, by blocks
of sixteen bins (`binsRead`).

* `ends_sumTot`: their sum is the sum of the bins read; `yields_sumTot`: a run reads every block it
  begins.
* `sumTot_eq_innerSum`: on a whole number of blocks, it is the energy of the plain loop of
  `libmfcc1.c` and the last bin, which that loop leaves out. That bin is above every filter
  (`getFilterParameter_last`) with the sampling rate and the size that `set_mfcc` passes.
-/

namespace TlVoix

open Checked Finset

/-! ## Accumulators -/

theorem sum_lanes {M : Type*} [AddCommMonoid M] (w Q : ℕ) (f : ℕ → M) :
    ∑ r ∈ range w, ∑ q ∈ range Q, f (w * q + r) = ∑ i ∈ range (w * Q), f i := by
  rw [sum_comm]
  induction Q with
  | zero => simp
  | succ Q ih => rw [sum_range_succ, ih, Nat.mul_succ, sum_range_add]

theorem u32_pred {n : ℕ} (h : 1 ≤ n) : u32 (n + (2 ^ 32 - 1)) = (n - 1) % 2 ^ 32 := by
  have : n + (2 ^ 32 - 1) = n - 1 + 2 ^ 32 := by omega
  rw [u32, this, Nat.add_mod_right]

/-- The number of bins that the unrolled loop reads: the loop stops at the first multiple of 16 that
is not below `binSize - 1`. -/
def binsRead (binSize : ℕ) : ℕ := 16 * ((u32 (binSize + (2 ^ 32 - 1)) + 15) / 16)

theorem binsRead_le {binSize : ℕ} (h1 : 1 ≤ binSize) (h16 : binSize % 16 ≤ 1) :
    binsRead binSize ≤ binSize := by
  have : u32 (binSize + (2 ^ 32 - 1)) ≤ binSize - 1 := u32_pred h1 ▸ Nat.mod_le _ _
  unfold binsRead
  omega

theorem binsRead_eq {binSize : ℕ} (h1 : 1 ≤ binSize) (h32 : binSize < 2 ^ 32)
    (h16 : 16 ∣ binSize) : binsRead binSize = binSize := by
  rw [binsRead, u32_pred h1, Nat.mod_eq_of_lt (by omega)]
  omega

section
variable {K : Type} [Field K] [LinearOrder K] [LibM K] {spectralData : Arr ℕ K}

/-- What one bin adds to the energy of filter band `l`. -/
def binEnergy (s : ℕ → K) (samplingRate binSize l i : ℕ) : K :=
  |s i * Libmfcc.getFilterParameter samplingRate binSize i l|

/-- The body of the unrolled loop: one more term in each accumulator. -/
theorem ends_block {innerSum : Arr ℕ K} {f s : ℕ → K} {samplingRate binSize l k : ℕ}
    (hf : innerSum.Is 16 f) (hs : ∀ r < 16, spectralData.Holds (k + r) (s (k + r))) :
    Ends (forUp 0 16 innerSum fun r innerSum => do
      innerSum.set r ((← innerSum.get r) + |(← spectralData.get (k + r)) *
        Libmfcc.getFilterParameter samplingRate binSize (k + r) l|)) fun p =>
          p.2.Is 16 fun r => f r + binEnergy s samplingRate binSize l (k + r) := by
  set g := fun r => f r + binEnergy s samplingRate binSize l (k + r)
  refine (Ends.forUp (fun r a => a.Is 16 (Arr.replaced r g f)) (Nat.zero_le _)
    (by rwa [Arr.replaced_zero]) ?_).mono fun p hp =>
      hp.2.congr fun r hr => Arr.replaced_of_lt hr g f
  intro r a _ hr ha
  rw [ha.get_ok hr, Arr.get_ok (hs r hr), Arr.replaced_self, ← Arr.update_replaced]
  exact ha.ends_set hr (g r)

/-- **The energy of the unrolled loop.** -/
theorem ends_sumTot {s : ℕ → K} {binSize : ℕ} (samplingRate l : ℕ)
    (hs : ∀ i < binsRead binSize, spectralData.Holds i (s i)) :
    Ends (Libmfcc.getCoefficient.sumTot spectralData samplingRate binSize l)
      (· = ∑ i ∈ range (binsRead binSize), binEnergy s samplingRate binSize l i) := by
  set e := binEnergy s samplingRate binSize l with he
  have hbins : binsRead binSize = 16 * ((u32 (binSize + (2 ^ 32 - 1)) + 15) / 16) := rfl
  refine Ends.bind (Ends.forStep (fun k a => k % 16 = 0 ∧ k ≤ binsRead binSize ∧
    a.Is 16 fun r => ∑ q ∈ range (k / 16), e (16 * q + r)) (by decide)
    ⟨rfl, Nat.zero_le _, (Arr.is_ofFn 16 _).congr fun r _ => by simp⟩ ?_) ?_
  · intro k a _ hk h
    obtain ⟨hk16, -, ha⟩ := h
    have hk2 : k + 16 ≤ binsRead binSize := by omega
    have hdiv : 16 * (k / 16) = k := by omega
    have hnext : (k + 16) / 16 = k / 16 + 1 := by omega
    refine (ends_block ha fun r hr => hs (k + r) (by omega)).bind fun p hp => Ends.ok
      ⟨by rw [Nat.add_mod_right, hk16], hk2, hp.congr fun r _ => ?_⟩
    rw [hnext, sum_range_succ, hdiv]
  · intro p h
    obtain ⟨k, a⟩ := p
    obtain ⟨hge, hk16, hle, ha⟩ := h
    -- the loop has stopped at the last block
    obtain rfl : k = binsRead binSize := by omega
    refine Ends.bind (Ends.forUp (fun r t => t =
      ∑ r ∈ range r, ∑ q ∈ range (binsRead binSize / 16), e (16 * q + r)) (Nat.zero_le _)
      (sum_range_zero _).symm ?_) fun p hp => Ends.ok ?_
    · intro r t _ hr ht
      subst ht
      rw [ha.get_ok hr]
      exact Ends.ok (sum_range_succ _ r).symm
    · rw [hp.2, sum_lanes, hbins, Nat.mul_div_cancel_left _ (by decide)]

/-- A run of the inner loop reads every block it begins. -/
theorem yields_sumTot (spectralData : Arr ℕ K) (samplingRate binSize l : ℕ) :
    Yields (Libmfcc.getCoefficient.sumTot spectralData samplingRate binSize l) fun _ =>
      ∀ k < u32 (binSize + (2 ^ 32 - 1)), k % 16 = 0 → ∀ r < 16,
        spectralData.dom (k + r) = true := by
  refine Yields.bind (Yields.forStep (fun k _ => k % 16 = 0 ∧ ∀ k' < k, k' % 16 = 0 → ∀ r < 16,
    spectralData.dom (k' + r) = true) ⟨rfl, fun k' hk' => absurd hk' (Nat.not_lt_zero k')⟩ ?_) ?_
  · intro k s _ hk h
    obtain ⟨hk16, hread⟩ := h
    refine Yields.bind (Yields.forUp (fun r _ => ∀ r' < r, spectralData.dom (k + r') = true)
      (Nat.zero_le _) (fun r' hr' => absurd hr' (Nat.not_lt_zero r')) ?_) fun s' hs' => ?_
    · intro r s _ _ hr
      refine (Arr.yields_get s r).bind fun _ _ => (Arr.yields_get spectralData (k + r)).bind
        fun v hv => (Arr.yields_set s r _).mono fun _ _ r' hr' => ?_
      rcases Nat.lt_succ_iff_lt_or_eq.1 hr' with hr' | rfl
      · exact hr r' hr'
      · exact hv.1
    · refine Yields.ok ⟨by rw [Nat.add_mod_right, hk16], fun k' hk' hk'16 r hr => ?_⟩
      rcases Nat.lt_or_ge k' k with hlt | hge
      · exact hread k' hlt hk'16 r hr
      · obtain rfl : k' = k := by omega
        exact hs'.2 r hr
  · intro t h
    obtain ⟨k, s⟩ := t
    obtain ⟨hk, -, hread⟩ := h
    refine (Yields.self _).bind fun _ _ => Yields.ok fun k' hk' => hread k' ?_
    exact Nat.lt_of_lt_of_le hk' hk

theorem ends_getCoefficient {numFilters binSize m : ℕ} (samplingRate : ℕ)
    (hs : m < numFilters → ∀ i < binsRead binSize, spectralData.Assigned i) :
    Ends (Libmfcc.getCoefficient spectralData samplingRate numFilters binSize m)
      fun _ => True := by
  unfold Libmfcc.getCoefficient
  split
  · exact Ends.ok trivial
  · rename_i hm
    obtain ⟨s, hs⟩ := Arr.exists_holds 0 (hs (Nat.not_le.1 hm))
    refine Ends.bind (Ends.forUp (fun _ _ => True) (by omega) trivial fun l _ _ _ _ =>
      (ends_sumTot samplingRate l hs).bind fun _ _ => Ends.ok trivial) fun _ _ =>
      Ends.ok trivial

theorem yields_getCoefficient (spectralData : Arr ℕ K) {samplingRate numFilters binSize m : ℕ}
    (hm : m < numFilters) :
    Yields (Libmfcc.getCoefficient spectralData samplingRate numFilters binSize m) fun _ =>
      ∀ k < u32 (binSize + (2 ^ 32 - 1)), k % 16 = 0 → ∀ r < 16,
        spectralData.dom (k + r) = true := by
  unfold Libmfcc.getCoefficient
  rw [if_neg (Nat.not_le.2 hm)]
  refine Yields.bind (Yields.forUp (fun l _ => 1 < l → ∀ k < u32 (binSize + (2 ^ 32 - 1)),
    k % 16 = 0 → ∀ r < 16, spectralData.dom (k + r) = true) (by omega)
    (fun h => absurd h (Nat.lt_irrefl 1)) fun l _ _ _ _ =>
      (yields_sumTot spectralData samplingRate binSize l).bind fun _ h => Yields.ok fun _ => h) ?_
  intro s hr
  obtain ⟨_, _⟩ := s
  obtain ⟨-, h⟩ := hr
  exact Yields.ok (h (by omega))

/-- **The energy of the plain loop.** -/
theorem ends_innerSum {s : ℕ → K} {binSize : ℕ} (samplingRate l : ℕ) (h1 : 1 ≤ binSize)
    (h32 : binSize < 2 ^ 32) (hs : ∀ i < binSize, spectralData.Holds i (s i)) :
    Ends (Libmfcc1.getCoefficient.innerSum spectralData samplingRate binSize l)
      (· = ∑ i ∈ range (binSize - 1), binEnergy s samplingRate binSize l i) := by
  unfold Libmfcc1.getCoefficient.innerSum
  rw [u32_pred h1, Nat.mod_eq_of_lt (by omega)]
  refine Ends.bind (Ends.forUp (fun k t => t =
    ∑ i ∈ range k, binEnergy s samplingRate binSize l i) (Nat.zero_le _) (sum_range_zero _).symm ?_)
    fun p hp => Ends.ok hp.2
  intro k t _ hk ht
  subst ht
  rw [Arr.get_ok (hs k (by omega))]
  exact Ends.ok (sum_range_succ _ k).symm

end

/-! ## The last bin -/

/-- The filters that have a weight are below 15937 Hz. -/
theorem getCenterFrequency_le {b : ℕ} (hb : b ≤ 49) :
    Libmfcc.getCenterFrequency b ≤ (15937 : ℝ) := by
  unfold Libmfcc.getCenterFrequency
  split
  · norm_num
  · rename_i h0
    split
    · rename_i h14
      have : (b : ℝ) ≤ 14 := by exact_mod_cast h14.2
      linarith
    · rename_i h14
      have hcast : (b : ℝ) - 14 = ((b - 14 : ℕ) : ℝ) := by
        rw [Nat.cast_sub (by omega)]
        norm_num
      have hpow : (1.0711703 : ℝ) ^ (b - 14) ≤ 1.0711703 ^ 35 :=
        pow_le_pow_right₀ (by norm_num) (by omega)
      have hrpow : LibM.pow (1.0711703 : ℝ) ((b : ℝ) - 14) = 1.0711703 ^ (b - 14) := by
        rw [hcast]
        exact Real.rpow_natCast _ _
      rw [hrpow]
      calc (1.0711703 : ℝ) ^ (b - 14) * 1073.4 ≤ 1.0711703 ^ 35 * 1073.4 :=
            mul_le_mul_of_nonneg_right hpow (by norm_num)
        _ ≤ 15937 := by norm_num

theorem getMagnitudeFactor_eq_zero {l : ℕ} (hl : 48 < l) :
    Libmfcc.getMagnitudeFactor l = (0 : ℝ) := by
  rw [Libmfcc.getMagnitudeFactor, if_neg (by omega), if_neg (by omega)]

/-- The last bin of a frame of 256 samples at 16 kHz is above the filters up to 48, and the filters
after them have no weight. -/
theorem getFilterParameter_last {l : ℕ} (hl : 1 ≤ l) :
    Libmfcc.getFilterParameter 16000 256 255 l = (0 : ℝ) := by
  have hboundary : u32 (255 * 16000) / 256 = 15937 := rfl
  rw [Libmfcc.getFilterParameter, hboundary, Nat.cast_ofNat]
  rcases Nat.lt_or_ge 48 l with h48 | h48
  · rw [getMagnitudeFactor_eq_zero h48]
    simp only [mul_zero, ite_self]
  · have hnext : u32 (l + 1) = l + 1 := by
      rw [u32, Nat.mod_eq_of_lt (by omega)]
    have hthis : ¬(15937 : ℝ) < Libmfcc.getCenterFrequency l :=
      not_lt.2 (getCenterFrequency_le (by omega))
    have habove : ¬(15937 : ℝ) < Libmfcc.getCenterFrequency (l + 1) :=
      not_lt.2 (getCenterFrequency_le (by omega))
    rw [hnext]
    split
    · rfl
    · rw [if_neg fun h => hthis h.2, if_neg fun h => habove h.2]

/-- **The unrolled filter bank adds the last bin to the plain one**, on a whole number of blocks;
with the arguments of `set_mfcc` that bin is zero and the two energies are equal. -/
theorem sumTot_eq_innerSum (s : ℕ → ℝ) (samplingRate binSize l : ℕ) (h1 : 0 < binSize)
    (h16 : 16 ∣ binSize) (h32 : binSize < 2 ^ 32) (hl : 1 ≤ l) :
    ∃ innerSum,
      Libmfcc1.getCoefficient.innerSum (Arr.ofFn binSize s) samplingRate binSize l =
        .ok innerSum ∧
      Libmfcc.getCoefficient.sumTot (Arr.ofFn binSize s) samplingRate binSize l =
        .ok (innerSum + |s (binSize - 1) *
          Libmfcc.getFilterParameter samplingRate binSize (binSize - 1) l|) ∧
      (samplingRate = 16000 → binSize = 256 →
        |s (binSize - 1) * Libmfcc.getFilterParameter samplingRate binSize (binSize - 1) l| = 0 ∧
        Libmfcc.getCoefficient.sumTot (Arr.ofFn binSize s) samplingRate binSize l =
          .ok innerSum) := by
  have hs : ∀ i < binSize, (Arr.ofFn binSize s).Holds i (s i) := fun i hi => Arr.holds_ofFn s hi
  have hbins := binsRead_eq h1 h32 h16
  obtain ⟨_, hplain, rfl⟩ := ends_innerSum samplingRate l h1 h32 hs
  have hread : ∀ i < binsRead binSize, (Arr.ofFn binSize s).Holds i (s i) := fun i hi =>
    hs i (hbins ▸ hi)
  obtain ⟨_, hunrolled, rfl⟩ := ends_sumTot samplingRate l hread
  rw [hbins, ← Nat.sub_add_cancel h1, sum_range_succ, Nat.sub_add_cancel h1, binEnergy.eq_def s
    samplingRate binSize l (binSize - 1)] at hunrolled
  refine ⟨_, hplain, hunrolled, fun hrate hsize => ?_⟩
  subst hrate hsize
  have hzero : |s (256 - 1) * Libmfcc.getFilterParameter 16000 256 (256 - 1) l| = 0 := by
    rw [getFilterParameter_last hl, mul_zero, abs_zero]
  exact ⟨hzero, by rw [hunrolled, hzero, add_zero]⟩

theorem sumTot_eq_innerSum_256 : ∃ innerSum,
    Libmfcc1.getCoefficient.innerSum (Arr.ofFn 256 fun _ => (1 : ℝ)) 16000 256 25 =
      .ok innerSum ∧
    Libmfcc.getCoefficient.sumTot (Arr.ofFn 256 fun _ => (1 : ℝ)) 16000 256 25 = .ok innerSum := by
  obtain ⟨e, h1, -, h2⟩ := sumTot_eq_innerSum (fun _ => 1) 16000 256 25 (by decide) ⟨16, rfl⟩
    (by decide) (by decide)
  exact ⟨e, h1, (h2 rfl rfl).2⟩

end TlVoix
