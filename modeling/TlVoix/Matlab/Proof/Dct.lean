import TlVoix.Matlab.Mymfcc
import Mathlib.LinearAlgebra.Matrix.ToLinearEquiv

/-!
# The cepstral step of `mymfcc` is not the DCT

The loops weight the sample `i` where the DCT weights the coefficient, and they take the frequency
from the sample and the phase from the coefficient, one step too early (`cepstre`): that is the
transposed matrix with its first row twice.

* `dct_of_holds`: the result of the two loops.
* `mymfcc_dct_iff`: the step is the orthonormal DCT, and injective, exactly for one filter.
-/

namespace TlVoix.Matlab

open Checked Finset

/-! ## The loops -/

/-- The weight `w(i)`. -/
noncomputable def mymfcc.poids (nFiltres i : ℕ) : ℝ :=
  Real.sqrt (Function.update (fun _ => ((2 : ℕ) : ℝ)) 1 1 i / nFiltres)

/-- Term `i` of coefficient `j`, without the sample. -/
noncomputable def mymfcc.facteur (nFiltres j i : ℕ) : ℝ :=
  mymfcc.poids nFiltres i *
    Real.cos ((((2 * j - 3) * (i - 1) : ℤ) : ℝ) * Real.pi / (2 * nFiltres : ℕ))

/-- Coefficient `j` of the result. -/
noncomputable def mymfcc.cepstre (nFiltres : ℕ) (sonLog : ℕ → ℝ) (j : ℕ) : ℝ :=
  ∑ i ∈ Ico 1 (nFiltres + 1), mymfcc.facteur nFiltres j i * sonLog i

theorem dct_of_holds {n : ℕ} (hn : 1 ≤ n) {a : Arr ℕ ℝ} {sonLog : ℕ → ℝ}
    (hlog : ∀ i, 1 ≤ i → i ≤ n → a.Holds i (sonLog i)) :
    mymfcc.dct n a = .ok (Arr.full (row n) (mymfcc.cepstre n sonLog)) := by
  have hw : (Arr.full (row n) fun _ => ((2 : ℕ) : ℝ)).set 1 1 =
      .ok (Arr.full (row n) (Function.update (fun _ => ((2 : ℕ) : ℝ)) 1 1)) :=
    Arr.set_full _ (by simpa using hn) 1
  simp only [mymfcc.dct, hw, ok_bind, Arr.map_full]
  refine ends_eq_iff.1 ((ends_fillRow fun j hj1 hjn f hf => ?_).bind fun r hr => Ends.ok hr)
  have hj : row n j = true := row_eq_true.2 ⟨hj1, hjn⟩
  -- cell `j` holds the sum of the terms before `i`
  refine Ends.bind (Ends.forUp (fun i a => a = Arr.full (row n) (Function.update f j
    (∑ k ∈ Ico 1 i, mymfcc.facteur n j k * sonLog k))) (by omega) ?_ ?_) ?_
  · rw [Ico_self, sum_empty, Function.update_eq_self_iff.2 hf.symm]
  · intro i a hi1 hi ha
    have hi' : row n i = true := row_eq_true.2 ⟨hi1, Nat.lt_succ_iff.1 hi⟩
    rw [ha, Arr.get_full _ hj, Arr.get_full _ hi', Arr.get_ok (hlog i hi1 (by omega))]
    simp only [ok_bind, Function.update_self]
    rw [Arr.set_full _ hj, Function.update_idem, sum_Ico_succ_top hi1]
    exact ⟨_, rfl, rfl⟩
  · intro r hr
    exact Ends.ok hr.2

theorem dct_full {n : ℕ} (hn : 1 ≤ n) (sonLog : ℕ → ℝ) :
    mymfcc.dct n (Arr.full (row n) sonLog) = .ok (Arr.full (row n) (mymfcc.cepstre n sonLog)) :=
  dct_of_holds hn fun _ hi1 hin => Arr.holds_full _ (row_eq_true.2 ⟨hi1, hin⟩)

/-! ## The DCT -/

/-- Coefficient `k` of the orthonormal DCT of the samples `1, …, n`, with the weights that `dct.m`
gives. -/
noncomputable def dctCoeff (n : ℕ) (x : ℕ → ℝ) (k : ℕ) : ℝ :=
  (if k = 0 then Real.sqrt (1 / n) else Real.sqrt ((2 : ℕ) / n)) *
    ∑ i ∈ Icc 1 n, x i * Real.cos (Real.pi * (2 * i - 1 : ℤ) * k / (2 * n : ℕ))

/-- The cepstral step computes the DCT of `sonLog`. -/
def IsDct (nFiltres : ℕ) (sonLog : ℕ → ℝ) : Prop :=
  Ends (mymfcc.dct nFiltres (Arr.full (row nFiltres) sonLog)) fun sonDct =>
    ∀ k < nFiltres, sonDct.Holds (k + 1) (dctCoeff nFiltres sonLog k)

/-- The cepstral step loses nothing of the vectors of `n` values. -/
def LosesNothing (nFiltres : ℕ) : Prop :=
  Set.InjOn (mymfcc.dct nFiltres) (Set.range (Arr.full (row nFiltres) : (ℕ → ℝ) → Arr ℕ ℝ))

theorem isDct_iff {n : ℕ} (hn : 1 ≤ n) (sonLog : ℕ → ℝ) :
    IsDct n sonLog ↔ ∀ k < n, mymfcc.cepstre n sonLog (k + 1) = dctCoeff n sonLog k := by
  have hrow : ∀ k < n, row n (k + 1) = true := fun k hk =>
    row_eq_true.2 ⟨Nat.le_add_left 1 k, hk⟩
  rw [IsDct, dct_full hn]
  refine ⟨fun h k hk => ?_, fun h => Ends.ok fun k hk => ?_⟩
  · obtain ⟨a, ha, hdct⟩ := h
    rw [Except.ok.injEq] at ha
    exact (Arr.holds_full _ (hrow k hk)).inj (ha ▸ hdct k hk)
  · rw [← h k hk]
    exact Arr.holds_full _ (hrow k hk)

/-- The phases of the first two coefficients are opposite. -/
theorem facteur_one_eq_two (n i : ℕ) : mymfcc.facteur n 1 i = mymfcc.facteur n 2 i := by
  rw [mymfcc.facteur, mymfcc.facteur, ← Real.cos_neg]
  congr 2
  push_cast
  ring

theorem cepstre_one_eq_two (n : ℕ) (sonLog : ℕ → ℝ) :
    mymfcc.cepstre n sonLog 1 = mymfcc.cepstre n sonLog 2 :=
  sum_congr rfl fun i _ => congrArg (· * sonLog i) (facteur_one_eq_two n i)

/-! ## One filter -/

theorem cepstre_one_filter (sonLog : ℕ → ℝ) : mymfcc.cepstre 1 sonLog 1 = sonLog 1 := by
  simp [mymfcc.cepstre, mymfcc.facteur, mymfcc.poids]

theorem isDct_one (sonLog : ℕ → ℝ) : IsDct 1 sonLog := by
  refine (isDct_iff le_rfl sonLog).2 fun k hk => ?_
  obtain rfl : k = 0 := Nat.lt_one_iff.1 hk
  simp [cepstre_one_filter, dctCoeff]

theorem losesNothing_one : LosesNothing 1 := by
  intro a ha b hb hab
  obtain ⟨x, rfl⟩ := ha
  obtain ⟨y, rfl⟩ := hb
  rw [dct_full le_rfl, dct_full le_rfl, Except.ok.injEq, Arr.full_inj] at hab
  refine Arr.full_inj.2 fun i hi => ?_
  obtain rfl : i = 1 := le_antisymm (row_eq_true.1 hi).2 (row_eq_true.1 hi).1
  simpa only [cepstre_one_filter] using hab 1 hi

/-! ## Several filters -/

/-- On the last unit vector the first coefficient of the DCT is positive, the second one is not. -/
theorem not_isDct_single {n : ℕ} (hn : 2 ≤ n) : ¬IsDct n (Pi.single n 1) := by
  intro h
  have hn0 : (0 : ℝ) < n := by exact_mod_cast (by omega : 0 < n)
  have hcoeff : ∀ k, dctCoeff n (Pi.single n 1) k =
      (if k = 0 then Real.sqrt (1 / n) else Real.sqrt ((2 : ℕ) / n)) *
        Real.cos (Real.pi * (2 * n - 1 : ℤ) * k / (2 * n : ℕ)) := by
    intro k
    rw [dctCoeff, sum_eq_single_of_mem n (mem_Icc.2 ⟨by omega, le_rfl⟩), Pi.single_eq_same,
      one_mul]
    intro i _ hi
    rw [Pi.single_eq_of_ne hi, zero_mul]
  have hdct := (isDct_iff (by omega) _).1 h
  have h0 : 0 < dctCoeff n (Pi.single n 1) 0 := by
    rw [hcoeff]
    simp [hn0]
  have h1 : dctCoeff n (Pi.single n 1) 1 ≤ 0 := by
    have hcos : Real.cos (Real.pi * (2 * n - 1 : ℤ) * (1 : ℕ) / (2 * n : ℕ)) ≤ 0 := by
      have hn2 : (2 : ℝ) ≤ n := by exact_mod_cast hn
      have hpi := Real.pi_pos
      apply Real.cos_nonpos_of_pi_div_two_le_of_le
      · rw [le_div_iff₀ (by positivity)]
        push_cast
        nlinarith
      · rw [div_le_iff₀ (by positivity)]
        push_cast
        nlinarith
    rw [hcoeff]
    exact mul_nonpos_of_nonneg_of_nonpos (Real.sqrt_nonneg _) hcos
  have heq := cepstre_one_eq_two n (Pi.single n 1)
  rw [hdct 0 (by omega), hdct 1 (by omega)] at heq
  exact absurd (heq ▸ h0) (not_lt.2 h1)

/-- The matrix of the cepstral step. -/
noncomputable def mymfcc.matrice (nFiltres : ℕ) : Matrix (Fin nFiltres) (Fin nFiltres) ℝ :=
  fun j i => mymfcc.facteur nFiltres (j + 1) (i + 1)

theorem cepstre_eq_mulVec {n : ℕ} (v : Fin n → ℝ) (sonLog : ℕ → ℝ)
    (hv : ∀ i : Fin n, sonLog (i + 1) = v i) (j : Fin n) :
    mymfcc.cepstre n sonLog (j + 1) = (mymfcc.matrice n).mulVec v j := by
  rw [mymfcc.cepstre, sum_Ico_eq_sum_range, Nat.add_sub_cancel, ← Fin.sum_univ_eq_sum_range
    fun i => mymfcc.facteur n (j + 1) (1 + i) * sonLog (1 + i)]
  refine sum_congr rfl fun i _ => ?_
  rw [Nat.add_comm 1, hv]
  rfl

theorem matrice_rows {n : ℕ} (hn : 2 ≤ n) :
    mymfcc.matrice n ⟨0, by omega⟩ = mymfcc.matrice n ⟨1, hn⟩ := by
  funext i
  exact facteur_one_eq_two n (i + 1)

/-- A matrix with two equal rows has a kernel. -/
theorem not_losesNothing {n : ℕ} (hn : 2 ≤ n) : ¬LosesNothing n := by
  intro hinj
  have hdet : (mymfcc.matrice n).det = 0 :=
    Matrix.det_zero_of_row_eq (by simp) (matrice_rows hn)
  obtain ⟨v, hv, hker⟩ := Matrix.exists_mulVec_eq_zero_iff.2 hdet
  let x : ℕ → ℝ := fun i => if h : i - 1 < n then v ⟨i - 1, h⟩ else 0
  have hx : ∀ i : Fin n, x (i + 1) = v i := fun i => dif_pos i.2
  -- `x` and zero have the same cepstrum
  have hdct : mymfcc.dct n (Arr.full (row n) x) = mymfcc.dct n (Arr.full (row n) fun _ => 0) := by
    rw [dct_full (by omega), dct_full (by omega)]
    refine congrArg Except.ok (Arr.full_inj.2 fun k hk => ?_)
    obtain ⟨hk1, hkn⟩ := row_eq_true.1 hk
    obtain ⟨j, rfl⟩ := Nat.exists_eq_add_of_le' hk1
    have hzero : mymfcc.cepstre n (fun _ => 0) (j + 1) = 0 := by simp [mymfcc.cepstre]
    rw [hzero, cepstre_eq_mulVec v x hx ⟨j, hkn⟩, hker]
    rfl
  have hfull := Arr.full_inj.1 (hinj ⟨x, rfl⟩ ⟨_, rfl⟩ hdct)
  refine hv (funext fun i => ?_)
  rw [← hx i, hfull (i + 1) (row_eq_true.2 ⟨Nat.le_add_left 1 i, i.2⟩)]
  rfl

theorem mymfcc_dct_iff (nFiltres : ℕ) (h : 1 ≤ nFiltres) :
    (∀ sonLog, IsDct nFiltres sonLog ∧ LosesNothing nFiltres ↔ nFiltres = 1) ∧
      ((∀ sonLog, IsDct nFiltres sonLog) ↔ nFiltres = 1) ∧
      (LosesNothing nFiltres ↔ nFiltres = 1) := by
  rcases Nat.lt_or_eq_of_le h with h | rfl
  · have hne : nFiltres ≠ 1 := Nat.ne_of_gt h
    have hinj := not_losesNothing h
    exact ⟨fun _ => iff_of_false (fun h => hinj h.2) hne,
      iff_of_false (fun hall => not_isDct_single h (hall _)) hne, iff_of_false hinj hne⟩
  · exact ⟨fun sonLog => iff_of_true ⟨isDct_one sonLog, losesNothing_one⟩ rfl,
      iff_of_true isDct_one rfl, iff_of_true losesNothing_one rfl⟩

theorem mymfcc_dct_iff_two :
    1 ≤ 2 ∧ ¬((∀ sonLog, IsDct 2 sonLog) ∧ LosesNothing 2) := by
  refine ⟨by decide, fun h => ?_⟩
  exact absurd ((mymfcc_dct_iff 2 (by decide)).2.2.1 h.2) (by decide)

/-- Two filters, of which the first one is silent: the two coefficients are equal. -/
theorem not_mymfcc_dct : ¬(IsDct 2 (Pi.single 2 1) ∧ LosesNothing 2) :=
  fun h => not_isDct_single le_rfl h.1

end TlVoix.Matlab
