import TlVoix.Matlab.Mymfcc
import TlVoix.Lib.Hat

/-!
# The loops of the filter bank

Filter `i` goes over the bins of `raies`, in `(bornes(1, i), bornes(3, i)]`, with the weights
`pente` of one line.

* `bornesFiltres_eq`: the table of the bounds.
* `appliquer_eq`: the two loops keep `sum_s` the row sums of `spectres` (`etat`), and only the cells
  before the current one are filled (`avant`); `set_etat` is one bin.
* `ends_appliquer`: what they compute.
-/

namespace TlVoix.Matlab

open Checked Finset Hat

/-! ## The bounds -/

/-- The three bounds of each filter. -/
noncomputable def mymfcc.bornes (fMin w : ℝ) (p : ℕ × ℕ) : ℝ :=
  mymfcc.borne w fMin (((p.2 : ℤ) + p.1 - 2 : ℤ) : ℝ)

theorem bornes_one (fMin w : ℝ) (i : ℕ) :
    mymfcc.bornes fMin w (1, i) = mymfcc.borne w fMin (i - 1) := by
  rw [mymfcc.bornes]
  congr 1
  push_cast
  ring

theorem bornes_two (fMin w : ℝ) (i : ℕ) :
    mymfcc.bornes fMin w (2, i) = mymfcc.borne w fMin i := by
  rw [mymfcc.bornes]
  congr 1
  push_cast
  ring

theorem bornes_three (fMin w : ℝ) (i : ℕ) :
    mymfcc.bornes fMin w (3, i) = mymfcc.borne w fMin (i + 1) := by
  rw [mymfcc.bornes]
  congr 1
  push_cast
  ring

theorem bornesFiltres_eq (n : ℕ) (fMin w : ℝ) :
    mymfcc.bornesFiltres n fMin w = .ok (Arr.full (matrix 3 n) (mymfcc.bornes fMin w)) := by
  refine ends_eq_iff.1 (Ends.bind (Ends.forUp (fun i a => a = Arr.full (matrix 3 n)
    fun p => if p.2 < i then mymfcc.bornes fMin w p else fMin) (by omega) ?_ ?_) ?_)
  · refine Arr.full_inj.2 fun p hp => (if_neg ?_).symm
    have := matrix_eq_true.1 hp
    omega
  · intro i a hi1 hi ha
    have hin : i ≤ n := Nat.lt_succ_iff.1 hi
    have h1 : matrix 3 n (1, i) = true := matrix_eq_true.2 ⟨by simp, hi1, hin⟩
    have h2 : matrix 3 n (2, i) = true := matrix_eq_true.2 ⟨by simp, hi1, hin⟩
    have h3 : matrix 3 n (3, i) = true := matrix_eq_true.2 ⟨by simp, hi1, hin⟩
    simp only [ha, Arr.get_full _ h1, Arr.get_full _ h2, Arr.get_full _ h3, Arr.set_full _ h1,
      Arr.set_full _ h2, Arr.set_full _ h3, ok_bind]
    refine ⟨_, rfl, Arr.full_inj.2 fun p hp => ?_⟩
    obtain ⟨r, k⟩ := p
    have hr := (matrix_eq_true.1 hp).1
    by_cases hk : k = i
    · subst hk
      have hr' : r = 1 ∨ r = 2 ∨ r = 3 := by
        simp only at hr
        omega
      rcases hr' with rfl | rfl | rfl
      · simp [bornes_one]
      · simp [bornes_two]
      · simp [bornes_three]
    · have hki : k < i + 1 ↔ k < i := by omega
      simp [hk, hki]
  · intro r hr
    refine Ends.ok (hr.2.trans (Arr.full_inj.2 fun p hp => if_pos ?_))
    have := matrix_eq_true.1 hp
    omega

/-! ## The loops -/

section
variable (n : ℕ) (coeff : ℝ) (b : ℕ × ℕ → ℝ) (sonFft : List ℝ)

/-- The bins that filter `i` goes over. -/
noncomputable def mymfcc.raies (i : ℕ) : Finset ℕ := bins (b (1, i)) (b (3, i)) coeff

/-- The weight that filter `i` gives to bin `j`. -/
noncomputable def mymfcc.pente (i j : ℕ) : ℝ := ramp (b (1, i)) (b (2, i)) (j / coeff)

/-- What filter `i` takes from bin `j`. -/
noncomputable def mymfcc.apport (i j : ℕ) : ℝ :=
  if j ∈ mymfcc.raies coeff b i then sonFft.getD (j - 1) 0 * mymfcc.pente coeff b i j else 0

/-- `spectres` with the contents `f`, and the sums of its rows in `sum_s`. -/
noncomputable def mymfcc.etat (f : ℕ × ℤ → ℝ) : Arr (ℕ × ℤ) ℝ × Arr ℕ ℝ :=
  (Arr.full (matrixInt n sonFft.length) f, Arr.full (row (n * n)) fun i =>
    if i ≤ n then ∑ j ∈ Icc 1 sonFft.length, f (i, j) else 0)

/-- The contents of `spectres` once the filters before `i`, and the bins of filter `i` before `j`,
are applied. -/
noncomputable def mymfcc.avant (i : ℕ) (j : ℤ) (p : ℕ × ℤ) : ℝ :=
  if p.1 < i ∨ p.1 = i ∧ p.2 < j then mymfcc.apport coeff b sonFft p.1 p.2.toNat else 0

end

section
variable {n : ℕ} {coeff : ℝ} {b : ℕ × ℕ → ℝ} {sonFft : List ℝ}

theorem mem_raies {i j : ℕ} :
    j ∈ mymfcc.raies coeff b i ↔ ⌊b (1, i) * coeff⌋₊ < j ∧ j ≤ ⌊b (3, i) * coeff⌋₊ := mem_Ioc

theorem apport_of_mem {i j : ℕ} (h : j ∈ mymfcc.raies coeff b i) :
    mymfcc.apport coeff b sonFft i j =
      sonFft.getD (j - 1) 0 * (j / coeff - b (1, i)) / (b (2, i) - b (1, i)) := by
  rw [mymfcc.apport, if_pos h, mul_div_assoc]
  rfl

/-- Before the first filter, everything is zero. -/
theorem etat_start :
    mymfcc.etat n sonFft (mymfcc.avant coeff b sonFft 1 0) =
      (Arr.full (matrixInt n sonFft.length) fun _ => 0, Arr.full (row (n * n)) fun _ => 0) := by
  apply Prod.ext
  · refine Arr.full_inj.2 fun p hp => ?_
    have := matrixInt_eq_true.1 hp
    exact if_neg (by omega)
  · refine Arr.full_inj.2 fun i hi => ?_
    have := row_eq_true.1 hi
    have hzero : ∑ j ∈ Icc 1 sonFft.length, mymfcc.avant coeff b sonFft 1 0 (i, (j : ℤ)) = 0 :=
      sum_eq_zero fun j _ => if_neg (by simp only; omega)
    rw [hzero, ite_self]

theorem avant_congr {i i' : ℕ} {j j' : ℤ} (h : ∀ p : ℕ × ℤ, p.2.toNat ∈ mymfcc.raies coeff b p.1 →
      (p.1 < i ∨ p.1 = i ∧ p.2 < j ↔ p.1 < i' ∨ p.1 = i' ∧ p.2 < j')) :
    mymfcc.avant coeff b sonFft i j = mymfcc.avant coeff b sonFft i' j' := by
  funext p
  unfold mymfcc.avant mymfcc.apport
  by_cases hp : p.2.toNat ∈ mymfcc.raies coeff b p.1
  · simp only [h p hp]
  · simp [hp]

/-- A filter begins at its first bin. -/
theorem avant_first (i : ℕ) :
    mymfcc.avant coeff b sonFft i (⌊b (1, i) * coeff⌋₊ + 1) =
      mymfcc.avant coeff b sonFft i 0 := by
  apply avant_congr
  intro p hp
  have hlt := (mem_raies.1 hp).1
  by_cases hi : p.1 = i
  · rw [hi] at hlt ⊢
    omega
  · simp [hi]

/-- A filter is complete after its last bin. -/
theorem avant_last (i : ℕ) :
    mymfcc.avant coeff b sonFft i (⌊b (3, i) * coeff⌋₊ + 1) =
      mymfcc.avant coeff b sonFft (i + 1) 0 := by
  apply avant_congr
  intro p hp
  have hmem := mem_raies.1 hp
  have hpos : 0 ≤ p.2 := by omega
  by_cases hi : p.1 = i
  · rw [hi] at hmem ⊢
    omega
  · omega

theorem update_avant (i j : ℕ) :
    Function.update (mymfcc.avant coeff b sonFft i j) (i, (j : ℤ))
        (mymfcc.apport coeff b sonFft i j) =
      mymfcc.avant coeff b sonFft i (j + 1) := by
  funext p
  by_cases hp : p = (i, (j : ℤ))
  · subst hp
    simp [mymfcc.avant]
  · have hiff : p.1 < i ∨ p.1 = i ∧ p.2 < j ↔ p.1 < i ∨ p.1 = i ∧ p.2 < (j : ℤ) + 1 := by
      rw [Prod.ext_iff] at hp
      omega
    rw [Function.update_of_ne hp]
    simp only [mymfcc.avant, hiff]

theorem sum_update {f : ℕ × ℤ → ℝ} {i j m : ℕ} (h0 : f (i, j) = 0) (hj : j ∈ Icc 1 m) (v : ℝ) :
    ∑ k ∈ Icc 1 m, Function.update f (i, (j : ℤ)) v (i, k) = ∑ k ∈ Icc 1 m, f (i, k) + v := by
  rw [← sum_erase_add _ _ hj, ← sum_erase_add (Icc 1 m) (fun k : ℕ => f (i, k)) hj, h0, add_zero,
    Function.update_self]
  congr 1
  refine sum_congr rfl fun k hk => Function.update_of_ne ?_ _ _
  simpa using ne_of_mem_erase hk

/-- One bin: `spectres(i, j) = v` and its addition to `sum_s(i)`. -/
theorem set_etat {f : ℕ × ℤ → ℝ} {i j : ℕ} (hi : row n i = true) (hj : j ∈ Icc 1 sonFft.length)
    (h0 : f (i, j) = 0) (v : ℝ) :
    (do
      let spectres ← (mymfcc.etat n sonFft f).1.set (i, (j : ℤ)) v
      let sumS ← (mymfcc.etat n sonFft f).2.set i
        ((← (mymfcc.etat n sonFft f).2.get i) + (← spectres.get (i, (j : ℤ))))
      pure (spectres, sumS)) =
      .ok (mymfcc.etat n sonFft (Function.update f (i, (j : ℤ)) v)) := by
  obtain ⟨hi1, hin⟩ := row_eq_true.1 hi
  have hij : matrixInt n sonFft.length (i, (j : ℤ)) = true := by
    rw [mem_Icc] at hj
    exact matrixInt_eq_true.2 ⟨⟨hi1, hin⟩, by simp only; omega, by simp only; omega⟩
  have hii : row (n * n) i = true := row_eq_true.2 ⟨hi1, hin.trans (Nat.le_mul_self n)⟩
  simp only [mymfcc.etat, Arr.set_full _ hij, Arr.get_full _ hij, Arr.get_full _ hii,
    Arr.set_full _ hii, ok_bind, Function.update_self]
  refine congrArg Except.ok (Prod.ext rfl (Arr.full_inj.2 fun k _ => ?_))
  by_cases hk : k = i
  · subst hk
    rw [Function.update_self, if_pos hin, if_pos hin, sum_update h0 hj]
  · rw [Function.update_of_ne hk]
    refine if_congr Iff.rfl (sum_congr rfl fun m _ => (Function.update_of_ne ?_ _ _).symm) rfl
    simp [hk]

end

theorem appliquer_eq {n : ℕ} {coeff : ℝ} {b : ℕ × ℕ → ℝ} {sonFft : List ℝ}
    (hb : ∀ i, 1 ≤ i → i ≤ n → 0 ≤ b (1, i) * coeff ∧ b (1, i) * coeff ≤ b (3, i) * coeff ∧
      b (3, i) * coeff ≤ sonFft.length) :
    mymfcc.appliquer n coeff (Arr.full (matrix 3 n) b) sonFft =
      .ok (mymfcc.etat n sonFft (mymfcc.avant coeff b sonFft (n + 1) 0)) := by
  refine ends_eq_iff.1 (Ends.bind (Ends.forUp (fun i s =>
    s = mymfcc.etat n sonFft (mymfcc.avant coeff b sonFft i 0)) (by omega) ?_ ?_) ?_)
  · exact etat_start.symm
  · intro i s hi1 hi hs
    have hin : i ≤ n := Nat.lt_succ_iff.1 hi
    have h1 : matrix 3 n (1, i) = true := matrix_eq_true.2 ⟨by simp, hi1, hin⟩
    have h2 : matrix 3 n (2, i) = true := matrix_eq_true.2 ⟨by simp, hi1, hin⟩
    have h3 : matrix 3 n (3, i) = true := matrix_eq_true.2 ⟨by simp, hi1, hin⟩
    obtain ⟨hlo, hle, hhi⟩ := hb i hi1 hin
    rw [hs, ← avant_last, ← avant_first]
    simp only [Arr.get_full _ h1, Arr.get_full _ h2, Arr.get_full _ h3, ok_bind,
      ← Int.natCast_floor_eq_floor hlo, ← Int.natCast_floor_eq_floor (hlo.trans hle)]
    refine Ends.forRange (fun j s =>
      s = mymfcc.etat n sonFft (mymfcc.avant coeff b sonFft i j)) ?_ rfl ?_
    · have := Nat.floor_le_floor hle
      omega
    · intro j s hj1 hj hs
      obtain ⟨j, rfl⟩ : ∃ k : ℕ, j = k := ⟨j.toNat, by omega⟩
      have hmem : j ∈ mymfcc.raies coeff b i := mem_raies.2 ⟨by omega, by omega⟩
      have hlen : j ≤ sonFft.length := by
        have := Nat.floor_le_of_le hhi
        omega
      rw [index_ok (by omega) hlen 0, ok_bind, Int.cast_natCast, ← apport_of_mem hmem, hs,
        set_etat (row_eq_true.2 ⟨hi1, hin⟩) (mem_Icc.2 ⟨by omega, hlen⟩) (by simp [mymfcc.avant]),
        update_avant]
      exact Ends.ok rfl
  · intro r hr
    exact Ends.ok hr.2

/-- What the bank computes, from its bounds. -/
theorem ends_appliquer {n : ℕ} {coeff : ℝ} {b : ℕ × ℕ → ℝ} {sonFft : List ℝ}
    (hb : ∀ i, 1 ≤ i → i ≤ n → 0 ≤ b (1, i) * coeff ∧ b (1, i) * coeff ≤ b (3, i) * coeff ∧
      b (3, i) * coeff ≤ sonFft.length) :
    Ends (mymfcc.appliquer n coeff (Arr.full (matrix 3 n) b) sonFft) fun r =>
      ∀ i, 1 ≤ i → i ≤ n →
        (∀ j ∈ mymfcc.raies coeff b i, r.1.Holds (i, (j : ℤ))
          (sonFft.getD (j - 1) 0 * mymfcc.pente coeff b i j)) ∧
        r.2.Holds i (∑ j ∈ mymfcc.raies coeff b i,
          sonFft.getD (j - 1) 0 * mymfcc.pente coeff b i j) := by
  refine ⟨_, appliquer_eq hb, fun i hi1 hin => ?_⟩
  have hsub : mymfcc.raies coeff b i ⊆ Icc 1 sonFft.length := by
    intro j hj
    have hj := mem_raies.1 hj
    exact mem_Icc.2 ⟨by omega, hj.2.trans (Nat.floor_le_of_le (hb i hi1 hin).2.2)⟩
  have hcell : ∀ j : ℕ, mymfcc.avant coeff b sonFft (n + 1) 0 (i, (j : ℤ)) =
      mymfcc.apport coeff b sonFft i j := fun j => if_pos (.inl (Nat.lt_succ_of_le hin))
  refine ⟨fun j hj => ?_, ?_⟩
  · have hmem := mem_Icc.1 (hsub hj)
    have hij : matrixInt n sonFft.length (i, (j : ℤ)) = true :=
      matrixInt_eq_true.2 ⟨⟨hi1, hin⟩, by simp only; omega, by simp only; omega⟩
    refine ⟨hij, (if_pos hij).trans ?_⟩
    rw [hcell, mymfcc.apport, if_pos hj]
  · have hii : row (n * n) i = true := row_eq_true.2 ⟨hi1, hin.trans (Nat.le_mul_self n)⟩
    refine ⟨hii, (if_pos hii).trans (congrArg some ?_)⟩
    simp only [hcell, if_pos hin, mymfcc.apport]
    rw [← sum_filter, filter_mem_eq_inter, inter_eq_right.2 hsub]

end TlVoix.Matlab
