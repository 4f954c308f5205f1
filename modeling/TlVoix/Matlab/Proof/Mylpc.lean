import TlVoix.Cpp.Proof.Lpc
import TlVoix.Lib.Prediction
import TlVoix.Matlab.Mylpc
import TlVoix.Matlab.Proof.Mymfcc
import Mathlib.Algebra.Star.Rat
import Mathlib.Data.List.GetD

/-!
# `mylevinsondurbin` predicts a signal best

* `acf_eq`: the lags that the recursion keeps are the biased autocorrelation.
* `ends_step`: an iteration is the Levinson step. The invariant is `Recursion`.
* `mylevinsondurbin_least`: of the filters of its order that begin with 1, the one it returns leaves
  the least energy of a signal that is not zero, and `sigma2` is that energy for one sample.
* `setLpc_mylevinsondurbin`: `set_lpc` computes the same coefficients.
* `mylpc_smul`: `mylpc` gives those of each windowed frame, whatever the volume of the recording.
-/

namespace TlVoix.Matlab

open Checked Finset Toeplitz

section
variable {K : Type}

theorem reverse_coeffs (a : ℕ → K) (n : ℕ) :
    (coeffs a n).reverse = (List.range n).map fun j => a (n - j) := by
  refine List.ext_getElem (by simp [coeffs]) fun j h1 h2 => ?_
  have hj : j < n := by
    simpa using h2
  simp only [coeffs, List.getElem_reverse, List.getElem_map, List.getElem_range, List.length_map,
    List.length_range]
  congr 1
  omega

theorem take_coeffs (a : ℕ → K) {k n : ℕ} (h : k ≤ n) : (coeffs a n).take k = coeffs a k := by
  rw [coeffs, coeffs, ← List.map_take, List.take_range, Nat.min_eq_left h]

variable [Field K]

theorem sum_map_range (f : ℕ → K) (n : ℕ) : ((List.range n).map f).sum = ∑ j ∈ range n, f j := by
  induction n with
  | zero => rfl
  | succ n ih =>
    rw [List.range_succ, List.map_append, List.sum_append, ih, sum_range_succ, List.map_singleton,
      List.sum_singleton]

/-- The row with its first coefficient. -/
theorem getD_coeffs {a : ℕ → K} {n : ℕ} (h0 : a 0 = 1) (htail : ∀ j, n < j → a j = 0) (i : ℕ) :
    (1 :: coeffs a n).getD i 0 = a i := by
  cases i with
  | zero => exact h0.symm
  | succ i =>
    rw [List.getD_cons_succ]
    rcases Nat.lt_or_ge i n with hi | hi
    · rw [List.getD_eq_getElem _ _ (by rwa [length_coeffs])]
      simp [coeffs]
    · rw [List.getD_eq_default _ _ (by rwa [length_coeffs]), htail (i + 1) (by omega)]

theorem assign_eq {v : List K} {i : ℕ} (hi : i ≤ v.length) (x : K) :
    assign v i x = v.set (i - 1) x := by
  rw [assign, Nat.sub_eq_zero_of_le hi, List.replicate_zero, List.append_nil]

theorem abs_lt_one_of_mem_assign [LinearOrder K] {v : List K} {i : ℕ} {x : K} (hi : i ≤ v.length)
    (hx : |x| < 1) (hv : ∀ r ∈ v, |r| < 1) : ∀ r ∈ assign v i x, |r| < 1 := by
  intro r hr
  rw [assign_eq hi] at hr
  cases List.mem_or_eq_of_mem_set hr with
  | inl h => exact hv r h
  | inr h => rwa [h]

/-- The samples of a row. -/
def sample (xx : List K) (j : ℕ) : K := xx.getD j 0

theorem exists_sample_ne_zero {xx : List K} (hx : ∃ x ∈ xx, x ≠ 0) :
    ∃ j < xx.length, sample xx j ≠ 0 := by
  obtain ⟨x, hx, hne⟩ := hx
  obtain ⟨j, hj, rfl⟩ := List.getElem_of_mem hx
  exact ⟨j, hj, by rwa [sample, List.getD_eq_getElem _ _ hj]⟩

variable [StarRing K] [TrivialStar K]

theorem lag_eq (xx : List K) (m : ℕ) :
    xcorr.lag xx m = autocorrelation (sample xx) xx.length m := by
  rw [xcorr.lag, autocorrelation]
  congr 1
  refine sum_congr rfl fun j _ => ?_
  rw [star_trivial, mul_comm]
  rfl

/-- **The lags from 0 on.** -/
theorem acf_eq (xx : List K) (pp : ℕ) : (xcorr xx (pp + 1)).drop (pp + 1) =
    autocorrelation (sample xx) xx.length 0 ::
      coeffs (autocorrelation (sample xx) xx.length) (pp + 1) := by
  refine List.ext_getElem ?_ fun k h1 h2 => ?_
  · simp only [xcorr, List.length_drop, List.length_map, List.length_range, List.length_cons,
      length_coeffs]
    omega
  · rw [List.getElem_drop]
    simp only [xcorr, List.getElem_map, List.getElem_range]
    rw [if_pos (Nat.le_add_right _ _), Nat.add_sub_cancel_left, lag_eq]
    cases k with
    | zero => rfl
    | succ k => simp [coeffs]

/-- `acf(tt+1) + aa * acf(tt:-1:2)'` is a row of the equations. -/
theorem dot_reverse_coeffs (R : ℕ → K) {a : ℕ → K} (ha : a 0 = 1) (n : ℕ) :
    R (n + 1) + dot (coeffs a n) (coeffs R n).reverse = Toeplitz.row R n a (n + 1) := by
  rw [reverse_coeffs, dot, coeffs, List.zipWith_map, List.zipWith_self, sum_map_range,
    Toeplitz.row, sum_range_succ', ha, Nat.dist_zero_right, one_mul, add_comm]
  congr 1
  refine sum_congr rfl fun j hj => ?_
  have hj := mem_range.1 hj
  rw [star_trivial, Nat.dist_eq_sub_of_le_right (by omega), Nat.add_sub_add_right]

/-- The coefficients of the next predictor, before the last one. -/
theorem zipWith_coeffs (a : ℕ → K) (n : ℕ) (t : K) :
    List.zipWith (fun x y => x + t * star y) (coeffs a n) (coeffs a n).reverse =
      (List.range n).map fun j => next n a t (j + 1) := by
  rw [reverse_coeffs, coeffs, List.zipWith_map, List.zipWith_self]
  refine List.map_congr_left fun j hj => ?_
  have hj := List.mem_range.1 hj
  rw [star_trivial, next, if_pos (by omega), Nat.add_sub_add_right]

variable [LinearOrder K] [IsStrictOrderedRing K]

theorem real_eq (z : K) : real z = z := by
  rw [real, star_trivial, Nat.cast_ofNat, add_self_div_two]

/-- Before iteration `n + 1`. -/
structure Recursion (R : ℕ → K) (pp n : ℕ) (s : Ar K) : Prop where
  predicts : ∃ a, Predictor R n a s.sigma2 ∧ s.aa = coeffs a n
  length : s.ref.length = pp
  below : ∀ r ∈ s.ref, |r| < 1

/-- **One iteration is a Levinson step.** -/
theorem ends_step {R : ℕ → K} (hpos : ∀ n a, a 0 ≠ 0 → 0 < form R n a) {pp n : ℕ} (h1 : 1 ≤ n)
    (hn : n < pp) {s : Ar K} (h : Recursion R pp n s) :
    Ends (levinsonDurbin.step (R 0 :: coeffs R (pp + 1)) (n + 1) s) (Recursion R pp (n + 1)) := by
  obtain ⟨⟨a, ha, haa⟩, hlen, hbelow⟩ := h
  have hσ : 0 < s.sigma2 := ha.error_pos hpos
  set acf := R 0 :: coeffs R (pp + 1)
  have hnew : index acf (((n + 1 : ℕ) : ℤ) + 1) = .ok (R (n + 1)) := by
    rw [← Nat.cast_succ, index_ok (by omega) (by simp [acf]; omega) 0]
    simp [acf, coeffs, List.getD_eq_getElem?_getD, show n < pp + 1 by omega]
  have hold : colon acf 2 (n + 1) = .ok (coeffs R n) := by
    rw [colon_ok (by decide) (by omega) (by simp [acf]; omega)]
    simp only [acf, List.take_succ_cons, Nat.add_one_sub_one, List.drop_succ_cons, List.drop_zero]
    rw [take_coeffs R (by omega)]
  have hturned : colon s.aa 1 (n + 1 - 1) = .ok (coeffs a n) := by
    rw [haa, Nat.add_sub_cancel, colon_ok le_rfl h1 (by rw [length_coeffs]), Nat.sub_self,
      List.drop_zero, take_coeffs a le_rfl]
  have hdot : R (n + 1) + dot s.aa (coeffs R n).reverse = Toeplitz.row R n a (n + 1) := by
    rw [haa, dot_reverse_coeffs R ha.head n]
  unfold levinsonDurbin.step
  rw [hnew, hold, hturned]
  simp only [ok_bind, hdot]
  set t := -Toeplitz.row R n a (n + 1) / s.sigma2 with ht
  have ht' : t = Toeplitz.row R n a (n + 1) / -s.sigma2 := by
    rw [ht, div_neg, neg_div]
  have hnext := ha.next hσ.ne' ht'
  have habs : |t| < 1 := abs_lt_one_of_error hσ (hnext.error_pos hpos)
  refine Ends.ok ⟨⟨next n a t, ?_, ?_⟩, ?_, ?_⟩
  · rw [real_eq, star_trivial]
    exact hnext
  · rw [haa, zipWith_coeffs, coeffs, List.range_succ, List.map_append, List.map_singleton,
      ha.next_last]
  · rw [assign_eq (by omega), List.length_set, hlen]
  · exact abs_lt_one_of_mem_assign (by omega) habs hbelow

/-- The first coefficients. -/
theorem recursion_one {R : ℕ → K} (hpos : ∀ n a, a 0 ≠ 0 → 0 < form R n a) {pp : ℕ} (hp : 1 ≤ pp)
    {gg : K} (hgg : gg = -R 1 / R 0) : Recursion R pp 1
      { aa := [gg], sigma2 := real ((1 - gg * star gg) * R 0)
        ref := assign (List.replicate pp 0) 1 gg } := by
  have h0 := predictor_zero R
  have hR : 0 < R 0 := h0.error_pos hpos
  have hrow : Toeplitz.row R 0 (fun j => if j = 0 then 1 else 0) (0 + 1) = R 1 := by
    simp [Toeplitz.row, Nat.dist]
  have hnext := h0.next hR.ne' (t := gg) (by rw [hrow, hgg, div_neg, neg_div])
  have habs : |gg| < 1 := abs_lt_one_of_error hR (hnext.error_pos hpos)
  refine ⟨⟨next 0 (fun j => if j = 0 then 1 else 0) gg, ?_, ?_⟩, ?_, ?_⟩
  · rw [real_eq, star_trivial, mul_comm]
    exact hnext
  · simp [coeffs, next]
  · rw [assign_eq (by rwa [List.length_replicate]), List.length_set, List.length_replicate]
  · refine abs_lt_one_of_mem_assign (by rwa [List.length_replicate]) habs fun r hr => ?_
    rw [List.eq_of_mem_replicate hr, abs_zero]
    exact one_pos

/-- **The recursion** on a row that is not zero. -/
theorem ends_levinsonDurbin {xx : List K} (hx : ∃ x ∈ xx, x ≠ 0) {pp : ℕ} (hp : 1 ≤ pp) :
    Ends (levinsonDurbin xx pp)
      (Recursion (autocorrelation (sample xx) xx.length) pp pp) := by
  have hpos := fun n a => form_autocorrelation_pos (exists_sample_ne_zero hx) n a
  set R := autocorrelation (sample xx) xx.length with hR
  have h1 : index (R 0 :: coeffs R (pp + 1)) 1 = .ok (R 0) := rfl
  have h2 : index (R 0 :: coeffs R (pp + 1)) 2 = .ok (R 1) := by
    simp [index, coeffs]
  unfold levinsonDurbin
  rw [acf_eq, ← hR]
  simp only [h1, ok_bind, real_eq, List.set_cons_zero, h2]
  refine Ends.bind (Ends.forUp (fun tt s => Recursion R pp (tt - 1) s) (by omega) ?_ ?_) ?_
  · have hone := recursion_one hpos hp rfl
    rwa [real_eq] at hone
  · intro tt s h2 htt hs
    obtain ⟨n, rfl⟩ : ∃ n, tt = n + 1 := ⟨tt - 1, by omega⟩
    exact ends_step hpos (by omega) (by omega) hs
  · intro r hr
    exact Ends.ok hr.2

/-- The predictor that `mylevinsondurbin` returns. -/
theorem ends_mylevinsondurbin {xx : List K} (hx : ∃ x ∈ xx, x ≠ 0) {pp : ℕ} (hp : 1 ≤ pp) :
    Ends (mylevinsondurbin xx pp) fun s =>
      Predictor (autocorrelation (sample xx) xx.length) pp (fun i => s.aa.getD i 0) s.sigma2 ∧
        s.aa.length = pp + 1 ∧ s.ref.length = pp ∧ ∀ r ∈ s.ref, |r| < 1 := by
  refine (ends_levinsonDurbin hx hp).bind fun s hs => Ends.ok ?_
  obtain ⟨⟨a, ha, haa⟩, hlen, hbelow⟩ := hs
  have hrow : (fun i => (1 :: s.aa).getD i 0) = a := by
    funext i
    rw [haa]
    exact getD_coeffs ha.head ha.tail i
  refine ⟨?_, ?_, hlen, hbelow⟩
  · rw [hrow]
    exact ha
  · rw [List.length_cons, haa, length_coeffs]

end

/-- **`mylevinsondurbin` predicts best**: on a real row that is not zero and an order of at least 1,
the coefficients begin with 1, they are the only ones that leave the least energy, `sigma2` is that
energy for one sample, and the reflection coefficients are below 1. -/
theorem mylevinsondurbin_least {K : Type} [Field K] [LinearOrder K] [IsStrictOrderedRing K]
    [StarRing K] [TrivialStar K] (xx : List K) (hx : ∃ x ∈ xx, x ≠ 0) (pp : ℕ) (hp : 1 ≤ pp) :
    Ends (mylevinsondurbin xx pp) fun s =>
      s.aa.length = pp + 1 ∧ s.aa.getD 0 0 = 1 ∧
      (∀ b : ℕ → K, b 0 = 1 →
        residual (sample xx) xx.length pp (sample s.aa) ≤ residual (sample xx) xx.length pp b ∧
        (residual (sample xx) xx.length pp b = residual (sample xx) xx.length pp (sample s.aa) →
          ∀ i ≤ pp, b i = sample s.aa i)) ∧
      0 < s.sigma2 ∧ xx.length * s.sigma2 = residual (sample xx) xx.length pp (sample s.aa) ∧
      s.ref.length = pp ∧ ∀ r ∈ s.ref, |r| < 1 := by
  have hs := exists_sample_ne_zero hx
  obtain ⟨j, hj, -⟩ := id hs
  have hT : 0 < xx.length := by omega
  refine (ends_mylevinsondurbin hx hp).mono fun s h => ?_
  obtain ⟨ha, hlen, href⟩ := h
  refine ⟨hlen, ha.head, fun b hb => ⟨ha.residual_le hT hb, fun heq => ?_⟩, ?_, ?_, href⟩
  · exact ha.eq_of_residual_le hs hb heq.le
  · exact ha.error_pos fun n a => form_autocorrelation_pos hs n a
  · exact (ha.residual_eq hT).symm

/-- An order of 2 on three samples. -/
theorem mylevinsondurbin_least_three :
    Ends (mylevinsondurbin ([1, 2, -3] : List ℚ) 2) fun s =>
      s.aa.length = 2 + 1 ∧ s.aa.getD 0 0 = 1 ∧
      (∀ b : ℕ → ℚ, b 0 = 1 →
        residual (sample [1, 2, -3]) 3 2 (sample s.aa) ≤ residual (sample [1, 2, -3]) 3 2 b ∧
        (residual (sample [1, 2, -3]) 3 2 b = residual (sample [1, 2, -3]) 3 2 (sample s.aa) →
          ∀ i ≤ 2, b i = sample s.aa i)) ∧
      0 < s.sigma2 ∧ 3 * s.sigma2 = residual (sample [1, 2, -3]) 3 2 (sample s.aa) ∧
      s.ref.length = 2 ∧ ∀ r ∈ s.ref, |r| < 1 :=
  mylevinsondurbin_least [1, 2, -3] ⟨1, by decide, by decide⟩ 2 (by decide)

/-! ## The C++ version -/

theorem autocorrelation_map (s : ℕ → ℝ) (taille : ℕ) :
    autocorrelation (sample ((List.range taille).map s)) taille = autocorrelation s taille := by
  have hsample : ∀ j < taille, sample ((List.range taille).map s) j = s j := by
    intro j hj
    rw [sample, List.getD_eq_getElem _ _ (by simpa using hj), List.getElem_map, List.getElem_range]
  funext i
  rw [autocorrelation, autocorrelation]
  congr 1
  refine sum_congr rfl fun j hj => ?_
  have hj := mem_range.1 hj
  rw [hsample j (by omega), hsample (j + i) (by omega)]

/-- **`set_lpc` of order `p` writes the coefficients of `mylevinsondurbin` of order `p - 1`** from
the second one on, and 1 after them. -/
theorem setLpc_mylevinsondurbin (pile lpc : ℕ → Option ℝ) (s : ℕ → ℝ) (taille tailleFrame p : ℕ)
    (htaille : taille ≤ tailleFrame) (hs : ∃ j < taille, s j ≠ 0) (hp : 2 ≤ p)
    (hpt : 2 * p ≤ taille) :
    Ends (Frame.setLpc pile (Arr.ofFn tailleFrame s) taille p (Arr.alloc p lpc)) fun b =>
      ∃ r, mylevinsondurbin ((List.range taille).map s) (p - 1) = .ok r ∧
        (∀ j, 1 ≤ j → j ≤ p - 1 → b.Holds (j - 1) (sample r.aa j)) ∧ b.Holds (p - 1) 1 := by
  have hrow : ∃ x ∈ (List.range taille).map s, x ≠ 0 := by
    obtain ⟨j, hj, hne⟩ := hs
    exact ⟨s j, List.mem_map.2 ⟨j, List.mem_range.2 hj, rfl⟩, hne⟩
  obtain ⟨r, hr, hpredicts, -⟩ := ends_mylevinsondurbin hrow (show 1 ≤ p - 1 by omega)
  rw [List.length_map, List.length_range, autocorrelation_map] at hpredicts
  refine (ends_setLpc pile (s := s) (fun j hj => Arr.holds_ofFn s (by omega)) hp hpt
    (fun i hi => (Arr.dom_alloc p lpc i).2 hi) (form_autocorrelation_pos hs)).mono fun b h => ?_
  obtain ⟨a, σ, ha, hb, hlast⟩ := h
  obtain ⟨rfl, -⟩ := hpredicts.unique hs ha
  exact ⟨r, hr, fun j h1 h2 => hb j h1 (by omega), hlast⟩

/-- An order of 4 on a ramp of eight samples, and of 3 in the script. -/
theorem setLpc_mylevinsondurbin_ramp :
    Ends (Frame.setLpc (fun _ => none) (Arr.ofFn 8 fun j => (j : ℝ)) 8 4
      (Arr.alloc 4 fun _ => none)) fun b =>
        ∃ r, mylevinsondurbin ((List.range 8).map fun j => (j : ℝ)) (4 - 1) = .ok r ∧
          (∀ j, 1 ≤ j → j ≤ 4 - 1 → b.Holds (j - 1) (sample r.aa j)) ∧ b.Holds (4 - 1) 1 :=
  setLpc_mylevinsondurbin _ _ _ 8 8 4 le_rfl ⟨1, by decide, by simp⟩ (by decide) le_rfl

/-! ## The frames of a recording -/

section
variable {son : List ℝ} {framesLength ordre : ℕ}

/-- No windowed frame is silent. -/
def Sounds (son : List ℝ) (framesLength : ℕ) : Prop :=
  ∀ frame, 1 ≤ frame → frame ≤ son.length / framesLength * 2 - 1 →
    ∃ x ∈ mymfcc.sonFen son framesLength frame, x ≠ 0

/-- The window is not zero at its edge. -/
theorem exists_sonFen_ne_zero {frame : ℕ} (hL : 2 ∣ framesLength) (h0 : 0 < framesLength)
    (h1 : 1 ≤ frame) (hn : frame ≤ son.length / framesLength * 2 - 1)
    (hx : ∀ h, son.get ⟨framesLength * (frame - 1) / 2, h⟩ ≠ 0) :
    ∃ x ∈ mymfcc.sonFen son framesLength frame, x ≠ 0 := by
  have hfen := length_sonFen hL h0 h1 hn
  refine ⟨_, List.getElem_mem (show 0 < _ by rw [hfen]; exact h0), ?_⟩
  simp only [mymfcc.sonFen, List.getElem_zipWith, List.getElem_drop, List.getElem_take]
  refine mul_ne_zero ?_ (hx _)
  simp only [hamming, List.getElem_map, List.getElem_range, if_neg (show framesLength ≠ 1 by omega)]
  norm_num [LibM.cos]

theorem sounds_of_forall (hL : 2 ∣ framesLength) (h0 : 0 < framesLength)
    (hs : ∀ x ∈ son, x ≠ 0) : Sounds son framesLength :=
  fun _ h1 hn => exists_sonFen_ne_zero hL h0 h1 hn fun _ => hs _ (List.getElem_mem _)

/-- The row of a frame. -/
noncomputable def mylpc.ligne (son : List ℝ) (framesLength ordre frame : ℕ) : List ℝ :=
  match mylevinsondurbin (mymfcc.sonFen son framesLength frame) ordre with
  | .ok s => s.aa
  | .error _ => []

/-- **Every row is what `mylevinsondurbin` returns for the windowed frame.** -/
theorem mylpc_eq (hL : 2 ∣ framesLength) (h0 : 0 < framesLength) (ho : 1 ≤ ordre)
    (hs : Sounds son framesLength) :
    mylpc son framesLength ordre =
      .ok (Arr.full (row (son.length / framesLength * 2 - 1))
        (mylpc.ligne son framesLength ordre)) := by
  refine ends_eq_iff.1 (Ends.bind (ends_fillRow (g := mymfcc.sonFen son framesLength)
    fun k hk1 hkn f _ => ?_) fun r hr => Ends.bind (ends_fillRow fun k hk1 hkn f _ => ?_)
      fun r hr => Ends.ok hr)
  · obtain ⟨hlen, hin⟩ := tranche hL h0 hk1 hkn
    rw [colon_ok (Nat.le_add_left 1 _) (by omega) hin, ok_bind,
      Arr.set_full _ (row_eq_true.2 ⟨hk1, hkn⟩), Nat.add_sub_cancel]
    exact Ends.ok rfl
  · have hk : row (son.length / framesLength * 2 - 1) k = true := row_eq_true.2 ⟨hk1, hkn⟩
    obtain ⟨s, hrun, ⟨a, ha, haa⟩, -⟩ := ends_levinsonDurbin (hs k hk1 hkn) ho
    have hrow : mylpc.ligne son framesLength ordre k = 1 :: s.aa := by
      rw [mylpc.ligne, mylevinsondurbin, hrun]
      rfl
    rw [hr, Arr.get_full _ hk, ok_bind, hrun, ok_bind, if_pos (by rw [haa, length_coeffs]),
      Arr.set_full _ hk, hrow]
    exact Ends.ok rfl

/-! ### The volume of a recording -/

theorem autocorrelation_smul (c : ℝ) (s : ℕ → ℝ) (T : ℕ) :
    autocorrelation (fun j => c * s j) T = fun i => c * c * autocorrelation s T i := by
  funext i
  rw [autocorrelation, autocorrelation, ← mul_div_assoc, mul_sum]
  congr 1
  exact sum_congr rfl fun j _ => mul_mul_mul_comm _ _ _ _

theorem sonFen_smul (c : ℝ) (son : List ℝ) (framesLength frame : ℕ) :
    mymfcc.sonFen (son.map (c * ·)) framesLength frame =
      (mymfcc.sonFen son framesLength frame).map (c * ·) := by
  rw [mymfcc.sonFen, mymfcc.sonFen, ← List.map_take, ← List.map_drop, List.zipWith_map_right,
    List.map_zipWith]
  congr 1
  funext x y
  exact mul_left_comm x c y

theorem sample_smul (c : ℝ) (xx : List ℝ) :
    sample (xx.map (c * ·)) = fun j => c * sample xx j := by
  funext j
  have hmap := List.getD_map (l := xx) (d := (0 : ℝ)) (n := j) (c * ·)
  rwa [mul_zero] at hmap

/-- The coefficients of a row do not depend on its amplitude. -/
theorem ligne_smul {c : ℝ} (hc : c ≠ 0) {frame : ℕ}
    (hx : ∃ x ∈ mymfcc.sonFen son framesLength frame, x ≠ 0) (ho : 1 ≤ ordre) :
    mylpc.ligne (son.map (c * ·)) framesLength ordre frame =
      mylpc.ligne son framesLength ordre frame := by
  rw [mylpc.ligne, mylpc.ligne, sonFen_smul]
  set xx := mymfcc.sonFen son framesLength frame
  have hx' : ∃ x ∈ xx.map (c * ·), x ≠ 0 := by
    obtain ⟨x, hx, hne⟩ := hx
    exact ⟨c * x, List.mem_map_of_mem hx, mul_ne_zero hc hne⟩
  obtain ⟨s, hrun, hs, hlen, -⟩ := ends_mylevinsondurbin hx ho
  obtain ⟨s', hrun', hs', hlen', -⟩ := ends_mylevinsondurbin hx' ho
  rw [sample_smul, List.length_map, autocorrelation_smul] at hs'
  -- the autocorrelation of the row, times the square of the amplitude
  have hback := hs'.smul (c * c)⁻¹
  simp only [inv_mul_cancel_left₀ (mul_ne_zero hc hc)] at hback
  obtain ⟨haa, -⟩ := hs.unique (exists_sample_ne_zero hx) hback
  rw [hrun, hrun']
  refine List.ext_getElem (hlen'.trans hlen.symm) fun i h1 h2 => ?_
  have hi := congrFun haa i
  rwa [List.getD_eq_getElem _ _ h1, List.getD_eq_getElem _ _ h2] at hi

end

/-- **The volume of a recording does not change its coefficients**, nor does its polarity: a row of
`mylpc` is what `mylevinsondurbin` returns for the windowed frame, at any amplitude. -/
theorem mylpc_smul (son : List ℝ) (framesLength ordre : ℕ) (hL : 2 ∣ framesLength)
    (h0 : 0 < framesLength) (ho : 1 ≤ ordre) (hs : Sounds son framesLength) (c : ℝ) (hc : c ≠ 0) :
    ∃ lpcFrames, mylpc son framesLength ordre = .ok lpcFrames ∧
      mylpc (son.map (c * ·)) framesLength ordre = .ok lpcFrames ∧
      ∀ frame, 1 ≤ frame → frame ≤ son.length / framesLength * 2 - 1 →
        ∃ s, mylevinsondurbin (mymfcc.sonFen son framesLength frame) ordre = .ok s ∧
          lpcFrames.Holds frame s.aa := by
  have hs' : Sounds (son.map (c * ·)) framesLength := by
    intro frame h1 hframe
    rw [List.length_map] at hframe
    obtain ⟨x, hx, hne⟩ := hs frame h1 hframe
    rw [sonFen_smul]
    exact ⟨c * x, List.mem_map_of_mem hx, mul_ne_zero hc hne⟩
  refine ⟨_, mylpc_eq hL h0 ho hs, ?_, fun frame h1 hframe => ?_⟩
  · rw [mylpc_eq hL h0 ho hs', List.length_map]
    refine congrArg _ (Arr.full_inj.2 fun frame hframe => ?_)
    obtain ⟨h1, hframe⟩ := row_eq_true.1 hframe
    exact ligne_smul hc (hs frame h1 hframe) ho
  · obtain ⟨s, hrun, -⟩ := ends_mylevinsondurbin (hs frame h1 hframe) ho
    refine ⟨s, hrun, ?_⟩
    have hrow : mylpc.ligne son framesLength ordre frame = s.aa := by
      rw [mylpc.ligne, hrun]
    exact hrow ▸ Arr.holds_full _ (row_eq_true.2 ⟨h1, hframe⟩)

theorem sounds_eight : Sounds [1, 2, 3, 4, 5, 6, 7, 8] 4 := by
  refine sounds_of_forall ⟨2, rfl⟩ (by decide) fun x hx => ?_
  simp only [List.mem_cons, List.not_mem_nil, or_false] at hx
  rcases hx with rfl | rfl | rfl | rfl | rfl | rfl | rfl | rfl <;> norm_num

/-- Three frames that overlap by half, at three times the volume and the other polarity. -/
theorem mylpc_smul_eight : ∃ lpcFrames, mylpc [1, 2, 3, 4, 5, 6, 7, 8] 4 2 = .ok lpcFrames ∧
    mylpc ([1, 2, 3, 4, 5, 6, 7, 8].map ((-3 : ℝ) * ·)) 4 2 = .ok lpcFrames ∧
    ∀ frame, 1 ≤ frame → frame ≤ [(1 : ℝ), 2, 3, 4, 5, 6, 7, 8].length / 4 * 2 - 1 →
      ∃ s, mylevinsondurbin (mymfcc.sonFen [1, 2, 3, 4, 5, 6, 7, 8] 4 frame) 2 = .ok s ∧
        lpcFrames.Holds frame s.aa :=
  mylpc_smul [1, 2, 3, 4, 5, 6, 7, 8] 4 2 ⟨2, rfl⟩ (by decide) (by decide) sounds_eight (-3)
    (by norm_num)

end TlVoix.Matlab
