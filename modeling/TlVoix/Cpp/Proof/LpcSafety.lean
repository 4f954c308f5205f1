import TlVoix.Cpp.Proof.Lpc

/-!
# The divisions and the cells of `set_lpc`

* `setLpc_stable`: on a signal that is not zero, at every iteration of the Levinson-Durbin loop the
  error `sigma2` is positive and the reflection coefficient `tmp` is below 1 in absolute value.
* `setLpc_assigned_iff`: with unassigned local arrays, `set_lpc` runs without reading a cell it has
  not assigned exactly if the order is at least 2: the order 1 reads `autocorr[1]`, which its first
  loop does not compute.
-/

namespace TlVoix

open Checked Toeplitz

/-! ## Stability -/

section
variable {K : Type} [Field K] [LinearOrder K] [IsStrictOrderedRing K]

omit [IsStrictOrderedRing K] in
theorem Levinson.error_pos {R : ℕ → K} {p k : ℕ} {st : Arr ℕ K × Arr ℕ K × K}
    (h : Levinson R p k st) (hpos : ∀ n a, a 0 ≠ 0 → 0 < form R n a) : 0 < st.2.2 := by
  obtain ⟨a, ha, -⟩ := h.coeffs
  exact ha.error_pos hpos

/-- Before iteration `k`, when the coefficient `tmp` stored last is `lpc[k - 2]`. -/
structure Stable (R : ℕ → K) (p k : ℕ) (st : Arr ℕ K × Arr ℕ K × K) : Prop where
  levinson : Levinson R p k st
  reflection : ∃ t, st.1.Holds (k - 2) t ∧ |t| < 1

theorem stable_two {R : ℕ → K} {p : ℕ} (hpos : ∀ n a, a 0 ≠ 0 → 0 < form R n a)
    {lpc : Arr ℕ K} (hd : ∀ i < p, lpc.dom i = true) (h : lpc.Holds 0 (-R 1 / R 0)) :
    Stable R p 2 (lpc, Arr.fresh p, (1 - -R 1 / R 0 * (-R 1 / R 0)) * R 0) := by
  have hlevinson := levinson_two hpos hd h
  refine ⟨hlevinson, _, h, abs_lt_one_of_error ((predictor_zero R).error_pos hpos) ?_⟩
  rw [mul_comm]
  exact hlevinson.error_pos hpos

theorem Stable.step {R : ℕ → K} {autocorr : Arr ℕ K} {p k : ℕ}
    (hR : ∀ i < p, autocorr.Holds i (R i)) (hpos : ∀ n a, a 0 ≠ 0 → 0 < form R n a)
    (hk : 2 ≤ k) (hkp : k < p) {s : Arr ℕ K × Arr ℕ K × K} (h : Stable R p k s) :
    Ends (Frame.setLpc.step autocorr p k s) (Stable R p (k + 1)) := by
  refine (ends_step hR hpos hk hkp h.levinson).mono fun st hst => ?_
  obtain ⟨hlevinson, t, ht, hσ⟩ := hst
  refine ⟨hlevinson, t, ht, abs_lt_one_of_error (h.levinson.error_pos hpos) ?_⟩
  rw [← hσ]
  exact hlevinson.error_pos hpos

end

/-- **`set_lpc` is stable**: on `taille` samples that are not all zero, before each iteration `k` of
its loop and after the last one (`k = p`), `autocorr[0]` and `sigma2`, by which it divides, are
positive, and the reflection coefficient of the iteration before, `lpc[k - 2]`, is below 1 in
absolute value. -/
theorem setLpc_stable (pile lpc : ℕ → Option ℝ) (s : ℕ → ℝ) (taille tailleFrame p : ℕ)
    (htaille : taille ≤ tailleFrame) (hs : ∃ j < taille, s j ≠ 0) (hp : 2 ≤ p)
    (hpt : 2 * p ≤ taille) (k : ℕ) (hk : 2 ≤ k) (hkp : k ≤ p) :
    Ends (Frame.setLpc.avant pile (Arr.ofFn tailleFrame s) taille p (Arr.alloc p lpc) k)
      fun (autocorr, lpc, _, sigma2) => (∃ r, autocorr.Holds 0 r ∧ 0 < r) ∧
        (∃ tmp, lpc.Holds (k - 2) tmp ∧ |tmp| < 1) ∧ 0 < sigma2 := by
  have hpos := form_autocorrelation_pos hs
  refine (ends_avant pile (s := s) (fun j hj => Arr.holds_ofFn s (by omega)) hp hpt
    (fun i hi => (Arr.dom_alloc p lpc i).2 hi) (Stable (autocorrelation s taille) p)
    (fun lpc' t ht hd h => ht ▸ stable_two hpos hd (ht ▸ h))
    (fun autocorr k st hR hk hkp hst => hst.step hR hpos hk hkp) hk hkp).mono ?_
  intro r hr
  obtain ⟨autocorr, lpc', up, sigma2⟩ := r
  obtain ⟨hR, hstable⟩ := hr
  exact ⟨⟨_, hR 0 (by omega), (predictor_zero _).error_pos hpos⟩, hstable.reflection,
    hstable.levinson.error_pos hpos⟩

/-- The iterations of order 3 on a ramp. -/
theorem setLpc_stable_ramp :
    Ends (Frame.setLpc.avant (fun _ => none) (Arr.ofFn 6 fun j => (j : ℝ)) 6 3
      (Arr.alloc 3 fun _ => none) 3)
      fun (autocorr, lpc, _, sigma2) => (∃ r, autocorr.Holds 0 r ∧ 0 < r) ∧
        (∃ tmp, lpc.Holds (3 - 2) tmp ∧ |tmp| < 1) ∧ 0 < sigma2 :=
  setLpc_stable _ _ _ 6 6 3 le_rfl ⟨1, by decide, by simp⟩ (by decide) le_rfl 3 (by decide) le_rfl

/-! ## Assigned cells -/

section
variable {K : Type} [Field K]

/-- Before iteration `k`, the cells of `lpc` before `k - 1` are assigned; the others may not be, as
the copy of `lpc_up` leaves them. -/
structure Frontier (p k : ℕ) (st : Arr ℕ K × Arr ℕ K × K) : Prop where
  domLpc : ∀ i < p, st.1.dom i = true
  domUp : ∀ i < p, st.2.1.dom i = true
  assigned : ∃ a : ℕ → K, a 0 = 1 ∧ ∀ j, 1 ≤ j → j < k → st.1.Holds (j - 1) (a j)

/-- An iteration reads assigned cells only, and assigns one more. -/
theorem Frontier.step {R : ℕ → K} {autocorr : Arr ℕ K} {p k : ℕ}
    (hR : ∀ i < p, autocorr.Holds i (R i)) (hk : 2 ≤ k) (hkp : k < p)
    {st : Arr ℕ K × Arr ℕ K × K} (h : Frontier p k st) :
    Ends (Frame.setLpc.step autocorr p k st) (Frontier p (k + 1)) := by
  obtain ⟨lpc, lpcUp, sigma2⟩ := st
  obtain ⟨hdl, hdu, a, ha, hlpc⟩ := h
  obtain ⟨n, rfl⟩ : ∃ n, k = n + 1 := ⟨k - 1, by omega⟩
  refine (ends_iteration hR hkp ha hdl hdu hlpc sigma2).mono fun st hst => ?_
  obtain ⟨hdl', hdu', t, -, -, hcoeffs, hlast⟩ := hst
  refine ⟨hdl', hdu', fun j => if j = 0 then 1 else if j = n + 1 then t else next n a t j,
    if_pos rfl, fun j h1 h2 => ?_⟩
  simp only [if_neg (Nat.ne_of_gt h1)]
  rcases Nat.lt_succ_iff_lt_or_eq.1 h2 with h2 | rfl
  · rw [if_neg (Nat.ne_of_lt h2)]
    exact hcoeffs j h1 h2
  · rw [if_pos rfl]
    exact hlast

/-- From the order 2 on every value that `set_lpc` uses is assigned. -/
theorem ends_setLpc_assigned (pile : ℕ → Option K) {signal lpc : Arr ℕ K} {s : ℕ → K}
    {taille p : ℕ} (hs : ∀ j < taille, signal.Holds j (s j)) (hp : 2 ≤ p) (hpt : 2 * p ≤ taille)
    (hd : ∀ i < p, lpc.dom i = true) :
    Ends (Frame.setLpc pile signal taille p lpc) fun _ => True := by
  rw [setLpc_eq_avant]
  refine (ends_avant pile hs hp hpt hd (Frontier p) (fun lpc' t _ hd' h => ?_)
    (fun autocorr k st hR hk hkp hst => hst.step hR hk hkp) hp le_rfl).bind fun r hr => ?_
  · refine ⟨hd', fun i hi => (Arr.dom_fresh p i).2 hi, fun j => if j = 0 then 1 else t, if_pos rfl,
      fun j h1 h2 => ?_⟩
    obtain rfl : j = 1 := by omega
    exact h
  · exact (Arr.ends_set (hr.2.domLpc (p - 1) (by omega)) 1).mono fun _ _ => trivial

/-- The order 1 reads the second cell of `autocorr`, which is not assigned. -/
theorem yields_setLpc_one {signal : Arr ℕ K} {s : ℕ → K} {taille : ℕ}
    (hs : ∀ j < taille, signal.Holds j (s j)) (ht : 2 ≤ taille) (lpc : Arr ℕ K) :
    Yields (Frame.setLpc (fun _ => none) signal taille 1 lpc) fun _ => False := by
  unfold Frame.setLpc
  refine (ends_autocorr hs (by omega) fun i hi => ?_).yields.bind fun autocorr ⟨_, _, hrest⟩ => ?_
  · rw [Arr.dom_alloc]
    omega
  refine (Arr.yields_get autocorr 1).bind fun v hv => ?_
  have hnone : autocorr.val 1 = none := hrest 1 le_rfl
  exact absurd (hnone.symm.trans hv.2) nofun

end

/-- **`set_lpc` uses only values it has computed** exactly if its order is at least 2: with local
arrays and a member `lpc` in which nothing is stored, no read of an unassigned cell stops it. -/
theorem setLpc_assigned_iff {K : Type} [Field K] (s : ℕ → K) (taille tailleFrame p : ℕ)
    (htaille : taille ≤ tailleFrame) (hp : 1 ≤ p) (hpt : 2 * p ≤ taille) :
    Ends (Frame.setLpc (fun _ => none) (Arr.ofFn tailleFrame s) taille p
      (Arr.alloc p fun _ => none)) (fun _ => True) ↔ 2 ≤ p := by
  have hs : ∀ j < taille, (Arr.ofFn tailleFrame s).Holds j (s j) := fun j hj =>
    Arr.holds_ofFn s (by omega)
  constructor
  · intro h
    by_contra hlt
    obtain rfl : p = 1 := by omega
    obtain ⟨b, hb, -⟩ := h
    exact yields_setLpc_one hs (by omega) _ b hb
  · intro h2
    exact ends_setLpc_assigned _ hs h2 hpt fun i hi => (Arr.dom_alloc p _ i).2 hi

theorem setLpc_assigned_ramp :
    Ends (Frame.setLpc (fun _ => none) (Arr.ofFn 256 fun j => (j : ℚ)) 256 12
      (Arr.alloc 12 fun _ => none)) (fun _ => True) :=
  (setLpc_assigned_iff (fun j => (j : ℚ)) 256 256 12 le_rfl (by decide) (by decide)).2 (by decide)

/-- The shipped order, on a frame of 256 samples. -/
theorem not_setLpc_assigned :
    ¬Ends (Frame.setLpc (fun _ => none) (Arr.ofFn 256 fun _ => (1 : ℝ)) 256 1
      (Arr.alloc 1 fun _ => none)) (fun _ => True) := by
  intro h
  obtain ⟨b, hb, -⟩ := h
  exact yields_setLpc_one (fun j hj => Arr.holds_ofFn _ hj) (by decide) _ b hb

end TlVoix
