import TlVoix.Cpp.Frame
import TlVoix.Lib.Toeplitz

/-!
# `set_lpc` solves the normal equations

* `ends_autocorr`: the first loop of `set_lpc` computes the biased autocorrelation.
* `ends_step`: the body of the Levinson-Durbin loop is the step `next` of a predictor. The invariant
  is `Levinson`: before iteration `k`, `lpc` holds the coefficients of order `k - 1` and `sigma2` is
  their error; the other cells of `lpc` may be unassigned, as the `memcpy` of `lpc_up` leaves them.
* `setLpc_normal`: on a signal that is not zero the error stays positive, no division is by zero and
  `lpc` ends with the solution of the normal equations.
-/

namespace TlVoix

open Checked Toeplitz

section
variable {K : Type} [Field K]

theorem ends_lag {signal autocorr : Arr ℕ K} {s : ℕ → K} {taille i : ℕ}
    (hs : ∀ j < taille, signal.Holds j (s j)) (hi : i ≤ taille) (hd : autocorr.dom i = true) :
    Ends (do
      let autocorr ← autocorr.set i 0
      let (_, autocorr) ← forUp 0 (taille - i) autocorr fun j autocorr => do
        autocorr.set i ((← autocorr.get i) + (← signal.get j) * (← signal.get (j + i)) / taille)
      pure autocorr) fun b => b.dom = autocorr.dom ∧ b.Holds i (autocorrelation s taille i) ∧
        ∀ j, j ≠ i → b.val j = autocorr.val j := by
  refine (Arr.ends_set hd 0).bind fun b hb => ?_
  refine Ends.bind (Ends.forUp (fun j c => c.dom = autocorr.dom ∧
    c.Holds i ((∑ t ∈ Finset.range j, s t * s (t + i)) / taille) ∧
    ∀ j, j ≠ i → c.val j = autocorr.val j) (Nat.zero_le _)
    ⟨Arr.dom_set hb, by simpa using Arr.holds_set_self hb, fun j hj => Arr.val_set_ne hb hj⟩ ?_)
    fun r hr => Ends.ok hr.2
  intro j c _ hj h
  obtain ⟨hdom, hc, hne⟩ := h
  rw [Arr.get_ok hc, Arr.get_ok (hs j (by omega)), Arr.get_ok (hs (j + i) (by omega))]
  refine (Arr.ends_set hc.1 _).mono fun c' hc' =>
    ⟨(Arr.dom_set hc').trans hdom, ?_, fun j hj => (Arr.val_set_ne hc' hj).trans (hne j hj)⟩
  rw [Finset.sum_range_succ, add_div]
  exact Arr.holds_set_self hc'

theorem ends_autocorr {signal autocorr : Arr ℕ K} {s : ℕ → K} {taille p : ℕ}
    (hs : ∀ j < taille, signal.Holds j (s j)) (hp : p ≤ taille)
    (hd : ∀ i < p, autocorr.dom i = true) :
    Ends (Frame.setLpc.autocorr signal taille p autocorr) fun b => b.dom = autocorr.dom ∧
      (∀ i < p, b.Holds i (autocorrelation s taille i)) ∧
      ∀ i, p ≤ i → b.val i = autocorr.val i := by
  refine Ends.bind (Ends.forUp (fun i b => b.dom = autocorr.dom ∧
    (∀ j < i, b.Holds j (autocorrelation s taille j)) ∧ ∀ j, i ≤ j → b.val j = autocorr.val j)
    (Nat.zero_le _) ⟨rfl, fun j hj => absurd hj (Nat.not_lt_zero j), fun _ _ => rfl⟩ ?_)
    fun r hr => Ends.ok hr.2
  intro i b _ hi h
  obtain ⟨hdom, hb, hrest⟩ := h
  refine (ends_lag hs (by omega) (hdom ▸ hd i hi)).mono fun c ⟨hcd, hci, hcne⟩ =>
    ⟨hcd.trans hdom, fun j hj => ?_, fun j hj =>
      (hcne j (by omega)).trans (hrest j (Nat.le_of_succ_le hj))⟩
  rcases Nat.lt_succ_iff_lt_or_eq.1 hj with hj | rfl
  · exact ⟨by rw [hcd, (hb j hj).1], by rw [hcne j (Nat.ne_of_lt hj), (hb j hj).2]⟩
  · exact hci

/-- Before iteration `k` of the Levinson-Durbin loop of order `p`. -/
structure Levinson (R : ℕ → K) (p k : ℕ) (s : Arr ℕ K × Arr ℕ K × K) : Prop where
  domLpc : ∀ i < p, s.1.dom i = true
  domUp : ∀ i < p, s.2.1.dom i = true
  coeffs : ∃ a, Predictor R (k - 1) a s.2.2 ∧ ∀ j, 1 ≤ j → j < k → s.1.Holds (j - 1) (a j)

section
variable {R : ℕ → K} {autocorr lpc : Arr ℕ K} {p n : ℕ} {a : ℕ → K}

/-- `tmp`, before its division: the new equation, at the coefficients of order `n`. -/
theorem ends_equation (hR : ∀ i < p, autocorr.Holds i (R i)) (hn : n + 1 < p) (ha : a 0 = 1)
    (hlpc : ∀ j, 1 ≤ j → j < n + 1 → lpc.Holds (j - 1) (a j)) :
    Ends (forUp 1 (n + 1) (R (n + 1)) fun j tmp => do
      pure (tmp + (← lpc.get (j - 1)) * (← autocorr.get (n + 1 - j)))) fun r =>
        r.2 = row R n a (n + 1) := by
  refine (Ends.forUp (fun j tmp => tmp =
    ∑ i ∈ Finset.range j, a i * R (Nat.dist (n + 1) i)) (by omega) ?_ ?_).mono fun r hr => hr.2
  · rw [Finset.sum_range_one, ha, one_mul, Nat.dist_zero_right]
  · intro j tmp h1 h2 he
    subst he
    rw [Arr.get_ok (hlpc j h1 h2), Arr.get_ok (hR (n + 1 - j) (by omega))]
    refine Ends.ok ?_
    rw [Finset.sum_range_succ _ j, Nat.dist_eq_sub_of_le_right (Nat.le_of_lt h2)]

theorem ends_lpcUp {lpcUp : Arr ℕ K} (t : K) (hn : n + 1 < p)
    (hdom : ∀ i < p, lpcUp.dom i = true)
    (hlpc : ∀ j, 1 ≤ j → j < n + 1 → lpc.Holds (j - 1) (a j)) :
    Ends (forUp 1 (n + 1) lpcUp fun j lpcUp => do
      lpcUp.set (j - 1) ((← lpc.get (j - 1)) + t * (← lpc.get (n + 1 - 1 - j)))) fun r =>
        (∀ i < p, r.2.dom i = true) ∧
        ∀ i, 1 ≤ i → i < n + 1 → r.2.Holds (i - 1) (next n a t i) := by
  refine (Ends.forUp (fun j up => (∀ i < p, up.dom i = true) ∧
    ∀ i, 1 ≤ i → i < j → up.Holds (i - 1) (next n a t i)) (by omega)
    ⟨hdom, fun i h1 h2 => by omega⟩ ?_).mono fun r hr => hr.2
  intro j up h1 h2 hr
  obtain ⟨hdom, hup⟩ := hr
  have hmirror : lpc.Holds (n + 1 - 1 - j) (a (n + 1 - j)) := by
    have := hlpc (n + 1 - j) (by omega) (by omega)
    rwa [Nat.sub_right_comm] at this
  rw [Arr.get_ok (hlpc j h1 h2), Arr.get_ok hmirror]
  refine (Arr.ends_set (hdom (j - 1) (by omega)) _).mono fun up' hup' =>
    ⟨fun i hi => by rw [Arr.dom_set hup', hdom i hi], fun i hi1 hi2 => ?_⟩
  rcases Nat.lt_succ_iff_lt_or_eq.1 hi2 with hi2 | rfl
  · exact Arr.holds_set_ne hup' (by omega) (hup i hi1 hi2)
  · rw [next, if_pos (Nat.le_of_lt h2)]
    exact Arr.holds_set_self hup'

end

theorem ends_iteration {R : ℕ → K} {autocorr lpc lpcUp : Arr ℕ K} {p n : ℕ} {a : ℕ → K}
    (hR : ∀ i < p, autocorr.Holds i (R i)) (hn : n + 1 < p) (ha : a 0 = 1)
    (hdl : ∀ i < p, lpc.dom i = true) (hdu : ∀ i < p, lpcUp.dom i = true)
    (hlpc : ∀ j, 1 ≤ j → j < n + 1 → lpc.Holds (j - 1) (a j)) (sigma2 : K) :
    Ends (Frame.setLpc.step autocorr p (n + 1) (lpc, lpcUp, sigma2)) fun s =>
      (∀ i < p, s.1.dom i = true) ∧ (∀ i < p, s.2.1.dom i = true) ∧
      ∃ t, t = row R n a (n + 1) / -sigma2 ∧ s.2.2 = sigma2 * (1 - t * t) ∧
        (∀ j, 1 ≤ j → j < n + 1 → s.1.Holds (j - 1) (next n a t j)) ∧ s.1.Holds n t := by
  unfold Frame.setLpc.step
  rw [Arr.get_ok (hR (n + 1) hn)]
  refine (ends_equation hR hn ha hlpc).bind fun r hr => ?_
  obtain ⟨_, tmp⟩ := r
  obtain rfl : tmp = row R n a (n + 1) := hr
  refine (ends_lpcUp (row R n a (n + 1) / -sigma2) hn hdu hlpc).bind fun r hr => ?_
  obtain ⟨_, up⟩ := r
  obtain ⟨hdom, hup⟩ := hr
  refine (Arr.ends_copyTo fun i hi => ⟨hdom i hi, hdl _ (by omega)⟩).bind fun b hb => ?_
  obtain ⟨hbd, hbv, -⟩ := hb
  refine (Arr.ends_set (by rw [hbd]; exact hdl _ (by omega)) _).bind fun c hc => Ends.ok
    ⟨fun i hi => by rw [Arr.dom_set hc, hbd, hdl i hi], hdom, _, rfl, rfl, fun j h1 h2 => ?_,
      Arr.holds_set_self hc⟩
  refine Arr.holds_set_ne hc (by omega) ⟨by rw [hbd]; exact hdl _ (by omega), ?_⟩
  have hv := hbv (j - 1) (by omega)
  rw [Nat.zero_add] at hv
  rw [hv, (hup j h1 h2).2]

/-! ## The run -/

/-- `set_lpc` up to its iteration `k`: the autocorrelation, `lpc`, `lpc_up` and `sigma2`. -/
def Frame.setLpc.avant (pile : ℕ → Option K) (signal : Arr ℕ K) (taille ordreLpc : ℕ)
    (lpc : Arr ℕ K) (k : ℕ) : Run (Arr ℕ K × Arr ℕ K × Arr ℕ K × K) := do
  let lpcUp := Arr.fresh ordreLpc
  let autocorr ← setLpc.autocorr signal taille ordreLpc (Arr.alloc (taille - ordreLpc) pile)
  let tmp := -(← autocorr.get 1) / (← autocorr.get 0)
  let lpc ← lpc.set 0 tmp
  let sigma2 := (1 - tmp * tmp) * (← autocorr.get 0)
  let (_, s) ← forUp 2 k (lpc, lpcUp, sigma2) (setLpc.step autocorr ordreLpc)
  pure (autocorr, s)

theorem setLpc_eq_avant (pile : ℕ → Option K) (signal lpc : Arr ℕ K) (taille p : ℕ) :
    Frame.setLpc pile signal taille p lpc = (do
      let (_, lpc, _, _) ← Frame.setLpc.avant pile signal taille p lpc p
      lpc.set (p - 1) 1) := by
  simp only [Frame.setLpc, Frame.setLpc.avant, bind_assoc, pure_bind]

/-- An invariant of the iterations holds before each of them. -/
theorem ends_avant (pile : ℕ → Option K) {signal lpc : Arr ℕ K} {s : ℕ → K} {taille p : ℕ}
    (hs : ∀ j < taille, signal.Holds j (s j)) (hp : 2 ≤ p) (hpt : 2 * p ≤ taille)
    (hd : ∀ i < p, lpc.dom i = true) (P : ℕ → Arr ℕ K × Arr ℕ K × K → Prop)
    (h0 : ∀ lpc' t, t = -autocorrelation s taille 1 / autocorrelation s taille 0 →
      (∀ i < p, lpc'.dom i = true) → lpc'.Holds 0 t →
      P 2 (lpc', Arr.fresh p, (1 - t * t) * autocorrelation s taille 0))
    (hstep : ∀ autocorr k st, (∀ i < p, autocorr.Holds i (autocorrelation s taille i)) → 2 ≤ k →
      k < p → P k st → Ends (Frame.setLpc.step autocorr p k st) (P (k + 1)))
    {k : ℕ} (hk : 2 ≤ k) (hkp : k ≤ p) :
    Ends (Frame.setLpc.avant pile signal taille p lpc k) fun r =>
      (∀ i < p, r.1.Holds i (autocorrelation s taille i)) ∧ P k r.2 := by
  unfold Frame.setLpc.avant
  refine (ends_autocorr hs (by omega) fun i hi => ?_).bind fun autocorr ⟨_, hR, _⟩ => ?_
  · rw [Arr.dom_alloc]
    omega
  rw [Arr.get_ok (hR 0 (by omega)), Arr.get_ok (hR 1 (by omega))]
  simp only [ok_bind]
  refine (Arr.ends_set (hd 0 (by omega)) _).bind fun lpc1 hlpc1 => ?_
  have hd1 : ∀ i < p, lpc1.dom i = true := fun i hi => by rw [Arr.dom_set hlpc1, hd i hi]
  refine (Ends.forUp P hk (h0 lpc1 _ rfl hd1 (Arr.holds_set_self hlpc1))
    fun i st hi hik hst => hstep autocorr i st hR hi (by omega) hst).bind fun r hr => ?_
  exact Ends.ok ⟨hR, hr.2⟩

variable [LinearOrder K]

/-- One iteration: the Levinson step, with the reflection coefficient stored last. -/
theorem ends_step {R : ℕ → K} {autocorr : Arr ℕ K} {p k : ℕ}
    (hR : ∀ i < p, autocorr.Holds i (R i)) (hpos : ∀ n a, a 0 ≠ 0 → 0 < form R n a)
    (hk : 2 ≤ k) (hkp : k < p) {s : Arr ℕ K × Arr ℕ K × K} (h : Levinson R p k s) :
    Ends (Frame.setLpc.step autocorr p k s) fun st => Levinson R p (k + 1) st ∧
      ∃ t, st.1.Holds (k - 1) t ∧ st.2.2 = s.2.2 * (1 - t * t) := by
  obtain ⟨lpc, lpcUp, sigma2⟩ := s
  obtain ⟨hdl, hdu, a, ha, hlpc⟩ := h
  obtain ⟨n, rfl⟩ : ∃ n, k = n + 1 := ⟨k - 1, by omega⟩
  simp only [Nat.add_sub_cancel] at ha
  refine (ends_iteration hR hkp ha.head hdl hdu hlpc sigma2).mono fun st hst => ?_
  obtain ⟨hdl', hdu', t, ht, hσ, hcoeffs, hlast⟩ := hst
  refine ⟨⟨hdl', hdu', next n a t, ?_, fun j h1 h2 => ?_⟩, t, hlast, hσ⟩
  · rw [hσ]
    exact ha.next (ha.error_pos hpos).ne' ht
  · rcases Nat.lt_succ_iff_lt_or_eq.1 h2 with h2 | rfl
    · exact hcoeffs j h1 h2
    · rw [ha.next_last]
      exact hlast

theorem levinson_two {R : ℕ → K} {p : ℕ} (hpos : ∀ n a, a 0 ≠ 0 → 0 < form R n a)
    {lpc : Arr ℕ K} (hd : ∀ i < p, lpc.dom i = true) (h : lpc.Holds 0 (-R 1 / R 0)) :
    Levinson R p 2 (lpc, Arr.fresh p, (1 - -R 1 / R 0 * (-R 1 / R 0)) * R 0) := by
  have h0 := predictor_zero R
  have hrow : row R 0 (fun j => if j = 0 then 1 else 0) (0 + 1) = R 1 := by
    simp [row, Nat.dist]
  have h1 := h0.next (h0.error_pos hpos).ne' (t := -R 1 / R 0) (by rw [hrow, div_neg, neg_div])
  refine ⟨hd, fun i hi => (Arr.dom_fresh p i).2 hi,
    next 0 (fun j => if j = 0 then 1 else 0) (-R 1 / R 0), ?_, fun j hj1 hj2 => ?_⟩
  · rw [mul_comm]
    exact h1
  · obtain rfl : j = 1 := by omega
    rw [← Nat.zero_add 1, h0.next_last]
    exact h

theorem ends_setLpc (pile : ℕ → Option K) {signal lpc : Arr ℕ K} {s : ℕ → K} {taille p : ℕ}
    (hs : ∀ j < taille, signal.Holds j (s j)) (hp : 2 ≤ p) (hpt : 2 * p ≤ taille)
    (hd : ∀ i < p, lpc.dom i = true)
    (hpos : ∀ n a, a 0 ≠ 0 → 0 < form (autocorrelation s taille) n a) :
    Ends (Frame.setLpc pile signal taille p lpc) fun b => ∃ a σ,
      Predictor (autocorrelation s taille) (p - 1) a σ ∧
      (∀ j, 1 ≤ j → j < p → b.Holds (j - 1) (a j)) ∧ b.Holds (p - 1) 1 := by
  rw [setLpc_eq_avant]
  refine (ends_avant pile hs hp hpt hd (Levinson (autocorrelation s taille) p)
    (fun lpc' t ht hd' h => ht ▸ levinson_two hpos hd' (ht ▸ h))
    (fun autocorr k st hR hk hkp hst => (ends_step hR hpos hk hkp hst).mono fun _ h => h.1)
    hp le_rfl).bind ?_
  intro r h
  obtain ⟨_, lpc2, up, sigma2⟩ := r
  obtain ⟨-, hdom, -, a, ha, hlpc⟩ := h
  refine (Arr.ends_set (hdom (p - 1) (by omega)) 1).mono fun b hb =>
    ⟨a, sigma2, ha, fun j hj1 hj2 => ?_, Arr.holds_set_self hb⟩
  exact Arr.holds_set_ne hb (by omega) (hlpc j hj1 hj2)

end

/-- **`set_lpc` solves the normal equations**: on `taille` samples that are not all zero, with an
order `p` between 2 and half of `taille`, the first `p - 1` cells of `lpc` are the solution of the
Toeplitz system of the autocorrelation, and the last one is 1. -/
theorem setLpc_normal (pile lpc : ℕ → Option ℝ) (s : ℕ → ℝ) (taille tailleFrame p : ℕ)
    (htaille : taille ≤ tailleFrame) (hs : ∃ j < taille, s j ≠ 0) (hp : 2 ≤ p)
    (hpt : 2 * p ≤ taille) :
    Ends (Frame.setLpc pile (Arr.ofFn tailleFrame s) taille p (Arr.alloc p lpc)) fun b =>
      ∃ a : ℕ → ℝ, (∀ j, 1 ≤ j → j ≤ p - 1 → b.Holds (j - 1) (a j)) ∧ b.Holds (p - 1) 1 ∧
        ∀ k, 1 ≤ k → k ≤ p - 1 → autocorrelation s taille k +
          ∑ j ∈ Finset.Ico 1 p, a j * autocorrelation s taille (Nat.dist k j) = 0 := by
  refine (ends_setLpc pile (s := s) (fun j hj => Arr.holds_ofFn s (by omega)) hp hpt
    (fun i hi => (Arr.dom_alloc p lpc i).2 hi) (form_autocorrelation_pos hs)).mono ?_
  intro b h
  obtain ⟨a, σ, ha, hb, hlast⟩ := h
  refine ⟨a, fun j h1 h2 => hb j h1 (by omega), hlast, fun k h1 h2 => ?_⟩
  have hk := ha.normal k h1 h2
  rw [row, Nat.sub_add_cancel (by omega), Finset.range_eq_Ico,
    Finset.sum_eq_sum_Ico_succ_bot (by omega), ha.head, one_mul, Nat.dist_zero_right] at hk
  exact hk

/-- An order of 4 on a ramp of eight samples: three coefficients. -/
theorem setLpc_normal_ramp :
    Ends (Frame.setLpc (fun _ => none) (Arr.ofFn 8 fun j => (j : ℝ)) 8 4
      (Arr.alloc 4 fun _ => none)) fun b => ∃ a : ℕ → ℝ,
        (∀ j, 1 ≤ j → j ≤ 4 - 1 → b.Holds (j - 1) (a j)) ∧ b.Holds (4 - 1) 1 ∧
        ∀ k, 1 ≤ k → k ≤ 4 - 1 → autocorrelation (fun j => (j : ℝ)) 8 k +
          ∑ j ∈ Finset.Ico 1 4, a j * autocorrelation (fun j => (j : ℝ)) 8 (Nat.dist k j) = 0 :=
  setLpc_normal _ _ _ 8 8 4 le_rfl ⟨1, by decide, by simp⟩ (by decide) le_rfl

end TlVoix
