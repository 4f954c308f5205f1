import TlVoix.Cpp.Proof.Lpc
import TlVoix.Lib.Prediction

/-!
# The filter of `set_lpc`

The first `p - 1` cells that `set_lpc` writes, after a 1, are the filter of their order that leaves
the least energy of the frame, and its roots are outside the unit disk (`setLpc_filter`).
-/

namespace TlVoix

open Checked Toeplitz Finset

/-- **`set_lpc` finds the best prediction filter of the frame, and a stable one**: on `taille`
samples that are not all zero, with an order `p` between 2 and half of `taille`. -/
theorem setLpc_filter (pile lpc : ℕ → Option ℝ) (s : ℕ → ℝ) (taille tailleFrame p : ℕ)
    (htaille : taille ≤ tailleFrame) (hs : ∃ j < taille, s j ≠ 0) (hp : 2 ≤ p)
    (hpt : 2 * p ≤ taille) :
    Ends (Frame.setLpc pile (Arr.ofFn tailleFrame s) taille p (Arr.alloc p lpc)) fun b =>
      ∃ a : ℕ → ℝ, a 0 = 1 ∧ (∀ j, 1 ≤ j → j ≤ p - 1 → b.Holds (j - 1) (a j)) ∧
        (∀ c : ℕ → ℝ, c 0 = 1 →
          residual s taille (p - 1) a ≤ residual s taille (p - 1) c ∧
          (residual s taille (p - 1) c = residual s taille (p - 1) a → ∀ i ≤ p - 1, c i = a i)) ∧
        ∀ w : ℂ, ‖w‖ ≤ 1 → ∑ i ∈ range p, (a i : ℂ) * w ^ i ≠ 0 := by
  obtain ⟨j, hj, -⟩ := id hs
  have hT : 0 < taille := by omega
  refine (ends_setLpc pile (s := s) (fun j hj => Arr.holds_ofFn s (by omega)) hp hpt
    (fun i hi => (Arr.dom_alloc p lpc i).2 hi) (form_autocorrelation_pos hs)).mono fun b h => ?_
  obtain ⟨a, σ, ha, hb, -⟩ := h
  refine ⟨a, ha.head, fun j h1 h2 => hb j h1 (by omega), fun c hc => ?_, fun w hw => ?_⟩
  · exact ⟨ha.residual_le hT hc, fun heq => ha.eq_of_residual_le hs hc heq.le⟩
  · have hroot := (ha.stable hs w hw).1
    rwa [transfer, Nat.sub_add_cancel (by omega)] at hroot

theorem setLpc_filter_ramp :
    Ends (Frame.setLpc (fun _ => none) (Arr.ofFn 8 fun j => (j : ℝ)) 8 4
      (Arr.alloc 4 fun _ => none)) fun b => ∃ a : ℕ → ℝ, a 0 = 1 ∧
        (∀ j, 1 ≤ j → j ≤ 4 - 1 → b.Holds (j - 1) (a j)) ∧
        (∀ c : ℕ → ℝ, c 0 = 1 →
          residual (fun j => (j : ℝ)) 8 (4 - 1) a ≤ residual (fun j => (j : ℝ)) 8 (4 - 1) c ∧
          (residual (fun j => (j : ℝ)) 8 (4 - 1) c = residual (fun j => (j : ℝ)) 8 (4 - 1) a →
            ∀ i ≤ 4 - 1, c i = a i)) ∧
        ∀ w : ℂ, ‖w‖ ≤ 1 → ∑ i ∈ range 4, (a i : ℂ) * w ^ i ≠ 0 :=
  setLpc_filter _ _ _ 8 8 4 le_rfl ⟨1, by decide, by simp⟩ (by decide) le_rfl

end TlVoix
