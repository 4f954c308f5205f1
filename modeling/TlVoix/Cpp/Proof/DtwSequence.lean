import TlVoix.Cpp.Proof.ClassifLaws
import TlVoix.Lib.Recogniser

/-!
# `dtw` compares sequences of MFCC

`dtw` is the distance of a recogniser (`dtw_eq`): of the frames it sees their MFCC only, and of
these their order.

* `dtw_reverse`: it is the same on the sequences read from their ends.
* `dtw_append`: on two sequences made of two parts each it is at most the larger of the distances of
  the parts.
-/

namespace TlVoix

open Checked Warp

/-- The recogniser of sequences of MFCC. -/
def suites (P : Parameters) : Recogniser (List (Vector ℝ P.nbMfcc)) (Vector ℝ P.nbMfcc) ℝ where
  trace l := l
  gap f g := ∑ i, |f.get i - g.get i|

section
variable {P : Parameters}

theorem localDist_eq_table (m b : Morceau P ℝ) :
    localDist m b = (suites P).table m.mfccs b.mfccs := by
  funext p
  unfold localDist Recogniser.table
  by_cases h1 : p.1 < m.getNFrames
  · by_cases h2 : p.2 < b.getNFrames
    · have hs1 : p.1 < m.frames.size := m.alloc.symm ▸ h1
      have hs2 : p.2 < b.frames.size := b.alloc.symm ▸ h2
      rw [dif_pos ⟨h1, h2⟩, distance_eq]
      simp [Morceau.mfccs, Morceau.getFrames, hs1, hs2, suites, Frame.getMfcc]
    · have hnone : b.mfccs[p.2]? = none := List.getElem?_eq_none (by rw [length_mfccs]; omega)
      rw [dif_neg fun h => h2 h.2, hnone]
      cases m.mfccs[p.1]? <;> rfl
  · have hnone : m.mfccs[p.1]? = none := List.getElem?_eq_none (by rw [length_mfccs]; omega)
    rw [dif_neg fun h => h1 h.1, hnone]

/-- **`dtw`** is the distance of the sequences. -/
theorem dtw_eq {m b : Morceau P ℝ} (h1 : 1 ≤ m.getNFrames) (h2 : 1 ≤ b.getNFrames) :
    dtw m b = .ok ((suites P).distance m.mfccs b.mfccs) := by
  obtain ⟨v, hv, hleast⟩ := ends_dtw h1 h2
  have hx : ((suites P).trace m.mfccs).length = m.getNFrames := length_mfccs m
  have hy : ((suites P).trace b.mfccs).length = b.getNFrames := length_mfccs b
  rw [hv, (suites P).distance_eq (v := v)]
  · rw [hx, hy]
    exact_mod_cast (show m.getNFrames + b.getNFrames ≠ 0 by omega)
  · rw [hx, hy, Nat.cast_add]
    rw [localDist_eq_table] at hleast
    exact hleast

theorem mfccs_ne_nil {m : Morceau P ℝ} (h : 1 ≤ m.getNFrames) : m.mfccs ≠ [] := by
  rw [← List.length_pos_iff, length_mfccs]
  exact h

end

/-! ## Sequences read from their ends -/

/-- **`dtw` does not see the direction of time.** -/
theorem dtw_reverse {P : Parameters} (m1 m2 m1' m2' : Morceau P ℝ)
    (h1 : m1'.mfccs = m1.mfccs.reverse) (h2 : m2'.mfccs = m2.mfccs.reverse) :
    dtw m1' m2' = dtw m1 m2 := by
  have hn1 : m1'.getNFrames = m1.getNFrames := by
    rw [← length_mfccs, h1, List.length_reverse, length_mfccs]
  have hn2 : m2'.getNFrames = m2.getNFrames := by
    rw [← length_mfccs, h2, List.length_reverse, length_mfccs]
  by_cases h : 1 ≤ m1.getNFrames ∧ 1 ≤ m2.getNFrames
  · have h1 : (suites P).trace m1'.mfccs = ((suites P).trace m1.mfccs).reverse := h1
    have h2 : (suites P).trace m2'.mfccs = ((suites P).trace m2.mfccs).reverse := h2
    rw [dtw_eq h.1 h.2, dtw_eq (hn1 ▸ h.1) (hn2 ▸ h.2), Recogniser.distance_reverse h1 h2]
  · rw [dtw_error h, dtw_error (by rwa [hn1, hn2])]

theorem mfccs_constant (l : List ℝ) (classe : ℤ) :
    (Morceau.constant l classe).mfccs = l.map fun x => .replicate _ x := by
  simp [Morceau.mfccs, Morceau.getFrames, Morceau.constant, Frame.getMfcc]

theorem dtw_reverse_constant :
    dtw (Morceau.constant [1, 0] 1) (Morceau.constant [4, 3, 2] 1) =
      dtw (Morceau.constant [0, 1] 1) (Morceau.constant [2, 3, 4] 1) :=
  dtw_reverse (Morceau.constant [0, 1] 1) (Morceau.constant [2, 3, 4] 1)
    (Morceau.constant [1, 0] 1) (Morceau.constant [4, 3, 2] 1)
    (by simp [mfccs_constant]) (by simp [mfccs_constant])

/-! ## Sequences in two parts -/

/-- **`dtw` of two sequences in two parts**: the distances of the parts, in proportion to their
lengths, bound that of the whole. -/
theorem dtw_append {P : Parameters} (m n m1 n1 m2 n2 : Morceau P ℝ)
    (hm : m.mfccs = m1.mfccs ++ m2.mfccs) (hn : n.mfccs = n1.mfccs ++ n2.mfccs)
    (hm1 : 1 ≤ m1.getNFrames) (hn1 : 1 ≤ n1.getNFrames) (hm2 : 1 ≤ m2.getNFrames)
    (hn2 : 1 ≤ n2.getNFrames) :
    ∃ v v1 v2, dtw m n = .ok v ∧ dtw m1 n1 = .ok v1 ∧ dtw m2 n2 = .ok v2 ∧
      v * (m.getNFrames + n.getNFrames) ≤ v1 * (m1.getNFrames + n1.getNFrames) +
        v2 * (m2.getNFrames + n2.getNFrames) ∧ v ≤ max v1 v2 := by
  have hlm : m.getNFrames = m1.getNFrames + m2.getNFrames := by
    rw [← length_mfccs, hm, List.length_append, length_mfccs, length_mfccs]
  have hln : n.getNFrames = n1.getNFrames + n2.getNFrames := by
    rw [← length_mfccs, hn, List.length_append, length_mfccs, length_mfccs]
  have hx : (suites P).trace m.mfccs = (suites P).trace m1.mfccs ++ (suites P).trace m2.mfccs := hm
  have hy : (suites P).trace n.mfccs = (suites P).trace n1.mfccs ++ (suites P).trace n2.mfccs := hn
  have hsum := Recogniser.distance_append hx hy (mfccs_ne_nil hm1) (mfccs_ne_nil hn1)
    (mfccs_ne_nil hm2) (mfccs_ne_nil hn2)
  have hlen : ∀ b : Morceau P ℝ, ((suites P).trace b.mfccs).length = b.getNFrames := length_mfccs
  simp only [hlen, Nat.cast_add] at hsum
  refine ⟨_, _, _, dtw_eq (by omega) (by omega), dtw_eq hm1 hn1, dtw_eq hm2 hn2, hsum, ?_⟩
  set v1 := (suites P).distance m1.mfccs n1.mfccs
  set v2 := (suites P).distance m2.mfccs n2.mfccs
  have hc : ∀ b : Morceau P ℝ, (0 : ℝ) ≤ b.getNFrames := fun b => Nat.cast_nonneg _
  have hpos : (0 : ℝ) < m.getNFrames + n.getNFrames := by
    have : 1 ≤ m.getNFrames := by omega
    have : (1 : ℝ) ≤ m.getNFrames := by exact_mod_cast this
    linarith [hc n]
  refine le_of_mul_le_mul_right (hsum.trans ?_) hpos
  calc v1 * (m1.getNFrames + n1.getNFrames) + v2 * (m2.getNFrames + n2.getNFrames)
      ≤ max v1 v2 * (m1.getNFrames + n1.getNFrames) +
          max v1 v2 * (m2.getNFrames + n2.getNFrames) :=
        add_le_add (mul_le_mul_of_nonneg_right (le_max_left v1 v2) (add_nonneg (hc m1) (hc n1)))
          (mul_le_mul_of_nonneg_right (le_max_right v1 v2) (add_nonneg (hc m2) (hc n2)))
    _ = max v1 v2 * (m.getNFrames + n.getNFrames) := by
        rw [hlm, hln]
        push_cast
        ring

theorem dtw_append_constant :
    ∃ v v1 v2, dtw (Morceau.constant [0, 1] 1) (Morceau.constant [2, 3, 4] 1) = .ok v ∧
      dtw (Morceau.constant [0] 1) (Morceau.constant [2, 3] 1) = .ok v1 ∧
      dtw (Morceau.constant [1] 1) (Morceau.constant [4] 1) = .ok v2 ∧
      v * ((2 : ℕ) + (3 : ℕ)) ≤ v1 * ((1 : ℕ) + (2 : ℕ)) + v2 * ((1 : ℕ) + (1 : ℕ)) ∧
      v ≤ max v1 v2 :=
  dtw_append (Morceau.constant [0, 1] 1) (Morceau.constant [2, 3, 4] 1) (Morceau.constant [0] 1)
    (Morceau.constant [2, 3] 1) (Morceau.constant [1] 1) (Morceau.constant [4] 1)
    (by simp [mfccs_constant]) (by simp [mfccs_constant]) (by decide) (by decide) (by decide)
    (by decide)

end TlVoix
