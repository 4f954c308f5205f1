import TlVoix.Cpp.Proof.ClassifLaws
import TlVoix.Lib.Margin

/-!
# Decisions that survive noise

* `near_entries`: a change of the frames of the unknown piece by at most `ε` moves its distances to
  the pieces of the base by at most `ε`.
* `classif_stable`: so a decision with a margin of `2 ε` is kept.
-/

namespace TlVoix

open Checked Ballot

section
variable {P : Parameters} {ε : ℝ} {m m' : Morceau P ℝ}

theorem distanceGlobale_le (h : m.Close ε m') (h1 : 1 ≤ m.getNFrames) {b : Morceau P ℝ}
    (hb : 1 ≤ b.getNFrames) : distanceGlobale m' b ≤ distanceGlobale m b + ε := by
  have hε := h.nonneg h1
  obtain ⟨v, hv, -⟩ := ends_dtw h1 hb
  obtain ⟨w, hw, -⟩ := ends_dtw (h.nFrames ▸ h1) hb
  rw [distanceGlobale_eq hv, distanceGlobale_eq hw]
  exact dtw_le_of_localDist_le hε h.nFrames rfl h1 hb (h.localDist_left hε b) hv hw

theorem near_entries (h : m.Close ε m') (h1 : 1 ≤ m.getNFrames) {base : List (Morceau P ℝ)}
    (hbase : ∀ b ∈ base, 1 ≤ b.getNFrames) : Near ε (entries m base) (entries m' base) := by
  induction base with
  | nil => exact .nil
  | cons b base ih =>
    obtain ⟨hb, hbase⟩ := List.forall_mem_cons.1 hbase
    exact .cons ⟨rfl, distanceGlobale_le h h1 hb, distanceGlobale_le h.symm (h.nFrames ▸ h1) hb⟩
      (ih hbase)

end

/-- **Noise does not change a decision with a margin**: if `k` pieces of class `r` are at distance
`d` at most, and no other class has `k` pieces up to `d + 2 ε`, then `classif` answers `r` for every
piece whose frames are within `ε` of those of `m`, at distinct distances from the pieces of the
base. -/
theorem classif_stable {P : Parameters} (m m' : Morceau P ℝ) (base : List (Morceau P ℝ)) (k : ℕ)
    (hk : 1 ≤ k) (hlabels : ∀ b ∈ base, 1 ≤ b.getClasse ∧ b.getClasse ≤ 4)
    (hm : 1 ≤ m.getNFrames) (hbase : ∀ b ∈ base, 1 ≤ b.getNFrames) (ε : ℝ) (h : m.Close ε m')
    (r : ℤ) (d : ℝ) (hr : k ≤ within (entries m base) r d)
    (hmargin : ∀ c, c ≠ r → within (entries m base) c (d + (ε + ε)) < k)
    (hne : (base.map (distanceGlobale m')).Nodup) : classif.morceau base m' k = .ok r := by
  have hm' : 1 ≤ m'.getNFrames := h.nFrames ▸ hm
  have hnodup : ((entries m' base).map Prod.fst).Nodup := by
    rw [entries, List.map_map]
    exact hne
  obtain ⟨d', -, hfirst⟩ := first_of_near hk hr hmargin (near_entries h hm hbase) hnodup
  obtain ⟨c, hc, hchoice⟩ := ends_classif hk hlabels fun b hb => dtw_ok_iff.2 ⟨hm', hbase b hb⟩
  rw [kept_of_nodup hnodup] at hchoice
  rcases hchoice with ⟨-, hnone⟩ | ⟨-, e, hfirst'⟩
  · exact absurd (hfirst.reached.trans (within_le_total _ r d')) (Nat.not_le.2 (hnone r))
  · rwa [(hfirst.unique hfirst').1]

/-- Two classes with two pieces, and a third one between them. -/
theorem classif_stable_five :
    classif.morceau [Morceau.constant [9] 1, Morceau.constant [2] 3, Morceau.constant [8] 1,
      Morceau.constant [3] 3, Morceau.constant [4] 2] (Morceau.constant [1 / 8] 0) 2 = .ok 3 := by
  have hclose : Morceau.Close (25 / 8) (Morceau.constant [0] 0) (Morceau.constant [1 / 8] 0) :=
    Morceau.close_constant (by norm_num)
  have hentries : entries (Morceau.constant [0] 0) [Morceau.constant [9] 1, Morceau.constant [2] 3,
      Morceau.constant [8] 1, Morceau.constant [3] 3, Morceau.constant [4] 2] =
      [(25 * 9 / 2, 1), (25 * 2 / 2, 3), (25 * 8 / 2, 1), (25 * 3 / 2, 3), (25 * 4 / 2, 2)] := by
    simp only [entries, List.map_cons, List.map_nil, distanceGlobale, dtw_constant]
    norm_num [Morceau.constant, Morceau.getClasse]
  refine classif_stable (Morceau.constant [0] 0) (Morceau.constant [1 / 8] 0) _ 2 (by decide) ?_
    le_rfl ?_ (25 / 8) hclose 3 (25 * 3 / 2) ?_ (fun c hc => ?_) ?_
  · simp [Morceau.constant, Morceau.getClasse]
  · simp [Morceau.constant, Morceau.getNFrames]
  · rw [hentries]
    simp only [within_cons]
    norm_num [within]
  · rw [hentries]
    simp only [within_cons]
    norm_num [within, Ne.symm hc]
  · simp only [List.map_cons, List.map_nil, distanceGlobale, dtw_constant]
    norm_num

end TlVoix
