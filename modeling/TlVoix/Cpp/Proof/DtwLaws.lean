import TlVoix.Cpp.Proof.Dtw
import TlVoix.Lib.WarpStutter

/-!
# What the distance of `dtw` means

Laws of `dtw` on pieces with a frame each, in exact arithmetic, from its optimality (`ends_dtw`):

* `dtw_eq_zero_iff`: it is never negative, and zero exactly on pieces whose MFCC sequences are the
  same up to repetitions.
* `dtw_robust`: a change of the frames of one argument by at most `ε` changes it by at most `ε`
  (`dtw_le_of_localDist_le`).
* `dtw_comm`: it is symmetric, whatever the two lengths.
* `dtw_between`: it is between bounds that depend on the bounds of the local distances only, and not
  on the lengths.
-/

namespace TlVoix

open Checked Warp

variable {P : Parameters}

/-! ## Pieces at distance zero -/

/-- The MFCC of the frames of a piece. -/
def Morceau.mfccs {K : Type} (m : Morceau P K) : List (Vector K P.nbMfcc) :=
  m.getFrames.toList.map Frame.getMfcc

theorem length_mfccs {K : Type} (m : Morceau P K) : m.mfccs.length = m.getNFrames := by
  simp [Morceau.mfccs, Morceau.getFrames, Morceau.getNFrames, m.alloc]

/-- The cell of a table is zero where the MFCC agree. -/
theorem localDist_eq_zero {m1 m2 : Morceau P ℝ} {p : ℕ × ℕ} (h1 : p.1 < m1.getNFrames)
    (h2 : p.2 < m2.getNFrames) : localDist m1 m2 p = 0 ↔ m1.mfccs[p.1]? = m2.mfccs[p.2]? := by
  have hs1 : p.1 < m1.frames.size := m1.alloc ▸ h1
  have hs2 : p.2 < m2.frames.size := m2.alloc ▸ h2
  rw [localDist, dif_pos ⟨h1, h2⟩, distance_eq_zero]
  simp [Morceau.mfccs, Morceau.getFrames, Frame.getMfcc, hs1, hs2]

open scoped Classical in
/-- The MFCC without their repetitions. -/
theorem runs_mfccs {m : Morceau P ℝ} (h : 1 ≤ m.getNFrames) :
    runs (fun i => m.mfccs[i]?) (m.getNFrames - 1) =
      (m.mfccs.destutter (· ≠ ·)).map some := by
  have hr : (List.range m.mfccs.length).map (fun i => m.mfccs[i]?) = m.mfccs.map some :=
    List.ext_getElem (by simp) fun i h1 h2 => by
      simp only [List.length_map, List.length_range] at h1
      simp [h1]
  rw [runs, Nat.sub_add_cancel h, ← length_mfccs, hr,
    List.map_destutter_ne _ (Option.some_injective _)]

open scoped Classical in
/-- The path of least cost is free exactly when the MFCC have the same runs. -/
theorem zero_mem_costs_localDist {m1 m2 : Morceau P ℝ} (h1 : 1 ≤ m1.getNFrames)
    (h2 : 1 ≤ m2.getNFrames) :
    0 ∈ costs (localDist m1 m2) {(0, 0)} (m1.getNFrames - 1, m2.getNFrames - 1) ↔
      m1.mfccs.destutter (· ≠ ·) = m2.mfccs.destutter (· ≠ ·) := by
  have hin : ∀ {l : List (ℕ × ℕ)}, Path (0, 0) (m1.getNFrames - 1, m2.getNFrames - 1) l →
      ∀ p ∈ l, localDist m1 m2 p = 0 ↔ m1.mfccs[p.1]? = m2.mfccs[p.2]? := by
    intro l hl p hp
    have := hl.mem_le hp
    exact localDist_eq_zero (by simp only at this; omega) (by simp only at this; omega)
  rw [zero_mem_costs (localDist_nonneg m1 m2),
    ← (List.map_injective_iff.2 (Option.some_injective _)).eq_iff, ← runs_mfccs h1,
    ← runs_mfccs h2]
  constructor
  · intro hr
    obtain ⟨l, hl, h0⟩ := hr
    exact runs_eq_of_path (a := fun i => m1.mfccs[i]?) (b := fun i => m2.mfccs[i]?) hl
      fun p hp => (hin hl p hp).1 (h0 p hp)
  · intro h
    obtain ⟨l, hl, hab⟩ := exists_path_of_runs_eq h
    exact ⟨l, hl, fun p hp => (hin hl p hp).2 (hab p hp)⟩

open scoped Classical in
/-- `dtw` is never negative, and zero where the MFCC have the same runs. -/
theorem ends_dtw_zero {m1 m2 : Morceau P ℝ} (h1 : 1 ≤ m1.getNFrames) (h2 : 1 ≤ m2.getNFrames) :
    Ends (dtw m1 m2) fun v => 0 ≤ v ∧
      (v = 0 ↔ m1.mfccs.destutter (· ≠ ·) = m2.mfccs.destutter (· ≠ ·)) := by
  refine (ends_dtw h1 h2).mono fun v hv => ?_
  have hpos : (0 : ℝ) < m1.getNFrames + m2.getNFrames := by
    have : (1 : ℝ) ≤ m1.getNFrames := by exact_mod_cast h1
    positivity
  have hnn : 0 ≤ v * (m1.getNFrames + m2.getNFrames : ℝ) := by
    obtain ⟨s, -, l, -, hl⟩ := hv.1
    rw [← hl]
    refine List.sum_nonneg fun x hx => ?_
    obtain ⟨p, -, rfl⟩ := List.mem_map.1 hx
    exact localDist_nonneg m1 m2 p
  refine ⟨nonneg_of_mul_nonneg_left hnn hpos, ?_⟩
  rw [← zero_mem_costs_localDist h1 h2]
  constructor
  · intro he
    subst he
    simpa using hv.1
  · intro h0
    have := le_antisymm (hv.2 h0) hnn
    exact (mul_eq_zero.1 this).resolve_right hpos.ne'

theorem dtw_self {m : Morceau P ℝ} (h : 1 ≤ m.getNFrames) : dtw m m = .ok 0 := by
  classical
  obtain ⟨v, hv, -, hv0⟩ := ends_dtw_zero h h
  rw [hv, hv0.2 rfl]

open scoped Classical in
/-- **`dtw` is zero exactly on time-stretched copies**, and never negative. -/
theorem dtw_eq_zero_iff (m1 m2 : Morceau P ℝ) (h1 : 1 ≤ m1.getNFrames)
    (h2 : 1 ≤ m2.getNFrames) :
    (∃ v, dtw m1 m2 = .ok v ∧ 0 ≤ v ∧
      (v = 0 ↔ m1.mfccs.destutter (· ≠ ·) = m2.mfccs.destutter (· ≠ ·))) ∧
    dtw m1 m1 = .ok 0 := ⟨ends_dtw_zero h1 h2, dtw_self h1⟩

theorem replicate_ne {a b : ℝ} (h : a ≠ b) :
    Vector.replicate parameters.nbMfcc a ≠ Vector.replicate parameters.nbMfcc b := fun he => h (by
  have := congrArg (fun v : Vector ℝ parameters.nbMfcc => getElem v 0 (by decide)) he
  simpa using this)

theorem dtw_eq_zero_iff_constant :
    dtw (Morceau.constant [0, 0, 1] 1) (Morceau.constant [0, 1, 1] 1) = .ok 0 := by
  classical
  obtain ⟨⟨v, hv, -, h0⟩, -⟩ := dtw_eq_zero_iff (Morceau.constant [0, 0, 1] 1)
    (Morceau.constant [0, 1, 1] 1) (by decide) (by decide)
  have hne := replicate_ne (zero_ne_one (α := ℝ))
  rw [hv, h0.2 (by simp [Morceau.mfccs, Morceau.getFrames, Morceau.constant, Frame.getMfcc,
    List.destutter, List.destutter', hne])]

/-! ## Robustness -/

/-- A pointwise bound on the local distances bounds the global one. -/
theorem dtw_le_of_localDist_le {m1 m2 m1' m2' : Morceau P ℝ} {v w ε : ℝ} (hε : 0 ≤ ε)
    (hn1 : m1.getNFrames = m1'.getNFrames) (hn2 : m2.getNFrames = m2'.getNFrames)
    (h1 : 1 ≤ m1.getNFrames) (h2 : 1 ≤ m2.getNFrames)
    (h : ∀ p, localDist m1' m2' p ≤ localDist m1 m2 p + ε) (hv : dtw m1 m2 = .ok v)
    (hw : dtw m1' m2' = .ok w) : w ≤ v + ε := by
  obtain ⟨v', hv', hvl⟩ := ends_dtw h1 h2
  obtain ⟨w', hw', hwl⟩ := ends_dtw (hn1 ▸ h1) (hn2 ▸ h2)
  obtain rfl := Except.ok.inj (hv'.symm.trans hv)
  obtain rfl := Except.ok.inj (hw'.symm.trans hw)
  rw [← hn1, ← hn2] at hwl
  have hle := isLeast_perturb hε h hvl hwl
  have hc1 : (1 : ℝ) ≤ m1.getNFrames := by exact_mod_cast h1
  have hc2 : (1 : ℝ) ≤ m2.getNFrames := by exact_mod_cast h2
  -- a path has fewer cells than the divisor
  have hlen : (m1.getNFrames - 1 + (m2.getNFrames - 1) + 1) • ε ≤
      (m1.getNFrames + m2.getNFrames : ℝ) * ε := by
    rw [nsmul_eq_mul]
    refine mul_le_mul_of_nonneg_right ?_ hε
    push_cast [h1, h2]
    linarith
  have hpos : (0 : ℝ) < m1.getNFrames + m2.getNFrames := by positivity
  refine le_of_mul_le_mul_right ?_ hpos
  calc w' * (m1.getNFrames + m2.getNFrames : ℝ)
      ≤ v' * (m1.getNFrames + m2.getNFrames) + (m1.getNFrames + m2.getNFrames) * ε :=
        hle.trans (add_le_add_right hlen _)
    _ = (v' + ε) * (m1.getNFrames + m2.getNFrames) := by ring

/-- Pieces of the same length whose frames are within `ε` of one another. -/
structure Morceau.Close (ε : ℝ) (m m' : Morceau P ℝ) : Prop where
  nFrames : m.getNFrames = m'.getNFrames
  frames : ∀ (j : ℕ) (f f' : Frame P ℝ), m.getFrames[j]? = some f → m'.getFrames[j]? = some f' →
    distance f f' ≤ ε

theorem Morceau.Close.symm {ε : ℝ} {m m' : Morceau P ℝ} (h : m.Close ε m') : m'.Close ε m :=
  ⟨h.nFrames.symm, fun j f f' hf hf' => by rw [distance_comm]; exact h.frames j f' f hf' hf⟩

theorem Morceau.Close.nonneg {ε : ℝ} {m m' : Morceau P ℝ} (h : m.Close ε m')
    (h1 : 1 ≤ m.getNFrames) : 0 ≤ ε := by
  have hs : 0 < m.frames.size := m.alloc ▸ h1
  have hs' : 0 < m'.frames.size := by
    rw [m'.alloc]
    exact (h.nFrames ▸ h1 : 1 ≤ m'.getNFrames)
  exact (distance_nonneg _ _).trans (h.frames 0 m.frames[0] m'.frames[0]
    (by simp [Morceau.getFrames, hs]) (by simp [Morceau.getFrames, hs']))

/-- The local distances to close pieces are close. -/
theorem Morceau.Close.localDist_right {ε : ℝ} {m m' : Morceau P ℝ} (h : m.Close ε m')
    (hε : 0 ≤ ε) (m1 : Morceau P ℝ) (p : ℕ × ℕ) : localDist m1 m' p ≤ localDist m1 m p + ε := by
  by_cases hp : p.1 < m1.getNFrames ∧ p.2 < m.getNFrames
  · have hp' : p.1 < m1.getNFrames ∧ p.2 < m'.getNFrames := h.nFrames ▸ hp
    have hs : p.2 < m.frames.size := m.alloc ▸ hp.2
    have hs' : p.2 < m'.frames.size := m'.alloc ▸ hp'.2
    rw [localDist, dif_pos hp', localDist, dif_pos hp]
    refine (distance_triangle _ m.frames[p.2] _).trans (add_le_add_right ?_ _)
    exact h.frames p.2 _ _ (by simp [Morceau.getFrames, hs]) (by simp [Morceau.getFrames, hs'])
  · have hp' : ¬(p.1 < m1.getNFrames ∧ p.2 < m'.getNFrames) := h.nFrames ▸ hp
    rw [localDist, dif_neg hp', localDist, dif_neg hp, zero_add]
    exact hε

theorem localDist_swap (m1 m2 : Morceau P ℝ) (p : ℕ × ℕ) :
    localDist m1 m2 p = localDist m2 m1 p.swap := by
  unfold localDist
  simp only [Prod.fst_swap, Prod.snd_swap, and_comm, distance_comm]

theorem Morceau.Close.localDist_left {ε : ℝ} {m m' : Morceau P ℝ} (h : m.Close ε m')
    (hε : 0 ≤ ε) (m2 : Morceau P ℝ) (p : ℕ × ℕ) : localDist m' m2 p ≤ localDist m m2 p + ε := by
  rw [localDist_swap, localDist_swap m]
  exact h.localDist_right hε m2 p.swap

/-- **`dtw` is robust**: pieces within `ε` of one another are at distances within `ε` of any
piece, on either side. -/
theorem dtw_robust (ε : ℝ) (m1 m2 m2' : Morceau P ℝ) (h1 : 1 ≤ m1.getNFrames)
    (h2 : 1 ≤ m2.getNFrames) (h : m2.Close ε m2') :
    (∃ v w, dtw m1 m2 = .ok v ∧ dtw m1 m2' = .ok w ∧ |v - w| ≤ ε) ∧
    ∃ v w, dtw m2 m1 = .ok v ∧ dtw m2' m1 = .ok w ∧ |v - w| ≤ ε := by
  have hε := h.nonneg h2
  have h2' : 1 ≤ m2'.getNFrames := h.nFrames ▸ h2
  constructor
  · obtain ⟨v, hv, -⟩ := ends_dtw h1 h2
    obtain ⟨w, hw, -⟩ := ends_dtw h1 h2'
    have hwv := dtw_le_of_localDist_le hε rfl h.nFrames h1 h2 (h.localDist_right hε m1) hv hw
    have hvw := dtw_le_of_localDist_le hε rfl h.symm.nFrames h1 h2'
      (h.symm.localDist_right hε m1) hw hv
    exact ⟨v, w, hv, hw, abs_sub_le_iff.2 ⟨by linarith, by linarith⟩⟩
  · obtain ⟨v, hv, -⟩ := ends_dtw h2 h1
    obtain ⟨w, hw, -⟩ := ends_dtw h2' h1
    have hwv := dtw_le_of_localDist_le hε h.nFrames rfl h2 h1 (h.localDist_left hε m1) hv hw
    have hvw := dtw_le_of_localDist_le hε h.symm.nFrames rfl h2' h1
      (h.symm.localDist_left hε m1) hw hv
    exact ⟨v, w, hv, hw, abs_sub_le_iff.2 ⟨by linarith, by linarith⟩⟩

theorem Morceau.close_constant {ε : ℝ} {l l' : List ℝ} {c c' : ℤ}
    (h : List.Forall₂ (fun x y => 25 * |x - y| ≤ ε) l l') :
    Morceau.Close ε (Morceau.constant l c) (Morceau.constant l' c') := by
  refine ⟨h.length_eq, fun j f f' hf hf' => ?_⟩
  simp only [Morceau.getFrames, Morceau.constant, List.getElem?_toArray, List.getElem?_map,
    Option.map_eq_some_iff] at hf hf'
  obtain ⟨x, hx, rfl⟩ := hf
  obtain ⟨y, hy, rfl⟩ := hf'
  rw [distance_replicate rfl rfl]
  obtain ⟨hj, rfl⟩ := List.getElem?_eq_some_iff.1 hx
  obtain ⟨hj', rfl⟩ := List.getElem?_eq_some_iff.1 hy
  exact (List.forall₂_iff_get.1 h).2 j hj hj'

theorem dtw_robust_constant :
    (∃ v w, dtw (Morceau.constant [3, 1] 1) (Morceau.constant [0, 2, 5] 1) = .ok v ∧
      dtw (Morceau.constant [3, 1] 1) (Morceau.constant [1, 2, 4] 1) = .ok w ∧ |v - w| ≤ 25) ∧
    ∃ v w, dtw (Morceau.constant [0, 2, 5] 1) (Morceau.constant [3, 1] 1) = .ok v ∧
      dtw (Morceau.constant [1, 2, 4] 1) (Morceau.constant [3, 1] 1) = .ok w ∧ |v - w| ≤ 25 := by
  refine dtw_robust 25 (Morceau.constant [3, 1] 1) (Morceau.constant [0, 2, 5] 1)
    (Morceau.constant [1, 2, 4] 1) (by decide) (by decide) (Morceau.close_constant ?_)
  norm_num

/-! ## Symmetry -/

/-- **`dtw` is symmetric.** -/
theorem dtw_comm (m1 m2 : Morceau P ℝ) (h1 : 1 ≤ m1.getNFrames) (h2 : 1 ≤ m2.getNFrames) :
    ∃ v, dtw m1 m2 = .ok v ∧ dtw m2 m1 = .ok v := by
  obtain ⟨v, hv, hvl⟩ := ends_dtw h1 h2
  obtain ⟨w, hw, hwl⟩ := ends_dtw h2 h1
  have hpos : (0 : ℝ) < m1.getNFrames + m2.getNFrames := by
    have : (1 : ℝ) ≤ m1.getNFrames := by exact_mod_cast h1
    positivity
  -- the two tables are transposes of one another
  have hswap := isLeast_swap (fun p => (localDist_swap m1 m2 p).symm) hvl
  have heq := hwl.unique hswap
  rw [add_comm (m2.getNFrames : ℝ)] at heq
  obtain rfl := mul_right_cancel₀ hpos.ne' heq
  exact ⟨w, hv, hw⟩

theorem dtw_comm_constant :
    ∃ v, dtw (Morceau.constant [0, 1, 2] 1) (Morceau.constant [3, 1] 1) = .ok v ∧
      dtw (Morceau.constant [3, 1] 1) (Morceau.constant [0, 1, 2] 1) = .ok v :=
  dtw_comm (Morceau.constant [0, 1, 2] 1) (Morceau.constant [3, 1] 1) (by decide) (by decide)

/-! ## Length -/

/-- The local distances of a table are distances of frames. -/
theorem localDist_mem {m1 m2 : Morceau P ℝ} {p : ℕ × ℕ} (h1 : p.1 < m1.getNFrames)
    (h2 : p.2 < m2.getNFrames) :
    ∃ f1 ∈ m1.getFrames, ∃ f2 ∈ m2.getFrames, localDist m1 m2 p = distance f1 f2 := by
  rw [localDist, dif_pos ⟨h1, h2⟩]
  exact ⟨_, Array.getElem_mem _, _, Array.getElem_mem _, rfl⟩

/-- **The normalisation of `dtw` removes the effect of length**: local distances between `lo` and
`hi` give a distance between `lo / 2` and `hi`, for pieces of any lengths. -/
theorem dtw_between (lo hi : ℝ) (hlo : 0 ≤ lo) (m1 m2 : Morceau P ℝ) (h1 : 1 ≤ m1.getNFrames)
    (h2 : 1 ≤ m2.getNFrames)
    (h : ∀ f1 ∈ m1.getFrames, ∀ f2 ∈ m2.getFrames, lo ≤ distance f1 f2 ∧ distance f1 f2 ≤ hi) :
    ∃ v, dtw m1 m2 = .ok v ∧
      lo * max (m1.getNFrames : ℝ) m2.getNFrames / (m1.getNFrames + m2.getNFrames) ≤ v ∧
      v ≤ hi * (m1.getNFrames + m2.getNFrames - 1) / (m1.getNFrames + m2.getNFrames) ∧
      lo / 2 ≤ v ∧ v ≤ hi := by
  obtain ⟨v, hv, hvl⟩ := ends_dtw h1 h2
  have hcells : ∀ p : ℕ × ℕ, p.1 ≤ m1.getNFrames - 1 → p.2 ≤ m2.getNFrames - 1 →
      lo ≤ localDist m1 m2 p ∧ localDist m1 m2 p ≤ hi := by
    intro p hp1 hp2
    have hlt1 : p.1 < m1.getNFrames := by omega
    have hlt2 : p.2 < m2.getNFrames := by omega
    obtain ⟨f1, hf1, f2, hf2, hd⟩ := localDist_mem hlt1 hlt2
    exact hd ▸ h f1 hf1 f2 hf2
  have hhi : 0 ≤ hi := by
    have := hcells (0, 0) (Nat.zero_le _) (Nat.zero_le _)
    linarith
  obtain ⟨hge, hle⟩ := isLeast_bounds hlo hhi hcells hvl
  have hc1 : (1 : ℝ) ≤ m1.getNFrames := by exact_mod_cast h1
  have hc2 : (1 : ℝ) ≤ m2.getNFrames := by exact_mod_cast h2
  have hpos : (0 : ℝ) < m1.getNFrames + m2.getNFrames := by positivity
  -- the numbers of cells of a path, as real numbers
  have hshort : max (m1.getNFrames - 1) (m2.getNFrames - 1) + 1 =
      max m1.getNFrames m2.getNFrames := by omega
  have hlong : m1.getNFrames - 1 + (m2.getNFrames - 1) + 1 + 1 =
      m1.getNFrames + m2.getNFrames := by omega
  have hlongR : ((m1.getNFrames - 1 + (m2.getNFrames - 1) + 1 : ℕ) : ℝ) =
      m1.getNFrames + m2.getNFrames - 1 := by
    have := congrArg (Nat.cast (R := ℝ)) hlong
    push_cast at this ⊢
    linarith
  rw [hshort, nsmul_eq_mul, Nat.cast_max, mul_comm _ lo] at hge
  rw [nsmul_eq_mul, hlongR, mul_comm _ hi] at hle
  have hlower := (div_le_iff₀ hpos).2 hge
  have hupper := (le_div_iff₀ hpos).2 hle
  refine ⟨v, hv, hlower, hupper, le_trans ?_ hlower, hupper.trans ?_⟩
  · rw [div_le_div_iff₀ two_pos hpos, mul_assoc]
    refine mul_le_mul_of_nonneg_left ?_ hlo
    have hm1 := le_max_left (m1.getNFrames : ℝ) m2.getNFrames
    have hm2 := le_max_right (m1.getNFrames : ℝ) m2.getNFrames
    linarith
  · rw [div_le_iff₀ hpos]
    exact mul_le_mul_of_nonneg_left (by linarith) hhi

theorem dtw_between_constant :
    ∃ v, dtw (Morceau.constant [0, 1, 0] 1) (Morceau.constant [3, 4] 1) = .ok v ∧
      50 * max ((3 : ℕ) : ℝ) (2 : ℕ) / ((3 : ℕ) + (2 : ℕ)) ≤ v ∧
      v ≤ 100 * ((3 : ℕ) + (2 : ℕ) - 1) / ((3 : ℕ) + (2 : ℕ)) ∧ 50 / 2 ≤ v ∧ v ≤ 100 := by
  refine dtw_between 50 100 (by norm_num) (Morceau.constant [0, 1, 0] 1)
    (Morceau.constant [3, 4] 1) (by decide) (by decide) fun f1 hf1 f2 hf2 => ?_
  simp only [Morceau.constant, Morceau.getFrames, List.map_cons, List.map_nil, List.mem_toArray,
    List.mem_cons, List.not_mem_nil, or_false] at hf1 hf2
  rcases hf1 with rfl | rfl | rfl <;> rcases hf2 with rfl | rfl <;>
    rw [distance_replicate rfl rfl] <;> norm_num

end TlVoix
