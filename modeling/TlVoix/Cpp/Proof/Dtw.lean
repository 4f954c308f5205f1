import TlVoix.Cpp.Dtw
import TlVoix.Lib.Warp
import Mathlib.Algebra.BigOperators.Fin
import Mathlib.Algebra.Order.BigOperators.Group.Finset
import Mathlib.Algebra.Order.Field.Basic

/-!
# `dtw` computes the least cost of a warping path

* `ends_distances`: on local distances that do not fault and a table with a cell, `dtw.distances`
  returns the least cost of the warping paths from corner to corner. The invariant of the loops is
  `Filled`: every cell before the current one, row by row, holds the least cost of the paths to it.
* `ends_dtw`, `dtw_optimal`: on two pieces with a frame each, `dtw` returns that cost over the
  distances of their frames (`localDist`), divided by the sum of their lengths.
* `distance_eq`: over the reals, `distance` is the sum of the absolute differences of the MFCC.
-/

namespace TlVoix

open Checked Warp

/-! ## The table -/

section
variable {K : Type} [AddCommMonoid K] [LinearOrder K]

/-- The cells of the table before `(i, j)`, row by row. -/
def Before (i j : ℕ) (p : ℕ × ℕ) : Prop := p.1 < i ∨ p.1 = i ∧ p.2 < j

theorem Before.of_ne {i j : ℕ} {p : ℕ × ℕ} (h : Before i (j + 1) p) (hne : p ≠ (i, j)) :
    Before i j p := by
  rcases h with h | ⟨h1, h2⟩
  · exact .inl h
  · have : p.2 ≠ j := fun h2 => hne (Prod.ext h1 h2)
    exact .inr ⟨h1, by omega⟩

theorem Before.of_nextRow {i n : ℕ} {p : ℕ × ℕ} (h : Before (i + 1) 0 p) (hp : p.2 < n) :
    Before i n p := by
  rcases h with h | ⟨-, h⟩
  · rcases Nat.lt_succ_iff_lt_or_eq.1 h with h | h
    · exact .inl h
    · exact .inr ⟨h, hp⟩
  · exact absurd h (Nat.not_lt_zero _)

/-- The cells before `(i, j)` hold the least costs of the paths to them. -/
structure Filled (n1 n2 : ℕ) (c : ℕ × ℕ → K) (i j : ℕ) (d : Arr (ℕ × ℕ) K) : Prop where
  dom : ∀ p, d.dom p = true ↔ p.1 < n1 ∧ p.2 < n2
  holds : ∀ p, p.1 < n1 → p.2 < n2 → Before i j p →
    ∃ v, d.Holds p v ∧ IsLeast (costs c {(0, 0)} p) v

/-- The next cell is assigned its least cost. -/
theorem Filled.set {n1 n2 : ℕ} {c : ℕ × ℕ → K} {i j : ℕ} {d : Arr (ℕ × ℕ) K}
    (h : Filled n1 n2 c i j d) (hi : i < n1) (hj : j < n2) {v : K}
    (hv : IsLeast (costs c {(0, 0)} (i, j)) v) :
    Ends (d.set (i, j) v) (Filled n1 n2 c i (j + 1)) := by
  refine (Arr.ends_set ((h.dom (i, j)).2 ⟨hi, hj⟩) v).mono fun d' hd' =>
    ⟨fun p => by rw [Arr.dom_set hd', h.dom], fun p h1 h2 hp => ?_⟩
  by_cases hpij : p = (i, j)
  · exact ⟨v, hpij ▸ Arr.holds_set_self hd', hpij ▸ hv⟩
  · obtain ⟨w, hw, hl⟩ := h.holds p h1 h2 (hp.of_ne hpij)
    exact ⟨w, Arr.holds_set_ne hd' hpij hw, hl⟩

/-- A row is complete. -/
theorem Filled.nextRow {n1 n2 : ℕ} {c : ℕ × ℕ → K} {i : ℕ} {d : Arr (ℕ × ℕ) K}
    (h : Filled n1 n2 c i n2 d) : Filled n1 n2 c (i + 1) 0 d :=
  ⟨h.dom, fun p h1 h2 hp => h.holds p h1 h2 (hp.of_nextRow h2)⟩

theorem filled_fresh (n1 n2 : ℕ) (c : ℕ × ℕ → K) : Filled n1 n2 c 0 0 (Arr.fresh2 n1 n2) :=
  ⟨fun p => Arr.dom_fresh2 n1 n2 p, fun p _ _ hp => by
    rcases hp with hp | ⟨-, hp⟩ <;> exact absurd hp (Nat.not_lt_zero _)⟩

variable [IsOrderedAddMonoid K] {n1 n2 : ℕ} {dist : ℕ → ℕ → Run K} {c : ℕ × ℕ → K}

/-- A cell of the first row. -/
theorem ends_firstRow (hd : ∀ i j, i < n1 → j < n2 → dist i j = .ok (c (i, j))) (h1 : 0 < n1)
    {d : Arr (ℕ × ℕ) K} {j : ℕ} (h : Filled n1 n2 c 0 j d) (hj : 1 ≤ j) (hj2 : j < n2) :
    Ends (do d.set (0, j) ((← d.get (0, j - 1)) + (← dist 0 j))) (Filled n1 n2 c 0 (j + 1)) := by
  obtain ⟨j, rfl⟩ : ∃ j', j = j' + 1 := ⟨j - 1, by omega⟩
  obtain ⟨v, hv, hl⟩ := h.holds (0, j) h1 (by simp only; omega) (.inr ⟨rfl, Nat.lt_succ_self j⟩)
  rw [Nat.add_sub_cancel, Arr.get_ok hv, hd 0 (j + 1) h1 hj2]
  exact h.set h1 hj2 (isLeast_zero_succ hl)

omit [IsOrderedAddMonoid K] in
/-- The first cell of a row has one predecessor. -/
theorem Filled.above {n1 n2 : ℕ} {c : ℕ × ℕ → K} {i : ℕ} {d : Arr (ℕ × ℕ) K}
    (h : Filled n1 n2 c (i + 1) 0 d) (hi : i < n1) (h2 : 0 < n2) :
    ∃ v, d.Holds (i, 0) v ∧ IsLeast (costs c {(0, 0)} (i, 0)) v :=
  h.holds (i, 0) hi h2 (.inl (Nat.lt_succ_self i))

/-- A cell with three predecessors. -/
theorem ends_cell (hd : ∀ i j, i < n1 → j < n2 → dist i j = .ok (c (i, j)))
    {d : Arr (ℕ × ℕ) K} {i j : ℕ} (h : Filled n1 n2 c i j d) (hi : 1 ≤ i) (hi1 : i < n1)
    (hj : 1 ≤ j) (hj2 : j < n2) :
    Ends (do d.set (i, j) (min (← d.get (i - 1, j - 1))
      (min (← d.get (i - 1, j)) (← d.get (i, j - 1))) + (← dist i j)))
      (Filled n1 n2 c i (j + 1)) := by
  obtain ⟨i, rfl⟩ : ∃ i', i = i' + 1 := ⟨i - 1, by omega⟩
  obtain ⟨j, rfl⟩ : ∃ j', j = j' + 1 := ⟨j - 1, by omega⟩
  obtain ⟨a, ha, hla⟩ := h.holds (i, j) (by simp only; omega) (by simp only; omega)
    (.inl (Nat.lt_succ_self i))
  obtain ⟨b, hb, hlb⟩ := h.holds (i, j + 1) (by simp only; omega) hj2 (.inl (Nat.lt_succ_self i))
  obtain ⟨e, he, hle⟩ := h.holds (i + 1, j) hi1 (by simp only; omega)
    (.inr ⟨rfl, Nat.lt_succ_self j⟩)
  -- the three predecessors, as one function of the cell
  have hv : ∀ p, Step p (i + 1, j + 1) → IsLeast (costs c {(0, 0)} p)
      (if p = (i, j) then a else if p = (i, j + 1) then b else e) := by
    intro p hp
    rcases step_succ_succ.1 hp with rfl | rfl | rfl
    · simpa using hla
    · simpa using hlb
    · simpa using hle
  have hm := isLeast_succ_succ hv
  simp only [↓reduceIte, Prod.mk.injEq, Nat.succ_ne_self, and_false, and_true, false_and] at hm
  rw [Nat.add_sub_cancel, Nat.add_sub_cancel, Arr.get_ok ha, Arr.get_ok hb, Arr.get_ok he,
    hd (i + 1) (j + 1) hi1 hj2]
  exact h.set hi1 hj2 hm

/-- **The table of `dtw`**: the cell designated by the counters left by the loops is the least
cost of the paths from corner to corner. -/
theorem ends_distances (hd : ∀ i j, i < n1 → j < n2 → dist i j = .ok (c (i, j))) (h1 : 1 ≤ n1)
    (h2 : 1 ≤ n2) :
    Ends (dtw.distances n1 n2 dist) (IsLeast (costs c {(0, 0)} (n1 - 1, n2 - 1))) := by
  unfold dtw.distances
  rw [hd 0 0 h1 h2, ok_bind]
  refine ((filled_fresh n1 n2 c).set h1 h2 isLeast_zero_zero).bind fun d hd0 => ?_
  refine (Ends.forUp (Filled n1 n2 c 0) h2 hd0
    fun j d hj hj2 h => ends_firstRow hd h1 h hj hj2).bind ?_
  intro t hs
  obtain ⟨j, d⟩ := t
  obtain ⟨rfl, hrow⟩ := hs
  -- after the first row, and after every row, the counter `j` has left its loop at `n2`
  refine (Ends.forUp (fun i s => s.1 = j ∧ Filled n1 j c i 0 s.2) h1 ⟨rfl, hrow.nextRow⟩
    fun i s hi hi1 h => ?_).bind ?_
  · obtain ⟨j', d⟩ := s
    obtain ⟨rfl, h⟩ := h
    obtain ⟨i, rfl⟩ : ∃ i', i = i' + 1 := ⟨i - 1, by omega⟩
    obtain ⟨v, hv, hl⟩ := h.above (by omega) h2
    dsimp only
    rw [Nat.add_sub_cancel, Arr.get_ok hv, ok_bind, hd (i + 1) 0 hi1 h2, ok_bind]
    refine (h.set hi1 h2 (isLeast_succ_zero hl)).bind fun d h => ?_
    exact (Ends.forUp (Filled n1 j' c (i + 1)) h2 h
      fun j d hj hj2 h => ends_cell hd h hi hi1 hj hj2).mono fun r hr => ⟨hr.1, hr.2.nextRow⟩
  · intro t hs
    obtain ⟨i, j', d⟩ := t
    obtain ⟨hi, hj, hf⟩ := hs
    dsimp only at hi hj hf ⊢
    subst hi hj
    obtain ⟨v, hv, hl⟩ := hf.holds (i - 1, j' - 1) (by simp only; omega) (by simp only; omega)
      (.inl (by simp only; omega))
    exact ⟨v, Arr.get_ok hv, hl⟩

end

/-! ## Pieces -/

section
variable {P : Parameters} {K : Type}

theorem Morceau.frame_ok {m : Morceau P K} {i : ℕ} (h : i < m.getNFrames) :
    m.frame i = .ok (getElem m.frames i (m.alloc ▸ h)) := by
  have hi : i < m.frames.size := m.alloc ▸ h
  simp [Morceau.frame, Morceau.getFrames, hi]

variable [Field K] [LibM K]

/-- The distance of the frames of a cell; 0 outside the table. -/
def localDist (m1 m2 : Morceau P K) (p : ℕ × ℕ) : K :=
  if h : p.1 < m1.getNFrames ∧ p.2 < m2.getNFrames then
    distance (getElem m1.frames p.1 (m1.alloc ▸ h.1))
      (getElem m2.frames p.2 (m2.alloc ▸ h.2))
  else 0

theorem localDist_ok {m1 m2 : Morceau P K} {i j : ℕ} (hi : i < m1.getNFrames)
    (hj : j < m2.getNFrames) :
    (do pure (distance (← m1.frame i) (← m2.frame j)) : Run K) =
      .ok (localDist m1 m2 (i, j)) := by
  rw [Morceau.frame_ok hi, ok_bind, Morceau.frame_ok hj, ok_bind, localDist,
    dif_pos (show (i, j).1 < _ ∧ (i, j).2 < _ from ⟨hi, hj⟩)]
  rfl

variable [LinearOrder K] [IsStrictOrderedRing K]

/-- `dtw` on two pieces with a frame each, and its un-normalised value. -/
theorem ends_dtw {m1 m2 : Morceau P K} (h1 : 1 ≤ m1.getNFrames) (h2 : 1 ≤ m2.getNFrames) :
    Ends (dtw m1 m2) fun v => IsLeast (costs (localDist m1 m2) {(0, 0)}
      (m1.getNFrames - 1, m2.getNFrames - 1)) (v * (m1.getNFrames + m2.getNFrames)) := by
  unfold dtw
  refine (ends_distances (c := localDist m1 m2) (fun i j hi hj => localDist_ok hi hj) h1 h2).bind
    fun v hv => Ends.ok ?_
  have hne : (m1.getNFrames + m2.getNFrames : K) ≠ 0 := by
    have : (0 : K) < m1.getNFrames := by exact_mod_cast h1
    positivity
  rwa [Nat.cast_add, div_mul_cancel₀ _ hne]

end

/-! ## The local distance over the reals -/

section
variable {P : Parameters}

theorem foldl_add {ι : Type} (l : List ι) (f : ι → ℝ) (a : ℝ) :
    l.foldl (fun s i => s + f i) a = a + (l.map f).sum := by
  induction l generalizing a with
  | nil => simp
  | cons i l ih => rw [List.foldl_cons, ih, List.map_cons, List.sum_cons, add_assoc]

/-- `distance` is the sum of the absolute differences of the MFCC. -/
theorem distance_eq (f1 f2 : Frame P ℝ) :
    distance f1 f2 = ∑ i : Fin P.nbMfcc, |f1.mfcc.get i - f2.mfcc.get i| := by
  have hsqrt : ∀ x : ℝ, LibM.sqrt (x * x) = |x| := Real.sqrt_mul_self_eq_abs
  simp only [distance, hsqrt, mul_zero]
  rw [foldl_add, foldl_add, zero_add, List.map_const', List.sum_replicate, smul_zero, add_zero,
    ← List.ofFn_eq_map, List.sum_ofFn]
  rfl

theorem distance_nonneg (f1 f2 : Frame P ℝ) : 0 ≤ distance f1 f2 := by
  rw [distance_eq]
  exact Finset.sum_nonneg fun i _ => abs_nonneg _

theorem distance_comm (f1 f2 : Frame P ℝ) : distance f1 f2 = distance f2 f1 := by
  simp only [distance_eq, abs_sub_comm]

theorem distance_triangle (f1 f2 f3 : Frame P ℝ) :
    distance f1 f3 ≤ distance f1 f2 + distance f2 f3 := by
  rw [distance_eq, distance_eq, distance_eq, ← Finset.sum_add_distrib]
  exact Finset.sum_le_sum fun i _ => abs_sub_le _ _ _

/-- The local distance vanishes exactly on frames with the same MFCC. -/
theorem distance_eq_zero {f1 f2 : Frame P ℝ} : distance f1 f2 = 0 ↔ f1.mfcc = f2.mfcc := by
  rw [distance_eq, Finset.sum_eq_zero_iff_of_nonneg fun i _ => abs_nonneg _]
  simp only [Finset.mem_univ, forall_const, abs_eq_zero, sub_eq_zero]
  exact ⟨fun h => Vector.ext fun i hi => h ⟨i, hi⟩, fun h i => by rw [h]⟩

theorem localDist_nonneg (m1 m2 : Morceau P ℝ) (p : ℕ × ℕ) : 0 ≤ localDist m1 m2 p := by
  unfold localDist
  split
  · exact distance_nonneg _ _
  · exact le_refl _

end

/-! ## Optimality -/

/-- **`dtw` is optimal**: times the sum of the lengths, it is the least sum of the local distances
over the warping paths from the first frames to the last ones. -/
theorem dtw_optimal {P : Parameters} (m1 m2 : Morceau P ℝ) (h1 : 1 ≤ m1.getNFrames)
    (h2 : 1 ≤ m2.getNFrames) :
    ∃ v, dtw m1 m2 = .ok v ∧
      IsLeast {x | ∃ l, Path (0, 0) (m1.getNFrames - 1, m2.getNFrames - 1) l ∧
        (l.map (localDist m1 m2)).sum = x} (v * (m1.getNFrames + m2.getNFrames)) := by
  obtain ⟨v, hv, hl⟩ := ends_dtw h1 h2
  refine ⟨v, hv, ?_⟩
  simpa [costs] using hl

/-- A piece of frames with constant MFCC. -/
def Morceau.constant (l : List ℝ) (classe : ℤ) : Morceau parameters ℝ where
  frames := (l.map fun x => ⟨.replicate _ 0, 256, .replicate _ 1, .replicate _ x⟩).toArray
  nFrames := l.length
  classe := classe
  alloc := by simp

theorem distance_replicate {f1 f2 : Frame parameters ℝ} {a b : ℝ} (h1 : f1.mfcc = .replicate _ a)
    (h2 : f2.mfcc = .replicate _ b) : distance f1 f2 = 25 * |a - b| := by
  have hcells : ∀ i : Fin parameters.nbMfcc, |f1.mfcc.get i - f2.mfcc.get i| = |a - b| := by
    intro i
    rw [h1, h2]
    simp [Vector.get]
  rw [distance_eq, Finset.sum_congr rfl fun i _ => hcells i, Finset.sum_const, Finset.card_fin,
    nsmul_eq_mul]
  rfl

/-- Pieces of one frame. -/
theorem dtw_constant (a b : ℝ) (c c' : ℤ) :
    dtw (Morceau.constant [a] c) (Morceau.constant [b] c') = .ok (25 * |a - b| / 2) := by
  have hframe : ∀ (x : ℝ) (d : ℤ), 1 ≤ (Morceau.constant [x] d).getNFrames := fun _ _ => le_rfl
  obtain ⟨v, hv, hl⟩ := ends_dtw (hframe a c) (hframe b c')
  have hcell : localDist (Morceau.constant [a] c) (Morceau.constant [b] c') (0, 0) =
      25 * |a - b| := by
    rw [localDist, dif_pos ⟨Nat.one_pos, Nat.one_pos⟩]
    exact distance_replicate rfl rfl
  have hlen : (((Morceau.constant [a] c).getNFrames +
      (Morceau.constant [b] c').getNFrames : ℕ) : ℝ) = 2 := by
    norm_num [Morceau.constant, Morceau.getNFrames]
  have heq := hl.unique isLeast_zero_zero
  rw [hcell, ← Nat.cast_add, hlen] at heq
  rw [hv, ← heq, mul_div_cancel_right₀ v two_ne_zero]

theorem dtw_optimal_constant :
    ∃ v, dtw (Morceau.constant [0, 1, 4] 1) (Morceau.constant [2, 3] 2) = .ok v ∧
      IsLeast {x | ∃ l, Path (0, 0) (2, 1) l ∧
        (l.map (localDist (Morceau.constant [0, 1, 4] 1) (Morceau.constant [2, 3] 2))).sum = x}
        (v * ((3 : ℕ) + (2 : ℕ))) :=
  dtw_optimal (Morceau.constant [0, 1, 4] 1) (Morceau.constant [2, 3] 2) (by decide) (by decide)

end TlVoix
