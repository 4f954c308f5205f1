import TlVoix.Lib.Warp
import Mathlib.Data.List.Destutter

/-!
# Warping paths of cost zero

A warping path along which two sequences agree (`∀ p ∈ l, a p.1 = b p.2`) reads both with
repetitions only. `runs a i` is the sequence `a 0, …, a i` with its runs of equal elements reduced
to one element.

* `runs_eq_of_path`: sequences that agree along a path have the same runs.
* `exists_path_of_runs_eq`: sequences with the same runs agree along some path.
* `zero_mem_costs`: for a cost that is never negative, a path of cost zero is a path of cells of
  cost zero.
-/

namespace Warp

section
variable {α : Type} [DecidableEq α]

/-! ## Runs -/

/-- A last element is a run of its own unless it repeats the element before it. -/
theorem destutter'_concat (l : List α) (a x : α) :
    (l ++ [x]).destutter' (· ≠ ·) a =
      if (a :: l).getLast (List.cons_ne_nil a l) = x then l.destutter' (· ≠ ·) a
      else l.destutter' (· ≠ ·) a ++ [x] := by
  induction l generalizing a with
  | nil => by_cases h : a = x <;> simp [h]
  | cons b l ih =>
    rw [List.getLast_cons (List.cons_ne_nil b l), List.cons_append]
    by_cases hab : a = b
    · subst hab
      rw [List.destutter'_cons_neg _ (by simp), List.destutter'_cons_neg _ (by simp), ih]
    · rw [List.destutter'_cons_pos _ hab, List.destutter'_cons_pos _ hab, ih]
      split <;> rfl

/-- `a 0, …, a i` without the repetitions. -/
def runs (a : ℕ → α) (i : ℕ) : List α := ((List.range (i + 1)).map a).destutter (· ≠ ·)

theorem runs_zero (a : ℕ → α) : runs a 0 = [a 0] := by simp [runs]

theorem runs_succ (a : ℕ → α) (i : ℕ) :
    runs a (i + 1) = if a i = a (i + 1) then runs a i else runs a i ++ [a (i + 1)] := by
  have hr : (List.range (i + 1)).map a = a 0 :: ((List.range i).map fun k => a (k + 1)) := by
    simp [List.range_succ_eq_map]
  have hlast : (a 0 :: ((List.range i).map fun k => a (k + 1))).getLast (List.cons_ne_nil _ _) =
      a i := by
    simp only [← hr, List.range_succ, List.map_append, List.map_singleton,
      List.getLast_append_singleton]
  unfold runs
  rw [List.range_succ, List.map_append, hr, List.map_singleton, List.cons_append,
    List.destutter_cons', destutter'_concat, hlast, List.destutter_cons']

theorem runs_succ_of_eq {a : ℕ → α} {i : ℕ} (h : a i = a (i + 1)) :
    runs a (i + 1) = runs a i := by rw [runs_succ, if_pos h]

theorem runs_succ_of_ne {a : ℕ → α} {i : ℕ} (h : a i ≠ a (i + 1)) :
    runs a (i + 1) = runs a i ++ [a (i + 1)] := by rw [runs_succ, if_neg h]

theorem runs_ne_nil (a : ℕ → α) (i : ℕ) : runs a i ≠ [] := by
  rw [runs, Ne, List.destutter_eq_nil]
  simp

/-- The last run is the last element. -/
theorem getLast_runs (a : ℕ → α) (i : ℕ) : (runs a i).getLast? = some (a i) := by
  induction i with
  | zero => rw [runs_zero]; rfl
  | succ i ih =>
    by_cases h : a i = a (i + 1)
    · rw [runs_succ_of_eq h, ih, h]
    · rw [runs_succ_of_ne h, List.getLast?_concat]

theorem last_eq_of_runs_eq {a b : ℕ → α} {i j : ℕ} (h : runs a i = runs b j) : a i = b j := by
  have := getLast_runs a i
  rw [h, getLast_runs] at this
  exact (Option.some.inj this).symm

/-! ## Agreement along a path -/

theorem runs_eq_of_path {a b : ℕ → α} {q : ℕ × ℕ} {l : List (ℕ × ℕ)} (h : Path (0, 0) q l)
    (hl : ∀ p ∈ l, a p.1 = b p.2) : runs a q.1 = runs b q.2 := by
  induction h with
  | start => rw [runs_zero, runs_zero, hl (0, 0) (List.mem_singleton_self _)]
  | @snoc p q l hp hs ih =>
    have hpq := ih fun r hr => hl r (List.mem_append_left _ hr)
    have hq := hl q (List.mem_append_right _ (List.mem_singleton_self q))
    have hlast := last_eq_of_runs_eq hpq
    cases hs with
    | down i j => rw [runs_succ_of_eq (hlast.trans hq.symm)]; exact hpq
    | right i j => rw [runs_succ_of_eq (hlast.symm.trans hq)]; exact hpq
    | diag i j =>
      simp only at hpq hq hlast ⊢
      rw [runs_succ, runs_succ, hpq, hq, hlast]

/-- A sequence with one run repeats its last element. -/
theorem eq_of_runs_singleton {a : ℕ → α} {x : α} {i : ℕ} (h : runs a (i + 1) = [x]) :
    a i = a (i + 1) := by
  by_contra hne
  rw [runs_succ_of_ne hne] at h
  exact runs_ne_nil a i (List.append_eq_singleton_iff.1 h |>.elim (·.1) fun h => by simp at h)

theorem exists_path_of_runs_eq {a b : ℕ → α} : ∀ {i j : ℕ}, runs a i = runs b j →
    ∃ l, Path (0, 0) (i, j) l ∧ ∀ p ∈ l, a p.1 = b p.2 := by
  -- extends a path of agreement by a cell where the sequences agree
  have extend : ∀ {p q : ℕ × ℕ}, Step p q → a q.1 = b q.2 →
      (∃ l, Path (0, 0) p l ∧ ∀ r ∈ l, a r.1 = b r.2) →
      ∃ l, Path (0, 0) q l ∧ ∀ r ∈ l, a r.1 = b r.2 := by
    intro p q hs hq ht
    obtain ⟨l, hl, hal⟩ := ht
    refine ⟨l ++ [q], .snoc hl hs, fun r hr => ?_⟩
    rcases List.mem_append.1 hr with hr | hr
    · exact hal r hr
    · exact List.mem_singleton.1 hr ▸ hq
  intro i j
  induction i generalizing j with
  | zero =>
    induction j with
    | zero =>
      intro h
      refine ⟨_, .start, fun p hp => ?_⟩
      rw [List.mem_singleton.1 hp]
      exact last_eq_of_runs_eq h
    | succ j ih =>
      intro h
      have hb := eq_of_runs_singleton (h.symm.trans (runs_zero a))
      exact extend (.right 0 j) (last_eq_of_runs_eq h) (ih (h.trans (runs_succ_of_eq hb)))
  | succ i ih =>
    intro h
    by_cases ha : a i = a (i + 1)
    · exact extend (.down i j) (last_eq_of_runs_eq h) (ih ((runs_succ_of_eq ha).symm.trans h))
    · induction j with
      | zero => exact absurd (eq_of_runs_singleton (h.trans (runs_zero b))) ha
      | succ j ihj =>
        by_cases hb : b j = b (j + 1)
        · exact extend (.right (i + 1) j) (last_eq_of_runs_eq h)
            (ihj (h.trans (runs_succ_of_eq hb)))
        · refine extend (.diag i j) (last_eq_of_runs_eq h) (ih ?_)
          rw [runs_succ_of_ne ha, runs_succ_of_ne hb] at h
          exact (List.append_inj' h rfl).1

end

/-! ## Cost zero -/

theorem zero_mem_costs {K : Type} [AddCommMonoid K] [PartialOrder K] [IsOrderedAddMonoid K]
    {c : ℕ × ℕ → K} (hc : ∀ p, 0 ≤ c p) {s q : ℕ × ℕ} :
    0 ∈ costs c {s} q ↔ ∃ l, Path s q l ∧ ∀ p ∈ l, c p = 0 := by
  constructor
  · intro h
    obtain ⟨_, rfl, l, hl, h0⟩ := h
    have hnn : ∀ x ∈ l.map c, (0 : K) ≤ x := by
      intro x hx
      obtain ⟨p, -, rfl⟩ := List.mem_map.1 hx
      exact hc p
    exact ⟨l, hl, fun p hp =>
      List.all_zero_of_le_zero_le_of_sum_eq_zero hnn h0 (List.mem_map_of_mem hp)⟩
  · intro h
    obtain ⟨l, hl, h0⟩ := h
    refine ⟨s, rfl, l, hl, List.sum_eq_zero fun x hx => ?_⟩
    obtain ⟨p, hp, rfl⟩ := List.mem_map.1 hx
    exact h0 p hp

end Warp
