import Mathlib.Algebra.BigOperators.Group.List.Lemmas
import Mathlib.Algebra.BigOperators.Intervals
import Mathlib.Algebra.BigOperators.Ring.Finset
import Mathlib.Algebra.Order.BigOperators.Group.List
import Mathlib.Algebra.Order.Ring.Defs
import Mathlib.Data.List.GetD
import Mathlib.Tactic.Common

/-!
# Sliding windows

`conv u v` is the full convolution of two lists: `u.length + v.length - 1` entries. With a window
of `w` ones, entry `p` is the sum of the `w` values of `u` that end at `p`, of those that exist:

* `coeff_window`: the sum of a run of `w` values stands at the index of its last value.
* `coeff_tail`: from the last value of `u` on, the entries are sums of shorter and shorter tails,
  so they decrease if `u` is nonnegative (`coeff_antitone`).
-/

namespace Sliding

open Finset

/-! ## Convolution -/

section
variable {K : Type*} [Ring K]

/-- Entry `p` of the convolution, counted from 0. -/
def coeff (u v : List K) (p : ℕ) : K := ∑ i ∈ range (p + 1), u.getD i 0 * v.getD (p - i) 0

/-- The full convolution. -/
def conv (u v : List K) : List K := (List.range (u.length + v.length - 1)).map (coeff u v)

@[simp] theorem length_conv (u v : List K) : (conv u v).length = u.length + v.length - 1 := by
  simp [conv]

theorem getElem?_conv {u v : List K} {p : ℕ} (h : p < u.length + v.length - 1) :
    (conv u v)[p]? = some (coeff u v p) := by
  simp [conv, h]

theorem getD_replicate_one (w i : ℕ) :
    (List.replicate w (1 : K)).getD i 0 = if i < w then 1 else 0 := by
  rw [List.getD_eq_getElem?_getD, List.getElem?_replicate]
  split <;> rfl

/-- An entry of the convolution with a window is the sum of the values that the window covers. -/
theorem coeff_replicate_one (u : List K) (w p : ℕ) :
    coeff u (List.replicate w 1) p = ∑ i ∈ Ico (p + 1 - w) (p + 1), u.getD i 0 := by
  have hsub : Ico (p + 1 - w) (p + 1) ⊆ range (p + 1) := by
    intro i hi
    rw [mem_Ico] at hi
    exact mem_range.2 hi.2
  rw [coeff, ← sum_subset hsub]
  · refine sum_congr rfl fun i hi => ?_
    have hi' : p - i < w := by
      rw [mem_Ico] at hi
      omega
    rw [getD_replicate_one, if_pos hi', mul_one]
  · intro i hi hni
    have hi' : ¬p - i < w := by
      rw [mem_range] at hi
      rw [mem_Ico] at hni
      omega
    rw [getD_replicate_one, if_neg hi', mul_zero]

theorem sum_take_drop (u : List K) (t w : ℕ) :
    ((u.drop t).take w).sum = ∑ i ∈ Ico t (t + w), u.getD i 0 := by
  rw [sum_Ico_eq_sum_range, Nat.add_sub_cancel_left]
  induction w with
  | zero => simp
  | succ w ih =>
    rw [sum_range_succ, ← ih, List.take_add_one, List.sum_append, List.getElem?_drop,
      List.getD_eq_getElem?_getD]
    cases u[t + w]? <;> simp

/-- A run of `w` values that ends at `p`. -/
theorem coeff_window {w : ℕ} (hw : 1 ≤ w) (u : List K) (t : ℕ) :
    coeff u (List.replicate w 1) (t + w - 1) = ((u.drop t).take w).sum := by
  rw [coeff_replicate_one, sum_take_drop]
  congr 2 <;> omega

/-- An entry whose window reaches the end of the list. -/
theorem coeff_tail {u : List K} {w p : ℕ} (hw : 1 ≤ w) (h : u.length ≤ p + 1) :
    coeff u (List.replicate w 1) p = (u.drop (p + 1 - w)).sum := by
  have hlen : (u.drop (p + 1 - w)).length ≤ w := by
    rw [List.length_drop]
    omega
  rw [coeff_replicate_one, ← List.take_of_length_le hlen, sum_take_drop]
  refine (sum_subset (fun i hi => ?_) fun i hi hni => ?_)
  · rw [mem_Ico] at hi ⊢
    omega
  · rw [mem_Ico] at hi hni
    exact List.getD_eq_default _ _ (by omega)

variable [LinearOrder K] [IsStrictOrderedRing K]

theorem sum_drop_antitone {u : List K} (hu : ∀ x ∈ u, 0 ≤ x) {m n : ℕ} (h : m ≤ n) :
    (u.drop n).sum ≤ (u.drop m).sum := by
  obtain ⟨d, rfl⟩ := Nat.exists_eq_add_of_le h
  rw [← List.drop_drop]
  exact (List.drop_sublist d (u.drop m)).sum_le_sum fun x hx => hu x (List.mem_of_mem_drop hx)

theorem coeff_antitone {u : List K} {w p q : ℕ} (hw : 1 ≤ w) (hu : ∀ x ∈ u, 0 ≤ x)
    (hp : u.length ≤ p + 1) (h : p ≤ q) :
    coeff u (List.replicate w 1) q ≤ coeff u (List.replicate w 1) p := by
  rw [coeff_tail hw hp, coeff_tail hw (by omega)]
  exact sum_drop_antitone hu (by omega)

end

end Sliding
