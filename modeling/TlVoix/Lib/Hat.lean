import Mathlib.Algebra.BigOperators.Intervals
import Mathlib.Algebra.Order.BigOperators.Group.Finset
import Mathlib.Algebra.Order.Field.Basic
import Mathlib.Algebra.Order.Floor.Semiring
import Mathlib.Order.Interval.Finset.Nat
import Mathlib.Tactic.Linarith

/-!
# Triangular weights on a sampled axis

`hat a b c` rises from 0 at `a` to 1 at `b` and falls back to 0 at `c`; `ramp a b` is the line of
its rising side. Sample `j` stands at `j / k` on the axis, and `bins a c k` are the samples in
`(a, c]`. `hats f i` is the triangle over the nodes `i - 1`, `i`, `i + 1` of the sequence `f`.

* `hat_le_ramp`, `hat_lt_ramp`: the ramp is above the triangle, by more than nothing from the
  top `b` on, where it exceeds 1 (`one_lt_ramp_iff`).
* `exists_hats_pos_iff`, `sum_hats_eq_one_iff`: the triangles between successive nodes cover the
  axis between the first node and the last one, and add up to 1 between the first top and the last.
* `sum_ramp_eq_iff`: nonnegative samples have the same sum with both weights exactly if there is
  none beyond the top.
-/

namespace Hat

open Finset

section
variable {K : Type*} [Field K] [LinearOrder K]

/-- The line that is 0 at `a` and 1 at `b`. -/
def ramp (a b x : K) : K := (x - a) / (b - a)

/-- The triangle over `a`, `b`, `c`. -/
def hat (a b c x : K) : K :=
  if a ≤ x ∧ x ≤ b then (x - a) / (b - a)
  else if b ≤ x ∧ x ≤ c then (c - x) / (c - b)
  else 0

variable {a b c x : K}

theorem hat_rising (hax : a ≤ x) (hxb : x ≤ b) : hat a b c x = ramp a b x := if_pos ⟨hax, hxb⟩

theorem hat_of_le (hab : a < b) (hx : x ≤ a) : hat a b c x = 0 := by
  unfold hat
  by_cases ha : a ≤ x
  · rw [if_pos ⟨ha, hx.trans hab.le⟩, le_antisymm hx ha, sub_self, zero_div]
  · rw [if_neg fun h => ha h.1, if_neg fun h => ha (hab.le.trans h.1)]

theorem hat_of_ge (hbc : b < c) (hx : c ≤ x) : hat a b c x = 0 := by
  unfold hat
  rw [if_neg fun h => not_lt.2 (hx.trans h.2) hbc]
  by_cases hc : x ≤ c
  · rw [if_pos ⟨hbc.le.trans hx, hc⟩, le_antisymm hc hx, sub_self, zero_div]
  · rw [if_neg fun h => hc h.2]

/-- Triangle `i`, between the nodes `i - 1` and `i + 1`. -/
def hats (f : ℕ → K) (i : ℕ) (x : K) : K := hat (f (i - 1)) (f i) (f (i + 1)) x

theorem hats_of_ge {f : ℕ → K} (hf : StrictMono f) {i : ℕ} (h : f (i + 1) ≤ x) : hats f i x = 0 :=
  hat_of_ge (hf (Nat.lt_succ_self i)) h

theorem hats_of_le {f : ℕ → K} (hf : StrictMono f) {i : ℕ} (hi : 1 ≤ i)
    (h : x ≤ f (i - 1)) : hats f i x = 0 :=
  hat_of_le (hf (by omega)) h

variable [IsStrictOrderedRing K]

theorem hat_falling (hab : a < b) (hbc : b < c) (hbx : b ≤ x) (hxc : x ≤ c) :
    hat a b c x = (c - x) / (c - b) := by
  cases hbx.eq_or_lt with
  | inl hx =>
    rw [← hx, hat_rising hab.le le_rfl, ramp, div_self (sub_pos.2 hab).ne',
      div_self (sub_pos.2 hbc).ne']
  | inr hx => rw [hat, if_neg fun h => not_lt.2 h.2 hx, if_pos ⟨hbx, hxc⟩]

theorem one_lt_ramp_iff (hab : a < b) : 1 < ramp a b x ↔ b < x := by
  rw [ramp, one_lt_div (sub_pos.2 hab), sub_lt_sub_iff_right]

theorem hat_le_one (hab : a < b) (hbc : b < c) : hat a b c x ≤ 1 := by
  unfold hat
  split
  · rename_i h
    exact (div_le_one (sub_pos.2 hab)).2 (sub_le_sub_right h.2 a)
  · split
    · rename_i h
      exact (div_le_one (sub_pos.2 hbc)).2 (sub_le_sub_left h.1 c)
    · exact zero_le_one

theorem hat_pos_iff (hab : a < b) (hbc : b < c) : 0 < hat a b c x ↔ a < x ∧ x < c := by
  constructor
  · intro h
    refine ⟨not_le.1 fun hx => ?_, not_le.1 fun hx => ?_⟩
    · exact h.ne' (hat_of_le hab hx)
    · exact h.ne' (hat_of_ge hbc hx)
  · intro h
    obtain ⟨hax, hxc⟩ := h
    cases le_or_gt x b with
    | inl hxb =>
      rw [hat_rising hax.le hxb]
      exact div_pos (sub_pos.2 hax) (sub_pos.2 hab)
    | inr hxb =>
      rw [hat_falling hab hbc hxb.le hxc.le]
      exact div_pos (sub_pos.2 hxc) (sub_pos.2 hbc)

theorem hat_eq_one_iff (hab : a < b) (hbc : b < c) : hat a b c x = 1 ↔ x = b := by
  constructor
  · intro h
    unfold hat at h
    split at h
    · exact sub_left_injective ((div_eq_one_iff_eq (sub_pos.2 hab).ne').1 h)
    · split at h
      · exact sub_right_injective ((div_eq_one_iff_eq (sub_pos.2 hbc).ne').1 h)
      · exact absurd h zero_ne_one
  · intro h
    rw [h, hat_rising hab.le le_rfl, ramp, div_self (sub_pos.2 hab).ne']

/-- Between two tops, what one triangle loses the next one wins. -/
theorem hat_add_hat {d : K} (hab : a < b) (hbc : b < c) (hbx : b ≤ x) (hxc : x ≤ c) :
    hat a b c x + hat b c d x = 1 := by
  rw [hat_falling hab hbc hbx hxc, hat_rising hbx hxc, ramp, ← add_div, sub_add_sub_cancel,
    div_self (sub_pos.2 hbc).ne']

theorem hat_lt_ramp (hab : a < b) (hbc : b < c) (hx : b < x) : hat a b c x < ramp a b x :=
  (hat_le_one hab hbc).trans_lt ((one_lt_ramp_iff hab).2 hx)

theorem hat_le_ramp (hab : a < b) (hbc : b < c) (hx : a ≤ x) : hat a b c x ≤ ramp a b x := by
  cases le_or_gt x b with
  | inl hxb => exact (hat_rising hx hxb).le
  | inr hxb => exact (hat_lt_ramp hab hbc hxb).le

/-! ## Triangles between successive nodes -/

section
variable {f : ℕ → K}

theorem hats_pos_iff (hf : StrictMono f) {i : ℕ} (hi : 1 ≤ i) :
    0 < hats f i x ↔ f (i - 1) < x ∧ x < f (i + 1) :=
  hat_pos_iff (hf (by omega)) (hf (Nat.lt_succ_self i))

theorem hats_nonneg (hf : StrictMono f) (x : K) {i : ℕ} (hi : 1 ≤ i) : 0 ≤ hats f i x := by
  by_cases hx : f (i - 1) < x ∧ x < f (i + 1)
  · exact ((hats_pos_iff hf hi).2 hx).le
  · rw [not_and_or, not_lt, not_lt] at hx
    cases hx with
    | inl hx => exact (hats_of_le hf hi hx).ge
    | inr hx => exact (hats_of_ge hf hx).ge

/-- The triangles cover the axis between the first and the last node. -/
theorem exists_hats_pos_iff (hf : StrictMono f) {n : ℕ} (hn : 1 ≤ n) :
    (∃ i, 1 ≤ i ∧ i ≤ n ∧ 0 < hats f i x) ↔ f 0 < x ∧ x < f (n + 1) := by
  constructor
  · rintro ⟨i, hi1, hin, hpos⟩
    obtain ⟨hlow, hhigh⟩ := (hats_pos_iff hf hi1).1 hpos
    exact ⟨(hf.monotone (Nat.zero_le _)).trans_lt hlow, hhigh.trans_le (hf.monotone (by omega))⟩
  · rintro ⟨h0, hlast⟩
    induction n, hn using Nat.le_induction with
    | base => exact ⟨1, le_rfl, le_rfl, (hats_pos_iff hf le_rfl).2 ⟨h0, hlast⟩⟩
    | succ n hn ih =>
      cases lt_or_ge x (f (n + 1)) with
      | inl hx =>
        obtain ⟨i, hi1, hin, hpos⟩ := ih hx
        exact ⟨i, hi1, hin.trans (Nat.le_succ n), hpos⟩
      | inr hx =>
        have hlow : f n < x := (hf (Nat.lt_succ_self n)).trans_le hx
        exact ⟨n + 1, by omega, le_rfl, (hats_pos_iff hf (by omega)).2 ⟨hlow, hlast⟩⟩

/-- After the first top, the first `n` triangles make the falling side of the last one. -/
theorem sum_hats (hf : StrictMono f) {n : ℕ} (hn : 1 ≤ n) (h1 : f 1 ≤ x) :
    ∑ i ∈ Icc 1 n, hats f i x = if x ≤ f n then 1 else hats f n x := by
  induction n, hn using Nat.le_induction with
  | base =>
    rw [Icc_self, sum_singleton]
    split
    · rename_i hx
      exact (hat_eq_one_iff (hf (by omega)) (hf (by omega))).2 (le_antisymm hx h1)
    · rfl
  | succ n hn ih =>
    have hstep : f n < f (n + 1) := hf (Nat.lt_succ_self n)
    have hbefore : f (n - 1) < f n := hf (by omega)
    rw [sum_Icc_succ_top (by omega), ih]
    cases le_or_gt x (f n) with
    | inl hx =>
      rw [if_pos hx, if_pos (hx.trans hstep.le), hats_of_le hf (by omega) hx, add_zero]
    | inr hx =>
      rw [if_neg (not_le.2 hx)]
      split
      · rename_i hx'
        exact hat_add_hat hbefore hstep hx.le hx'
      · rename_i hx'
        rw [hats_of_ge hf (not_le.1 hx').le, zero_add]

/-- **The triangles add up to one** exactly between the first top and the last one. -/
theorem sum_hats_eq_one_iff (hf : StrictMono f) {n : ℕ} (hn : 1 ≤ n) :
    ∑ i ∈ Icc 1 n, hats f i x = 1 ↔ f 1 ≤ x ∧ x ≤ f n := by
  have htop : ∀ {i}, 1 ≤ i → (hats f i x = 1 ↔ x = f i) := fun hi =>
    hat_eq_one_iff (hf (by omega)) (hf (by omega))
  cases lt_or_ge x (f 1) with
  | inl hx =>
    have hfirst : ∑ i ∈ Icc 1 n, hats f i x = hats f 1 x := by
      refine sum_eq_single_of_mem 1 (mem_Icc.2 ⟨le_rfl, hn⟩) fun i hi hi1 => ?_
      have hi := (mem_Icc.1 hi).1
      exact hats_of_le hf hi (hx.le.trans (hf.monotone (by omega)))
    rw [hfirst, htop le_rfl]
    exact ⟨fun h => absurd h hx.ne, fun h => absurd h.1 (not_le.2 hx)⟩
  | inr h1 =>
    rw [sum_hats hf hn h1]
    split
    · rename_i hx
      exact ⟨fun _ => ⟨h1, hx⟩, fun _ => rfl⟩
    · rename_i hx
      rw [htop hn]
      exact ⟨fun h => absurd h.le hx, fun h => absurd h.2 hx⟩

end

/-! ## Samples -/

variable [FloorSemiring K] {k : K}

/-- The samples in `(a, c]`. -/
def bins (a c k : K) : Finset ℕ := Ioc ⌊a * k⌋₊ ⌊c * k⌋₊

theorem mem_bins (hk : 0 < k) (ha : 0 ≤ a) (hc : 0 ≤ c) {j : ℕ} :
    j ∈ bins a c k ↔ a < j / k ∧ j / k ≤ c := by
  rw [bins, mem_Ioc, Nat.floor_lt (mul_nonneg ha hk.le), Nat.le_floor_iff (mul_nonneg hc hk.le),
    lt_div_iff₀ hk, div_le_iff₀ hk]

/-- The triangle weighs no other sample. -/
theorem sum_hat_eq (hk : 0 < k) (ha : 0 ≤ a) (hab : a < b) (hbc : b < c) {n : ℕ}
    (hn : c * k ≤ n) (s : ℕ → K) :
    ∑ j ∈ Icc 1 n, s j * hat a b c (j / k) = ∑ j ∈ bins a c k, s j * hat a b c (j / k) := by
  have hc : 0 ≤ c := ha.trans (hab.trans hbc).le
  refine (sum_subset (fun j hj => ?_) fun j _ hj => ?_).symm
  · have hj' := (mem_Ioc.1 hj)
    exact mem_Icc.2 ⟨by omega, hj'.2.trans (Nat.floor_le_of_le hn)⟩
  · rw [mem_bins hk ha hc, not_and_or, not_lt, not_le] at hj
    cases hj with
    | inl hj => rw [hat_of_le hab hj, mul_zero]
    | inr hj => rw [hat_of_ge hbc hj.le, mul_zero]

theorem sum_ramp_eq_iff (hk : 0 < k) (ha : 0 ≤ a) (hab : a < b) (hbc : b < c) {n : ℕ}
    (hn : c * k ≤ n) {s : ℕ → K} (hs : ∀ j, 0 ≤ s j) :
    ∑ j ∈ bins a c k, s j * ramp a b (j / k) = ∑ j ∈ Icc 1 n, s j * hat a b c (j / k) ↔
      ∀ j : ℕ, b < j / k → j / k ≤ c → s j = 0 := by
  have hc : 0 ≤ c := ha.trans (hab.trans hbc).le
  have hle : ∀ j ∈ bins a c k, s j * hat a b c (j / k) ≤ s j * ramp a b (j / k) := fun j hj =>
    mul_le_mul_of_nonneg_left (hat_le_ramp hab hbc ((mem_bins hk ha hc).1 hj).1.le) (hs j)
  rw [sum_hat_eq hk ha hab hbc hn, eq_comm, sum_eq_sum_iff_of_le hle]
  refine ⟨fun h j hbj hjc => ?_, fun h j hj => ?_⟩
  · have heq := h j ((mem_bins hk ha hc).2 ⟨hab.trans hbj, hjc⟩)
    exact (mul_eq_mul_left_iff.1 heq).resolve_left (hat_lt_ramp hab hbc hbj).ne
  · obtain ⟨haj, hjc⟩ := (mem_bins hk ha hc).1 hj
    cases le_or_gt (j / k) b with
    | inl hjb => rw [hat_rising haj.le hjb]
    | inr hbj => rw [h j hbj hjc, zero_mul, zero_mul]

end

/-- A value between the ends of a sequence is between two neighbours. -/
theorem exists_between {K : Type*} [LinearOrder K] (f : ℕ → K) {n : ℕ} {x : K} (h : f 1 < x)
    (hx : x ≤ f (n + 1)) : ∃ i, 1 ≤ i ∧ i ≤ n ∧ f i < x ∧ x ≤ f (i + 1) := by
  induction n with
  | zero => exact absurd h (not_lt.2 hx)
  | succ n ih =>
    cases le_or_gt x (f (n + 1)) with
    | inl hle =>
      obtain ⟨i, hi1, hin, hi⟩ := ih hle
      exact ⟨i, hi1, hin.trans (Nat.le_succ n), hi⟩
    | inr hlt => exact ⟨n + 1, Nat.le_add_left 1 n, le_rfl, hlt, hx⟩

end Hat
