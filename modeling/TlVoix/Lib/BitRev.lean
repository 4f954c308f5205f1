import TlVoix.Lib.Run
import Mathlib.Tactic.Ring

/-!
# Bit reversal

* `bitRev m` reverses the `m` low bits of a number (`testBit_bitRev`); it is an involution of the
  numbers below `2 ^ m` (`bitRev_bitRev`).
* `ends_carry`: the reversed addition of one (a carry that travels from the high bit down) turns
  `bitRev m i` into `bitRev m (i + 1)`, and the bit it tests is never 0.
* `ends_carry_double`: the same count in the doubles of the numbers.
* `swapped`: the state of an array while it is permuted by exchanges of `i` and `bitRev m i`.
-/

namespace Checked

/-- The number whose `m` bits are the `m` low bits of the argument, in reverse. -/
def bitRev : ℕ → ℕ → ℕ
  | 0, _ => 0
  | m + 1, b => b % 2 * 2 ^ m + bitRev m (b / 2)

@[simp] theorem bitRev_zero_left (b : ℕ) : bitRev 0 b = 0 := rfl

theorem bitRev_succ (m b : ℕ) : bitRev (m + 1) b = b % 2 * 2 ^ m + bitRev m (b / 2) := rfl

@[simp] theorem bitRev_zero (m : ℕ) : bitRev m 0 = 0 := by
  induction m with
  | zero => rfl
  | succ m ih => simp [bitRev_succ, ih]

theorem bitRev_double (m b : ℕ) : bitRev (m + 1) (2 * b) = bitRev m b := by
  rw [bitRev_succ, Nat.mul_mod_right, Nat.zero_mul, Nat.zero_add,
    Nat.mul_div_cancel_left b Nat.two_pos]

theorem bitRev_double_add_one (m b : ℕ) :
    bitRev (m + 1) (2 * b + 1) = 2 ^ m + bitRev m b := by
  have h2 : (2 * b + 1) / 2 = b := by omega
  rw [bitRev_succ, Nat.mul_add_mod, h2, Nat.one_mul]

theorem bitRev_lt (m b : ℕ) : bitRev m b < 2 ^ m := by
  induction m generalizing b with
  | zero => exact Nat.one_pos
  | succ m ih =>
    have hb : b % 2 * 2 ^ m ≤ 1 * 2 ^ m := Nat.mul_le_mul_right _ (by omega)
    have := ih (b / 2)
    rw [bitRev_succ, pow_succ]
    omega

/-- The high bit of the argument is the low bit of the result. -/
theorem bitRev_high (m : ℕ) {c : ℕ} (hc : c < 2) (b : ℕ) (hb : b < 2 ^ m) :
    bitRev (m + 1) (c * 2 ^ m + b) = bitRev m b * 2 + c := by
  induction m generalizing b with
  | zero =>
    obtain rfl : b = 0 := by simpa using hb
    rw [bitRev_succ, bitRev_zero_left, bitRev_zero_left]
    omega
  | succ m ih =>
    have hmod : (c * 2 ^ (m + 1) + b) % 2 = b % 2 := by
      rw [pow_succ, ← Nat.mul_assoc]
      omega
    have hdiv : (c * 2 ^ (m + 1) + b) / 2 = c * 2 ^ m + b / 2 := by
      rw [pow_succ, ← Nat.mul_assoc]
      omega
    have hb2 : b / 2 < 2 ^ m := by
      rw [pow_succ] at hb
      omega
    rw [bitRev_succ, hmod, hdiv, ih (b / 2) hb2, bitRev_succ m b]
    ring

/-- **Bit reversal is an involution.** -/
theorem bitRev_bitRev (m : ℕ) {b : ℕ} (hb : b < 2 ^ m) : bitRev m (bitRev m b) = b := by
  induction m generalizing b with
  | zero => rw [bitRev_zero_left, Nat.lt_one_iff.1 hb]
  | succ m ih =>
    have hb2 : b / 2 < 2 ^ m := by
      rw [pow_succ] at hb
      omega
    rw [bitRev_succ m b, bitRev_high m (Nat.mod_lt b Nat.two_pos) _ (bitRev_lt m _), ih hb2]
    omega

/-- Bit `t` of the reversal. -/
theorem testBit_bitRev (m b : ℕ) {t : ℕ} (ht : t < m) :
    (bitRev m b).testBit t = b.testBit (m - 1 - t) := by
  induction m generalizing b t with
  | zero => exact absurd ht (Nat.not_lt_zero t)
  | succ m ih =>
    rw [bitRev_succ, Nat.mul_comm, Nat.testBit_two_pow_mul_add _ (bitRev_lt m _)]
    rcases Nat.lt_succ_iff_lt_or_eq.1 ht with ht | rfl
    · rw [if_pos ht, ih _ ht, ← Nat.testBit_succ]
      congr 1
      omega
    · rw [if_neg (Nat.lt_irrefl t), Nat.sub_self, Nat.testBit_mod_two_pow b 1 0]
      simp

/-! ## Counting in reverse -/

/-- `while (k <= j) { j -= k; k >>= 1; }`, from the reversal of `i` and the high bit, with a log of
the values of `k` it tests: `j + k` is the reversal of `i + 1`. -/
theorem ends_carry (m : ℕ) {i fuel : ℕ} (hi : i + 1 < 2 ^ (m + 1))
    (hf : bitRev (m + 1) i ≤ fuel) {log : List ℕ} (hlog : ∀ k ∈ log, 1 ≤ k) :
    Ends (whileLoop (fun p : (ℕ × ℕ) × List ℕ => decide (p.1.2 ≤ p.1.1))
      (fun p => pure ((p.1.1 - p.1.2, p.1.2 / 2), p.2 ++ [p.1.2 / 2])) fuel
      ((bitRev (m + 1) i, 2 ^ m), log)) fun p =>
        p.1.1 + p.1.2 = bitRev (m + 1) (i + 1) ∧ ∀ k ∈ p.2, 1 ≤ k := by
  induction m generalizing i fuel log with
  | zero =>
    obtain rfl : i = 0 := by omega
    cases fuel <;> exact Ends.ok ⟨rfl, hlog⟩
  | succ m ih =>
    have hlt := bitRev_lt (m + 1) (i / 2)
    rcases Nat.mod_two_eq_zero_or_one i with h0 | h1
    -- the high bit of the reversal is clear: the loop stops at once
    · have hi1 : (i + 1) % 2 = 1 := by omega
      have hi2 : (i + 1) / 2 = i / 2 := by omega
      have hrev : bitRev (m + 1 + 1) i = bitRev (m + 1) (i / 2) := by
        rw [bitRev_succ, h0, Nat.zero_mul, Nat.zero_add]
      have hnext : bitRev (m + 1 + 1) (i + 1) = 2 ^ (m + 1) + bitRev (m + 1) (i / 2) := by
        rw [bitRev_succ, hi1, hi2, Nat.one_mul]
      have hstop : ¬2 ^ (m + 1) ≤ bitRev (m + 1 + 1) i := by omega
      refine ⟨((bitRev (m + 1 + 1) i, 2 ^ (m + 1)), log), ?_, ?_, hlog⟩
      · cases fuel <;> simp [whileLoop, hstop]
      · show bitRev (m + 1 + 1) i + 2 ^ (m + 1) = bitRev (m + 1 + 1) (i + 1)
        omega
    -- it is set: the loop clears it and goes on with the next one
    · have hi1 : (i + 1) % 2 = 0 := by omega
      have hi2 : (i + 1) / 2 = i / 2 + 1 := by omega
      have hrev : bitRev (m + 1 + 1) i = 2 ^ (m + 1) + bitRev (m + 1) (i / 2) := by
        rw [bitRev_succ, h1, Nat.one_mul]
      have hnext : bitRev (m + 1 + 1) (i + 1) = bitRev (m + 1) (i / 2 + 1) := by
        rw [bitRev_succ, hi1, hi2, Nat.zero_mul, Nat.zero_add]
      have hpos : 0 < 2 ^ (m + 1) := Nat.two_pow_pos _
      obtain ⟨fuel, rfl⟩ : ∃ f, fuel = f + 1 := ⟨fuel - 1, by omega⟩
      have hgo : 2 ^ (m + 1) ≤ bitRev (m + 1 + 1) i := by omega
      have hsub : bitRev (m + 1 + 1) i - 2 ^ (m + 1) = bitRev (m + 1) (i / 2) := by omega
      have hhalf : 2 ^ (m + 1) / 2 = 2 ^ m := by
        rw [pow_succ, Nat.mul_div_cancel _ Nat.two_pos]
      simp only [whileLoop, hgo, decide_true, ↓reduceIte, pure_eq_ok, ok_bind, hsub, hhalf, hnext]
      refine ih ?_ (by omega) ?_
      · rw [pow_succ] at hi
        omega
      · rw [List.forall_mem_append, List.forall_mem_singleton]
        exact ⟨hlog, Nat.two_pow_pos m⟩

/-- The number after an even one: the carry stops at the first bit. -/
theorem bitRev_add_one_of_even (m : ℕ) {i : ℕ} (h : i % 2 = 0) :
    bitRev (m + 1) i = bitRev m (i / 2) ∧
      bitRev (m + 1) (i + 1) = 2 ^ m + bitRev m (i / 2) := by
  have h1 : (i + 1) % 2 = 1 := by omega
  have h2 : (i + 1) / 2 = i / 2 := by omega
  constructor
  · rw [bitRev_succ, h, Nat.zero_mul, Nat.zero_add]
  · rw [bitRev_succ, h1, h2, Nat.one_mul]

/-- The number after an odd one: the carry goes on. -/
theorem bitRev_add_one_of_odd (m : ℕ) {i : ℕ} (h : i % 2 = 1) :
    bitRev (m + 1) i = 2 ^ m + bitRev m (i / 2) ∧
      bitRev (m + 1) (i + 1) = bitRev m (i / 2 + 1) := by
  have h1 : (i + 1) % 2 = 0 := by omega
  have h2 : (i + 1) / 2 = i / 2 + 1 := by omega
  constructor
  · rw [bitRev_succ, h, Nat.one_mul]
  · rw [bitRev_succ, h1, h2, Nat.zero_mul, Nat.zero_add]

/-- `while (m >= 2 && j >= m) { j -= m; m >>= 1; }`, which counts in the doubles of the numbers. -/
theorem ends_carry_double (m : ℕ) {i fuel : ℕ} (hi : i + 1 < 2 ^ (m + 1))
    (hf : bitRev (m + 1) i ≤ fuel) :
    Ends (whileLoop (fun p : ℕ × ℕ => decide (2 ≤ p.2 ∧ p.2 ≤ p.1))
      (fun p => pure (p.1 - p.2, p.2 / 2)) fuel (2 * bitRev (m + 1) i, 2 * 2 ^ m)) fun p =>
        p.1 + p.2 = 2 * bitRev (m + 1) (i + 1) := by
  induction m generalizing i fuel with
  | zero =>
    obtain rfl : i = 0 := by omega
    rw [whileLoop_of_not (by simp)]
    exact Ends.ok rfl
  | succ m ih =>
    have hlt := bitRev_lt (m + 1) (i / 2)
    have hpos : 0 < 2 ^ (m + 1) := Nat.two_pow_pos _
    rcases Nat.mod_two_eq_zero_or_one i with h0 | h1
    · obtain ⟨hrev, hnext⟩ := bitRev_add_one_of_even (m + 1) h0
      have hstop : ¬(2 ≤ 2 * 2 ^ (m + 1) ∧ 2 * 2 ^ (m + 1) ≤ 2 * bitRev (m + 1 + 1) i) := by omega
      rw [whileLoop_of_not (by exact decide_eq_false hstop)]
      refine Ends.ok ?_
      show 2 * bitRev (m + 1 + 1) i + 2 * 2 ^ (m + 1) = _
      omega
    · obtain ⟨hrev, hnext⟩ := bitRev_add_one_of_odd (m + 1) h1
      obtain ⟨fuel, rfl⟩ : ∃ f, fuel = f + 1 := ⟨fuel - 1, by omega⟩
      have hgo : 2 ≤ 2 * 2 ^ (m + 1) ∧ 2 * 2 ^ (m + 1) ≤ 2 * bitRev (m + 1 + 1) i := by omega
      have hsub : 2 * bitRev (m + 1 + 1) i - 2 * 2 ^ (m + 1) = 2 * bitRev (m + 1) (i / 2) := by
        omega
      have hhalf : 2 * 2 ^ (m + 1) / 2 = 2 * 2 ^ m := by
        rw [pow_succ]
        omega
      rw [whileLoop_succ (by exact decide_eq_true hgo), hnext, pure_eq_ok, ok_bind]
      simp only [hsub, hhalf]
      refine ih ?_ (by omega)
      rw [pow_succ] at hi
      omega

/-- The reversal of the complement. -/
theorem bitRev_compl (m : ℕ) {b : ℕ} (hb : b < 2 ^ m) :
    bitRev m (2 ^ m - 1 - b) = 2 ^ m - 1 - bitRev m b := by
  induction m generalizing b with
  | zero => rfl
  | succ m ih =>
    have hb2 : b / 2 < 2 ^ m := by
      rw [pow_succ] at hb
      omega
    have hdiv : (2 ^ (m + 1) - 1 - b) / 2 = 2 ^ m - 1 - b / 2 := by
      rw [pow_succ] at hb ⊢
      omega
    have hmod : (2 ^ (m + 1) - 1 - b) % 2 = 1 - b % 2 := by
      rw [pow_succ] at hb ⊢
      omega
    have hlt := bitRev_lt m (b / 2)
    rw [bitRev_succ, hdiv, hmod, ih hb2, bitRev_succ, pow_succ]
    rcases Nat.mod_two_eq_zero_or_one b with h | h
    · rw [h]
      omega
    · rw [h]
      omega

/-! ## The permutation by exchanges -/

section
variable {α : Type}

/-- The values `z` after the exchanges of the points `< i` with their reversals. -/
def swapped (m i : ℕ) (z : ℕ → α) (p : ℕ) : α :=
  if p < 2 ^ m ∧ min p (bitRev m p) < i then z (bitRev m p) else z p

theorem swapped_zero (m : ℕ) (z : ℕ → α) : swapped m 0 z = z := by
  funext p
  simp [swapped]

theorem swapped_map {β : Type} (φ : α → β) (m i : ℕ) (z : ℕ → α) (p : ℕ) :
    swapped m i (fun q => φ (z q)) p = φ (swapped m i z p) :=
  (apply_ite φ _ _ _).symm

/-- The points from `2 ^ m` on are not exchanged. -/
theorem swapped_of_le (m i : ℕ) (z : ℕ → α) {p : ℕ} (hp : 2 ^ m ≤ p) : swapped m i z p = z p :=
  if_neg fun h => absurd h.1 (Nat.not_lt.2 hp)

/-- A point whose reversal is not greater is already in place. -/
theorem swapped_succ_of_le (m : ℕ) {i : ℕ} (hi : i < 2 ^ m) (z : ℕ → α) (h : bitRev m i ≤ i) :
    swapped m (i + 1) z = swapped m i z := by
  funext p
  unfold swapped
  by_cases hp : p < 2 ^ m
  · have hpp := bitRev_bitRev m hp
    by_cases hmin : min p (bitRev m p) = i
    · obtain ⟨rfl, hfix⟩ | ⟨rfl, hfix⟩ : (p = i ∧ bitRev m p = p) ∨ (bitRev m p = i ∧
          bitRev m p = p) := by
        rcases Nat.le_total p (bitRev m p) with hle | hle
        · rw [Nat.min_eq_left hle] at hmin
          subst hmin
          exact .inl ⟨rfl, Nat.le_antisymm h hle⟩
        · rw [Nat.min_eq_right hle] at hmin
          subst hmin
          rw [hpp] at h
          exact .inr ⟨rfl, Nat.le_antisymm hle h⟩
      · rw [hfix, ite_self, ite_self]
      · rw [hfix, ite_self, ite_self]
    · have : (min p (bitRev m p) < i + 1) ↔ min p (bitRev m p) < i := by omega
      simp only [this]
  · simp only [hp, false_and, ↓reduceIte]

/-- The exchange of a point with its greater reversal. -/
theorem swapped_succ_of_lt (m : ℕ) {i : ℕ} (hi : i < 2 ^ m) (z : ℕ → α) (h : i < bitRev m i) :
    swapped m (i + 1) z =
      Function.update (Function.update (swapped m i z) i (swapped m i z (bitRev m i)))
        (bitRev m i) (swapped m i z i) := by
  have hii := bitRev_bitRev m hi
  have hri := bitRev_lt m i
  funext p
  by_cases hpj : p = bitRev m i
  · subst hpj
    have h1 : min (bitRev m i) i < i + 1 := by omega
    have h2 : ¬min i (bitRev m i) < i := by omega
    simp only [Function.update_self, swapped, hii, hri, hi, h1, h2, and_self, and_false, ↓reduceIte]
  · rw [Function.update_of_ne hpj]
    by_cases hpi : p = i
    · subst hpi
      have h1 : min p (bitRev m p) < p + 1 := by omega
      have h2 : ¬min (bitRev m p) p < p := by omega
      simp only [Function.update_self, swapped, hii, hri, hi, h1, h2, and_self, and_false,
        ↓reduceIte]
    · rw [Function.update_of_ne hpi]
      unfold swapped
      by_cases hp : p < 2 ^ m
      · have hne : bitRev m p ≠ i := fun he => hpj (he ▸ (bitRev_bitRev m hp).symm)
        have : (min p (bitRev m p) < i + 1) ↔ min p (bitRev m p) < i := by omega
        simp only [this]
      · simp only [hp, false_and, ↓reduceIte]

/-- Once every point but the last one is done, the points are permuted. -/
theorem swapped_last (m : ℕ) (z : ℕ → α) {p : ℕ} (hp : p < 2 ^ m) :
    swapped m (2 ^ m - 1) z p = z (bitRev m p) := by
  unfold swapped
  split
  · rfl
  · have := bitRev_lt m p
    have : bitRev m p = p := by omega
    rw [this]

end

end Checked
