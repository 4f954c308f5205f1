import TlVoix.Lib.BitRev
import Mathlib.Algebra.BigOperators.Intervals
import Mathlib.Algebra.BigOperators.Ring.Finset
import Mathlib.Analysis.InnerProductSpace.Basic
import Mathlib.RingTheory.RootsOfUnity.PrimitiveRoots
import Mathlib.Tactic.Ring

/-!
# The discrete Fourier transform by joined blocks

* `dft w n f k` is `∑ t < n, f t * w ^ (t * k)`, in any commutative ring.
* `dft_double`, `dft_double_add`: a transform of `2 n` points is two transforms of `n` points.
* `sum_norm_dft_sq`: over the real or complex numbers, a transform of `n` points multiplies the
  energy by `n`.
* `dft_inv_dft`: with a primitive root of a field, the transform with the inverse root undoes it.
* `joined w n z` is `z` after the butterflies that join its blocks of `n` points two by two.
* `Blocks q l w z₀ z`: `z` is cut into `2 ^ q` blocks of `2 ^ l` points, and each block is the
  transform of a subsequence of `z₀`, taken in bit-reversed order. It holds of the bit-reversed
  points (`blocks_zero`), is kept by `joined` (`Blocks.joined`) and is the transform of `z₀` when
  one block is left (`Blocks.last`).
-/

namespace Checked

open Finset

section
variable {R : Type*} [CommRing R]

/-- The discrete Fourier transform of `f 0, …, f (n - 1)` with the root `w`. -/
def dft (w : R) (n : ℕ) (f : ℕ → R) (k : ℕ) : R := ∑ t ∈ range n, f t * w ^ (t * k)

theorem dft_congr {w : R} {n : ℕ} {f g : ℕ → R} (k : ℕ) (h : ∀ t < n, f t = g t) :
    dft w n f k = dft w n g k :=
  sum_congr rfl fun t ht => by rw [h t (mem_range.1 ht)]

theorem sum_range_two_mul (n : ℕ) (f : ℕ → R) :
    ∑ t ∈ range (2 * n), f t = (∑ t ∈ range n, f (2 * t)) + ∑ t ∈ range n, f (2 * t + 1) := by
  induction n with
  | zero => simp
  | succ n ih =>
    rw [Nat.mul_succ, sum_range_succ, sum_range_succ, ih, sum_range_succ _ n, sum_range_succ _ n]
    ring

/-- The even and the odd half of a transform. -/
theorem dft_double (w : R) (n : ℕ) (f : ℕ → R) (k : ℕ) :
    dft w (2 * n) f k =
      dft (w ^ 2) n (fun t => f (2 * t)) k + w ^ k * dft (w ^ 2) n (fun t => f (2 * t + 1)) k := by
  rw [dft, sum_range_two_mul, dft, dft, mul_sum]
  congr 1
  · refine sum_congr rfl fun t _ => ?_
    rw [← pow_mul, Nat.mul_assoc]
  · refine sum_congr rfl fun t _ => ?_
    rw [← pow_mul, ← Nat.mul_assoc, Nat.add_mul, Nat.one_mul, pow_add]
    ring

theorem dft_add_period {w : R} {n : ℕ} (hw : w ^ n = 1) (f : ℕ → R) (k : ℕ) :
    dft w n f (k + n) = dft w n f k := by
  refine sum_congr rfl fun t _ => ?_
  rw [Nat.mul_add, pow_add, Nat.mul_comm t n, pow_mul w n t, hw, one_pow, mul_one]

/-- The upper half of a transform, when half a period changes the sign. -/
theorem dft_double_add {w : R} {n : ℕ} (hw : w ^ n = -1) (f : ℕ → R) (k : ℕ) :
    dft w (2 * n) f (k + n) =
      dft (w ^ 2) n (fun t => f (2 * t)) k - w ^ k * dft (w ^ 2) n (fun t => f (2 * t + 1)) k := by
  have hw2 : (w ^ 2) ^ n = 1 := by
    rw [← pow_mul, Nat.mul_comm, pow_mul, hw, neg_one_sq]
  rw [dft_double, dft_add_period hw2, dft_add_period hw2, pow_add, hw]
  ring

theorem dft_mul_left (w : R) (n : ℕ) (c : R) (f : ℕ → R) (k : ℕ) :
    dft w n (fun t => c * f t) k = c * dft w n f k := by
  rw [dft, dft, mul_sum]
  exact sum_congr rfl fun t _ => mul_assoc c (f t) _

theorem dft_add (w : R) (n : ℕ) (f g : ℕ → R) (k : ℕ) :
    dft w n (fun t => f t + g t) k = dft w n f k + dft w n g k := by
  simp only [dft, add_mul, sum_add_distrib]

theorem dft_sum {ι : Type*} (w : R) (n : ℕ) (s : Finset ι) (f : ι → ℕ → R) (k : ℕ) :
    dft w n (fun t => ∑ i ∈ s, f i t) k = ∑ i ∈ s, dft w n (f i) k := by
  simp only [dft, sum_mul]
  exact sum_comm

/-- The sum of the points does not depend on the root. -/
theorem dft_zero (w w' : R) (n : ℕ) (f : ℕ → R) : dft w n f 0 = dft w' n f 0 := by
  simp only [dft, Nat.mul_zero, pow_zero]

/-- The points read from the last one: the transform with the inverse root, turned. -/
theorem dft_reverse {w w' : R} (hw : w * w' = 1) (n : ℕ) (f : ℕ → R) (k : ℕ) :
    dft w n (fun t => f (n - 1 - t)) k = w ^ ((n - 1) * k) * dft w' n f k := by
  rw [dft, dft, mul_sum, ← sum_range_reflect]
  refine sum_congr rfl fun t ht => ?_
  have ht : t ≤ n - 1 := Nat.le_sub_one_of_lt (mem_range.1 ht)
  have hpow : w ^ ((n - 1) * k) = w ^ ((n - 1 - t) * k) * w ^ (t * k) := by
    rw [← pow_add, ← Nat.add_mul, Nat.sub_add_cancel ht]
  have hone : w ^ (t * k) * w' ^ (t * k) = 1 := by rw [← mul_pow, hw, one_pow]
  rw [Nat.sub_sub_self ht, hpow]
  linear_combination -(f t * w ^ ((n - 1 - t) * k)) * hone

theorem map_dft {S : Type*} [CommRing S] (φ : R →+* S) (w : R) (n : ℕ) (f : ℕ → R) (k : ℕ) :
    φ (dft w n f k) = dft (φ w) n (fun t => φ (f t)) k := by
  rw [dft, map_sum]
  refine sum_congr rfl fun t _ => ?_
  rw [map_mul, map_pow]

/-! ## Inversion -/

section
variable {F : Type*} [Field F] {w : F} {n : ℕ}

/-- **Orthogonality**: the powers of a power of a primitive root cancel, or are all 1. -/
theorem sum_zpow_pow (hw : IsPrimitiveRoot w n) (d : ℤ) :
    ∑ j ∈ range n, (w ^ d) ^ j = if (n : ℤ) ∣ d then (n : F) else 0 := by
  split
  · rename_i hd
    simp [(hw.zpow_eq_one_iff_dvd d).2 hd]
  · rename_i hd
    have hne : w ^ d - 1 ≠ 0 := sub_ne_zero.2 (mt (hw.zpow_eq_one_iff_dvd d).1 hd)
    have hone : (w ^ d) ^ n = 1 := by
      rw [← zpow_natCast, ← zpow_mul, hw.zpow_eq_one_iff_dvd]
      exact Dvd.intro_left d rfl
    refine (mul_eq_zero.1 ?_).resolve_right hne
    rw [geom_sum_mul, hone, sub_self]

theorem natCast_dvd_iff {d : ℤ} (h1 : -n < d) (h2 : d < n) : (n : ℤ) ∣ d ↔ d = 0 := by
  refine ⟨fun h => Int.eq_zero_of_abs_lt_dvd h (abs_lt.2 ⟨h1, h2⟩), fun h => ?_⟩
  rw [h]
  exact dvd_zero _

/-- **The transform with the inverse root undoes the transform**, up to the number of points. -/
theorem dft_inv_dft (hw : IsPrimitiveRoot w n) (f : ℕ → F) {s : ℕ} (hs : s < n) :
    dft w⁻¹ n (dft w n f) s = n * f s := by
  have hw0 : w ≠ 0 := hw.ne_zero (by omega)
  have hterm : ∀ t k : ℕ, f t * w ^ (t * k) * w⁻¹ ^ (k * s) =
      f t * (w ^ ((t : ℤ) - s)) ^ k := fun t k => by
    rw [mul_assoc, zpow_sub₀ hw0, zpow_natCast, zpow_natCast, div_pow, ← pow_mul, ← pow_mul,
      Nat.mul_comm k s, inv_pow, div_eq_mul_inv]
  have hdvd : ∀ t < n, (n : ℤ) ∣ (t : ℤ) - s ↔ t = s := fun t ht => by
    rw [natCast_dvd_iff (by omega) (by omega)]
    omega
  calc dft w⁻¹ n (dft w n f) s
      = ∑ k ∈ range n, ∑ t ∈ range n, f t * (w ^ ((t : ℤ) - s)) ^ k := by
        refine sum_congr rfl fun k _ => ?_
        rw [dft, sum_mul]
        exact sum_congr rfl fun t _ => hterm t k
    _ = ∑ t ∈ range n, f t * if t = s then (n : F) else 0 := by
        rw [sum_comm]
        refine sum_congr rfl fun t ht => ?_
        rw [← mul_sum, sum_zpow_pow hw]
        simp only [hdvd t (mem_range.1 ht)]
    _ = n * f s := by
        simp only [mul_ite, mul_zero, sum_ite_eq', mem_range, hs, ↓reduceIte, mul_comm]

/-- A root whose half period is a change of sign is primitive. -/
theorem isPrimitiveRoot_of_half [NeZero (2 : F)] {l : ℕ} (hw : w ^ 2 ^ l = -1) :
    IsPrimitiveRoot w (2 ^ (l + 1)) := by
  have hone : w ^ 2 ^ (l + 1) = 1 := by
    rw [pow_succ, pow_mul, hw, neg_one_sq]
  have hne : ¬w ^ 2 ^ l = 1 := by
    rw [hw, neg_eq_iff_add_eq_zero, one_add_one_eq_two]
    exact two_ne_zero
  exact IsPrimitiveRoot.iff_orderOf.2 (orderOf_eq_prime_pow hne hone)

end

/-! ## Energy -/

section
variable {𝕜 : Type*} [RCLike 𝕜]

/-- **The energy of a transform**, with a root of `-1`. -/
theorem sum_norm_dft_sq (l : ℕ) {w : 𝕜} (hw : ∀ l', l = l' + 1 → w ^ 2 ^ l' = -1) (f : ℕ → 𝕜) :
    ∑ k ∈ range (2 ^ l), ‖dft w (2 ^ l) f k‖ ^ 2 =
      2 ^ l * ∑ t ∈ range (2 ^ l), ‖f t‖ ^ 2 := by
  induction l generalizing w f with
  | zero => simp [dft]
  | succ l ih =>
    have hw1 := hw l rfl
    have hnorm : ∀ k, ‖w ^ k‖ = 1 := fun k => by
      have hpow : ‖w‖ ^ 2 ^ l = 1 := by
        rw [← norm_pow, hw1, norm_neg, norm_one]
      rw [norm_pow, (pow_eq_one_iff_of_nonneg (norm_nonneg w) (by positivity)).1 hpow, one_pow]
    have hw2 : ∀ l', l = l' + 1 → (w ^ 2) ^ 2 ^ l' = -1 := fun l' hl' => by
      rw [← pow_mul, ← pow_succ', ← hl', hw1]
    have hpair : ∀ k, ‖dft w (2 * 2 ^ l) f k‖ ^ 2 + ‖dft w (2 * 2 ^ l) f (2 ^ l + k)‖ ^ 2 =
        2 * (‖dft (w ^ 2) (2 ^ l) (fun t => f (2 * t)) k‖ ^ 2 +
          ‖dft (w ^ 2) (2 ^ l) (fun t => f (2 * t + 1)) k‖ ^ 2) := fun k => by
      rw [Nat.add_comm, dft_double_add hw1, dft_double, parallelogram_law_with_norm 𝕜, norm_mul,
        hnorm, one_mul]
    have hlen : 2 ^ (l + 1) = 2 * 2 ^ l := pow_succ' 2 l
    rw [hlen, Nat.two_mul, sum_range_add, ← sum_add_distrib, ← Nat.two_mul,
      sum_congr rfl fun k _ => hpair k, ← mul_sum, sum_add_distrib, ih hw2, ih hw2,
      sum_range_two_mul, pow_succ' (2 : ℝ)]
    ring

end

/-! ## Joining blocks -/

/-- The value of point `p` after the butterflies that join blocks of `n` points. -/
def joined (w : R) (n : ℕ) (z : ℕ → R) (p : ℕ) : R :=
  if p % (2 * n) < n then z p + w ^ (p % (2 * n)) * z (p + n)
  else z (p - n) - w ^ (p % (2 * n) - n) * z p

theorem joined_low (w : R) {n : ℕ} (z : ℕ → R) (b : ℕ) {k : ℕ} (hk : k < n) :
    joined w n z (b * (2 * n) + k) =
      z (2 * b * n + k) + w ^ k * z ((2 * b + 1) * n + k) := by
  have hmod : (b * (2 * n) + k) % (2 * n) = k := by
    rw [Nat.mul_comm b, Nat.mul_add_mod, Nat.mod_eq_of_lt (by omega)]
  have h1 : b * (2 * n) + k = 2 * b * n + k := by ring
  have h2 : b * (2 * n) + k + n = (2 * b + 1) * n + k := by ring
  rw [joined, hmod, if_pos hk, h2, h1]

theorem joined_high (w : R) {n : ℕ} (z : ℕ → R) (b : ℕ) {k : ℕ} (hk : k < n) :
    joined w n z (b * (2 * n) + (k + n)) =
      z (2 * b * n + k) - w ^ k * z ((2 * b + 1) * n + k) := by
  have hmod : (b * (2 * n) + (k + n)) % (2 * n) = k + n := by
    rw [Nat.mul_comm b, Nat.mul_add_mod, Nat.mod_eq_of_lt (by omega)]
  have h1 : b * (2 * n) + (k + n) - n = 2 * b * n + k := by
    rw [← Nat.add_assoc, Nat.add_sub_cancel]
    ring
  have h2 : b * (2 * n) + (k + n) = (2 * b + 1) * n + k := by ring
  rw [joined, hmod, if_neg (by omega), h1, h2, Nat.add_sub_cancel]

/-- Each of the `2 ^ q` blocks of `2 ^ l` points of `z` is the transform of the points of `z₀` in
one residue class, the reversal of the block's number. -/
def Blocks (q l : ℕ) (w : R) (z₀ z : ℕ → R) : Prop :=
  ∀ b < 2 ^ q, ∀ k < 2 ^ l,
    z (b * 2 ^ l + k) = dft w (2 ^ l) (fun t => z₀ (t * 2 ^ q + bitRev q b)) k

theorem blocks_zero {q : ℕ} (w : R) {z₀ z : ℕ → R} (h : ∀ p < 2 ^ q, z p = z₀ (bitRev q p)) :
    Blocks q 0 w z₀ z := by
  intro b hb k hk
  obtain rfl : k = 0 := by simpa using hk
  simp [dft, h b hb]

/-- **A stage of butterflies doubles the length of the blocks.** -/
theorem Blocks.joined {q l : ℕ} {w : R} {z₀ z : ℕ → R} (h : Blocks (q + 1) l (w ^ 2) z₀ z)
    (hw : w ^ 2 ^ l = -1) : Blocks q (l + 1) w z₀ (joined w (2 ^ l) z) := by
  intro b hb k hk
  have hlen : 2 ^ (l + 1) = 2 * 2 ^ l := pow_succ' 2 l
  have hq : 2 ^ (q + 1) = 2 * 2 ^ q := pow_succ' 2 q
  rw [hlen] at hk ⊢
  -- the blocks `2 b` and `2 b + 1` are the even and the odd half of the new block
  have heven : ∀ t, z₀ (t * 2 ^ (q + 1) + bitRev (q + 1) (2 * b)) =
      z₀ (2 * t * 2 ^ q + bitRev q b) := fun t => by
    rw [bitRev_double, hq]
    congr 2
    ring
  have hodd : ∀ t, z₀ (t * 2 ^ (q + 1) + bitRev (q + 1) (2 * b + 1)) =
      z₀ ((2 * t + 1) * 2 ^ q + bitRev q b) := fun t => by
    rw [bitRev_double_add_one, hq]
    congr 1
    ring
  have hz0 : ∀ k < 2 ^ l, z (2 * b * 2 ^ l + k) =
      dft (w ^ 2) (2 ^ l) (fun t => z₀ (2 * t * 2 ^ q + bitRev q b)) k := fun k hk =>
    (h (2 * b) (by omega) k hk).trans (dft_congr k fun t _ => heven t)
  have hz1 : ∀ k < 2 ^ l, z ((2 * b + 1) * 2 ^ l + k) =
      dft (w ^ 2) (2 ^ l) (fun t => z₀ ((2 * t + 1) * 2 ^ q + bitRev q b)) k := fun k hk =>
    (h (2 * b + 1) (by omega) k hk).trans (dft_congr k fun t _ => hodd t)
  rcases Nat.lt_or_ge k (2 ^ l) with hlow | hhigh
  · rw [joined_low w z b hlow, hz0 k hlow, hz1 k hlow, dft_double]
  · obtain ⟨k, rfl⟩ := Nat.exists_eq_add_of_le' hhigh
    have hk' : k < 2 ^ l := by omega
    rw [joined_high w z b hk', hz0 k hk', hz1 k hk', dft_double_add hw]

theorem Blocks.last {l : ℕ} {w : R} {z₀ z : ℕ → R} (h : Blocks 0 l w z₀ z) {k : ℕ}
    (hk : k < 2 ^ l) : z k = dft w (2 ^ l) z₀ k := by
  simpa using h 0 Nat.one_pos k hk

end

/-! ## One stage, cell by cell -/

section
variable {R : Type*} [CommRing R]

/-- A stage under way: the points below `n` of the lanes before `j`, and those of lane `j` below
`i`, are joined. -/
def joining (w : R) (L n j i : ℕ) (z : ℕ → R) (p : ℕ) : R :=
  if p < n ∧ (p % L < j ∨ p % L = j ∧ p < i) then joined w L z p else z p

theorem joining_start (w : R) (L n : ℕ) (z : ℕ → R) : joining w L n 0 0 z = z := by
  funext p
  simp [joining]

theorem joining_of_le (w : R) (L : ℕ) {n p : ℕ} (hp : n ≤ p) (j i : ℕ) (z : ℕ → R) :
    joining w L n j i z p = z p := if_neg fun h => absurd h.1 (Nat.not_lt.2 hp)

/-- At the start of lane `j` none of its points is joined. -/
theorem joining_lane (w : R) {L n j : ℕ} (z : ℕ → R) :
    joining w L n j j z = joining w L n j 0 z := by
  funext p
  have : ¬(p % L = j ∧ p < j) := fun h => absurd (Nat.mod_le p L) (by omega)
  simp [joining, this]

/-- The end of a lane. -/
theorem joining_next (w : R) {L n j i : ℕ} (hi : n ≤ i) (z : ℕ → R) :
    joining w L n j i z = joining w L n (j + 1) 0 z := by
  funext p
  have : (p < n ∧ (p % L < j ∨ p % L = j ∧ p < i)) ↔
      p < n ∧ (p % L < j + 1 ∨ p % L = j + 1 ∧ p < 0) := by omega
  simp only [joining, this]

/-- After the last lane every point is joined. -/
theorem joining_end (w : R) {L n p : ℕ} (hL : 0 < L) (hp : p < n) (z : ℕ → R) :
    joining w L n L 0 z p = joined w L z p :=
  if_pos ⟨hp, .inl (Nat.mod_lt p hL)⟩

/-- Of two points of a lane that are less than `2 L` apart, the second is the first or its
partner. -/
theorem lane_between {L i p : ℕ} (hp : p % L = i % L) (hip : i ≤ p) (hp2 : p < i + 2 * L) :
    p = i ∨ p = i + L := by
  obtain ⟨e, he⟩ := Nat.dvd_of_mod_eq_zero (Nat.sub_mod_eq_zero_of_mod_eq hp)
  have he2 : L * e < L * 2 := by omega
  rcases Nat.lt_succ_iff_lt_or_eq.1 (Nat.lt_of_mul_lt_mul_left he2) with he1 | rfl
  · obtain rfl : e = 0 := Nat.lt_one_iff.1 he1
    exact .inl (by omega)
  · exact .inr (by omega)

/-- The butterfly on `i` and `i + L`. -/
theorem joining_step (w : R) {L n j i : ℕ} (hj : j < L) (hi : i % (2 * L) = j) (hn : i + L < n)
    (z : ℕ → R) :
    Function.update (Function.update (joining w L n j i z) (i + L)
      (joining w L n j i z i - w ^ j * joining w L n j i z (i + L))) i
      (joining w L n j i z i + w ^ j * joining w L n j i z (i + L)) =
      joining w L n j (i + 2 * L) z := by
  have hiL : i % L = j := by
    rw [← Nat.mod_mul_left_mod i 2 L, hi, Nat.mod_eq_of_lt hj]
  have hiL' : (i + L) % L = j := by rw [Nat.add_mod_right, hiL]
  have hi2 : (i + L) % (2 * L) = j + L := by
    rw [Nat.add_mod, hi, Nat.mod_eq_of_lt (show L < 2 * L by omega), Nat.mod_eq_of_lt (by omega)]
  have h0 : joining w L n j i z i = z i := if_neg (by omega)
  have h1 : joining w L n j i z (i + L) = z (i + L) := if_neg (by omega)
  rw [h0, h1]
  funext p
  by_cases hpi : p = i
  · subst hpi
    rw [Function.update_self, joining, if_pos (by omega), joined, hi, if_pos hj]
  rw [Function.update_of_ne hpi]
  by_cases hpL : p = i + L
  · subst hpL
    rw [Function.update_self, joining, if_pos (by omega), joined, hi2, if_neg (by omega),
      Nat.add_sub_cancel, Nat.add_sub_cancel]
  rw [Function.update_of_ne hpL]
  -- no other point of the lane lies between `i` and the next pair
  have hmid : p % L = j → i ≤ p → ¬p < i + 2 * L := fun hp hip hp2 => by
    have := lane_between (hp.trans hiL.symm) hip hp2
    omega
  have : (p < n ∧ (p % L < j ∨ p % L = j ∧ p < i)) ↔
      p < n ∧ (p % L < j ∨ p % L = j ∧ p < i + 2 * L) := by omega
  simp only [joining, this]

end

end Checked
