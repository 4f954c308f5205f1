import TlVoix.Cpp.Fourier
import TlVoix.Lib.Exchange

/-!
# The binary inversion of `ComplexFFT`

`ComplexFFT` goes over half of the points only: an exchange in the lower half comes with its mirror
image in the upper half (`ends_exchange`), and a pair that lies in both halves is met once. The
result is the bit-reversal permutation of the interleaved points (`ends_binaryInversion`).
-/

namespace TlVoix

open Checked CFourier

variable {K : Type} {f g : ℕ → K} {v : Arr ℕ K}

theorem ends_swapCells {N a b : ℕ} (hv : v.Is N f) (ha : a < N) (hb : b < N) :
    Ends (swap a b v) fun v =>
      v.Is N (Function.update (Function.update f a (f b)) b (f a)) := by
  simp only [CFourier.swap, hv.get_ok ha, hv.get_ok hb, ok_bind]
  exact (hv.ends_set ha _).bind fun v1 hv1 => hv1.ends_set hb _

/-- The points `f + i g`, interleaved in an array and exchanged at the places `T`. -/
def Permuted (m : ℕ) (f g : ℕ → K) (T : Set ℕ) (v : Arr ℕ K) : Prop :=
  v.Is (2 * 2 ^ m) (Arr.interleave (exchanged (bitRev m) T f) (exchanged (bitRev m) T g))

/-- The exchange of two points, their real parts first. -/
theorem Permuted.ends_swap {m a b : ℕ} {T : Set ℕ} (h : Permuted m f g T v)
    (hb : b < 2 ^ m) (hba : bitRev m b = a) (haT : a ∉ T) (hbT : b ∉ T) :
    Ends (swap (2 * b) (2 * a) v >>= swap (2 * b + 1) (2 * a + 1))
      (Permuted m f g (insert a (insert b T))) := by
  have ha : a < 2 ^ m := hba ▸ bitRev_lt m b
  have hab : bitRev m a = b := hba ▸ bitRev_bitRev m hb
  refine (ends_swapCells h (by omega) (by omega)).bind fun v1 h1 => ?_
  rw [Arr.interleave_even, Arr.interleave_even, Arr.update_interleave_even,
    Arr.update_interleave_even, exchanged_swap hab hba haT hbT] at h1
  refine (ends_swapCells h1 (by omega) (by omega)).mono fun v2 h2 => ?_
  rw [Arr.interleave_odd, Arr.interleave_odd, Arr.update_interleave_odd,
    Arr.update_interleave_odd, exchanged_swap hab hba haT hbT] at h2
  exact h2

theorem half_iff (m r : ℕ) : 2 * r / 2 < 2 * 2 ^ (m + 1) / 4 ↔ 2 * r < 2 ^ (m + 1) := by
  rw [pow_succ]
  omega

/-- One iteration exchanges a pair, and its mirror image if the pair is in the lower half. -/
theorem ends_exchange {m p : ℕ} (hp : 2 * p < 2 ^ m) (h : Permuted m f g (mirrored m p) v) :
    Ends (complexFFT.exchange (2 * 2 ^ m) (2 * p) (2 * bitRev m p) v)
      (Permuted m f g (mirrored m (p + 1))) := by
  have hpm : p < 2 ^ m := by omega
  have hr := bitRev_lt m p
  have hpp := bitRev_bitRev m hpm
  unfold complexFFT.exchange
  by_cases hlt : p < bitRev m p
  · have hp0 : p ∉ mirrored m p := by
      rw [mem_mirrored]
      omega
    have hr0 : bitRev m p ∉ mirrored m p := by
      rw [mem_mirrored, hpp]
      omega
    rw [if_pos (by omega), ← bind_assoc]
    refine (h.ends_swap hr hpp hp0 hr0).bind fun v1 h1 => ?_
    cases m with
    | zero => exact absurd hlt (Nat.not_lt_zero p)
    | succ m =>
      by_cases hhalf : 2 * bitRev (m + 1) p < 2 ^ (m + 1)
      -- the mirror image of the pair
      · have hcp := bitRev_compl (m + 1) hpm
        have hcr := bitRev_compl (m + 1) hr
        rw [hpp] at hcr
        have hi : 2 * 2 ^ (m + 1) - (2 * p + 2) = 2 * (2 ^ (m + 1) - 1 - p) := by omega
        have hj : 2 * 2 ^ (m + 1) - (2 * bitRev (m + 1) p + 2) =
            2 * (2 ^ (m + 1) - 1 - bitRev (m + 1) p) := by omega
        rw [if_pos ((half_iff m _).2 hhalf), hi, hj, mirrored_double (m + 1) hlt hhalf]
        refine h1.ends_swap (by omega) hcp ?_ ?_
        · simp only [Set.mem_insert_iff, mem_mirrored, hcr]
          omega
        · simp only [Set.mem_insert_iff, mem_mirrored, hcp]
          omega
      · rw [if_neg (mt (half_iff m _).1 hhalf), mirrored_single (m + 1) hlt (Nat.not_lt.1 hhalf)]
        exact Ends.ok h1
  · rw [if_neg (by omega)]
    refine Ends.ok ?_
    unfold Permuted at h ⊢
    rwa [← exchanged_of_le m hpm f (Nat.not_lt.1 hlt), ← exchanged_of_le m hpm g (Nat.not_lt.1 hlt)]

/-- The counter of the next iteration, if there is one. -/
theorem ends_count {m p : ℕ} (hp : 2 * p < 2 ^ m) :
    Ends (complexFFT.carry (2 * bitRev m p) (2 * 2 ^ m / 2)) fun r =>
      2 * (p + 1) < 2 ^ m → r.1 + r.2 = 2 * bitRev m (p + 1) := by
  rw [Nat.mul_div_cancel_left _ Nat.two_pos, complexFFT.carry]
  cases m with
  | zero =>
    obtain rfl : p = 0 := by omega
    rw [whileLoop_of_not (by simp)]
    refine Ends.ok fun h => ?_
    omega
  | succ m =>
    have hlen : 2 ^ (m + 1) = 2 * 2 ^ m := pow_succ' 2 m
    rw [hlen] at hp ⊢
    have hpos : 0 < 2 ^ m := Nat.two_pow_pos m
    exact (ends_carry_double m (by omega) (by omega)).mono fun r hr _ => hr

/-- **The binary inversion is the bit-reversal permutation** of the interleaved points. -/
theorem ends_binaryInversion (m : ℕ) (hv : v.Is (2 * 2 ^ m) (Arr.interleave f g)) :
    Ends (complexFFT.binaryInversion (2 * 2 ^ m) v) fun v => ∃ f' g',
      v.Is (2 * 2 ^ m) (Arr.interleave f' g') ∧
        ∀ p < 2 ^ m, f' p = f (bitRev m p) ∧ g' p = g (bitRev m p) := by
  have hstart : Permuted m f g (mirrored m 0) v := by
    rw [mirrored_zero, Permuted, exchanged_empty, exchanged_empty]
    exact hv
  refine (Ends.forStep (fun i s => ∃ p, i = 2 * p ∧
    (2 * p < 2 ^ m → s.1 = 2 * bitRev m p) ∧ Permuted m f g (mirrored m p) s.2) Nat.two_pos
    ⟨0, rfl, fun _ => ?_, hstart⟩ ?_).bind ?_
  · rw [bitRev_zero]
  · intro i s _ hi hs
    obtain ⟨j, v⟩ := s
    obtain ⟨p, rfl, hj, hperm⟩ := hs
    rw [Nat.mul_div_cancel_left _ Nat.two_pos] at hi
    obtain rfl := hj hi
    refine (ends_exchange hi hperm).bind fun v1 h1 => (ends_count hi).bind fun r hr => ?_
    exact Ends.ok ⟨p + 1, rfl, hr, h1⟩
  · intro r hr
    obtain ⟨i, j, v⟩ := r
    obtain ⟨hi, p, rfl, -, hperm⟩ := hr
    rw [Nat.mul_div_cancel_left _ Nat.two_pos] at hi
    exact Ends.ok ⟨_, _, hperm, fun q hq => ⟨exchanged_half m hi hq f, exchanged_half m hi hq g⟩⟩

end TlVoix
