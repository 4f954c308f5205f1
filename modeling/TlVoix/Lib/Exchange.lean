import TlVoix.Lib.BitRev
import Mathlib.Data.Set.Insert

/-!
# Permuting by exchanges

* `exchanged f T z` is `z` after the exchanges by the involution `f` at the places `T`; the exchange
  of one more pair adds the pair to `T` (`exchanged_swap`).
* `mirrored m i`: the places a bit reversal has exchanged before its step `i`, when each step
  exchanges a pair and, if the pair lies in the lower half, its mirror image. Half the steps are
  enough (`exchanged_half`).
-/

namespace Checked

section
variable {ι α : Type*}

open Classical in
/-- The values `z`, exchanged by `f` at the places `T`. -/
noncomputable def exchanged (f : ι → ι) (T : Set ι) (z : ι → α) (p : ι) : α :=
  if p ∈ T then z (f p) else z p

variable {f : ι → ι} {T T' : Set ι} {z : ι → α} {p : ι}

theorem exchanged_of_mem (h : p ∈ T) : exchanged f T z p = z (f p) := if_pos h

theorem exchanged_of_notMem (h : p ∉ T) : exchanged f T z p = z p := if_neg h

theorem exchanged_empty (f : ι → ι) (z : ι → α) : exchanged f ∅ z = z := by
  funext p
  exact exchanged_of_notMem (Set.notMem_empty p)

theorem exchanged_of_fixed (h : f p = p) : exchanged f T z p = z p := by
  by_cases hp : p ∈ T
  · rw [exchanged_of_mem hp, h]
  · exact exchanged_of_notMem hp

theorem exchanged_of_iff (h : p ∈ T ↔ p ∈ T') : exchanged f T z p = exchanged f T' z p := by
  by_cases hp : p ∈ T
  · rw [exchanged_of_mem hp, exchanged_of_mem (h.1 hp)]
  · rw [exchanged_of_notMem hp, exchanged_of_notMem (mt h.2 hp)]

/-- The fixed points of the involution are not seen. -/
theorem exchanged_congr (f : ι → ι) (z : ι → α) (h : ∀ p, f p ≠ p → (p ∈ T ↔ p ∈ T')) :
    exchanged f T z = exchanged f T' z := by
  funext p
  by_cases hp : f p = p
  · rw [exchanged_of_fixed hp, exchanged_of_fixed hp]
  · exact exchanged_of_iff (h p hp)

/-- The exchange of the places `b` and `a`. -/
theorem exchanged_swap [DecidableEq ι] {a b : ι} (hab : f a = b) (hba : f b = a) (ha : a ∉ T)
    (hb : b ∉ T) : Function.update (Function.update (exchanged f T z) b (exchanged f T z a)) a
      (exchanged f T z b) = exchanged f (insert a (insert b T)) z := by
  funext p
  by_cases hpa : p = a
  · subst hpa
    rw [Function.update_self, exchanged_of_notMem hb, exchanged_of_mem (Set.mem_insert p _), hab]
  rw [Function.update_of_ne hpa]
  by_cases hpb : p = b
  · subst hpb
    rw [Function.update_self, exchanged_of_notMem ha,
      exchanged_of_mem (Set.mem_insert_of_mem _ (Set.mem_insert p _)), hba]
  rw [Function.update_of_ne hpb]
  exact exchanged_of_iff (by simp [hpa, hpb])

end

/-! ## Two pairs at a time -/

/-- The places exchanged before step `i`: the pairs that have a place below `i`, and the mirror
images of those in the lower half. -/
def mirrored (m i : ℕ) : Set ℕ := {p | p < 2 ^ m ∧ (min p (bitRev m p) < i ∨
  2 ^ m ≤ 2 * min p (bitRev m p) ∧ 2 ^ m ≤ max p (bitRev m p) + i)}

theorem mem_mirrored {m i p : ℕ} : p ∈ mirrored m i ↔ p < 2 ^ m ∧ (min p (bitRev m p) < i ∨
    2 ^ m ≤ 2 * min p (bitRev m p) ∧ 2 ^ m ≤ max p (bitRev m p) + i) := Iff.rfl

theorem mirrored_zero (m : ℕ) : mirrored m 0 = ∅ := by
  ext p
  have := bitRev_lt m p
  simp only [mem_mirrored, Set.mem_empty_iff_false, iff_false]
  omega

/-- What a step knows of its pair and of the mirror image, seen from any place. -/
theorem pair_cases (m : ℕ) {i p : ℕ} (hi : i < 2 ^ m) (hp : p < 2 ^ m) :
    (bitRev m p = i ↔ p = bitRev m i) ∧ (p = i ↔ bitRev m p = bitRev m i) ∧
      (bitRev m p = 2 ^ m - 1 - i ↔ p = 2 ^ m - 1 - bitRev m i) ∧
      (p = 2 ^ m - 1 - i ↔ bitRev m p = 2 ^ m - 1 - bitRev m i) := by
  have hpp := bitRev_bitRev m hp
  have hii := bitRev_bitRev m hi
  have hci := bitRev_compl m hi
  have hcr := bitRev_compl m (bitRev_lt m i)
  rw [hii] at hcr
  refine ⟨⟨fun h => ?_, fun h => ?_⟩, ⟨fun h => ?_, fun h => ?_⟩, ⟨fun h => ?_, fun h => ?_⟩,
    fun h => ?_, fun h => ?_⟩
  · rw [← h, hpp]
  · rw [h, hii]
  · rw [h]
  · rw [← hpp, h, hii]
  · rw [← hpp, h, hci]
  · rw [h, hcr]
  · rw [h, hci]
  · rw [← hpp, h, hcr]

/-- A step whose reversal is not greater exchanges nothing. -/
theorem exchanged_of_le {α : Type*} (m : ℕ) {i : ℕ} (hi : i < 2 ^ m) (z : ℕ → α)
    (h : bitRev m i ≤ i) :
    exchanged (bitRev m) (mirrored m i) z = exchanged (bitRev m) (mirrored m (i + 1)) z := by
  refine exchanged_congr _ _ fun p hfix => ?_
  rw [mem_mirrored, mem_mirrored]
  by_cases hp : p < 2 ^ m
  · have := pair_cases m hi hp
    have := bitRev_lt m p
    omega
  · simp only [hp, false_and]

/-- A step that exchanges one pair. -/
theorem mirrored_single (m : ℕ) {i : ℕ} (hlt : i < bitRev m i) (hr : 2 ^ m ≤ 2 * bitRev m i) :
    mirrored m (i + 1) = insert i (insert (bitRev m i) (mirrored m i)) := by
  have hri := bitRev_lt m i
  have hii := bitRev_bitRev m (hlt.trans hri)
  ext p
  rw [Set.mem_insert_iff, Set.mem_insert_iff, mem_mirrored, mem_mirrored]
  by_cases hp : p < 2 ^ m
  · have := pair_cases m (hlt.trans hri) hp
    have := bitRev_lt m p
    omega
  · simp only [hp, false_and, or_false, false_iff, not_or]
    omega

/-- A step that exchanges two pairs. -/
theorem mirrored_double (m : ℕ) {i : ℕ} (hlt : i < bitRev m i) (hr : 2 * bitRev m i < 2 ^ m) :
    mirrored m (i + 1) = insert (2 ^ m - 1 - bitRev m i) (insert (2 ^ m - 1 - i)
      (insert i (insert (bitRev m i) (mirrored m i)))) := by
  have hri := bitRev_lt m i
  ext p
  simp only [Set.mem_insert_iff, mem_mirrored]
  by_cases hp : p < 2 ^ m
  · have := pair_cases m (hlt.trans hri) hp
    have := bitRev_lt m p
    omega
  · simp only [hp, false_and, or_false, false_iff, not_or]
    omega

/-- **Half the steps permute every place.** -/
theorem exchanged_half {α : Type*} (m : ℕ) {i p : ℕ} (hi : 2 ^ m ≤ 2 * i) (hp : p < 2 ^ m)
    (z : ℕ → α) : exchanged (bitRev m) (mirrored m i) z p = z (bitRev m p) := by
  refine exchanged_of_mem (mem_mirrored.2 ⟨hp, ?_⟩)
  omega

end Checked
