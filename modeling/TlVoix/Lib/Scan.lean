import TlVoix.Lib.Run
import Mathlib.Order.Lattice

/-!
# The first greatest value

`FirstMax h n g`: among `h 0, …, h (n - 1)` the value at `g` is the greatest, and the first one that
is. A scan with a strict comparison keeps it (`FirstMax.step`).
-/

namespace Checked

/-- `g` is the first place below `n` at which `h` is greatest. -/
structure FirstMax {α : Type*} [LinearOrder α] (h : ℕ → α) (n g : ℕ) : Prop where
  lt : g < n
  le : ∀ k < n, h k ≤ h g
  first : ∀ k < g, h k < h g

section
variable {α : Type*} [LinearOrder α] {h : ℕ → α} {n g g' : ℕ}

theorem firstMax_one (h : ℕ → α) : FirstMax h 1 0 := by
  refine ⟨Nat.one_pos, fun k hk => ?_, fun k hk => absurd hk (Nat.not_lt_zero k)⟩
  rw [Nat.lt_one_iff.1 hk]

/-- One more value. -/
theorem FirstMax.step (hg : FirstMax h n g) : FirstMax h (n + 1) (if h g < h n then n else g) := by
  split
  · rename_i hlt
    refine ⟨Nat.lt_succ_self n, fun k hk => ?_, fun k hk => (hg.le k hk).trans_lt hlt⟩
    rcases Nat.lt_succ_iff_lt_or_eq.1 hk with hk | rfl
    · exact (hg.le k hk).trans hlt.le
    · exact le_rfl
  · rename_i hlt
    refine ⟨Nat.lt_succ_of_lt hg.lt, fun k hk => ?_, hg.first⟩
    rcases Nat.lt_succ_iff_lt_or_eq.1 hk with hk | rfl
    · exact hg.le k hk
    · exact not_lt.1 hlt

theorem FirstMax.unique (hg : FirstMax h n g) (hg' : FirstMax h n g') : g = g' := by
  rcases Nat.lt_trichotomy g g' with hlt | heq | hgt
  · exact absurd (hg'.first g hlt) (not_lt.2 (hg.le g' hg'.lt))
  · exact heq
  · exact absurd (hg.first g' hgt) (not_lt.2 (hg'.le g hg.lt))

/-- Values that compare as `h` does. -/
theorem FirstMax.congr {β : Type*} [LinearOrder β] {h' : ℕ → β} (hg : FirstMax h n g)
    (hlt : ∀ a < n, ∀ b < n, h a < h b ↔ h' a < h' b) : FirstMax h' n g := by
  refine ⟨hg.lt, fun k hk => ?_, fun k hk => ?_⟩
  · exact not_lt.1 (mt (hlt g hg.lt k hk).2 (not_lt.2 (hg.le k hk)))
  · exact (hlt k (hk.trans hg.lt) g hg.lt).1 (hg.first k hk)

end

end Checked
