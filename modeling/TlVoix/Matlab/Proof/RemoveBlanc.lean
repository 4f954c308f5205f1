import TlVoix.Matlab.RemoveBlanc
import Mathlib.Algebra.Order.Ring.Int
import Mathlib.Order.Bounds.Basic

/-!
# `remove_blanc` cuts a recording by the indices of a longer signal

The loud indices are those of the convolution, which has 99 entries more than the recording, and
an index of the convolution is the last index of its window.

* `removeBlanc_eq`: the recording is cut at the first and the last loud index.
* `removeBlanc_trims_iff`: the cut stays inside the recording, and then drops no loud run of 100
  samples, exactly if the last 99 samples are silent. The recording of somebody who is still
  talking is an error (`removeBlanc_outOfBounds`), and a silent one gives the empty recording
  (`removeBlanc_silent`).
-/

namespace TlVoix.Matlab

open Checked Sliding

/-! ## Searches -/

/-- Place `p` of `v`, counted from 1, is set. -/
def IsSet (v : List Bool) (p : ℕ) : Prop := 1 ≤ p ∧ v[p - 1]? = some true

theorem isLeast_findFirst {v : List Bool} {a : ℕ} (h : findFirst v = some a) :
    IsLeast {p | IsSet v p} a := by
  obtain ⟨i, hi, rfl⟩ := Option.map_eq_some_iff.1 h
  obtain ⟨hlen, hset, hbefore⟩ := List.findIdx?_eq_some_iff_getElem.1 hi
  refine ⟨⟨Nat.le_add_left 1 i, ?_⟩, ?_⟩
  · rw [Nat.add_sub_cancel, List.getElem?_eq_getElem hlen]
    exact congrArg some hset
  · intro p hp
    obtain ⟨hp, hv⟩ := hp
    obtain ⟨hp', hv⟩ := List.getElem?_eq_some_iff.1 hv
    by_contra hlt
    exact hbefore (p - 1) (by omega) hv

theorem isGreatest_findLast {v : List Bool} {b : ℕ} (h : findLast v = some b) :
    IsGreatest {p | IsSet v p} b := by
  obtain ⟨i, hi, rfl⟩ := Option.map_eq_some_iff.1 h
  obtain ⟨hlen, hset, hbefore⟩ := List.findIdx?_eq_some_iff_getElem.1 hi
  have hlen' : i < v.length := by rwa [List.length_reverse] at hlen
  refine ⟨⟨by omega, ?_⟩, ?_⟩
  · rw [List.getElem_reverse] at hset
    rw [List.getElem?_eq_getElem (by omega)]
    refine congrArg some (Eq.trans ?_ hset)
    congr 1
    omega
  · intro p hp
    obtain ⟨hp, hv⟩ := hp
    obtain ⟨hp', hv⟩ := List.getElem?_eq_some_iff.1 hv
    by_contra hlt
    refine hbefore (v.length - p) (by omega) ?_
    rw [List.getElem_reverse]
    refine Eq.trans ?_ hv
    show v[_] = v[_]
    congr 1
    omega

theorem exists_find {v : List Bool} {p : ℕ} (h : IsSet v p) :
    ∃ a b, findFirst v = some a ∧ findLast v = some b := by
  have hmem : ∃ x, x ∈ v ∧ id x = true := ⟨true, List.mem_of_getElem? h.2, rfl⟩
  have hmem' : ∃ x, x ∈ v.reverse ∧ id x = true := by simpa using hmem
  exact ⟨_, _, congrArg _ (List.findIdx?_eq_some_of_exists hmem),
    congrArg _ (List.findIdx?_eq_some_of_exists hmem')⟩

/-! ## The loud indices -/

variable {K : Type} [Ring K] [LinearOrder K]

/-- Entry `p` of the convolution, counted from 1, exceeds 3. -/
def Loud (son : List K) (p : ℕ) : Prop :=
  1 ≤ p ∧ p ≤ son.length + 99 ∧ (3 : ℕ) < coeff (son.map abs) (List.replicate 100 1) (p - 1)

theorem isSet_iff_loud (son : List K) (p : ℕ) :
    IsSet ((conv (son.map abs) (List.replicate 100 1)).map fun x =>
      decide (x > ((3 : ℕ) : K))) p ↔
      Loud son p := by
  unfold IsSet Loud
  refine and_congr_right fun hp => ?_
  rw [List.getElem?_map]
  by_cases hlen : p ≤ son.length + 99
  · rw [getElem?_conv (by simp; omega)]
    simp [hlen]
  · rw [List.getElem?_eq_none (by simp; omega)]
    simp [hlen]

/-- The recording is cut at the first and the last loud index. -/
theorem removeBlanc_eq {son : List K} (h : ∃ p, Loud son p) :
    ∃ a b, IsLeast {p | Loud son p} a ∧ IsGreatest {p | Loud son p} b ∧
      removeBlanc son = colon son a b := by
  obtain ⟨p, hp⟩ := h
  obtain ⟨a, b, ha, hb⟩ := exists_find ((isSet_iff_loud son p).2 hp)
  refine ⟨a, b, ?_, ?_, ?_⟩
  · simpa only [isSet_iff_loud] using isLeast_findFirst ha
  · simpa only [isSet_iff_loud] using isGreatest_findLast hb
  · simp only [removeBlanc, ha, hb]

/-- A recording without a loud index is silence from end to end. -/
theorem removeBlanc_silent {son : List K} (h : ∀ p, ¬Loud son p) : removeBlanc son = .ok [] := by
  have hfirst : findFirst ((conv (son.map abs) (List.replicate 100 1)).map fun x =>
      decide (x > ((3 : ℕ) : K))) = none := by
    refine Option.eq_none_iff_forall_ne_some.2 fun a ha => ?_
    exact h a ((isSet_iff_loud son a).1 (isLeast_findFirst ha).1)
  simp only [removeBlanc, hfirst]
  rfl

/-- The recording is cut inside its bounds, and the runs of 100 samples outside are silent. -/
structure Trimmed (son : List K) (a b : ℕ) : Prop where
  first : IsLeast {p | Loud son p} a
  last : IsGreatest {p | Loud son p} b
  pos : 1 ≤ a
  le : a ≤ b
  inside : b ≤ son.length
  result : removeBlanc son = .ok ((son.take b).drop (a - 1))
  silent : ∀ t, t + 100 ≤ son.length → t + 100 < a ∨ b ≤ t →
    (((son.drop t).take 100).map abs).sum ≤ 3

/-- A loud run of 100 samples has a loud index, that of its last sample. -/
theorem loud_of_run {son : List K} {t : ℕ} (ht : t + 100 ≤ son.length)
    (h : 3 < (((son.drop t).take 100).map abs).sum) : Loud son (t + 100) := by
  refine ⟨by omega, by omega, ?_⟩
  rw [coeff_window (by decide), ← List.map_drop, ← List.map_take]
  exact h

theorem loud_of_tail {son : List K} (h : 3 < ((son.drop (son.length - 99)).map abs).sum) :
    Loud son (son.length + 1) := by
  refine ⟨by omega, by omega, ?_⟩
  rw [Nat.add_sub_cancel, coeff_tail (by decide) (by simp), ← List.map_drop]
  exact h

/-- A recording that ends while somebody is talking is an error. -/
theorem removeBlanc_outOfBounds {son : List K}
    (h : 3 < ((son.drop (son.length - 99)).map abs).sum) :
    removeBlanc son = .error .outOfBounds := by
  have hloud := loud_of_tail h
  obtain ⟨a, b, ha, hb, heq⟩ := removeBlanc_eq ⟨_, hloud⟩
  rw [heq]
  exact colon_outOfBounds (ha.2 hb.1) (hb.2 hloud)

variable [IsStrictOrderedRing K]

/-- An index after the recording is loud only if the first of them is: only if the last 99 samples
are. -/
theorem Loud.tail {son : List K} {p : ℕ} (h : Loud son p) (hp : son.length < p) :
    3 < ((son.drop (son.length - 99)).map abs).sum := by
  obtain ⟨-, -, h⟩ := h
  have hnonneg : ∀ x ∈ son.map abs, 0 ≤ x := by
    intro x hx
    obtain ⟨y, -, rfl⟩ := List.mem_map.1 hx
    exact abs_nonneg y
  have hlast : coeff (son.map abs) (List.replicate 100 1) son.length =
      ((son.drop (son.length - 99)).map abs).sum := by
    rw [coeff_tail (by decide) (by simp), ← List.map_drop, Nat.add_sub_add_right son.length 1 99]
  rw [← hlast]
  exact lt_of_lt_of_le h (coeff_antitone (by decide) hnonneg (by simp) (by omega))

theorem removeBlanc_trims_iff (son : List K) (h : ∃ p, Loud son p) :
    (∃ a b, Trimmed son a b) ↔ ((son.drop (son.length - 99)).map abs).sum ≤ 3 := by
  refine ⟨fun ht => ?_, fun hquiet => ?_⟩
  · obtain ⟨a, b, ht⟩ := ht
    by_contra hlt
    cases ht.result.symm.trans (removeBlanc_outOfBounds (not_le.1 hlt))
  · obtain ⟨a, b, ha, hb, heq⟩ := removeBlanc_eq h
    have hab : a ≤ b := ha.2 hb.1
    have hin : b ≤ son.length := by
      by_contra hlt
      exact absurd (hb.1.tail (not_le.1 hlt)) (not_lt.2 hquiet)
    refine ⟨a, b, ha, hb, ha.1.1, hab, hin, ?_, ?_⟩
    · rw [heq, colon_ok ha.1.1 hab hin]
    · intro t ht hout
      by_contra hlt
      -- the index of the run would be loud, so between `a` and `b`
      have hloud := loud_of_run ht (not_le.1 hlt)
      have h1 := ha.2 hloud
      have h2 := hb.2 hloud
      cases hout with
      | inl hout => omega
      | inr hout => omega

theorem removeBlanc_trims_iff_click :
    (∃ p, Loud (List.replicate 4 1 ++ List.replicate 99 0 : List ℤ) p) ∧
      ∃ a b, Trimmed (List.replicate 4 1 ++ List.replicate 99 0 : List ℤ) a b := by
  have h : ∃ p, Loud (List.replicate 4 1 ++ List.replicate 99 0 : List ℤ) p :=
    ⟨4, by decide, by decide, by decide⟩
  have hquiet : ((List.replicate 99 (0 : ℤ)).map abs).sum ≤ 3 := by simp
  exact ⟨h, (removeBlanc_trims_iff _ h).2 hquiet⟩

/-- Four samples of -1: the first loud index is 4, the last one 100. -/
theorem not_removeBlanc_trims :
    (∃ p, Loud (List.replicate 4 (-1) : List ℤ) p) ∧
      ¬∃ a b, Trimmed (List.replicate 4 (-1) : List ℤ) a b := by
  refine ⟨⟨4, by decide, by decide, by decide⟩, fun h => ?_⟩
  obtain ⟨a, b, h⟩ := h
  have herr : removeBlanc (List.replicate 4 (-1) : List ℤ) = .error .outOfBounds :=
    removeBlanc_outOfBounds (by decide)
  cases h.result.symm.trans herr

end TlVoix.Matlab
