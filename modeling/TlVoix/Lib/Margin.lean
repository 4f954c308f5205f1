import TlVoix.Lib.Ballot
import Mathlib.Algebra.Order.Group.Defs
import Mathlib.Data.Finset.Max
import Mathlib.Data.List.Forall2

/-!
# Elections with a margin

* `exists_first`: if a label has `k` entries at distinct ranks, some label is the first to have
  them.
* `Near ε v w`: two ballots with the same labels, and ranks within `ε` of one another.
* `first_of_near`: a label with `k` entries up to `d`, when the others do not have them up to
  `d + (ε + ε)`, is first in every ballot near it.
-/

namespace Ballot

section
variable {α ι : Type*} [LinearOrder α] [DecidableEq ι]

theorem kth_mem {l : List α} {k : ℕ} {d : α} (h : kth l k = some d) : d ∈ l :=
  (List.mergeSort_perm l _).subset (List.mem_of_getElem? h)

omit [LinearOrder α] in
theorem mem_of_mem_ranks {v : List (α × ι)} {c : ι} {d : α} (h : d ∈ ranks v c) : (d, c) ∈ v := by
  obtain ⟨p, hp, rfl⟩ := List.mem_map.1 h
  obtain ⟨hp, hc⟩ := List.mem_filter.1 hp
  exact of_decide_eq_true hc ▸ hp

/-- The entry with which a label reaches `k` entries. -/
theorem exists_reached {k : ℕ} (hk : 1 ≤ k) {v : List (α × ι)} {c : ι} {x : α}
    (h : k ≤ within v c x) : ∃ d ≤ x, (d, c) ∈ v ∧ k ≤ within v c d := by
  have henough : k ≤ (ranks v c).length := length_ranks v c ▸ h.trans (within_le_total v c x)
  obtain ⟨d, hd⟩ := exists_kth hk henough
  refine ⟨d, (kth_le_iff hk hd).2 (countP_ranks v c x ▸ h), mem_of_mem_ranks (kth_mem hd), ?_⟩
  exact countP_ranks v c d ▸ (kth_le_iff hk hd).1 le_rfl

/-- **The first label**, among entries at distinct ranks. -/
theorem exists_first {k : ℕ} (hk : 1 ≤ k) {v : List (α × ι)} (hne : (v.map Prod.fst).Nodup) {c : ι}
    {x : α} (h : k ≤ within v c x) : ∃ r d, First k v r d ∧ d ≤ x := by
  classical
  obtain ⟨d, hdx, hd, hkd⟩ := exists_reached hk h
  set S := (v.map Prod.fst).toFinset.filter fun e => ∃ c', k ≤ within v c' e with hS
  have hmem : ∀ {e c'}, (e, c') ∈ v → k ≤ within v c' e → e ∈ S := fun he hke =>
    Finset.mem_filter.2 ⟨List.mem_toFinset.2 (List.mem_map_of_mem he), _, hke⟩
  obtain ⟨e, he, hleast⟩ := S.exists_min_image id ⟨d, hmem hd hkd⟩
  obtain ⟨-, r, hr⟩ := Finset.mem_filter.1 he
  -- a label with `k` entries up to `e` has an entry of rank `e`
  have hat : ∀ c', k ≤ within v c' e → (e, c') ∈ v := by
    intro c' hc'
    obtain ⟨e', hle, he', hk'⟩ := exists_reached hk hc'
    rwa [le_antisymm hle (hleast e' (hmem he' hk'))] at he'
  refine ⟨r, e, ⟨hr, fun c' hc' => ?_, fun y hy c' => ?_⟩, ?_⟩
  · have := List.inj_on_of_nodup_map hne (hat c' hc') (hat r hr) rfl
    exact congrArg Prod.snd this
  · by_contra hge
    obtain ⟨e', hle, he', hk'⟩ := exists_reached hk (Nat.not_lt.1 hge)
    exact absurd (hleast e' (hmem he' hk')) (not_le.2 (hle.trans_lt hy))
  · exact (hleast d (hmem hd hkd)).trans hdx

end

section
variable {α ι : Type*} [AddCommGroup α] [LinearOrder α] [IsOrderedAddMonoid α] [DecidableEq ι]

/-- The same labels, with ranks within `ε`. -/
def Near (ε : α) (v w : List (α × ι)) : Prop :=
  List.Forall₂ (fun p q => p.2 = q.2 ∧ q.1 ≤ p.1 + ε ∧ p.1 ≤ q.1 + ε) v w

omit [IsOrderedAddMonoid α] [DecidableEq ι] in
theorem Near.symm {ε : α} {v w : List (α × ι)} (h : Near ε v w) : Near ε w v :=
  List.Forall₂.flip (h.imp fun _ _ h => ⟨h.1.symm, h.2.2, h.2.1⟩)

theorem Near.within_le {ε : α} {v w : List (α × ι)} (h : Near ε v w) (c : ι) (x : α) :
    within v c x ≤ within w c (x + ε) := by
  induction h with
  | nil => exact Nat.zero_le _
  | @cons p q v w h _ ih =>
    rw [within_cons, within_cons]
    refine Nat.add_le_add ih ?_
    split
    · rename_i hp
      rw [if_pos ⟨h.1 ▸ hp.1, h.2.1.trans (add_le_add_left hp.2 ε)⟩]
    · exact Nat.zero_le _

/-- **A margin of `2 ε` keeps the first label** under changes of `ε`. -/
theorem first_of_near {k : ℕ} (hk : 1 ≤ k) {ε : α} {v w : List (α × ι)} {r : ι} {d : α}
    (hr : k ≤ within v r d) (hmargin : ∀ c, c ≠ r → within v c (d + (ε + ε)) < k)
    (h : Near ε v w) (hne : (w.map Prod.fst).Nodup) : ∃ d' ≤ d + ε, First k w r d' := by
  obtain ⟨r', d', hfirst, hd'⟩ := exists_first hk hne (hr.trans (h.within_le r d))
  have hr' : r' = r := by
    by_contra hother
    refine absurd hfirst.reached (Nat.not_le.2 ((h.symm.within_le r' d').trans_lt ?_))
    refine (within_mono v r' ?_).trans_lt (hmargin r' hother)
    rw [← add_assoc]
    exact add_le_add_left hd' ε
  exact ⟨d', hd', hr' ▸ hfirst⟩

end

end Ballot
