import Mathlib.Algebra.Order.BigOperators.Group.List
import Mathlib.Algebra.Order.Monoid.WithTop
import Mathlib.Order.Bounds.Basic
import Mathlib.Tactic.Abel
import Mathlib.Tactic.Linarith

/-!
# Warping paths

A warping path of a table goes from cell to cell by the steps `(1,0)`, `(0,1)` and `(1,1)`
(`Step`); `Path s q l` lists its cells from `s` to `q`. `costs c S q` are the costs (sums of `c`
over the cells) of the paths that start in `S` and end at `q`.

* **The recurrence** (`mem_costs`): a path that ends at `q` starts there, or extends a path to a
  predecessor of `q`. `Opt c S q v` says that `v` is the least cost (`⊤` if there is no path), and
  `Opt.of_preds` computes it from the predecessors of `q`, so a table filled by the recurrence holds
  the least costs.
* **The first step** (`mem_costs_cons`): the same decomposition at the other end.
* **Perturbation** (`isLeast_perturb`): the least cost changes by at most the length of a path
  times the largest change of a cell.
* **Length** (`Path.length_le`, `Path.le_length`): a path to `(i, j)` from `(0, 0)` has between
  `max i j + 1` and `i + j + 1` cells; so bounds of the cells bound the least cost
  (`isLeast_bounds`).
* **Transposition** (`isLeast_swap`): the transposed table has the same least costs.
* **Reversal** (`costs_reverse`): so has the table read from its last cell.
* **Concatenation** (`isLeast_append`): the least costs of two tables bound that of a table that has
  them on its diagonal.
-/

namespace Warp

/-- One step of a warping path. -/
inductive Step : ℕ × ℕ → ℕ × ℕ → Prop
  | down (i j : ℕ) : Step (i, j) (i + 1, j)
  | right (i j : ℕ) : Step (i, j) (i, j + 1)
  | diag (i j : ℕ) : Step (i, j) (i + 1, j + 1)

/-- `l` lists the cells of a warping path from `s` to `q`. -/
inductive Path (s : ℕ × ℕ) : ℕ × ℕ → List (ℕ × ℕ) → Prop
  | start : Path s s [s]
  | snoc {p q : ℕ × ℕ} {l : List (ℕ × ℕ)} : Path s p l → Step p q → Path s q (l ++ [q])

/-! ## Steps -/

theorem step_zero_zero {p : ℕ × ℕ} : ¬Step p (0, 0) := nofun

theorem step_zero_succ {p : ℕ × ℕ} {j : ℕ} : Step p (0, j + 1) ↔ p = (0, j) :=
  ⟨fun h => by cases h; rfl, fun h => h ▸ .right 0 j⟩

theorem step_succ_zero {p : ℕ × ℕ} {i : ℕ} : Step p (i + 1, 0) ↔ p = (i, 0) :=
  ⟨fun h => by cases h; rfl, fun h => h ▸ .down i 0⟩

theorem step_succ_succ {p : ℕ × ℕ} {i j : ℕ} :
    Step p (i + 1, j + 1) ↔ p = (i, j) ∨ p = (i, j + 1) ∨ p = (i + 1, j) := by
  refine ⟨fun h => ?_, ?_⟩
  · cases h with
    | down => exact .inr (.inl rfl)
    | right => exact .inr (.inr rfl)
    | diag => exact .inl rfl
  · intro hr
    rcases hr with rfl | rfl | rfl
    · exact .diag i j
    · exact .down i (j + 1)
    · exact .right (i + 1) j

theorem Step.le {p q : ℕ × ℕ} (h : Step p q) : p.1 ≤ q.1 ∧ p.2 ≤ q.2 ∧ p.1 + p.2 < q.1 + q.2 := by
  cases h <;> simp only <;> omega

/-! ## Paths -/

theorem Path.ne_nil {s q : ℕ × ℕ} {l : List (ℕ × ℕ)} (h : Path s q l) : l ≠ [] := by
  cases h <;> simp

theorem Path.le {s q : ℕ × ℕ} {l : List (ℕ × ℕ)} (h : Path s q l) : s.1 ≤ q.1 ∧ s.2 ≤ q.2 := by
  induction h with
  | start => exact ⟨Nat.le_refl _, Nat.le_refl _⟩
  | snoc _ hs ih => exact ⟨ih.1.trans hs.le.1, ih.2.trans hs.le.2.1⟩

/-- Every cell of a path lies between its ends. -/
theorem Path.mem_le {s q p : ℕ × ℕ} {l : List (ℕ × ℕ)} (h : Path s q l) (hp : p ∈ l) :
    p.1 ≤ q.1 ∧ p.2 ≤ q.2 := by
  induction h with
  | start =>
    obtain rfl := List.mem_singleton.1 hp
    exact ⟨Nat.le_refl _, Nat.le_refl _⟩
  | @snoc p' q l hl hs ih =>
    rcases List.mem_append.1 hp with hp | hp
    · exact ⟨(ih hp).1.trans hs.le.1, (ih hp).2.trans hs.le.2.1⟩
    · obtain rfl := List.mem_singleton.1 hp
      exact ⟨Nat.le_refl _, Nat.le_refl _⟩

/-- A path can be extended at its start. -/
theorem Path.cons {s t q : ℕ × ℕ} {l : List (ℕ × ℕ)} (h : Path t q l) (hs : Step s t) :
    Path s q (s :: l) := by
  induction h with
  | start => exact .snoc .start hs
  | snoc _ hq ih => exact .snoc ih hq

/-- A path is one cell, or a first step and a path. -/
theorem Path.uncons {s q : ℕ × ℕ} {l : List (ℕ × ℕ)} (h : Path s q l) :
    (s = q ∧ l = [s]) ∨ ∃ t l', Step s t ∧ Path t q l' ∧ l = s :: l' := by
  induction h with
  | start => exact .inl ⟨rfl, rfl⟩
  | @snoc p q l _ hq ih =>
    right
    rcases ih with ⟨rfl, rfl⟩ | ⟨t, l', hst, ht, rfl⟩
    · exact ⟨q, [q], hq, .start, rfl⟩
    · exact ⟨t, l' ++ [q], hst, .snoc ht hq, rfl⟩

/-! ## Length -/

theorem Path.length_le {s q : ℕ × ℕ} {l : List (ℕ × ℕ)} (h : Path s q l) :
    l.length + s.1 + s.2 ≤ q.1 + q.2 + 1 := by
  induction h with
  | start => simp only [List.length_singleton]; omega
  | snoc _ hs ih =>
    have := hs.le
    simp only [List.length_append, List.length_singleton]
    omega

theorem Path.le_length {s q : ℕ × ℕ} {l : List (ℕ × ℕ)} (h : Path s q l) :
    q.1 + 1 ≤ l.length + s.1 ∧ q.2 + 1 ≤ l.length + s.2 := by
  induction h with
  | start => simp only [List.length_singleton]; omega
  | snoc _ hs ih =>
    simp only [List.length_append, List.length_singleton]
    cases hs <;> simp only at ih ⊢ <;> omega

/-! ## Transposition -/

theorem Step.swap {p q : ℕ × ℕ} (h : Step p q) : Step p.swap q.swap := by
  cases h with
  | down i j => exact .right j i
  | right i j => exact .down j i
  | diag i j => exact .diag j i

theorem Path.swap {s q : ℕ × ℕ} {l : List (ℕ × ℕ)} (h : Path s q l) :
    Path s.swap q.swap (l.map Prod.swap) := by
  induction h with
  | start => exact .start
  | snoc _ hs ih =>
    rw [List.map_append]
    exact .snoc ih hs.swap

/-! ## Costs -/

section
variable {K : Type} [AddCommMonoid K]

/-- The costs of the paths from a cell of `S` to `q`. -/
def costs (c : ℕ × ℕ → K) (S : Set (ℕ × ℕ)) (q : ℕ × ℕ) : Set K :=
  {x | ∃ s ∈ S, ∃ l, Path s q l ∧ (l.map c).sum = x}

theorem mem_costs {c : ℕ × ℕ → K} {S : Set (ℕ × ℕ)} {q : ℕ × ℕ} {y : K} :
    y ∈ costs c S q ↔
      (q ∈ S ∧ y = c q) ∨ ∃ p, Step p q ∧ ∃ x ∈ costs c S p, y = x + c q := by
  constructor
  · intro h
    obtain ⟨s, hs, l, hl, rfl⟩ := h
    cases hl with
    | start => exact .inl ⟨hs, by simp⟩
    | @snoc p _ l hl hq => exact .inr ⟨p, hq, _, ⟨s, hs, l, hl, rfl⟩, by simp⟩
  · intro h
    rcases h with ⟨hq, rfl⟩ | ⟨p, hq, x, ⟨s, hs, l, hl, rfl⟩, rfl⟩
    · exact ⟨q, hq, [q], .start, by simp⟩
    · exact ⟨s, hs, l ++ [q], .snoc hl hq, by simp⟩

/-- The costs of the paths from `s`, by their first step. -/
theorem mem_costs_cons {c : ℕ × ℕ → K} {s q : ℕ × ℕ} {y : K} :
    y ∈ costs c {s} q ↔
      (s = q ∧ y = c s) ∨ ∃ t, Step s t ∧ ∃ x ∈ costs c {t} q, y = c s + x := by
  constructor
  · intro h
    obtain ⟨_, rfl, l, hl, rfl⟩ := h
    rcases hl.uncons with ⟨rfl, rfl⟩ | ⟨t, l', hst, ht, rfl⟩
    · exact .inl ⟨rfl, by simp⟩
    · exact .inr ⟨t, hst, _, ⟨t, rfl, l', ht, rfl⟩, by simp⟩
  · intro h
    rcases h with ⟨rfl, rfl⟩ | ⟨t, hst, x, ⟨_, rfl, l, hl, rfl⟩, rfl⟩
    · exact ⟨s, rfl, [s], .start, by simp⟩
    · exact ⟨s, rfl, _ :: l, hl.cons hst, by simp⟩

theorem mem_costs_union {c : ℕ × ℕ → K} {S T : Set (ℕ × ℕ)} {q : ℕ × ℕ} {x : K} :
    x ∈ costs c (S ∪ T) q ↔ x ∈ costs c S q ∨ x ∈ costs c T q := by
  constructor
  · intro h
    obtain ⟨s, hs | hs, hl⟩ := h
    · exact .inl ⟨s, hs, hl⟩
    · exact .inr ⟨s, hs, hl⟩
  · intro h
    rcases h with ⟨s, hs, hl⟩ | ⟨s, hs, hl⟩
    · exact ⟨s, .inl hs, hl⟩
    · exact ⟨s, .inr hs, hl⟩

/-- The transposed table has the transposed paths. -/
theorem mem_costs_swap {c c' : ℕ × ℕ → K} (h : ∀ p, c' p.swap = c p) {s q : ℕ × ℕ} {x : K} :
    x ∈ costs c' {s.swap} q.swap ↔ x ∈ costs c {s} q := by
  constructor
  · intro hx
    obtain ⟨_, rfl, l, hl, rfl⟩ := hx
    refine ⟨s, rfl, l.map Prod.swap, ?_, ?_⟩
    · simpa using hl.swap
    · rw [List.map_map]
      exact congrArg List.sum (List.map_congr_left fun p _ => (h p.swap).symm)
  · intro hx
    obtain ⟨_, rfl, l, hl, rfl⟩ := hx
    refine ⟨_, rfl, l.map Prod.swap, hl.swap, ?_⟩
    rw [List.map_map]
    exact congrArg List.sum (List.map_congr_left fun p _ => h p)

/-- A cell before a start has no path. -/
theorem costs_eq_empty {c : ℕ × ℕ → K} {S : Set (ℕ × ℕ)} {q : ℕ × ℕ}
    (h : ∀ s ∈ S, q.1 < s.1 ∨ q.2 < s.2) : costs c S q = ∅ := by
  rw [Set.eq_empty_iff_forall_notMem]
  intro x hr
  obtain ⟨s, hs, l, hl, -⟩ := hr
  have := hl.le
  rcases h s hs with h | h <;> omega

end

/-! ## Least costs -/

section
variable {K : Type} [AddCommMonoid K] [LinearOrder K]

/-- `v` is the least cost of the paths from `S` to `q`: `⊤` if there is no path. -/
structure Opt (c : ℕ × ℕ → K) (S : Set (ℕ × ℕ)) (q : ℕ × ℕ) (v : WithTop K) : Prop where
  le : ∀ x ∈ costs c S q, v ≤ x
  mem : v = ⊤ ∨ ∃ x ∈ costs c S q, v = x

theorem opt_coe {c : ℕ × ℕ → K} {S : Set (ℕ × ℕ)} {q : ℕ × ℕ} {v : K} :
    Opt c S q v ↔ IsLeast (costs c S q) v := by
  constructor
  · intro hr
    obtain ⟨hle, hmem⟩ := hr
    refine ⟨?_, fun x hx => WithTop.coe_le_coe.1 (hle x hx)⟩
    rcases hmem with h | ⟨x, hx, h⟩
    · exact absurd h (WithTop.coe_ne_top)
    · rwa [WithTop.coe_inj.1 h]
  · intro hr
    obtain ⟨hmem, hle⟩ := hr
    exact ⟨fun x hx => WithTop.coe_le_coe.2 (hle hx), .inr ⟨v, hmem, rfl⟩⟩

theorem Opt.unique {c : ℕ × ℕ → K} {S : Set (ℕ × ℕ)} {q : ℕ × ℕ} {v w : WithTop K}
    (hv : Opt c S q v) (hw : Opt c S q w) : v = w := by
  have key : ∀ {a b : WithTop K}, Opt c S q a → Opt c S q b → a ≤ b := by
    intro a b ha hb
    rcases hb.mem with rfl | ⟨x, hx, rfl⟩
    · exact le_top
    · exact ha.le x hx
  exact le_antisymm (key hv hw) (key hw hv)

theorem isLeast_zero_zero {c : ℕ × ℕ → K} : IsLeast (costs c {(0, 0)} (0, 0)) (c (0, 0)) := by
  refine ⟨mem_costs.2 (.inl ⟨rfl, rfl⟩), fun y hy => ?_⟩
  rcases mem_costs.1 hy with ⟨-, rfl⟩ | ⟨p, hp, -⟩
  · exact le_refl _
  · exact absurd hp step_zero_zero

theorem isLeast_swap {c c' : ℕ × ℕ → K} (h : ∀ p, c' p.swap = c p) {s q : ℕ × ℕ} {v : K}
    (hv : IsLeast (costs c {s} q) v) : IsLeast (costs c' {s.swap} q.swap) v := by
  rwa [show costs c' {s.swap} q.swap = costs c {s} q from Set.ext fun _ => mem_costs_swap h]

variable [IsOrderedAddMonoid K]

/-- The recurrence: `w` is the least of the least costs of the predecessors of `q`, and of `0` if a
path may start at `q`. -/
theorem Opt.of_preds {c : ℕ × ℕ → K} {S : Set (ℕ × ℕ)} {q : ℕ × ℕ} {v : ℕ × ℕ → WithTop K}
    {w : WithTop K} (hv : ∀ p, Step p q → Opt c S p (v p)) (hle : ∀ p, Step p q → w ≤ v p)
    (hS : q ∈ S → w ≤ 0)
    (hw : w = ⊤ ∨ (q ∈ S ∧ w = 0) ∨ ∃ p, Step p q ∧ w = v p) :
    Opt c S q (w + c q) := by
  constructor
  · intro y hy
    rcases mem_costs.1 hy with ⟨hq, rfl⟩ | ⟨p, hp, x, hx, rfl⟩
    · calc w + (c q : WithTop K) ≤ 0 + c q := add_le_add_left (hS hq) _
        _ = c q := zero_add _
    · rw [WithTop.coe_add]
      exact add_le_add_left ((hle p hp).trans ((hv p hp).le x hx)) _
  · rcases hw with rfl | ⟨hq, rfl⟩ | ⟨p, hp, rfl⟩
    · exact .inl (WithTop.top_add _)
    · exact .inr ⟨c q, mem_costs.2 (.inl ⟨hq, rfl⟩), zero_add _⟩
    · rcases (hv p hp).mem with h | ⟨x, hx, h⟩
      · exact .inl (by rw [h, WithTop.top_add])
      · exact .inr ⟨x + c q, mem_costs.2 (.inr ⟨p, hp, x, hx, rfl⟩), by rw [h, WithTop.coe_add]⟩

/-- The recurrence on three candidates: the predecessors of `q`, `0` if a path may start at `q`,
and `⊤`. -/
theorem Opt.of_three {c : ℕ × ℕ → K} {S : Set (ℕ × ℕ)} {q : ℕ × ℕ} {v : ℕ × ℕ → WithTop K}
    {x y z : WithTop K} (hv : ∀ p, Step p q → Opt c S p (v p))
    (hp : ∀ p, Step p q → v p ∈ [x, y, z]) (hS : q ∈ S → 0 ∈ [x, y, z])
    (hw : ∀ e ∈ [x, y, z], e = ⊤ ∨ (q ∈ S ∧ e = 0) ∨ ∃ p, Step p q ∧ e = v p) :
    Opt c S q (min (min x y) z + c q) := by
  have hle : ∀ e ∈ [x, y, z], min (min x y) z ≤ e := by simp
  refine Opt.of_preds hv (fun p hpq => hle _ (hp p hpq)) (fun hq => hle _ (hS hq)) (hw _ ?_)
  rcases min_choice (min x y) z with h | h
  · rw [h]
    rcases min_choice x y with h' | h' <;> rw [h'] <;> simp
  · rw [h]
    simp

/-! ## Perturbation -/

/-- If every cell costs at most `ε` more, the least cost is at most `ε` more for each cell of a
longest path. -/
theorem isLeast_perturb {c c' : ℕ × ℕ → K} {q : ℕ × ℕ} {v w ε : K} (hε : 0 ≤ ε)
    (h : ∀ p, c' p ≤ c p + ε) (hv : IsLeast (costs c {(0, 0)} q) v)
    (hw : IsLeast (costs c' {(0, 0)} q) w) : w ≤ v + (q.1 + q.2 + 1) • ε := by
  obtain ⟨s, rfl, l, hl, rfl⟩ := hv.1
  have hlen : l.length ≤ q.1 + q.2 + 1 := by
    have := hl.length_le
    simpa using this
  calc w ≤ (l.map c').sum := hw.2 ⟨_, rfl, l, hl, rfl⟩
    _ ≤ (l.map fun p => c p + ε).sum := List.sum_le_sum fun p _ => h p
    _ = (l.map c).sum + l.length • ε := by
      rw [List.sum_map_add, List.map_const', List.sum_replicate]
    _ ≤ (l.map c).sum + (q.1 + q.2 + 1) • ε := add_le_add_right (nsmul_le_nsmul_left hε hlen) _

/-- Bounds of the cells bound the least cost, by the lengths of the paths. -/
theorem isLeast_bounds {c : ℕ × ℕ → K} {q : ℕ × ℕ} {v lo hi : K} (hlo : 0 ≤ lo) (hhi : 0 ≤ hi)
    (h : ∀ p, p.1 ≤ q.1 → p.2 ≤ q.2 → lo ≤ c p ∧ c p ≤ hi)
    (hv : IsLeast (costs c {(0, 0)} q) v) :
    (max q.1 q.2 + 1) • lo ≤ v ∧ v ≤ (q.1 + q.2 + 1) • hi := by
  obtain ⟨s, rfl, l, hl, rfl⟩ := hv.1
  have hcells : ∀ x ∈ l.map c, lo ≤ x ∧ x ≤ hi := by
    intro x hx
    obtain ⟨p, hp, rfl⟩ := List.mem_map.1 hx
    exact h p (hl.mem_le hp).1 (hl.mem_le hp).2
  have hle : l.length ≤ q.1 + q.2 + 1 := by
    simpa using hl.length_le
  have hge : max q.1 q.2 + 1 ≤ l.length := by
    have := hl.le_length
    simp only at this
    omega
  constructor
  · calc (max q.1 q.2 + 1) • lo ≤ l.length • lo := nsmul_le_nsmul_left hlo hge
      _ = (l.map c).length • lo := by rw [List.length_map]
      _ ≤ (l.map c).sum := List.card_nsmul_le_sum _ _ fun x hx => (hcells x hx).1
  · calc (l.map c).sum ≤ (l.map c).length • hi :=
        List.sum_le_card_nsmul _ _ fun x hx => (hcells x hx).2
      _ = l.length • hi := by rw [List.length_map]
      _ ≤ (q.1 + q.2 + 1) • hi := nsmul_le_nsmul_left hhi hle

/-! ## The table of the paths from the corner -/

section
variable {c : ℕ × ℕ → K}

theorem isLeast_zero_succ {j : ℕ} {v : K} (h : IsLeast (costs c {(0, 0)} (0, j)) v) :
    IsLeast (costs c {(0, 0)} (0, j + 1)) (v + c (0, j + 1)) := by
  rw [← opt_coe] at h ⊢
  rw [WithTop.coe_add]
  refine Opt.of_preds (v := fun _ => v) (fun p hp => ?_) (fun _ _ => le_refl _) (by simp)
    (.inr (.inr ⟨(0, j), .right 0 j, rfl⟩))
  rwa [step_zero_succ.1 hp]

theorem isLeast_succ_zero {i : ℕ} {v : K} (h : IsLeast (costs c {(0, 0)} (i, 0)) v) :
    IsLeast (costs c {(0, 0)} (i + 1, 0)) (v + c (i + 1, 0)) := by
  rw [← opt_coe] at h ⊢
  rw [WithTop.coe_add]
  refine Opt.of_preds (v := fun _ => v) (fun p hp => ?_) (fun _ _ => le_refl _) (by simp)
    (.inr (.inr ⟨(i, 0), .down i 0, rfl⟩))
  rwa [step_succ_zero.1 hp]

theorem isLeast_succ_succ {i j : ℕ} {v : ℕ × ℕ → K}
    (h : ∀ p, Step p (i + 1, j + 1) → IsLeast (costs c {(0, 0)} p) (v p)) :
    IsLeast (costs c {(0, 0)} (i + 1, j + 1))
      (min (v (i, j)) (min (v (i, j + 1)) (v (i + 1, j))) + c (i + 1, j + 1)) := by
  rw [← opt_coe, WithTop.coe_add]
  refine Opt.of_preds (v := fun p => v p) (fun p hp => opt_coe.2 (h p hp)) (fun p hp => ?_)
    (by simp) (.inr (.inr ?_))
  · rw [WithTop.coe_le_coe]
    rcases step_succ_succ.1 hp with rfl | rfl | rfl <;> simp
  · rcases min_choice (v (i, j)) (min (v (i, j + 1)) (v (i + 1, j))) with hm | hm
    · exact ⟨_, .diag i j, by rw [hm]⟩
    · rcases min_choice (v (i, j + 1)) (v (i + 1, j)) with hm' | hm'
      · exact ⟨_, .down i (j + 1), by rw [hm, hm']⟩
      · exact ⟨_, .right (i + 1) j, by rw [hm, hm']⟩

end

end

/-- There is a least cost. -/
theorem exists_isLeast {K : Type} [AddCommMonoid K] [LinearOrder K] [IsOrderedAddMonoid K]
    (c : ℕ × ℕ → K) (i j : ℕ) : ∃ v, IsLeast (costs c {(0, 0)} (i, j)) v := by
  induction i generalizing j with
  | zero =>
    induction j with
    | zero => exact ⟨_, isLeast_zero_zero⟩
    | succ j ih =>
      obtain ⟨v, hv⟩ := ih
      exact ⟨_, isLeast_zero_succ hv⟩
  | succ i ihi =>
    induction j with
    | zero =>
      obtain ⟨v, hv⟩ := ihi 0
      exact ⟨_, isLeast_succ_zero hv⟩
    | succ j ihj =>
      obtain ⟨a, ha⟩ := ihi j
      obtain ⟨b, hb⟩ := ihi (j + 1)
      obtain ⟨e, he⟩ := ihj
      refine ⟨_, isLeast_succ_succ (v := fun p => if p = (i, j) then a
        else if p = (i, j + 1) then b else e) fun p hp => ?_⟩
      rcases step_succ_succ.1 hp with rfl | rfl | rfl
      · simpa using ha
      · simpa using hb
      · simpa using he

/-! ## Reversal -/

/-- A path, read from its end in the table of corner `(a, b)`. -/
theorem Path.reverse {a b : ℕ} {s q : ℕ × ℕ} {l : List (ℕ × ℕ)} (h : Path s q l) (h1 : q.1 ≤ a)
    (h2 : q.2 ≤ b) : Path (a - q.1, b - q.2) (a - s.1, b - s.2)
      (l.map fun p => (a - p.1, b - p.2)).reverse := by
  induction h with
  | start => exact .start
  | @snoc p q l _ hs ih =>
    have hle := hs.le
    rw [List.map_append, List.reverse_append]
    refine (ih (by omega) (by omega)).cons ?_
    cases hs with
    | down i j =>
      rw [show a - i = a - (i + 1) + 1 by omega]
      exact .down _ _
    | right i j =>
      rw [show b - j = b - (j + 1) + 1 by omega]
      exact .right _ _
    | diag i j =>
      rw [show a - i = a - (i + 1) + 1 by omega, show b - j = b - (j + 1) + 1 by omega]
      exact .diag _ _

section
variable {K : Type} [AddCommMonoid K]

theorem mem_costs_reverse {c c' : ℕ × ℕ → K} {a b : ℕ}
    (h : ∀ p : ℕ × ℕ, p.1 ≤ a → p.2 ≤ b → c' (a - p.1, b - p.2) = c p) {x : K}
    (hx : x ∈ costs c {(0, 0)} (a, b)) : x ∈ costs c' {(0, 0)} (a, b) := by
  obtain ⟨_, rfl, l, hl, rfl⟩ := hx
  have hrev := hl.reverse (Nat.le_refl a) (Nat.le_refl b)
  rw [Nat.sub_self, Nat.sub_self] at hrev
  refine ⟨(0, 0), rfl, _, hrev, ?_⟩
  rw [List.map_reverse, List.sum_reverse, List.map_map]
  refine congrArg List.sum (List.map_congr_left fun p hp => ?_)
  exact h p (hl.mem_le hp).1 (hl.mem_le hp).2

/-- The table read from its last cell has the same paths, the other way. -/
theorem costs_reverse {c c' : ℕ × ℕ → K} {a b : ℕ}
    (h : ∀ p : ℕ × ℕ, p.1 ≤ a → p.2 ≤ b → c' (a - p.1, b - p.2) = c p) :
    costs c' {(0, 0)} (a, b) = costs c {(0, 0)} (a, b) := by
  refine Set.Subset.antisymm (fun x hx => mem_costs_reverse (fun p h1 h2 => ?_) hx)
    fun x => mem_costs_reverse h
  rw [← h (a - p.1, b - p.2) (Nat.sub_le _ _) (Nat.sub_le _ _), Nat.sub_sub_self h1,
    Nat.sub_sub_self h2]

end

/-! ## Concatenation -/

theorem Path.append {s q t r : ℕ × ℕ} {l l' : List (ℕ × ℕ)} (h : Path s q l) (hs : Step q t)
    (h' : Path t r l') : Path s r (l ++ l') := by
  induction h' with
  | start => exact .snoc h hs
  | snoc _ hr ih =>
    rw [← List.append_assoc]
    exact .snoc ih hr

/-- A path, moved by `(a, b)`. -/
theorem Path.translate (a b : ℕ) {s q : ℕ × ℕ} {l : List (ℕ × ℕ)} (h : Path s q l) :
    Path (a + s.1, b + s.2) (a + q.1, b + q.2) (l.map fun p => (a + p.1, b + p.2)) := by
  induction h with
  | start => exact .start
  | snoc _ hs ih =>
    rw [List.map_append]
    refine .snoc ih ?_
    cases hs with
    | down i j => exact .down _ _
    | right i j => exact .right _ _
    | diag i j => exact .diag _ _

/-- A path through the first of two tables on the diagonal, then one through the second. -/
theorem isLeast_append {K : Type} [AddCommMonoid K] [LinearOrder K] {c c1 c2 : ℕ × ℕ → K}
    {n m n' m' : ℕ} {v v1 v2 : K} (hn : 0 < n) (hm : 0 < m) (hn' : 0 < n') (hm' : 0 < m')
    (h1 : ∀ p : ℕ × ℕ, p.1 < n → p.2 < m → c p = c1 p)
    (h2 : ∀ p : ℕ × ℕ, p.1 < n' → p.2 < m' → c (n + p.1, m + p.2) = c2 p)
    (hv : IsLeast (costs c {(0, 0)} (n + n' - 1, m + m' - 1)) v)
    (hv1 : IsLeast (costs c1 {(0, 0)} (n - 1, m - 1)) v1)
    (hv2 : IsLeast (costs c2 {(0, 0)} (n' - 1, m' - 1)) v2) : v ≤ v1 + v2 := by
  obtain ⟨_, rfl, l1, hl1, rfl⟩ := hv1.1
  obtain ⟨_, rfl, l2, hl2, rfl⟩ := hv2.1
  have hjoin : Step (n - 1, m - 1) (n + 0, m + 0) := by
    obtain ⟨i, rfl⟩ := Nat.exists_eq_add_of_le' hn
    obtain ⟨j, rfl⟩ := Nat.exists_eq_add_of_le' hm
    exact .diag i j
  have hl := hl1.append hjoin (hl2.translate n m)
  rw [← Nat.add_sub_assoc hn', ← Nat.add_sub_assoc hm'] at hl
  refine hv.2 ⟨(0, 0), rfl, _, hl, ?_⟩
  rw [List.map_append, List.sum_append, List.map_map]
  congr 2
  · refine List.map_congr_left fun p hp => h1 p ?_ ?_
    · exact (Nat.le_sub_one_iff_lt hn).1 (hl1.mem_le hp).1
    · exact (Nat.le_sub_one_iff_lt hm).1 (hl1.mem_le hp).2
  · refine List.map_congr_left fun p hp => h2 p ?_ ?_
    · exact (Nat.le_sub_one_iff_lt hn').1 (hl2.mem_le hp).1
    · exact (Nat.le_sub_one_iff_lt hm').1 (hl2.mem_le hp).2

end Warp
