import TlVoix.Matlab.DistGlobale
import TlVoix.Cpp.Proof.Dtw

/-!
# `dist_globale` lets a path skip the first cell

`dist_globale` seeds the cells `(1,2)` and `(2,1)` of its padded table with zeros, so a path may
also start at the second frame of one recording (`seeds`).

* `ends_cumul`: its result is the least cost of the warping paths that start at one of the seeds.
* `ends_table`: the distances that are not numbers lose every comparison, so its result is the least
  cost of the paths that avoid them (`map_table` carries the first result over).
* `distGlobale_agrees_iff`: it agrees with the table of the C++ `dtw`, and with the least cost of
  the paths from the first cell, exactly if the first cell is free or skipping it never pays.
-/

namespace TlVoix.Matlab

open Checked Warp

/-- The cells (counted from 0) at which `dist_globale` lets a path start. -/
def seeds : Set (ℕ × ℕ) := {(0, 0), (0, 1), (1, 0)}

/-- The local distances, at cells counted from 0. -/
def cost {K : Type} (dist : ℕ → ℕ → K) (p : ℕ × ℕ) : K := dist (p.1 + 1) (p.2 + 1)

section
variable {K : Type} [AddCommMonoid K] [LinearOrder K]

/-- The padding is as initialised, and the cells before `(i, j)` hold the least costs. -/
structure Cumul (nRef n : ℕ) (c : ℕ × ℕ → K) (i j : ℕ) (d : Arr (ℕ × ℕ) (WithTop K)) : Prop where
  dom : ∀ p, d.dom p = true ↔ 1 ≤ p.1 ∧ p.1 ≤ nRef + 1 ∧ 1 ≤ p.2 ∧ p.2 ≤ n + 1
  row : ∀ s ≤ n, d.Holds (1, s + 1) (if s ≤ 1 then 0 else ⊤)
  column : ∀ r ≤ nRef, d.Holds (r + 1, 1) (if r ≤ 1 then 0 else ⊤)
  holds : ∀ p, p.1 < nRef → p.2 < n → Before i j p →
    ∃ w, d.Holds (p.1 + 2, p.2 + 2) w ∧ Opt c seeds p w

theorem cumul_init (nRef n : ℕ) (c : ℕ × ℕ → K) :
    Cumul nRef n c 0 0 (distGlobale.init ⊤ nRef n) where
  dom p := by simp [distGlobale.init]
  row s hs := by
    refine ⟨?_, ?_⟩
    · simp only [distGlobale.init, decide_eq_true_eq]
      omega
    · simp [distGlobale.init]
  column r hr := by
    refine ⟨?_, ?_⟩
    · simp only [distGlobale.init, decide_eq_true_eq]
      omega
    · simp [distGlobale.init]
  holds p _ _ hp := by
    rcases hp with hp | ⟨-, hp⟩ <;> exact absurd hp (Nat.not_lt_zero _)

theorem Cumul.set {nRef n : ℕ} {c : ℕ × ℕ → K} {i j : ℕ} {d : Arr (ℕ × ℕ) (WithTop K)}
    (h : Cumul nRef n c i j d) (hi : i < nRef) (hj : j < n) {w : WithTop K}
    (hw : Opt c seeds (i, j) w) :
    Ends (d.set (i + 2, j + 2) w) (Cumul nRef n c i (j + 1)) := by
  refine (Arr.ends_set ((h.dom _).2 (by simp only; omega)) w).mono fun d' hd' =>
    ⟨fun p => by rw [Arr.dom_set hd', h.dom], fun s hs => ?_, fun r hr => ?_,
      fun p h1 h2 hp => ?_⟩
  · exact Arr.holds_set_ne hd' (by simp) (h.row s hs)
  · exact Arr.holds_set_ne hd' (by simp) (h.column r hr)
  · by_cases hpij : p = (i, j)
    · exact ⟨w, hpij ▸ Arr.holds_set_self hd', hpij ▸ hw⟩
    · obtain ⟨w', hw', ho⟩ := h.holds p h1 h2 (hp.of_ne hpij)
      refine ⟨w', Arr.holds_set_ne hd' (fun he => hpij ?_) hw', ho⟩
      simp only [Prod.mk.injEq, Nat.add_right_cancel_iff] at he
      exact Prod.ext he.1 he.2

theorem Cumul.nextRow {nRef n : ℕ} {c : ℕ × ℕ → K} {i : ℕ} {d : Arr (ℕ × ℕ) (WithTop K)}
    (h : Cumul nRef n c i n d) : Cumul nRef n c (i + 1) 0 d :=
  { h with holds := fun p h1 h2 hp => h.holds p h1 h2 (hp.of_nextRow h2) }

variable [IsOrderedAddMonoid K]

/-- The three cells that `dist_globale` compares hold the candidates of the recurrence. -/
theorem Cumul.cell {nRef n : ℕ} {c : ℕ × ℕ → K} {i j : ℕ} {d : Arr (ℕ × ℕ) (WithTop K)}
    (h : Cumul nRef n c i j d) (hi : i < nRef) (hj : j < n) :
    ∃ x y z, d.Holds (i + 1, j + 1) x ∧ d.Holds (i + 2, j + 1) y ∧ d.Holds (i + 1, j + 2) z ∧
      Opt c seeds (i, j) (min (min x y) z + c (i, j)) := by
  cases i with
  | zero =>
    cases j with
    | zero =>
      -- the corner: three seeds
      refine ⟨_, _, _, h.row 0 (Nat.zero_le _), h.column 1 hi, h.row 1 hj,
        Opt.of_three (v := fun _ => ⊤) (fun p hp => absurd hp step_zero_zero)
          (fun p hp => absurd hp step_zero_zero) (by simp) (by simp [seeds])⟩
    | succ j =>
      obtain ⟨w, hw, ho⟩ := h.holds (0, j) hi (by simp only; omega)
        (.inr ⟨rfl, Nat.lt_succ_self j⟩)
      refine ⟨_, _, _, h.row (j + 1) (by omega), hw, h.row (j + 2) (by omega),
        Opt.of_three (v := fun _ => w) (fun p hp => ?_) (by simp) (fun hS => ?_) ?_⟩
      · rwa [step_zero_succ.1 hp]
      · obtain rfl : j = 0 := by simpa [seeds] using hS
        simp
      · have hp : ∃ p, Step p (0, j + 1) := ⟨_, .right 0 j⟩
        cases j <;> simp [seeds, hp]
  | succ i =>
    cases j with
    | zero =>
      obtain ⟨w, hw, ho⟩ := h.holds (i, 0) (by simp only; omega) hj (.inl (Nat.lt_succ_self i))
      refine ⟨_, _, _, h.column (i + 1) (by omega), h.column (i + 2) (by omega), hw,
        Opt.of_three (v := fun _ => w) (fun p hp => ?_) (by simp) (fun hS => ?_) ?_⟩
      · rwa [step_succ_zero.1 hp]
      · obtain rfl : i = 0 := by simpa [seeds] using hS
        simp
      · have hp : ∃ p, Step p (i + 1, 0) := ⟨_, .down i 0⟩
        cases i <;> simp [seeds, hp]
    | succ j =>
      obtain ⟨x, hx, hox⟩ := h.holds (i, j) (by simp only; omega) (by simp only; omega)
        (.inl (Nat.lt_succ_self i))
      obtain ⟨y, hy, hoy⟩ := h.holds (i + 1, j) hi (by simp only; omega)
        (.inr ⟨rfl, Nat.lt_succ_self j⟩)
      obtain ⟨z, hz, hoz⟩ := h.holds (i, j + 1) (by simp only; omega) hj
        (.inl (Nat.lt_succ_self i))
      refine ⟨x, y, z, hx, hy, hz, Opt.of_three
        (v := fun p => if p = (i, j) then x else if p = (i + 1, j) then y else z)
        (fun p hp => ?_) (fun p hp => ?_) (by simp [seeds]) ?_⟩
      · rcases step_succ_succ.1 hp with rfl | rfl | rfl
        · simpa using hox
        · simpa using hoz
        · simpa using hoy
      · rcases step_succ_succ.1 hp with rfl | rfl | rfl <;> simp
      · intro e he
        refine .inr (.inr ?_)
        simp only [List.mem_cons, List.not_mem_nil, or_false] at he
        rcases he with rfl | rfl | rfl
        · exact ⟨_, .diag i j, by simp⟩
        · exact ⟨_, .right (i + 1) j, by simp⟩
        · exact ⟨_, .down i (j + 1), by simp⟩

/-- **The result of `dist_globale`** is the least cost of the paths that start at a seed. -/
theorem ends_cumul (nRef n : ℕ) (dist : ℕ → ℕ → K) (h1 : 1 ≤ nRef) (h2 : 1 ≤ n) :
    Ends (distGlobale.cumul nRef n dist) (Opt (cost dist) seeds (nRef - 1, n - 1)) := by
  unfold distGlobale.cumul distGlobale.table
  refine (Ends.forUp (fun i d => Cumul nRef n (cost dist) (i - 1) 0 d) (by omega)
    (cumul_init nRef n (cost dist)) fun i d hi hi1 h => ?_).bind ?_
  · obtain ⟨i, rfl⟩ : ∃ i', i = i' + 1 := ⟨i - 1, by omega⟩
    rw [Nat.add_sub_cancel] at h
    refine (Ends.forUp (fun j d => Cumul nRef n (cost dist) i (j - 1) d) (by omega)
      (show Cumul nRef n (cost dist) i (1 - 1) d from h) fun j d hj hj1 h => ?_).bind
      fun r hr => Ends.ok ?_
    · obtain ⟨j, rfl⟩ : ∃ j', j = j' + 1 := ⟨j - 1, by omega⟩
      rw [Nat.add_sub_cancel] at h
      obtain ⟨x, y, z, hx, hy, hz, ho⟩ := h.cell (by omega) (by omega)
      unfold distGlobale.cell
      rw [Arr.get_ok hx, ok_bind, Arr.get_ok hy, ok_bind, Arr.get_ok hz, ok_bind]
      exact h.set (by omega) (by omega) ho
    · have hf := hr.2
      rw [Nat.add_sub_cancel] at hf
      exact hf.nextRow
  · intro s hs
    obtain ⟨i, d⟩ := s
    obtain ⟨-, hf⟩ := hs
    obtain ⟨w, hw, ho⟩ := hf.holds (nRef - 1, n - 1) (by simp only; omega) (by simp only; omega)
      (.inl (by simp only; omega))
    refine ⟨w, Arr.get_ok ?_, ho⟩
    have e1 : nRef - 1 + 2 = nRef + 1 := by omega
    have e2 : n - 1 + 2 = n + 1 := by omega
    rwa [e1, e2] at hw

end

/-! ## Distances that are not numbers -/

/-- **A change of distances** that keeps sums and their order changes the result alike. -/
theorem map_table {V W : Type} [AddZeroClass V] [LinearOrder V] [AddZeroClass W] [LinearOrder W]
    (φ : V →+ W) (hφ : Monotone φ) (realmax : V) (nRef n : ℕ) (dist : ℕ → ℕ → V) :
    φ <$> distGlobale.table realmax nRef n dist =
      distGlobale.table (φ realmax) nRef n fun i j => φ (dist i j) := by
  have hinit : (distGlobale.init realmax nRef n).map φ = distGlobale.init (φ realmax) nRef n := by
    unfold distGlobale.init Arr.map
    congr 1
    funext p
    rw [Option.map_some, apply_ite φ, map_zero]
  have hcell : ∀ i j a, Arr.map φ <$> distGlobale.cell a dist i j =
      distGlobale.cell (a.map φ) (fun i j => φ (dist i j)) i j := by
    intro i j a
    refine map_bind_eq (Arr.map_get φ a _) fun x => map_bind_eq (Arr.map_get φ a _) fun y =>
      map_bind_eq (Arr.map_get φ a _) fun z => ?_
    rw [Arr.map_set, map_add, hφ.map_min, hφ.map_min]
  unfold distGlobale.table
  rw [← hinit]
  refine map_bind_eq (map_forStep (Arr.map φ) (fun i a => ?_) _ _ _ _) fun r => Arr.map_get φ _ _
  exact map_bind_eq (map_forStep (Arr.map φ) (fun j a => hcell i j a) _ _ _ a) fun _ => rfl

section
variable {K : Type} [AddCommMonoid K] [LinearOrder K]

/-- A distance as a number, or `⊤`. -/
def nombre : WithTop (WithTop K) →+ WithTop K where
  toFun := WithTop.untopD ⊤
  map_zero' := rfl
  map_add' a b := by
    cases a with
    | top => rw [WithTop.top_add, WithTop.untopD_top, WithTop.top_add]
    | coe a =>
      cases b with
      | top => rw [WithTop.add_top, WithTop.untopD_top, WithTop.add_top]
      | coe b => rfl

theorem monotone_nombre : Monotone (nombre (K := K)) := by
  intro a b h
  cases b with
  | top => exact le_top
  | coe b =>
    cases a with
    | top => exact absurd h (not_le.2 (WithTop.coe_lt_top b))
    | coe a => exact WithTop.coe_le_coe.1 h

theorem nombre_lt_nombre {a b : WithTop (WithTop K)} (ha : nombre a ≠ ⊤) (h : a < b) :
    nombre a < nombre b := by
  cases a with
  | top => exact absurd rfl ha
  | coe a =>
    cases b with
    | top => exact lt_top_iff_ne_top.2 ha
    | coe b => exact WithTop.coe_lt_coe.1 h

/-- `d` is the least cost of the paths from `S` to `q`, of which some cells may cost `⊤`; it is `⊤`
if there is no other path. -/
structure Moindre (c : ℕ × ℕ → WithTop K) (S : Set (ℕ × ℕ)) (q : ℕ × ℕ) (d : WithTop K) : Prop where
  le : ∀ x ∈ costs c S q, d ≤ x
  mem : d = ⊤ ∨ d ∈ costs c S q

theorem Moindre.of_opt {c : ℕ × ℕ → WithTop K} {S : Set (ℕ × ℕ)} {q : ℕ × ℕ}
    {w : WithTop (WithTop K)} (h : Opt c S q w) : Moindre c S q (nombre w) := by
  refine ⟨fun x hx => monotone_nombre (h.le x hx), ?_⟩
  rcases h.mem with rfl | ⟨x, hx, rfl⟩
  · exact .inl rfl
  · exact .inr hx

variable [IsOrderedAddMonoid K]

/-- **`dist_globale` avoids the cells that are not numbers**: its result is the least cost of the
paths, where these cells cost `⊤`. -/
theorem ends_table (nRef n : ℕ) (dist : ℕ → ℕ → Option K) (h1 : 1 ≤ nRef) (h2 : 1 ≤ n) :
    Ends (distGlobale.table ((⊤ : WithTop K) : WithTop (WithTop K)) nRef n fun i j =>
      distGlobale.valeur (dist i j)) fun u =>
        Moindre (cost fun i j => nombre (distGlobale.valeur (dist i j))) seeds (nRef - 1, n - 1)
          (nombre u) := by
  obtain ⟨w, hw, hopt⟩ := ends_cumul nRef n
    (fun i j => nombre (distGlobale.valeur (dist i j))) h1 h2
  have hnan := map_table nombre monotone_nombre ((⊤ : WithTop K) : WithTop (WithTop K)) nRef n
    fun i j => distGlobale.valeur (dist i j)
  have hsame := map_table nombre monotone_nombre (⊤ : WithTop (WithTop K)) nRef n fun i j =>
    ((nombre (distGlobale.valeur (dist i j)) : WithTop K) : WithTop (WithTop K))
  rw [distGlobale.cumul] at hw
  rw [hw] at hsame
  refine (ends_of_map_eq (hnan.trans hsame.symm)).mono fun u hu => ?_
  rw [hu]
  exact Moindre.of_opt hopt

end

/-! ## Agreement with the C++ -/

/-- On the local distances `dist`, `dist_globale` returns the least cost of the paths from the
first cell, which is also the cell that the C++ `dtw` divides by the lengths. -/
def Agrees (nRef n : ℕ) (dist : ℕ → ℕ → ℝ) : Prop :=
  ∃ v : ℝ, distGlobale.cumul nRef n dist = .ok ↑v ∧
    IsLeast (costs (cost dist) {(0, 0)} (nRef - 1, n - 1)) v ∧
    dtw.distances nRef n (fun i j => pure (cost dist (i, j))) = .ok v

/-- The table of the C++ `dtw` on the same local distances. -/
theorem ends_dtwDistances (nRef n : ℕ) (dist : ℕ → ℕ → ℝ) (h1 : 1 ≤ nRef) (h2 : 1 ≤ n) :
    Ends (dtw.distances nRef n fun i j => pure (cost dist (i, j)))
      (IsLeast (costs (cost dist) {(0, 0)} (nRef - 1, n - 1))) :=
  ends_distances (fun _ _ _ _ => rfl) h1 h2

/-- The paths that skip the first cell. -/
def skips : Set (ℕ × ℕ) := {(0, 1), (1, 0)}

theorem mem_costs_seeds {K : Type} [AddCommMonoid K] {c : ℕ × ℕ → K} {q : ℕ × ℕ} {x : K} :
    x ∈ costs c seeds q ↔ x ∈ costs c {(0, 0)} q ∨ x ∈ costs c skips q := by
  rw [← mem_costs_union]
  rfl

/-- A path from the corner has a cell only, or goes on from a skip or from the diagonal. -/
theorem mem_costs_corner {c : ℕ × ℕ → ℝ} {q : ℕ × ℕ} {y : ℝ} :
    y ∈ costs c {(0, 0)} q ↔ ((0, 0) = q ∧ y = c (0, 0)) ∨
      (∃ x ∈ costs c skips q, y = c (0, 0) + x) ∨ ∃ x ∈ costs c {(1, 1)} q, y = c (0, 0) + x := by
  rw [mem_costs_cons]
  refine or_congr_right ⟨?_, ?_⟩
  · intro h
    obtain ⟨t, ht, x, ⟨_, rfl, hl⟩, rfl⟩ := h
    cases ht with
    | down => exact .inl ⟨x, ⟨(1, 0), .inr rfl, hl⟩, rfl⟩
    | right => exact .inl ⟨x, ⟨(0, 1), .inl rfl, hl⟩, rfl⟩
    | diag => exact .inr ⟨x, ⟨(1, 1), rfl, hl⟩, rfl⟩
  · intro h
    rcases h with ⟨x, ⟨s, rfl | rfl, hl⟩, rfl⟩ | ⟨x, hx, rfl⟩
    · exact ⟨(0, 1), .right 0 0, x, ⟨_, rfl, hl⟩, rfl⟩
    · exact ⟨(1, 0), .down 0 0, x, ⟨_, rfl, hl⟩, rfl⟩
    · exact ⟨(1, 1), .diag 0 0, x, hx, rfl⟩

/-- `dist_globale` agrees exactly if the least cost from the corner is least from all seeds. -/
theorem agrees_iff_opt {nRef n : ℕ} {dist : ℕ → ℕ → ℝ} (h1 : 1 ≤ nRef) (h2 : 1 ≤ n) :
    Agrees nRef n dist ↔ ∃ v : ℝ, IsLeast (costs (cost dist) {(0, 0)} (nRef - 1, n - 1)) v ∧
      ∀ y ∈ costs (cost dist) skips (nRef - 1, n - 1), v ≤ y := by
  obtain ⟨w, hw, ho⟩ := ends_cumul nRef n dist h1 h2
  constructor
  · intro h
    obtain ⟨v, hv, hl, -⟩ := h
    obtain rfl := Except.ok.inj (hw.symm.trans hv)
    exact ⟨v, hl, fun y hy => (opt_coe.1 ho).2 (mem_costs_seeds.2 (.inr hy))⟩
  · intro h
    obtain ⟨v, hl, hle⟩ := h
    have hv : Opt (cost dist) seeds (nRef - 1, n - 1) v := by
      refine opt_coe.2 ⟨mem_costs_seeds.2 (.inl hl.1), fun y hy => ?_⟩
      rcases mem_costs_seeds.1 hy with hy | hy
      · exact hl.2 hy
      · exact hle y hy
    obtain ⟨v', hv', hl'⟩ := ends_dtwDistances nRef n dist h1 h2
    obtain rfl := hl.unique hl'
    exact ⟨v, by rw [hw, ho.unique hv], hl, hv'⟩

/-- **`dist_globale` agrees with `dtw`** exactly if the first local distance is zero, or every path
that skips the first cell costs at least as much as a path that leaves it by the diagonal. -/
theorem distGlobale_agrees_iff (nRef n : ℕ) (dist : ℕ → ℕ → ℝ) (h1 : 1 ≤ nRef) (h2 : 1 ≤ n)
    (hd : ∀ i j, 1 ≤ i → i ≤ nRef → 1 ≤ j → j ≤ n → 0 ≤ dist i j) :
    Agrees nRef n dist ↔ dist 1 1 = 0 ∨
      ∀ y ∈ costs (cost dist) {(0, 1), (1, 0)} (nRef - 1, n - 1),
        ∃ x ∈ costs (cost dist) {(1, 1)} (nRef - 1, n - 1), dist 1 1 + x ≤ y := by
  have h0 : 0 ≤ dist 1 1 := hd 1 1 le_rfl h1 le_rfl h2
  rw [agrees_iff_opt h1 h2]
  constructor
  · intro hr
    obtain ⟨v, hl, hle⟩ := hr
    rw [or_iff_not_imp_left]
    intro hne y hy
    have hpos : 0 < dist 1 1 := lt_of_le_of_ne h0 (Ne.symm hne)
    rcases mem_costs_corner.1 hl.1 with ⟨hq, -⟩ | ⟨x, hx, rfl⟩ | ⟨x, hx, rfl⟩
    · -- a single cell: no path skips it
      rw [← hq, costs_eq_empty (by rintro s (rfl | rfl) <;> simp)] at hy
      exact absurd hy (Set.notMem_empty y)
    · have : dist 1 1 + x ≤ x := hle x hx
      linarith
    · exact ⟨x, hx, hle y hy⟩
  · intro h
    obtain ⟨v, -, hl⟩ := ends_dtwDistances nRef n dist h1 h2
    refine ⟨v, hl, fun y hy => ?_⟩
    rcases h with h | h
    · have : dist 1 1 + y ∈ costs (cost dist) {(0, 0)} (nRef - 1, n - 1) :=
        mem_costs_corner.2 (.inr (.inl ⟨y, hy, rfl⟩))
      have := hl.2 this
      linarith
    · obtain ⟨x, hx, hxy⟩ := h y hy
      exact (hl.2 (mem_costs_corner.2 (.inr (.inr ⟨x, hx, rfl⟩)))).trans hxy

/-- Two frames against two, of which only the last ones are alike: skipping the first cell costs
as much as leaving it by the diagonal. -/
def derniere (i j : ℕ) : ℝ := if i = 2 ∧ j = 2 then 0 else 1

theorem derniere_nonneg (i j : ℕ) : 0 ≤ derniere i j := by
  unfold derniere
  split_ifs
  exacts [le_rfl, zero_le_one]

theorem distGlobale_agrees_derniere : derniere 1 1 ≠ 0 ∧ Agrees 2 2 derniere := by
  refine ⟨by norm_num [derniere], (distGlobale_agrees_iff 2 2 derniere (by decide) (by decide)
    fun i j _ _ _ _ => derniere_nonneg i j).2 (.inr fun y hy => ⟨0, ?_, ?_⟩)⟩
  · exact mem_costs.2 (.inl ⟨rfl, by norm_num [cost, derniere]⟩)
  · obtain ⟨s, hs, l, hl, rfl⟩ := hy
    -- the first cell of such a path already costs 1
    have hfirst : cost derniere s = 1 := by
      rcases hs with rfl | rfl <;> norm_num [cost, derniere]
    have hmem : s ∈ l := by
      rcases hl.uncons with ⟨-, rfl⟩ | ⟨_, _, -, -, rfl⟩ <;> simp
    have hle := List.single_le_sum (l := l.map (cost derniere))
      (List.forall_mem_map.2 fun p _ => derniere_nonneg _ _) _ (List.mem_map_of_mem hmem)
    rw [hfirst] at hle
    exact (by norm_num [derniere] : derniere 1 1 + 0 = 1).trans_le hle

/-- One frame against two, all at distance 1: `dist_globale` finds 1, the paths cost 2. -/
theorem not_distGlobale_agrees :
    distGlobale.cumul 1 2 (fun _ _ => (1 : ℝ)) = .ok ((1 : ℝ) : WithTop ℝ) ∧
      dtw.distances 1 2 (fun _ _ => pure (1 : ℝ)) = .ok 2 ∧ ¬Agrees 1 2 fun _ _ => 1 := by
  have hskip : (1 : ℝ) ∈ costs (cost fun _ _ => (1 : ℝ)) skips (0, 1) :=
    mem_costs.2 (.inl ⟨.inl rfl, rfl⟩)
  have hcorner : IsLeast (costs (cost fun _ _ => (1 : ℝ)) {(0, 0)} (0, 1)) 2 := by
    have := isLeast_zero_succ (isLeast_zero_zero (c := cost fun _ _ => (1 : ℝ)))
    rwa [show cost (fun _ _ => (1 : ℝ)) (0, 0) + cost (fun _ _ => 1) (0, 0 + 1) = 2 by
      norm_num [cost]] at this
  obtain ⟨w, hw, ho⟩ := ends_cumul 1 2 (fun _ _ => (1 : ℝ)) le_rfl (by decide)
  obtain ⟨v, hv, hl⟩ := ends_dtwDistances 1 2 (fun _ _ => (1 : ℝ)) le_rfl (by decide)
  refine ⟨?_, hl.unique hcorner ▸ hv, ?_⟩
  · have h1 : Opt (cost fun _ _ => (1 : ℝ)) seeds (0, 1) (1 : ℝ) := by
      refine opt_coe.2 ⟨mem_costs_seeds.2 (.inr hskip), fun y hy => ?_⟩
      rcases mem_costs_seeds.1 hy with hy | ⟨s, -, l, hl, rfl⟩
      · linarith [hcorner.2 hy]
      · -- a path has a cell, and each costs 1
        have : 1 ≤ l.length := List.length_pos_iff.2 hl.ne_nil
        show (1 : ℝ) ≤ (l.map fun _ => (1 : ℝ)).sum
        rw [List.map_const', List.sum_replicate, nsmul_eq_mul, mul_one]
        exact_mod_cast this
    rw [hw, ho.unique h1]
  · rw [agrees_iff_opt le_rfl (by decide)]
    intro h
    obtain ⟨u, hu, hle⟩ := h
    have := hle 1 hskip
    rw [hu.unique hcorner] at this
    linarith

end TlVoix.Matlab
