import TlVoix.Cpp.Frame
import TlVoix.Lib.BitRev
import Mathlib.Data.Sym.Sym2

/-!
# The bit reversal of `FFT`

`Frame.fft.bitReversal.trace` is the bit reversal of `FFT` with a trace of what it goes through; it
does not change the run (`map_trace`).

* `ends_trace`: on arrays of at least `2 ^ m` cells the run ends, on the permuted arrays, and the
  trace is that of a counter in bit-reversed order; `Reversing` is its invariant.
* `bitReversal_permutes`: on arrays of `2 ^ m` cells, every cell ends with the value of its
  reversal, and each pair is exchanged once.
-/

namespace TlVoix

open Checked

/-! ## The trace -/

/-- What a bit reversal goes through: `i` and `j` at the head of each iteration, the values of `k`
that the inner loop tests, and the exchanges. -/
structure Trace where
  heads : List (ℕ × ℕ)
  tests : List ℕ
  swaps : List (ℕ × ℕ)

/-- `fft.carry`, with the values of `k` it tests. -/
def Frame.fft.carry.trace (j k : ℕ) : Run ((ℕ × ℕ) × List ℕ) :=
  whileLoop (fun p => decide (p.1.2 ≤ p.1.1))
    (fun p => pure ((p.1.1 - p.1.2, p.1.2 / 2), p.2 ++ [p.1.2 / 2])) (j + 1) ((j, k), [k])

theorem map_carry_trace (j k : ℕ) :
    Prod.fst <$> Frame.fft.carry.trace j k = Frame.fft.carry j k := by
  unfold Frame.fft.carry.trace
  refine map_whileLoop Prod.fst ?_ ?_ (j + 1) ((j, k), [k])
  · exact fun _ => rfl
  · exact fun _ => rfl

section
variable {K : Type}

/-- `fft.bitReversal`, with its trace. -/
def Frame.fft.bitReversal.trace (n : ℕ) (x y : Arr ℕ K) : Run (Trace × Arr ℕ K × Arr ℕ K) := do
  let i2 := n / 2
  let (_, _, xy, tr) ← forUp 0 (n - 1) (0, (x, y), ⟨[], [], []⟩) fun i (j, xy, tr) => do
    let (xy, swaps) ← if i < j then do pure (← fft.swap i j xy, [(i, j)]) else pure (xy, [])
    let ((j', k), tests) ← fft.carry.trace j i2
    pure (j' + k, xy, ⟨tr.heads ++ [(i, j)], tr.tests ++ tests, tr.swaps ++ swaps⟩)
  pure (tr, xy)

/-- The trace does not change the run. -/
theorem map_trace (n : ℕ) (x y : Arr ℕ K) :
    Prod.snd <$> Frame.fft.bitReversal.trace n x y = Frame.fft.bitReversal n x y := by
  refine map_bind_eq (map_forStep (fun s : ℕ × (Arr ℕ K × Arr ℕ K) × Trace => (s.1, s.2.1))
    (fun i s => ?_) _ _ _ _) fun _ => rfl
  obtain ⟨j, xy, tr⟩ := s
  by_cases hij : i < j
  · simp only [if_pos hij, pure_eq_ok, ok_bind]
    refine map_bind_eq (id_map _) fun xy' => ?_
    exact map_bind_eq (map_carry_trace j (n / 2)) fun _ => rfl
  · simp only [if_neg hij, pure_eq_ok, ok_bind]
    exact map_bind_eq (map_carry_trace j (n / 2)) fun _ => rfl

/-! ## The exchanges -/

theorem ends_swap {N i j : ℕ} {f g : ℕ → K} {x y : Arr ℕ K} (hx : x.Is N f) (hy : y.Is N g)
    (hi : i < N) (hj : j < N) :
    Ends (Frame.fft.swap i j (x, y)) fun xy =>
      xy.1.Is N (Function.update (Function.update f i (f j)) j (f i)) ∧
      xy.2.Is N (Function.update (Function.update g i (g j)) j (g i)) := by
  simp only [Frame.fft.swap, hx.get_ok hi, hy.get_ok hi, hx.get_ok hj, hy.get_ok hj, ok_bind]
  refine (hx.ends_set hi _).bind fun x1 hx1 => (hy.ends_set hi _).bind fun y1 hy1 => ?_
  refine (hx1.ends_set hj _).bind fun x2 hx2 => (hy1.ends_set hj _).bind fun y2 hy2 => ?_
  exact Ends.ok ⟨hx2, hy2⟩

/-- `carry` counts in bit-reversed order. -/
theorem ends_carry_trace (m : ℕ) {i : ℕ} (hi : i + 1 < 2 ^ m) :
    Ends (Frame.fft.carry.trace (bitRev m i) (2 ^ m / 2)) fun p =>
      p.1.1 + p.1.2 = bitRev m (i + 1) ∧ ∀ k ∈ p.2, 1 ≤ k := by
  cases m with
  | zero => simp at hi
  | succ m =>
    have hhalf : 2 ^ (m + 1) / 2 = 2 ^ m := by
      rw [pow_succ, Nat.mul_div_cancel _ Nat.two_pos]
    rw [Frame.fft.carry.trace, hhalf]
    exact ends_carry m hi (by omega) (List.forall_mem_singleton.2 (Nat.two_pow_pos m))

/-- The exchanges before iteration `i`. -/
def swapsBefore (m i : ℕ) : List (ℕ × ℕ) :=
  ((List.range i).filter fun p => decide (p < bitRev m p)).map fun p => (p, bitRev m p)

theorem swapsBefore_succ (m i : ℕ) : swapsBefore m (i + 1) =
    swapsBefore m i ++ if i < bitRev m i then [(i, bitRev m i)] else [] := by
  rw [swapsBefore, List.range_succ, List.filter_append, List.map_append, swapsBefore]
  split
  · rename_i h
    simp [h]
  · rename_i h
    simp [h]

/-- Before iteration `i`. -/
structure Reversing (m N : ℕ) (f g : ℕ → K) (i j : ℕ) (xy : Arr ℕ K × Arr ℕ K) (tr : Trace) :
    Prop where
  counter : j = bitRev m i
  fst : xy.1.Is N (swapped m i f)
  snd : xy.2.Is N (swapped m i g)
  heads : tr.heads = (List.range i).map fun i => (i, bitRev m i)
  tests : ∀ k ∈ tr.tests, 1 ≤ k
  swaps : tr.swaps = swapsBefore m i

/-- The run on arrays of at least `2 ^ m` cells. -/
theorem ends_trace {m N : ℕ} (hN : 2 ^ m ≤ N) {f g : ℕ → K} {x y : Arr ℕ K} (hx : x.Is N f)
    (hy : y.Is N g) :
    Ends (Frame.fft.bitReversal.trace (2 ^ m) x y) fun r =>
      ∃ j, Reversing m N f g (2 ^ m - 1) j r.2 r.1 := by
  have hpos : 0 < 2 ^ m := Nat.two_pow_pos m
  refine Ends.bind (Ends.forUp (fun i s => Reversing m N f g i s.1 s.2.1 s.2.2) (Nat.zero_le _)
    ⟨(bitRev_zero m).symm, by rwa [swapped_zero], by rwa [swapped_zero], rfl, nofun, rfl⟩ ?_) ?_
  · intro i s _ hi h
    obtain ⟨j, ⟨x, y⟩, tr⟩ := s
    obtain ⟨hj, hx, hy, hheads, htests, hswaps⟩ := h
    obtain rfl : j = bitRev m i := hj
    have hin : i < 2 ^ m := by omega
    have hrev := bitRev_lt m i
    have hcarry := ends_carry_trace m (i := i) (by omega)
    have hnext : tr.heads ++ [(i, bitRev m i)] =
        (List.range (i + 1)).map fun i => (i, bitRev m i) := by
      rw [List.range_succ, List.map_append, ← hheads]
      rfl
    by_cases hij : i < bitRev m i
    · simp only [if_pos hij]
      refine (ends_swap hx hy (by omega) (by omega)).bind fun xy hxy => ?_
      refine hcarry.bind fun p hp => Ends.ok ⟨hp.1, ?_, ?_, hnext, ?_, ?_⟩
      · rw [swapped_succ_of_lt m hin f hij]
        exact hxy.1
      · rw [swapped_succ_of_lt m hin g hij]
        exact hxy.2
      · exact List.forall_mem_append.2 ⟨htests, hp.2⟩
      · rw [swapsBefore_succ, if_pos hij, ← hswaps]
    · simp only [if_neg hij, pure_eq_ok, ok_bind]
      refine hcarry.bind fun p hp => Ends.ok ⟨hp.1, ?_, ?_, hnext, ?_, ?_⟩
      · rw [swapped_succ_of_le m hin f (Nat.not_lt.1 hij)]
        exact hx
      · rw [swapped_succ_of_le m hin g (Nat.not_lt.1 hij)]
        exact hy
      · exact List.forall_mem_append.2 ⟨htests, hp.2⟩
      · rw [swapsBefore_succ, if_neg hij, ← hswaps]
  · intro r hr
    obtain ⟨_, j, xy, tr⟩ := r
    exact Ends.ok ⟨j, hr.2⟩

theorem ends_bitReversal_arrays {m N : ℕ} (hN : 2 ^ m ≤ N) {f g : ℕ → K} {x y : Arr ℕ K}
    (hx : x.Is N f) (hy : y.Is N g) :
    Ends (Frame.fft.bitReversal (2 ^ m) x y) fun xy =>
      xy.1.Is N (swapped m (2 ^ m - 1) f) ∧ xy.2.Is N (swapped m (2 ^ m - 1) g) :=
  Ends.of_map (map_trace (2 ^ m) x y) ((ends_trace hN hx hy).mono fun _ hr =>
    hr.elim fun _ h => ⟨h.fst, h.snd⟩)

/-! ## Each pair once -/

theorem nodup_swapsBefore (m i : ℕ) :
    ((swapsBefore m i).map fun e => s(e.1, e.2)).Nodup := by
  rw [swapsBefore, List.map_map]
  refine List.Nodup.map_on ?_ (List.nodup_range.filter _)
  intro p hp q hq h
  have hp : p < bitRev m p := of_decide_eq_true (List.mem_filter.1 hp).2
  have hq : q < bitRev m q := of_decide_eq_true (List.mem_filter.1 hq).2
  rcases Sym2.eq_iff.1 h with ⟨h1, -⟩ | ⟨h1, h2⟩
  · exact h1
  · simp only at h1 h2
    omega

theorem mem_swapsBefore (m : ℕ) (z : Sym2 ℕ) :
    z ∈ (swapsBefore m (2 ^ m - 1)).map (fun e => s(e.1, e.2)) ↔
      ∃ p < 2 ^ m, bitRev m p ≠ p ∧ z = s(p, bitRev m p) := by
  simp only [swapsBefore, List.map_map, List.mem_map, List.mem_filter, List.mem_range,
    decide_eq_true_eq, Function.comp_apply]
  constructor
  · intro h
    obtain ⟨p, ⟨hp, hlt⟩, rfl⟩ := h
    exact ⟨p, by omega, by omega, rfl⟩
  · intro h
    obtain ⟨p, hp, hne, rfl⟩ := h
    have hrev := bitRev_lt m p
    have hinv := bitRev_bitRev m hp
    rcases Nat.lt_or_gt_of_ne hne with hlt | hgt
    · exact ⟨bitRev m p, ⟨by omega, by rwa [hinv]⟩, by rw [hinv, Sym2.eq_swap]⟩
    · exact ⟨p, ⟨by omega, hgt⟩, rfl⟩

/-- **The bit reversal of `FFT` is the bit-reversal permutation**, for arrays of any `2 ^ m` cells:
it ends, `j` is the reversal of `i` at the head of every iteration, the inner loop never tests
`k = 0`, and each pair of a number and its reversal is exchanged once. -/
theorem bitReversal_permutes (m : ℕ) (x y : ℕ → K) :
    ∃ tr b, Frame.fft.bitReversal.trace (2 ^ m) (Arr.ofFn (2 ^ m) x) (Arr.ofFn (2 ^ m) y) =
        .ok (tr, b) ∧
      Frame.fft.bitReversal (2 ^ m) (Arr.ofFn (2 ^ m) x) (Arr.ofFn (2 ^ m) y) = .ok b ∧
      (∀ i < 2 ^ m, ∀ t < m, (bitRev m i).testBit t = i.testBit (m - 1 - t)) ∧
      tr.heads = (List.range (2 ^ m - 1)).map (fun i => (i, bitRev m i)) ∧
      (∀ k ∈ tr.tests, 1 ≤ k) ∧
      (∀ i < 2 ^ m, b.1.Holds i (x (bitRev m i)) ∧ b.2.Holds i (y (bitRev m i))) ∧
      (tr.swaps.map fun e => s(e.1, e.2)).Nodup ∧
      ∀ z, z ∈ tr.swaps.map (fun e => s(e.1, e.2)) ↔
        ∃ p < 2 ^ m, bitRev m p ≠ p ∧ z = s(p, bitRev m p) := by
  obtain ⟨⟨tr, b⟩, hrun, j, h⟩ :=
    ends_trace (Nat.le_refl (2 ^ m)) (Arr.is_ofFn _ x) (Arr.is_ofFn _ y)
  have hmap := map_trace (2 ^ m) (Arr.ofFn (2 ^ m) x) (Arr.ofFn (2 ^ m) y)
  rw [hrun] at hmap
  refine ⟨tr, b, hrun, hmap.symm, fun i _ t ht => testBit_bitRev m i ht, h.heads, h.tests,
    fun i hi => ⟨?_, ?_⟩, ?_, ?_⟩
  · rw [← swapped_last m x hi]
    exact h.fst.holds i hi
  · rw [← swapped_last m y hi]
    exact h.snd.holds i hi
  · rw [h.swaps]
    exact nodup_swapsBefore m _
  · rw [h.swaps]
    exact mem_swapsBefore m

end

end TlVoix
