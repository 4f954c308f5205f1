import TlVoix.Cpp.Proof.Fourier

/-!
# The sizes on which `ComplexFFT` stays in its array

A stage that joins blocks of `L` points pairs every block with the next one: it leaves the array if
the number of blocks is odd (`yields_lane`). A run that ends has thus halved `sample_rate` down to 1
(`yields_danielsonLanczos`), and `complexFFT_ends_iff` says that no other size is safe. From
`2 ^ 31` on the double of `sample_rate` wraps, and the array has fewer cells than its points
(`yields_fourierPoints`).
-/

namespace TlVoix

open Checked CFourier

section
variable {K : Type} {v : Arr ℕ K}

/-! ## The cells of the array -/

theorem yields_swapCells (a b : ℕ) (v : Arr ℕ K) : Yields (swap a b v) fun w => w.dom = v.dom := by
  unfold CFourier.swap
  refine (Yields.self _).bind fun ta _ => (Yields.self _).bind fun tb _ => ?_
  refine (v.yields_set_dom a tb).bind fun v1 h1 => (v1.yields_set_dom b ta).mono fun v2 h2 => ?_
  rw [h2.2, h1.2]

theorem yields_exchange (n i j : ℕ) (v : Arr ℕ K) :
    Yields (complexFFT.exchange n i j v) fun w => w.dom = v.dom := by
  unfold complexFFT.exchange
  split
  · refine (yields_swapCells _ _ v).bind fun v1 h1 => (yields_swapCells _ _ v1).bind fun v2 h2 => ?_
    split
    · refine (yields_swapCells _ _ v2).bind fun v3 h3 =>
        (yields_swapCells _ _ v3).mono fun v4 h4 => ?_
      rw [h4, h3, h2, h1]
    · exact Yields.ok (h2.trans h1)
  · exact Yields.ok rfl

theorem yields_binaryInversion (n : ℕ) (v : Arr ℕ K) :
    Yields (complexFFT.binaryInversion n v) fun w => w.dom = v.dom := by
  refine (Yields.forStep (fun _ s => s.2.dom = v.dom) rfl fun i s _ _ hs => ?_).bind
    fun r hr => Yields.ok hr.2
  obtain ⟨j, w⟩ := s
  refine (yields_exchange n i j w).bind fun w1 h1 => (Yields.self _).bind fun r _ => ?_
  exact Yields.ok (h1.trans hs)

/-! ## The pairs of blocks -/

variable [Field K]

/-- A butterfly that ends finds both of its points. -/
theorem yields_fourierButterfly (wr wi : K) (mmax i : ℕ) (v : Arr ℕ K) :
    Yields (complexFFT.butterfly wr wi mmax i v) fun w =>
      v.dom (i + mmax - 1) = true ∧ w.dom = v.dom := by
  unfold complexFFT.butterfly
  refine (v.yields_get _).bind fun _ hget => (Yields.self _).bind fun _ _ => ?_
  refine (Yields.self _).bind fun _ _ => (Yields.self _).bind fun _ _ => ?_
  refine (Yields.self _).bind fun _ _ => (v.yields_set_dom _ _).bind fun v1 h1 => ?_
  refine (Yields.self _).bind fun _ _ => (v1.yields_set_dom _ _).bind fun v2 h2 => ?_
  refine (Yields.self _).bind fun _ _ => (v2.yields_set_dom _ _).bind fun v3 h3 => ?_
  refine (Yields.self _).bind fun _ _ => (v3.yields_set_dom _ _).mono fun v4 h4 => ?_
  exact ⟨hget.1, by rw [h4.2, h3.2, h2.2, h1.2]⟩

/-- Blocks of which the last one has a partner. -/
theorem two_mul_dvd {S L c : ℕ} (hL : 0 < L) (hdvd : L ∣ S) (hlt : 4 * L * c + 2 * L < 2 * S)
    (hle : 2 * S ≤ 4 * L * (c + 1)) : 2 * L ∣ S := by
  obtain ⟨t, rfl⟩ := hdvd
  have h1 : L * (2 * c + 1) < L * t := by
    have : L * (2 * c + 1) = 2 * L * c + L := by ring
    have : 4 * L * c = 2 * (2 * L * c) := by ring
    omega
  have h2 : L * t ≤ L * (2 * c + 2) := by
    have : L * (2 * c + 2) = 2 * L * (c + 1) := by ring
    have : 4 * L * (c + 1) = 2 * (2 * L * (c + 1)) := by ring
    omega
  have h1 := Nat.lt_of_mul_lt_mul_left h1
  have h2 := Nat.le_of_mul_le_mul_left h2 hL
  obtain rfl : t = 2 * (c + 1) := by omega
  exact ⟨c + 1, by ring⟩

/-- The first lane of a stage finds a partner for each of its points, so that the blocks of `L`
points are even in number. -/
theorem yields_lane {S L : ℕ} (hL : 0 < L) (hS : 0 < S) (hdvd : L ∣ S) (wr wi : K) (m : ℕ)
    (hv : ∀ k, v.dom k = true ↔ k < 2 * S) :
    Yields (forStep m (2 * S + 1) (2 * L * 2) v (complexFFT.butterfly wr wi (2 * L))) fun r =>
      r.2.dom = v.dom ∧ (m = 1 → 2 * L ∣ S) := by
  refine (Yields.forStep (fun i w => w.dom = v.dom ∧ ∃ c, i = m + 4 * L * c ∧
    (m = 1 → c ≠ 0 → 4 * L * (c - 1) + 2 * L < 2 * S)) ⟨rfl, 0, rfl, nofun⟩ ?_).mono ?_
  · intro i w _ _ hw
    obtain ⟨hdom, c, rfl, -⟩ := hw
    refine (yields_fourierButterfly wr wi (2 * L) _ w).mono fun w1 h1 =>
      ⟨h1.2.trans hdom, c + 1, by ring, fun hm _ => ?_⟩
    have := (hv _).1 (hdom ▸ h1.1)
    rw [Nat.add_sub_cancel]
    omega
  · intro r hr
    obtain ⟨i, w⟩ := r
    obtain ⟨hi, hdom, c, rfl, hc⟩ := hr
    refine ⟨hdom, fun hm => ?_⟩
    subst hm
    -- the lane stops after `c` pairs, and the last one has a partner
    have hc0 : c ≠ 0 := by
      rintro rfl
      omega
    have hlast := hc rfl hc0
    obtain ⟨c, rfl⟩ : ∃ d, c = d + 1 := ⟨c - 1, by omega⟩
    rw [Nat.add_sub_cancel] at hlast
    exact two_mul_dvd hL hdvd hlast (by omega)

theorem yields_fourierStage {S L : ℕ} (hL : 0 < L) (hS : 0 < S) (hdvd : L ∣ S) (wpr wpi : K)
    (hv : ∀ k, v.dom k = true ↔ k < 2 * S) :
    Yields (complexFFT.stage (2 * S) (2 * L) wpr wpi v) fun w => w.dom = v.dom ∧ 2 * L ∣ S := by
  refine (Yields.forStep (fun m s => s.2.2.dom = v.dom ∧ (m = 1 ∨ 2 * L ∣ S)) ⟨rfl, .inl rfl⟩
    ?_).bind ?_
  · intro m s _ _ hs
    obtain ⟨wr, wi, w⟩ := s
    obtain ⟨hdom, hm⟩ := hs
    refine (yields_lane hL hS hdvd wr wi m (fun k => by rw [hdom, hv])).bind fun r hr => ?_
    exact Yields.ok ⟨hr.1.trans hdom, .inr (hm.elim hr.2 id)⟩
  · intro r hr
    obtain ⟨m, _, _, w⟩ := r
    obtain ⟨hm, hdom, hdvd2⟩ := hr
    refine Yields.ok ⟨hdom, hdvd2.resolve_left ?_⟩
    rintro rfl
    omega

/-! ## The whole run -/

theorem yields_fourierPoints (data : Arr ℕ K) (N S : ℕ) :
    Yields (complexFFT.points data N S) fun v => S < 2 ^ 31 ∧
      (∀ k, v.dom k = true ↔ k < 2 * S) ∧ ∀ n, n < N → n < S → data.Assigned n := by
  -- the last cell that was written is in the array
  refine (Yields.forUp (fun i v => 2 * i ≤ u32 (2 * S) ∧
    (∀ k, v.dom k = true ↔ k < u32 (2 * S)) ∧ ∀ n, n < N → n < i → data.Assigned n) (Nat.zero_le S)
    ⟨Nat.zero_le _, fun k => Arr.dom_fresh _ k, fun n _ hn => absurd hn (Nat.not_lt_zero n)⟩
    ?_).bind ?_
  · intro i v _ _ hv
    have hsample : Yields (complexFFT.sample data N i) fun _ => i < N → data.Assigned i := by
      unfold complexFFT.sample
      split
      · exact (data.yields_get i).mono fun x hx _ => ⟨x, hx⟩
      · exact Yields.ok fun h => absurd h ‹_›
    refine hsample.bind fun re hre => (v.yields_set_dom _ _).bind fun v1 h1 => ?_
    refine (v1.yields_set_dom _ _).mono fun v2 h2 => ⟨?_, fun k => ?_, fun n hN hn => ?_⟩
    · have := (hv.2.1 _).1 (h1.2 ▸ h2.1)
      omega
    · rw [h2.2, h1.2, hv.2.1]
    · rcases Nat.lt_succ_iff_lt_or_eq.1 hn with hn | rfl
      · exact hv.2.2 n hN hn
      · exact hre hN
  · intro r hr
    obtain ⟨-, hle, hdom, hdata⟩ := hr
    have hu : u32 (2 * S) < 2 ^ 32 := Nat.mod_lt _ (Nat.two_pow_pos 32)
    have hS : S < 2 ^ 31 := by omega
    rw [u32_double hS] at hdom
    exact Yields.ok ⟨hS, hdom, hdata⟩

theorem yields_danielsonLanczos [LibTrig K] (pi : K) (sign : ℤ) {S : ℕ} (hS : 0 < S)
    (hv : ∀ k, v.dom k = true ↔ k < 2 * S) :
    Yields (complexFFT.danielsonLanczos pi sign (2 * S) v) fun _ => ∃ q, S = 2 ^ q := by
  refine (Yields.whileLoop (fun s => s.2.dom = v.dom ∧ ∃ l, s.1 = 2 * 2 ^ l ∧ 2 ^ l ∣ S) ?_ _ _
    ⟨rfl, 0, rfl, one_dvd S⟩).bind ?_
  · intro s hs _
    obtain ⟨mmax, w⟩ := s
    obtain ⟨hdom, l, hl, hdvd⟩ := hs
    obtain rfl : mmax = 2 * 2 ^ l := hl
    refine (yields_fourierStage (Nat.two_pow_pos l) hS hdvd _ _ (fun k => by rw [hdom, hv])).bind
      fun w1 h1 => Yields.ok ⟨h1.1.trans hdom, l + 1, ?_, ?_⟩
    · show 2 * 2 ^ l * 2 = 2 * 2 ^ (l + 1)
      rw [pow_succ, Nat.mul_assoc]
    · rw [pow_succ']
      exact h1.2
  · intro s hs
    obtain ⟨mmax, w⟩ := s
    obtain ⟨⟨-, l, hl, hdvd⟩, hc⟩ := hs
    obtain rfl : mmax = 2 * 2 ^ l := hl
    have hge : ¬2 * 2 ^ l < 2 * S := of_decide_eq_false hc
    have hle := Nat.le_of_dvd hS hdvd
    exact Yields.ok ⟨l, by omega⟩

end

/-- **`ComplexFFT` stays in its array exactly if `sample_rate` is a power of two below `2 ^ 31`**
(or zero) and the samples it reads exist, whatever the sign and the object. -/
theorem complexFFT_ends_iff (fft : CFourier ℝ) (data : Arr ℕ ℝ) (N S : ℕ) (sign : ℤ) :
    (∃ r, fft.complexFFT data N S sign = .ok r) ↔
      (∀ n, n < N → n < S → data.Assigned n) ∧ (S = 0 ∨ ∃ q < 31, S = 2 ^ q) := by
  constructor
  · intro h
    obtain ⟨r, hr⟩ := h
    have hyields : Yields (fft.complexFFT data N S sign) fun _ =>
        (∀ n, n < N → n < S → data.Assigned n) ∧ (S = 0 ∨ ∃ q < 31, S = 2 ^ q) := by
      refine (yields_fourierPoints data N S).bind fun v hv => ?_
      obtain ⟨hS, hdom, hdata⟩ := hv
      rw [Nat.mul_comm S 2, u32_double hS]
      refine (yields_binaryInversion _ v).bind fun v1 h1 => ?_
      rcases Nat.eq_zero_or_pos S with h0 | hpos
      · exact fun _ _ => ⟨hdata, .inl h0⟩
      · refine (yields_danielsonLanczos fft.pi sign hpos fun k => by rw [h1, hdom]).bind
          fun v2 h2 => ?_
        obtain ⟨q, rfl⟩ := h2
        exact fun _ _ => ⟨hdata, .inr ⟨q, (Nat.pow_lt_pow_iff_right Nat.one_lt_two).1 hS, rfl⟩⟩
    exact hyields r hr
  · intro h
    obtain ⟨hdata, rfl | ⟨q, hq, rfl⟩⟩ := h
    · unfold CFourier.complexFFT complexFFT.points complexFFT.binaryInversion
        complexFFT.danielsonLanczos complexFFT.fundamental
      simp [forStep_of_le, whileLoop_of_not, u32]
    · obtain ⟨s, hs⟩ : ∃ s : ℕ → ℝ, ∀ n < min N (2 ^ q), data.Holds n (s n) :=
        Arr.exists_holds 0 fun n hn => hdata n (by omega) (by omega)
      obtain ⟨r, hr, -⟩ := ends_complexFFT fft sign (Nat.le_of_lt_succ hq) fun n hN hq =>
        hs n (Nat.lt_min.2 ⟨hN, hq⟩)
      exact ⟨r, hr⟩

end TlVoix
