import TlVoix.Cpp.Proof.Mfcc
import TlVoix.Lib.Journal

/-!
# `set_mfcc` fills the features

The loop of `set_mfcc` fills the two halves of `mfcc` together: cell `coeff - 1` with a weighted
coefficient, and cell `coeff + nb_mfcc / 2 - 1` with a difference of two of them.
`Frame.setMfcc.journal` is `set_mfcc` on a journal of its writes to `mfcc` (`map_journal`).

* `Filling`: the invariant of the loop, and of its writes.
* `setMfcc_fills_iff`: each cell is written once, and no other, exactly if the number of
  coefficients is odd and the frame has a length on which the transform and the filter bank run.
-/

namespace TlVoix

open Checked

/-! ## The writes of `set_mfcc` -/

section
variable {K : Type} [Field K] [LinearOrder K] [LibM K]

/-- The body of the loop of `setMfcc`, on a journal. -/
def Frame.setMfcc.journalStep (fft2 : Arr ℕ K) (taille nbMfcc coeff : ℕ) (mfcc : Journal ℕ K) :
    Run (Journal ℕ K) := do
  let mfcc ← mfcc.set (coeff - 1)
    ((← Libmfcc.getCoefficient fft2 16000 nbMfcc taille coeff) * LibM.pow (0.95 : K) coeff)
  mfcc.set (coeff + nbMfcc / 2 - 1) ((← mfcc.get (coeff - 1)) - (← mfcc.get (coeff - 2)))

/-- `setMfcc`, on a journal of its writes to `mfcc`. -/
def Frame.setMfcc.journal (signal : Arr ℕ K) (taille nbMfcc : ℕ) (mfcc : Journal ℕ K) :
    Run (Journal ℕ K) := do
  let fft2 ← setMfcc.fft2 signal taille
  let mfcc ← mfcc.set 0 (← Libmfcc.getCoefficient fft2 16000 nbMfcc taille 1)
  let (_, mfcc) ← forUp 2 (nbMfcc / 2 + 2) mfcc (setMfcc.journalStep fft2 taille nbMfcc)
  pure mfcc

/-- The journal does not change the run. -/
theorem map_journal (signal : Arr ℕ K) (taille nbMfcc : ℕ) (mfcc : Journal ℕ K) :
    Journal.arr <$> Frame.setMfcc.journal signal taille nbMfcc mfcc =
      Frame.setMfcc signal taille nbMfcc mfcc.arr := by
  refine map_bind_eq (id_map _) fun fft2 => ?_
  refine map_bind_eq (id_map _) fun c => ?_
  refine map_bind_eq (Journal.map_set mfcc 0 c) fun mfcc1 => ?_
  refine map_bind_eq (map_forStep Journal.arr (fun coeff j => ?_) _ _ _ mfcc1) fun _ => rfl
  -- one iteration, statement by statement
  refine map_bind_eq (id_map _) fun c => ?_
  refine map_bind_eq (Journal.map_set j _ _) fun j1 => ?_
  refine map_bind_eq (id_map _) fun u => ?_
  exact map_bind_eq (id_map _) fun v => Journal.map_set j1 _ _

/-- The coefficient number `coeff`, with its weight; the first one has none. -/
def Frame.setMfcc.weighted (c : ℕ → K) (coeff : ℕ) : K :=
  if coeff = 1 then c coeff else c coeff * LibM.pow (0.95 : K) coeff

end

open Frame.setMfcc

/-- The cells of `mfcc` are filled once each, from the coefficients `c` of the filter bank. -/
structure Features (nbMfcc : ℕ) (c : ℕ → ℝ) (mfcc : Journal ℕ ℝ) : Prop where
  once : mfcc.writes.Perm (List.range nbMfcc)
  front : ∀ i ≤ nbMfcc / 2, mfcc.arr.Holds i (weighted c (i + 1))
  back : ∀ t, nbMfcc / 2 + 1 + t < nbMfcc → ∃ u v, mfcc.arr.Holds (t + 1) u ∧
    mfcc.arr.Holds t v ∧ mfcc.arr.Holds (nbMfcc / 2 + 1 + t) (u - v)

/-- `set_mfcc` runs, and fills `mfcc`. -/
def FillsMfcc (signal : Arr ℕ ℝ) (taille nbMfcc : ℕ) (mfcc : Arr ℕ ℝ) : Prop :=
  ∃ fft2 c j, Frame.setMfcc.fft2 signal taille = .ok fft2 ∧
    (∀ m, 1 ≤ m → m ≤ nbMfcc / 2 + 1 →
      Libmfcc.getCoefficient fft2 16000 nbMfcc taille m = .ok (c m)) ∧
    journal signal taille nbMfcc (Journal.start mfcc) = .ok j ∧
    Frame.setMfcc signal taille nbMfcc mfcc = .ok j.arr ∧ Features nbMfcc c j

/-! ## The loop -/

/-- After `n` iterations. -/
structure Filling (nbMfcc : ℕ) (c : ℕ → ℝ) (n : ℕ) (mfcc : Journal ℕ ℝ) : Prop where
  dom : ∀ i < nbMfcc, mfcc.arr.dom i = true
  once : mfcc.writes.Perm (List.range (n + 1) ++ (List.range n).map (nbMfcc / 2 + 1 + ·))
  front : ∀ i ≤ n, mfcc.arr.Holds i (weighted c (i + 1))
  back : ∀ t < n, mfcc.arr.Holds (nbMfcc / 2 + 1 + t) (weighted c (t + 2) - weighted c (t + 1))

theorem perm_halves {w : List ℕ} {f : ℕ → ℕ} {n : ℕ}
    (h : w.Perm (List.range (n + 1) ++ (List.range n).map f)) :
    (w ++ [n + 1] ++ [f n]).Perm (List.range (n + 1 + 1) ++ (List.range (n + 1)).map f) := by
  have hswap : (w ++ [n + 1]).Perm (List.range (n + 1) ++ [n + 1] ++ (List.range n).map f) := by
    refine (h.append_right [n + 1]).trans ?_
    rw [List.append_assoc, List.append_assoc]
    exact List.perm_append_comm.append_left _
  rw [List.range_succ (n := n + 1), List.range_succ (n := n), List.map_append, List.map_singleton,
    ← List.append_assoc, ← List.range_succ]
  exact hswap.append_right [f n]

variable {nbMfcc taille : ℕ} {fft2 : Arr ℕ ℝ} {c : ℕ → ℝ}

theorem Filling.step {n : ℕ} {mfcc : Journal ℕ ℝ} (h : Filling nbMfcc c n mfcc)
    (hodd : nbMfcc % 2 = 1) (hn : n < nbMfcc / 2)
    (hc : Libmfcc.getCoefficient fft2 16000 nbMfcc taille (n + 2) = .ok (c (n + 2))) :
    Ends (journalStep fft2 taille nbMfcc (n + 2) mfcc) (Filling nbMfcc c (n + 1)) := by
  have hw : c (n + 2) * LibM.pow (0.95 : ℝ) (n + 2 : ℕ) = weighted c (n + 2) :=
    (if_neg (by omega)).symm
  have hcell : n + 2 + nbMfcc / 2 - 1 = nbMfcc / 2 + 1 + n := by omega
  unfold journalStep
  rw [hc, ok_bind, hw, hcell]
  refine (Journal.ends_set (h.dom (n + 1) (by omega)) _).bind fun mfcc1 ⟨h1, hw1⟩ => ?_
  have hself : mfcc1.arr.Holds (n + 1) (weighted c (n + 2)) := Arr.holds_set_self h1
  have hprev : mfcc1.arr.Holds n (weighted c (n + 1)) :=
    Arr.holds_set_ne h1 (by omega) (h.front n (Nat.le_refl n))
  rw [Journal.get, Journal.get, show n + 2 - 1 = n + 1 from rfl, Arr.get_ok hself,
    show n + 2 - 2 = n from rfl, Arr.get_ok hprev]
  have hdom : mfcc1.arr.dom (nbMfcc / 2 + 1 + n) = true := by
    rw [Arr.dom_set h1]
    exact h.dom _ (by omega)
  refine (Journal.ends_set hdom _).mono fun mfcc2 ⟨h2, hw2⟩ => ?_
  refine ⟨fun i hi => ?_, ?_, fun i hi => ?_, fun t ht => ?_⟩
  · rw [Arr.dom_set h2, Arr.dom_set h1, h.dom i hi]
  · rw [hw2, hw1]
    exact perm_halves h.once
  · rcases Nat.le_succ_iff.1 hi with hi | rfl
    · exact Arr.holds_set_ne h2 (by omega) (Arr.holds_set_ne h1 (by omega) (h.front i hi))
    · exact Arr.holds_set_ne h2 (by omega) hself
  · rcases Nat.lt_succ_iff_lt_or_eq.1 ht with ht | rfl
    · exact Arr.holds_set_ne h2 (by omega) (Arr.holds_set_ne h1 (by omega) (h.back t ht))
    · exact Arr.holds_set_self h2

theorem Filling.features {mfcc : Journal ℕ ℝ} (h : Filling nbMfcc c (nbMfcc / 2) mfcc)
    (hodd : nbMfcc % 2 = 1) : Features nbMfcc c mfcc where
  once := by
    have hnb : nbMfcc / 2 + 1 + nbMfcc / 2 = nbMfcc := by omega
    have := h.once
    rwa [← List.range_add, hnb] at this
  front := h.front
  back t ht := ⟨_, _, h.front (t + 1) (by omega), h.front t (by omega), h.back t (by omega)⟩

/-- With an odd number of coefficients, on frames that the transform and the filter bank can
read. -/
theorem fillsMfcc {signal mfcc : Arr ℕ ℝ} {s : ℕ → ℝ}
    (hs : ∀ j < taille, signal.Holds j (s j)) (h256 : 256 ≤ taille)
    (h16 : nbMfcc = 1 ∨ taille % 16 ≤ 1) (hodd : nbMfcc % 2 = 1)
    (hd : ∀ i < nbMfcc, mfcc.dom i = true) : FillsMfcc signal taille nbMfcc mfcc := by
  obtain ⟨fft2, hfft2, hspectrum, hrest⟩ := ends_fft2 hs h256
  have hassigned : ∀ i < taille, fft2.Assigned i := by
    intro i hi
    rcases Nat.lt_or_ge i 256 with hlt | hge
    · exact ⟨_, hspectrum i hlt⟩
    · exact ⟨_, hrest i hi hge⟩
  obtain ⟨c, hc⟩ := exists_coefficients (by omega) h16 hassigned
  have hends : Ends (journal signal taille nbMfcc (Journal.start mfcc)) (Features nbMfcc c) := by
    unfold journal
    rw [hfft2, ok_bind, hc 1 (Nat.le_refl 1), ok_bind]
    refine (Journal.ends_set (hd 0 (by omega)) (c 1)).bind fun mfcc1 ⟨h1, hw1⟩ => ?_
    refine Ends.bind (Ends.forUp (fun coeff => Filling nbMfcc c (coeff - 2)) (by omega)
      ⟨fun i hi => ?_, by rw [hw1]; exact List.Perm.refl _, fun i hi => ?_,
        fun t ht => absurd ht (Nat.not_lt_zero t)⟩ fun coeff mfcc h2 hlt hfilling => ?_) ?_
    · rw [Arr.dom_set h1]
      exact hd i hi
    · obtain rfl : i = 0 := by omega
      exact Arr.holds_set_self h1
    · obtain ⟨n, rfl⟩ := Nat.exists_eq_add_of_le' h2
      rw [Nat.add_sub_cancel] at hfilling
      rw [show n + 2 + 1 - 2 = n + 1 by omega]
      exact hfilling.step hodd (by omega) (hc _ (by omega))
    · intro r hr
      obtain ⟨_, mfcc2⟩ := r
      obtain ⟨-, hfilling⟩ := hr
      exact Ends.ok (hfilling.features hodd)
  obtain ⟨j, hj, hfeatures⟩ := hends
  refine ⟨fft2, c, j, hfft2, fun m hm _ => hc m hm, hj, ?_, hfeatures⟩
  have := map_journal signal taille nbMfcc (Journal.start mfcc)
  rw [hj] at this
  exact this.symm

theorem ends_setMfcc {signal mfcc : Arr ℕ ℝ} {s : ℕ → ℝ}
    (hs : ∀ j < taille, signal.Holds j (s j)) (h256 : 256 ≤ taille)
    (h16 : nbMfcc = 1 ∨ taille % 16 ≤ 1) (hodd : nbMfcc % 2 = 1)
    (hd : ∀ i < nbMfcc, mfcc.dom i = true) :
    Ends (Frame.setMfcc signal taille nbMfcc mfcc) fun b => ∀ i < nbMfcc, b.Assigned i := by
  obtain ⟨_, c, j, -, -, -, hrun, hfeatures⟩ := fillsMfcc hs h256 h16 hodd hd
  refine ⟨j.arr, hrun, fun i hi => ?_⟩
  rcases Nat.lt_or_ge (nbMfcc / 2) i with hlt | hle
  · obtain ⟨t, rfl⟩ := Nat.exists_eq_add_of_le (Nat.succ_le_of_lt hlt)
    obtain ⟨u, v, -, -, ht⟩ := hfeatures.back t hi
    exact ⟨_, ht⟩
  · exact ⟨_, hfeatures.front i hle⟩

/-! ## When the features are filled -/

/-- **`set_mfcc` fills `mfcc` exactly if the number of coefficients is odd**, and the frame has 256
samples at least; if it is not one coefficient, in a multiple of 16 or one more. The length of the
frame is an `int`. -/
theorem setMfcc_fills_iff (s : ℕ → ℝ) (indet : ℕ → Option ℝ) (taille nbMfcc : ℕ)
    (h1 : 1 ≤ nbMfcc) (hint : taille < 2 ^ 31) :
    FillsMfcc (Arr.ofFn taille s) taille nbMfcc (Arr.alloc nbMfcc indet) ↔
      nbMfcc % 2 = 1 ∧ 256 ≤ taille ∧ (nbMfcc = 1 ∨ taille % 16 ≤ 1) := by
  constructor
  · intro h
    obtain ⟨_, _, j, -, -, -, hrun, -⟩ := h
    obtain ⟨h256, hmore⟩ := yields_setMfcc _ _ hint _ hrun
    rcases Nat.eq_or_lt_of_le h1 with rfl | hnb
    · exact ⟨rfl, h256, .inl rfl⟩
    · obtain ⟨h16, hlast⟩ := hmore hnb
      rw [Arr.dom_alloc] at hlast
      exact ⟨by omega, h256, .inr h16⟩
  · intro h
    obtain ⟨hodd, h256, h16⟩ := h
    exact fillsMfcc (fun j hj => Arr.holds_ofFn s hj) h256 h16 hodd fun i hi =>
      (Arr.dom_alloc nbMfcc indet i).2 hi

/-- The shipped `parameters.h`: 25 coefficients, frames of 256 samples. -/
theorem setMfcc_fills_25 :
    FillsMfcc (Arr.ofFn 256 fun _ => 1) 256 25 (Arr.alloc 25 fun _ => none) :=
  (setMfcc_fills_iff (fun _ => 1) (fun _ => none) 256 25 (by decide) (by decide)).2
    ⟨rfl, Nat.le_refl 256, .inr (by decide)⟩

/-- With two coefficients the loop writes the third cell of `mfcc`. -/
theorem not_setMfcc_fills :
    ¬FillsMfcc (Arr.ofFn 256 fun _ => 1) 256 2 (Arr.alloc 2 fun _ => none) := by
  intro h
  obtain ⟨_, _, j, -, -, -, hrun, -⟩ := h
  obtain ⟨-, hmore⟩ := yields_setMfcc _ _ (by decide) _ hrun
  obtain ⟨-, hlast⟩ := hmore (by decide)
  rw [Arr.dom_alloc] at hlast
  exact absurd hlast (by decide)

end TlVoix
