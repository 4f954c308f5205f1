import TlVoix.Lib.Run

/-!
# Runs with fuel

A program with loops is a family of runs `f : ℕ → Run α`, one for each amount of fuel. It is
`Steady` if more fuel does not change a result, and `Halts f Q` says that with enough fuel it
succeeds, with one result, in `Q`.

* `Steady.const`, `Steady.bind`, `Steady.whileLoop`: the programs are steady.
* `Halts.of_ends`, `Halts.bind`: total correctness; `halts_bind_iff` to take a program apart.
* `Fails f e`: with enough fuel the run stops with the fault `e`; `Fails.bind`, `Halts.bind_fails`,
  `Fails.not_halts`.
-/

namespace Checked

variable {α β : Type}

/-- More fuel does not change a result. -/
def Steady (f : ℕ → Run α) : Prop := ∀ n a, f n = .ok a → ∀ m ≥ n, f m = .ok a

/-- With enough fuel the run succeeds, with a result in `Q`. -/
def Halts (f : ℕ → Run α) (Q : α → Prop) : Prop := ∃ bound a, Q a ∧ ∀ n ≥ bound, f n = .ok a

/-- With enough fuel the run stops with the fault `e`. -/
def Fails (f : ℕ → Run α) (e : Fault) : Prop := ∃ bound, ∀ n ≥ bound, f n = .error e

theorem Steady.const (x : Run α) : Steady fun _ => x := fun _ _ h _ _ => h

theorem Steady.bind {f : ℕ → Run α} {g : α → ℕ → Run β} (hf : Steady f) (hg : ∀ a, Steady (g a)) :
    Steady fun n => f n >>= fun a => g a n := by
  intro n b hb m hm
  obtain ⟨a, ha, hab⟩ := bind_eq_ok.1 hb
  exact bind_eq_ok.2 ⟨a, hf n a ha m hm, hg a n b hab m hm⟩

/-- A loop, with its own fuel and a body that takes fuel. -/
theorem Steady.whileLoop {σ : Type} {cond : σ → Bool} {body : ℕ → σ → Run σ}
    (hb : ∀ s, Steady fun n => body n s) (s : σ) :
    Steady fun n => whileLoop cond (body n) n s := by
  -- the fuel of the loop and that of its body grow apart in the induction
  have key : ∀ k n s a, Checked.whileLoop cond (body n) k s = .ok a → ∀ j ≥ k, ∀ m ≥ n,
      Checked.whileLoop cond (body m) j s = .ok a := by
    intro k
    induction k with
    | zero =>
      intro n s a h j _ m _
      cases hc : cond s with
      | false =>
        rw [whileLoop_of_not hc] at h ⊢
        exact h
      | true => simp [Checked.whileLoop, hc] at h
    | succ k ih =>
      intro n s a h j hj m hm
      cases hc : cond s with
      | false =>
        rw [whileLoop_of_not hc] at h ⊢
        exact h
      | true =>
        obtain ⟨j, rfl⟩ := Nat.exists_eq_add_of_le' (Nat.le_of_add_left_le hj)
        rw [whileLoop_succ hc] at h ⊢
        obtain ⟨t, ht, h⟩ := bind_eq_ok.1 h
        exact bind_eq_ok.2 ⟨t, hb s n t ht m hm, ih n t a h j (Nat.le_of_succ_le_succ hj) m hm⟩
  exact fun n a h m hm => key n n s a h m hm m hm

/-- A loop whose body takes no fuel. -/
theorem Steady.whileLoop_const {σ : Type} {cond : σ → Bool} {body : σ → Run σ} (s : σ) :
    Steady fun n => Checked.whileLoop cond body n s :=
  Steady.whileLoop (fun s => Steady.const (body s)) s

theorem Halts.ok {Q : α → Prop} {a : α} (h : Q a) : Halts (fun _ => .ok a) Q :=
  ⟨0, a, h, fun _ _ => rfl⟩

theorem Halts.of_ends {f : ℕ → Run α} {Q : α → Prop} {bound : ℕ} (hf : Steady f)
    (h : Ends (f bound) Q) : Halts f Q := by
  obtain ⟨a, ha, hQ⟩ := h
  exact ⟨bound, a, hQ, hf bound a ha⟩

theorem Halts.bind {f : ℕ → Run α} {g : α → ℕ → Run β} {Q : α → Prop} {R : β → Prop}
    (hf : Halts f Q) (hg : ∀ a, Q a → Halts (g a) R) :
    Halts (fun n => f n >>= fun a => g a n) R := by
  obtain ⟨n, a, ha, hn⟩ := hf
  obtain ⟨m, b, hb, hm⟩ := hg a ha
  refine ⟨max n m, b, hb, fun k hk => bind_eq_ok.2 ⟨a, hn k ?_, hm k ?_⟩⟩
  · exact Nat.le_trans (Nat.le_max_left n m) hk
  · exact Nat.le_trans (Nat.le_max_right n m) hk

theorem Halts.mono {f : ℕ → Run α} {Q R : α → Prop} (hf : Halts f Q) (h : ∀ a, Q a → R a) :
    Halts f R := by
  obtain ⟨n, a, ha, hn⟩ := hf
  exact ⟨n, a, h a ha, hn⟩

theorem Halts.unique {f : ℕ → Run α} {Q : α → Prop} {a : α} (ha : Halts f (· = a))
    (h : Halts f Q) : Q a := by
  obtain ⟨n, _, rfl, hn⟩ := ha
  obtain ⟨m, b, hb, hm⟩ := h
  have hk := (hn (max n m) (Nat.le_max_left n m)).symm.trans (hm (max n m) (Nat.le_max_right n m))
  rwa [Except.ok.inj hk]

theorem halts_congr {f g : ℕ → Run α} {Q : α → Prop} {bound : ℕ} (h : ∀ n ≥ bound, f n = g n) :
    Halts f Q ↔ Halts g Q := by
  constructor
  · intro hf
    obtain ⟨n, a, ha, hn⟩ := hf
    refine ⟨max bound n, a, ha, fun m hm => ?_⟩
    rw [← h m (Nat.le_trans (Nat.le_max_left bound n) hm)]
    exact hn m (Nat.le_trans (Nat.le_max_right bound n) hm)
  · intro hg
    obtain ⟨n, a, ha, hn⟩ := hg
    refine ⟨max bound n, a, ha, fun m hm => ?_⟩
    rw [h m (Nat.le_trans (Nat.le_max_left bound n) hm)]
    exact hn m (Nat.le_trans (Nat.le_max_right bound n) hm)

theorem Fails.bind {f : ℕ → Run α} {g : α → ℕ → Run β} {e : Fault} (h : Fails f e) :
    Fails (fun n => f n >>= fun a => g a n) e := by
  obtain ⟨bound, hn⟩ := h
  refine ⟨bound, fun n hb => ?_⟩
  dsimp only
  rw [hn n hb, error_bind]

theorem Halts.bind_fails {f : ℕ → Run α} {g : α → ℕ → Run β} {Q : α → Prop} {e : Fault}
    (hf : Halts f Q) (hg : ∀ a, Q a → Fails (g a) e) :
    Fails (fun n => f n >>= fun a => g a n) e := by
  obtain ⟨n, a, ha, hn⟩ := hf
  obtain ⟨m, hm⟩ := hg a ha
  refine ⟨max n m, fun k hk => ?_⟩
  dsimp only
  rw [hn k (Nat.le_trans (Nat.le_max_left n m) hk), ok_bind,
    hm k (Nat.le_trans (Nat.le_max_right n m) hk)]

theorem Fails.not_halts {f : ℕ → Run α} {Q : α → Prop} {e : Fault} (h : Fails f e) :
    ¬Halts f Q := by
  intro hf
  obtain ⟨n, a, -, hn⟩ := hf
  obtain ⟨m, hm⟩ := h
  have hk := hn (max n m) (Nat.le_max_left n m)
  rw [hm (max n m) (Nat.le_max_right n m)] at hk
  cases hk

theorem fails_congr {f g : ℕ → Run α} {e : Fault} {bound : ℕ} (h : ∀ n ≥ bound, f n = g n)
    (hg : Fails g e) : Fails f e := by
  obtain ⟨n, hn⟩ := hg
  refine ⟨max bound n, fun m hm => ?_⟩
  rw [h m (Nat.le_trans (Nat.le_max_left bound n) hm),
    hn m (Nat.le_trans (Nat.le_max_right bound n) hm)]

/-- A sequence halts exactly if its parts do. -/
theorem halts_bind_iff {f : ℕ → Run α} {g : α → ℕ → Run β} {R : β → Prop} (hf : Steady f) :
    Halts (fun n => f n >>= fun a => g a n) R ↔ ∃ a, Halts f (· = a) ∧ Halts (g a) R := by
  constructor
  · intro h
    obtain ⟨n, b, hb, hn⟩ := h
    obtain ⟨a, ha, -⟩ := bind_eq_ok.1 (hn n le_rfl)
    have hsteady := hf n a ha
    refine ⟨a, ⟨n, a, rfl, hsteady⟩, n, b, hb, fun m hm => ?_⟩
    obtain ⟨a', ha', h⟩ := bind_eq_ok.1 (hn m hm)
    obtain rfl := Except.ok.inj ((hsteady m hm).symm.trans ha')
    exact h
  · intro h
    obtain ⟨a, hfa, hga⟩ := h
    exact hfa.bind fun _ ha => ha ▸ hga

end Checked
