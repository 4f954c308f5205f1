import Mathlib.Data.Nat.Basic
import Mathlib.Tactic.Common

/-!
# Checked runs and counted loops

`Run α` is the result of a run of an imperative program whose memory accesses are checked: a
value, or the first `Fault`. `whileLoop` is the `while` statement (with fuel: a loop that
outlives its fuel ends in `Fault.diverges`), `forStep` and `forUp` are the counted `for`
statements, which also return their counter as the program finds it after the loop, and
`forRange` goes over a range of integers.

* **Total correctness**: `Ends x Q` says that the run `x` succeeds, in `Q`. Its rules follow the
  program: `Ends.bind`, `Ends.whileLoop` (an invariant and a variant), `Ends.forStep`,
  `Ends.forUp` and `Ends.forRange` (an invariant of the counter and the state).
* **Partial correctness**: `Yields x Q` says that `x` is in `Q` if it succeeds; the same rules,
  without a variant. It is used to show that a run faults.
* **Projection**: `f <$> x = y` says that the run `x`, seen through `f`, is the run `y`, faults
  included: `map_bind_eq`, `map_whileLoop` and `map_forStep`; `Ends.of_map` for the results.
-/

namespace Checked

/-- Why a checked run stops. -/
inductive Fault
  | outOfBounds
  | uninitialised
  | diverges
  deriving DecidableEq, Repr

/-- A checked run: a result, or the first fault. -/
abbrev Run (α : Type) := Except Fault α

/-- The run succeeds, with a result in `Q`. -/
def Ends {α : Type} (x : Run α) (Q : α → Prop) : Prop := ∃ a, x = .ok a ∧ Q a

/-- The run has a result in `Q`, or faults. -/
def Yields {α : Type} (x : Run α) (Q : α → Prop) : Prop := ∀ a, x = .ok a → Q a

section
variable {α β : Type} {x : Run α} {f : α → Run β} {Q : α → Prop} {R : β → Prop}

@[simp] theorem ok_bind (a : α) (f : α → Run β) : (Except.ok a >>= f : Run β) = f a := rfl
@[simp] theorem error_bind (e : Fault) (f : α → Run β) :
    (Except.error e >>= f : Run β) = Except.error e := rfl
@[simp] theorem pure_eq_ok (a : α) : (pure a : Run α) = Except.ok a := rfl
@[simp] theorem throw_eq_error (e : Fault) : (throw e : Run α) = Except.error e := rfl

theorem bind_eq_ok {b : β} : x >>= f = .ok b ↔ ∃ a, x = .ok a ∧ f a = .ok b := by
  cases x <;> simp

theorem Ends.ok {a : α} (h : Q a) : Ends (.ok a) Q := ⟨a, rfl, h⟩

theorem ends_eq_iff {a : α} : Ends x (· = a) ↔ x = .ok a := by
  refine ⟨fun h => ?_, fun h => ⟨a, h, rfl⟩⟩
  obtain ⟨_, hx, rfl⟩ := h
  exact hx

theorem Ends.bind (hx : Ends x Q) (hf : ∀ a, Q a → Ends (f a) R) : Ends (x >>= f) R := by
  obtain ⟨a, rfl, ha⟩ := hx
  exact hf a ha

theorem Ends.mono {Q' : α → Prop} (hx : Ends x Q) (h : ∀ a, Q a → Q' a) : Ends x Q' := by
  obtain ⟨a, rfl, ha⟩ := hx
  exact ⟨a, rfl, h a ha⟩

theorem Yields.ok {a : α} (h : Q a) : Yields (.ok a) Q := fun _ hb => Except.ok.inj hb ▸ h

theorem Yields.error (e : Fault) : Yields (.error e) Q := nofun

theorem Yields.bind (hx : Yields x Q) (hf : ∀ a, Q a → Yields (f a) R) : Yields (x >>= f) R := by
  intro b hb
  obtain ⟨a, ha, hf'⟩ := bind_eq_ok.1 hb
  exact hf a (hx a ha) b hf'

theorem Yields.mono {Q' : α → Prop} (hx : Yields x Q) (h : ∀ a, Q a → Q' a) : Yields x Q' :=
  fun a ha => h a (hx a ha)

theorem Ends.yields (hx : Ends x Q) : Yields x Q := by
  obtain ⟨a, rfl, ha⟩ := hx
  exact Yields.ok ha

/-- A run that succeeds projects on one that succeeds. -/
theorem Ends.of_map {p : α → β} {y : Run β} (hx : p <$> x = y) (h : Ends x fun a => R (p a)) :
    Ends y R := by
  obtain ⟨a, rfl, ha⟩ := h
  exact ⟨p a, hx.symm, ha⟩

/-- A run that projects on a run that succeeds. -/
theorem ends_of_map_eq {p : α → β} {x : Run α} {b : β} (h : p <$> x = .ok b) :
    Ends x fun a => p a = b := by
  cases x with
  | error e => cases h
  | ok a => exact ⟨a, rfl, Except.ok.inj h⟩

theorem map_bind_eq {α' β' : Type} {p : α → α'} {q : β → β'} {y : Run α'} {g : α' → Run β'}
    (hx : p <$> x = y) (hf : ∀ a, q <$> f a = g (p a)) : q <$> (x >>= f) = y >>= g := by
  subst hx
  cases x with
  | error e => rfl
  | ok a => exact hf a

theorem Yields.self (x : Run α) : Yields x fun a => x = .ok a := fun _ h => h

end

/-! ## Loops -/

section
variable {σ : Type}

/-- `while (cond) body`, for at most `fuel` iterations. -/
def whileLoop (cond : σ → Bool) (body : σ → Run σ) : ℕ → σ → Run σ
  | 0, s => if cond s then throw .diverges else pure s
  | fuel + 1, s => if cond s then body s >>= whileLoop cond body fuel else pure s

/-- `for (i = a; i < b; i += step) body`: the counter after the loop and the state. A step of
zero never ends a loop that begins. -/
def forStep (a b step : ℕ) (s : σ) (body : ℕ → σ → Run σ) : Run (ℕ × σ) :=
  whileLoop (fun p => decide (p.1 < b))
    (fun p => do
      let s ← body p.1 p.2
      pure (p.1 + step, s))
    (b - a) (a, s)

/-- `for (i = a; i < b; i++) body`. -/
abbrev forUp (a b : ℕ) (s : σ) (body : ℕ → σ → Run σ) : Run (ℕ × σ) :=
  forStep a b 1 s body

/-- The loop over the integers from `a` to `b`, both included. -/
def forRange (a b : ℤ) (s : σ) (body : ℤ → σ → Run σ) : Run σ := do
  let (_, s) ← forUp 0 (b + 1 - a).toNat s fun k => body (a + k)
  pure s

variable {cond : σ → Bool} {body : σ → Run σ}

theorem whileLoop_of_not {s : σ} (h : cond s = false) (fuel : ℕ) :
    whileLoop cond body fuel s = .ok s := by
  cases fuel <;> simp [Checked.whileLoop, h]

theorem whileLoop_succ {s : σ} (h : cond s = true) (fuel : ℕ) :
    whileLoop cond body (fuel + 1) s = body s >>= whileLoop cond body fuel := by
  rw [Checked.whileLoop, if_pos h]

/-- Total correctness of `while`: `P` is kept, the variant `μ` decreases. -/
theorem Ends.whileLoop (P : σ → Prop) (μ : σ → ℕ)
    (hstep : ∀ s, P s → cond s = true → Ends (body s) fun t => P t ∧ μ t < μ s) :
    ∀ (fuel : ℕ) (s : σ), P s → μ s ≤ fuel →
      Ends (whileLoop cond body fuel s) fun t => P t ∧ cond t = false := by
  intro fuel
  induction fuel with
  | zero =>
    intro s hs hμ
    by_cases hc : cond s = true
    · obtain ⟨t, -, -, hlt⟩ := hstep s hs hc
      omega
    · exact ⟨s, by simp [Checked.whileLoop, hc], hs, by simpa using hc⟩
  | succ fuel ih =>
    intro s hs hμ
    by_cases hc : cond s = true
    · simp only [Checked.whileLoop, hc, ↓reduceIte]
      exact (hstep s hs hc).bind fun t ht => ih t ht.1 (by omega)
    · exact ⟨s, by simp [Checked.whileLoop, hc], hs, by simpa using hc⟩

/-- Partial correctness of `while`. -/
theorem Yields.whileLoop (P : σ → Prop)
    (hstep : ∀ s, P s → cond s = true → Yields (body s) P) :
    ∀ (fuel : ℕ) (s : σ), P s →
      Yields (whileLoop cond body fuel s) fun t => P t ∧ cond t = false := by
  intro fuel
  induction fuel with
  | zero =>
    intro s hs
    by_cases hc : cond s = true
    · simp only [Checked.whileLoop, hc, ↓reduceIte]
      exact Yields.error _
    · simp only [Checked.whileLoop, hc]
      exact Yields.ok ⟨hs, by simpa using hc⟩
  | succ fuel ih =>
    intro s hs
    by_cases hc : cond s = true
    · simp only [Checked.whileLoop, hc, ↓reduceIte]
      exact (hstep s hs hc).bind fun t ht => ih t ht
    · simp only [Checked.whileLoop, hc]
      exact Yields.ok ⟨hs, by simpa using hc⟩

variable {body : ℕ → σ → Run σ}

/-- Total correctness of a `for` with a stride. -/
theorem Ends.forStep (P : ℕ → σ → Prop) {a b step : ℕ} {s : σ} (hs : 0 < step) (h0 : P a s)
    (hstep : ∀ i s, a ≤ i → i < b → P i s → Ends (body i s) (P (i + step))) :
    Ends (forStep a b step s body) fun r => b ≤ r.1 ∧ P r.1 r.2 := by
  refine Ends.mono (Ends.whileLoop (fun p : ℕ × σ => a ≤ p.1 ∧ P p.1 p.2) (fun p => b - p.1)
    (fun p hp hc => ?_) (b - a) (a, s) ⟨Nat.le_refl a, h0⟩ (Nat.le_refl _))
    fun p hp => ⟨by simpa using hp.2, hp.1.2⟩
  have hlt : p.1 < b := by simpa using hc
  refine (hstep p.1 p.2 hp.1 hlt hp.2).bind fun t ht => Ends.ok ⟨⟨?_, ht⟩, ?_⟩
  · show a ≤ p.1 + step
    exact Nat.le_add_right_of_le hp.1
  · show b - (p.1 + step) < b - p.1
    omega

/-- Partial correctness of a `for` with a stride. -/
theorem Yields.forStep (P : ℕ → σ → Prop) {a b step : ℕ} {s : σ} (h0 : P a s)
    (hstep : ∀ i s, a ≤ i → i < b → P i s → Yields (body i s) (P (i + step))) :
    Yields (forStep a b step s body) fun r => b ≤ r.1 ∧ P r.1 r.2 := by
  refine Yields.mono (Yields.whileLoop (fun p : ℕ × σ => a ≤ p.1 ∧ P p.1 p.2)
    (fun p hp hc => ?_) (b - a) (a, s) ⟨Nat.le_refl a, h0⟩)
    fun p hp => ⟨by simpa using hp.2, hp.1.2⟩
  exact (hstep p.1 p.2 hp.1 (by simpa using hc) hp.2).bind fun t ht =>
    Yields.ok ⟨Nat.le_add_right_of_le hp.1, ht⟩

/-- A loop whose body projects on the body of another one. -/
theorem map_whileLoop {τ : Type} (p : σ → τ) {cond : σ → Bool} {cond' : τ → Bool}
    {body : σ → Run σ} {body' : τ → Run τ} (hc : ∀ s, cond s = cond' (p s))
    (hb : ∀ s, p <$> body s = body' (p s)) (fuel : ℕ) (s : σ) :
    p <$> whileLoop cond body fuel s = whileLoop cond' body' fuel (p s) := by
  induction fuel generalizing s with
  | zero =>
    rw [Checked.whileLoop, Checked.whileLoop, ← hc]
    split <;> rfl
  | succ fuel ih =>
    rw [Checked.whileLoop, Checked.whileLoop, ← hc]
    split
    · exact map_bind_eq (hb s) ih
    · rfl

theorem map_forStep {τ : Type} (p : σ → τ) {body' : ℕ → τ → Run τ}
    (hb : ∀ i s, p <$> body i s = body' i (p s)) (a b step : ℕ) (s : σ) :
    Prod.map id p <$> forStep a b step s body = forStep a b step (p s) body' := by
  unfold Checked.forStep
  refine map_whileLoop (Prod.map id p) ?_ ?_ (b - a) (a, s)
  · exact fun _ => rfl
  · exact fun r => map_bind_eq (hb r.1 r.2) fun _ => rfl

/-- A counted `for` whose bound is reached at the start. -/
theorem forStep_of_le {a b : ℕ} (h : b ≤ a) (step : ℕ) (s : σ) (body : ℕ → σ → Run σ) :
    forStep a b step s body = .ok (a, s) := by
  unfold Checked.forStep
  exact whileLoop_of_not (by exact decide_eq_false (Nat.not_lt.2 h)) (b - a)

theorem forUp_of_le {a b : ℕ} (h : b ≤ a) (s : σ) (body : ℕ → σ → Run σ) :
    forUp a b s body = .ok (a, s) := forStep_of_le h 1 s body

/-- Total correctness of a counted `for`: the counter ends at the bound. -/
theorem Ends.forUp (P : ℕ → σ → Prop) {a b : ℕ} {s : σ} (hab : a ≤ b) (h0 : P a s)
    (hstep : ∀ i s, a ≤ i → i < b → P i s → Ends (body i s) (P (i + 1))) :
    Ends (forUp a b s body) fun r => r.1 = b ∧ P b r.2 := by
  refine (Ends.forStep (fun i s => i ≤ b ∧ P i s) Nat.one_pos ⟨hab, h0⟩
    fun i s ha hi hP => (hstep i s ha hi hP.2).mono fun t ht => ⟨hi, ht⟩).mono ?_
  intro p h
  obtain ⟨i, t⟩ := p
  obtain ⟨hb, hle, hP⟩ := h
  obtain rfl : i = b := Nat.le_antisymm hle hb
  exact ⟨rfl, hP⟩

/-- Partial correctness of a counted `for`. -/
theorem Yields.forUp (P : ℕ → σ → Prop) {a b : ℕ} {s : σ} (hab : a ≤ b) (h0 : P a s)
    (hstep : ∀ i s, a ≤ i → i < b → P i s → Yields (body i s) (P (i + 1))) :
    Yields (forUp a b s body) fun r => r.1 = b ∧ P b r.2 := by
  refine (Yields.forStep (fun i s => i ≤ b ∧ P i s) ⟨hab, h0⟩
    fun i s ha hi hP => (hstep i s ha hi hP.2).mono fun t ht => ⟨hi, ht⟩).mono ?_
  intro p h
  obtain ⟨i, t⟩ := p
  obtain ⟨hb, hle, hP⟩ := h
  obtain rfl : i = b := Nat.le_antisymm hle hb
  exact ⟨rfl, hP⟩

/-- Total correctness of a loop over integers. -/
theorem Ends.forRange (P : ℤ → σ → Prop) {a b : ℤ} {s : σ} {body : ℤ → σ → Run σ}
    (hab : a ≤ b + 1) (h0 : P a s)
    (hstep : ∀ j s, a ≤ j → j ≤ b → P j s → Ends (body j s) (P (j + 1))) :
    Ends (forRange a b s body) (P (b + 1)) := by
  refine (Ends.forUp (fun k s => P (a + k) s) (Nat.zero_le _) (by simpa using h0) ?_).bind ?_
  · intro k s _ hk hP
    refine (hstep (a + k) s (by omega) (by omega) hP).mono fun t ht => ?_
    rwa [Int.add_assoc] at ht
  · intro r hr
    have hend : a + ((b + 1 - a).toNat : ℤ) = b + 1 := by omega
    exact Ends.ok (hend ▸ hr.2)

end

end Checked
