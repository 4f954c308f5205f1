import TlVoix.Lib.Run
import Mathlib.Algebra.Ring.Parity
import Mathlib.Logic.Function.Basic
import Mathlib.Tactic.Common

/-!
# Checked arrays

`Arr ι α` is an array as a run sees it: the indices it has cells for (`dom`) and what each cell
holds (`val`, `none` where nothing was stored yet). A read or a write outside `dom` is a fault, and
so is a read of a cell that holds nothing; a block copy (`copyTo`) moves unassigned cells as they
are. The index type is arbitrary: `ℕ` for a C array, pairs for a table, `ℤ` where the program's
index may be negative.

`a.Holds i v` says that cell `i` exists and holds `v`; every read is rewritten with it (`get_ok`),
every write gives it (`holds_set_self`) and keeps it elsewhere (`holds_set_ne`). The accesses have
their rules for runs: `ends_set` and `ends_copyTo`, `yields_get` and `yields_set`.
`full D f` is the array of which the cells are `D` and hold `f`, with an equation for each access.
`a.Is n f` says that `a` has exactly `n` cells and that they hold `f`: for a loop that updates an
assigned array in place, `Is.get_ok` and `Is.ends_set` are all it needs, with `replaced` for the
contents while it goes over the cells in order; `Fills` is the invariant of a loop that assigns
the cells of a new array.
`interleave` is the contents of an array of pairs.
-/

namespace Checked

/-- An array: its cells and their contents. -/
structure Arr (ι α : Type) where
  dom : ι → Bool
  val : ι → Option α

namespace Arr

variable {ι α : Type}

/-- An array of `n` cells, with the contents `indet` that the memory had before. -/
def alloc (n : ℕ) (indet : ℕ → Option α) : Arr ℕ α := ⟨fun i => decide (i < n), indet⟩

/-- An array of `n` cells in which nothing is stored. -/
def fresh (n : ℕ) : Arr ℕ α := alloc n fun _ => none

/-- A table of `n` rows and `m` columns in which nothing is stored. -/
def fresh2 (n m : ℕ) : Arr (ℕ × ℕ) α := ⟨fun p => decide (p.1 < n ∧ p.2 < m), fun _ => none⟩

/-- An array of `n` cells that hold `f`. -/
def ofFn (n : ℕ) (f : ℕ → α) : Arr ℕ α := alloc n fun i => some (f i)

/-- An array with the cells `D`, which hold `f`. -/
def full (D : ι → Bool) (f : ι → α) : Arr ι α := ⟨D, fun i => if D i then some (f i) else none⟩

/-- Every assigned cell through `g`. -/
def map {β : Type} (g : α → β) (a : Arr ι α) : Arr ι β := ⟨a.dom, fun i => (a.val i).map g⟩

/-- `a[i]`. -/
def get (a : Arr ι α) (i : ι) : Run α :=
  if a.dom i then
    match a.val i with
    | some v => pure v
    | none => throw .uninitialised
  else throw .outOfBounds

/-- `a[i] = v`. -/
def set [DecidableEq ι] (a : Arr ι α) (i : ι) (v : α) : Run (Arr ι α) :=
  if a.dom i then pure { a with val := Function.update a.val i (some v) } else throw .outOfBounds

/-- The first `n` cells of `src`, copied from cell `off` of `dst` on. -/
def copyTo (src : Arr ℕ α) (n : ℕ) (dst : Arr ℕ α) (off : ℕ) : Run (Arr ℕ α) :=
  if ∀ i < n, src.dom i = true ∧ dst.dom (off + i) = true then
    pure { dst with val := fun i => if off ≤ i ∧ i < off + n then src.val (i - off) else dst.val i }
  else throw .outOfBounds

/-- An array of exactly `n` cells that are all assigned, as a vector. -/
def toVector (a : Arr ℕ α) (n : ℕ) : Run (Vector α n) :=
  if h : ∀ i < n, a.dom i = true ∧ (a.val i).isSome then
    pure (Vector.ofFn fun i : Fin n => (a.val i).get (h i i.2).2)
  else throw .uninitialised

/-- Cell `i` exists and holds `v`. -/
def Holds (a : Arr ι α) (i : ι) (v : α) : Prop := a.dom i = true ∧ a.val i = some v

/-! ## Reads -/

theorem get_ok {a : Arr ι α} {i : ι} {v : α} (h : a.Holds i v) : a.get i = .ok v := by
  simp [get, h.1, h.2]

theorem get_eq_ok {a : Arr ι α} {i : ι} {v : α} : a.get i = .ok v ↔ a.Holds i v := by
  refine ⟨fun h => ?_, get_ok⟩
  unfold get at h
  split at h
  · rename_i hd
    split at h
    · rename_i w hw
      rw [pure_eq_ok, Except.ok.injEq] at h
      exact ⟨hd, h ▸ hw⟩
    · cases h
  · cases h

theorem yields_get (a : Arr ι α) (i : ι) : Yields (a.get i) (a.Holds i) :=
  fun _ h => get_eq_ok.1 h

theorem Holds.inj {a : Arr ι α} {i : ι} {v w : α} (h : a.Holds i v) (h' : a.Holds i w) : v = w :=
  Option.some.inj (h.2.symm.trans h'.2)

/-! ## Writes -/

section
variable [DecidableEq ι]

theorem set_ok {a : Arr ι α} {i : ι} (h : a.dom i = true) (v : α) :
    a.set i v = .ok { a with val := Function.update a.val i (some v) } := by
  simp [set, h]

theorem set_eq_ok {a b : Arr ι α} {i : ι} {v : α} :
    a.set i v = .ok b ↔
      a.dom i = true ∧ b = { a with val := Function.update a.val i (some v) } := by
  unfold set
  split
  · rename_i hd
    simp only [pure_eq_ok, Except.ok.injEq, hd, true_and]
    exact eq_comm
  · rename_i hd
    simp [hd]

theorem set_error {a : Arr ι α} {i : ι} (h : ¬a.dom i = true) (v : α) :
    a.set i v = .error .outOfBounds := by
  simp [set, h]

theorem dom_set {a b : Arr ι α} {i : ι} {v : α} (h : a.set i v = .ok b) : b.dom = a.dom := by
  rw [(set_eq_ok.1 h).2]

theorem holds_set_self {a b : Arr ι α} {i : ι} {v : α} (h : a.set i v = .ok b) : b.Holds i v := by
  obtain ⟨hd, rfl⟩ := set_eq_ok.1 h
  exact ⟨hd, Function.update_self ..⟩

theorem val_set_ne {a b : Arr ι α} {i j : ι} {v : α} (h : a.set i v = .ok b) (hne : j ≠ i) :
    b.val j = a.val j := by
  obtain ⟨-, rfl⟩ := set_eq_ok.1 h
  exact Function.update_of_ne hne ..

theorem holds_set_ne {a b : Arr ι α} {i j : ι} {v w : α} (h : a.set i v = .ok b) (hne : j ≠ i)
    (hj : a.Holds j w) : b.Holds j w :=
  ⟨by rw [dom_set h]; exact hj.1, by rw [val_set_ne h hne]; exact hj.2⟩

/-- A write in bounds succeeds; its result is described by `dom_set`, `holds_set_self` and
`val_set_ne`. -/
theorem ends_set {a : Arr ι α} {i : ι} (h : a.dom i = true) (v : α) :
    Ends (a.set i v) fun b => a.set i v = .ok b := ⟨_, set_ok h v, set_ok h v⟩

theorem yields_set (a : Arr ι α) (i : ι) (v : α) :
    Yields (a.set i v) fun b => a.dom i = true ∧ a.set i v = .ok b :=
  fun _ h => ⟨(set_eq_ok.1 h).1, h⟩

/-- A write that succeeds finds its cell, and keeps the cells. -/
theorem yields_set_dom (a : Arr ι α) (i : ι) (v : α) :
    Yields (a.set i v) fun b => a.dom i = true ∧ b.dom = a.dom :=
  (yields_set a i v).mono fun _ h => ⟨h.1, dom_set h.2⟩

end

/-! ## Allocations and copies -/

@[simp] theorem dom_alloc (n : ℕ) (indet : ℕ → Option α) (i : ℕ) :
    (alloc n indet).dom i = true ↔ i < n := by simp [alloc]

@[simp] theorem dom_fresh (n i : ℕ) : (fresh n : Arr ℕ α).dom i = true ↔ i < n := by
  simp [fresh]

@[simp] theorem dom_fresh2 (n m : ℕ) (p : ℕ × ℕ) :
    (fresh2 n m : Arr (ℕ × ℕ) α).dom p = true ↔ p.1 < n ∧ p.2 < m := by simp [fresh2]

@[simp] theorem dom_ofFn (n i : ℕ) (f : ℕ → α) : (ofFn n f).dom i = true ↔ i < n := by
  simp [ofFn]

theorem holds_ofFn {n i : ℕ} (f : ℕ → α) (h : i < n) : (ofFn n f).Holds i (f i) :=
  ⟨by simpa using h, rfl⟩

theorem ends_copyTo {src dst : Arr ℕ α} {n off : ℕ}
    (h : ∀ i < n, src.dom i = true ∧ dst.dom (off + i) = true) :
    Ends (src.copyTo n dst off) fun b => b.dom = dst.dom ∧
      (∀ i < n, b.val (off + i) = src.val i) ∧
      ∀ i, i < off ∨ off + n ≤ i → b.val i = dst.val i := by
  refine ⟨{ dst with
    val := fun i => if off ≤ i ∧ i < off + n then src.val (i - off) else dst.val i },
    by rw [copyTo, if_pos h]; rfl, rfl, fun i hi => ?_, fun i hi => ?_⟩
  · simp [hi]
  · have : ¬(off ≤ i ∧ i < off + n) := by omega
    simp [this]

/-! ## Assigned arrays -/

/-- The array has `n` cells, which hold `f`. -/
structure Is (a : Arr ℕ α) (n : ℕ) (f : ℕ → α) : Prop where
  dom : ∀ i, a.dom i = true ↔ i < n
  holds : ∀ i, i < n → a.Holds i (f i)

theorem is_ofFn (n : ℕ) (f : ℕ → α) : (ofFn n f).Is n f :=
  ⟨fun i => dom_ofFn n i f, fun _ hi => holds_ofFn f hi⟩

theorem Is.get_ok {a : Arr ℕ α} {n i : ℕ} {f : ℕ → α} (h : a.Is n f) (hi : i < n) :
    a.get i = .ok (f i) := Arr.get_ok (h.holds i hi)

theorem Is.ends_set {a : Arr ℕ α} {n i : ℕ} {f : ℕ → α} (h : a.Is n f) (hi : i < n) (v : α) :
    Ends (a.set i v) fun b => b.Is n (Function.update f i v) := by
  refine (Arr.ends_set ((h.dom i).2 hi) v).mono fun b hb =>
    ⟨fun j => by rw [dom_set hb, h.dom], fun j hj => ?_⟩
  by_cases hji : j = i
  · subst hji
    rw [Function.update_self]
    exact holds_set_self hb
  · rw [Function.update_of_ne hji]
    exact holds_set_ne hb hji (h.holds j hj)

theorem Is.congr {a : Arr ℕ α} {n : ℕ} {f g : ℕ → α} (h : a.Is n f) (hfg : ∀ i < n, f i = g i) :
    a.Is n g := ⟨h.dom, fun i hi => hfg i hi ▸ h.holds i hi⟩

/-- Cell `i` exists and holds some value. -/
def Assigned (a : Arr ι α) (i : ι) : Prop := ∃ v, a.Holds i v

/-- The contents of assigned cells, as a function (`d` elsewhere). -/
theorem exists_holds {a : Arr ℕ α} {n : ℕ} (d : α) (h : ∀ i < n, a.Assigned i) :
    ∃ f : ℕ → α, ∀ i < n, a.Holds i (f i) := by
  refine ⟨fun i => (a.val i).getD d, fun i hi => ?_⟩
  obtain ⟨v, hv⟩ := h i hi
  simp only [hv.2, Option.getD_some]
  exact hv

theorem toVector_ok {a : Arr ℕ α} {n : ℕ} {f : ℕ → α} (h : ∀ i < n, a.Holds i (f i)) :
    a.toVector n = .ok (Vector.ofFn fun i : Fin n => f i) := by
  have hs : ∀ i < n, a.dom i = true ∧ (a.val i).isSome := fun i hi =>
    ⟨(h i hi).1, by rw [(h i hi).2]; rfl⟩
  rw [toVector, dif_pos hs, pure_eq_ok]
  congr 2
  funext i
  exact Option.get_of_eq_some _ (h i i.2).2

theorem holds_of_toVector {a : Arr ℕ α} {n : ℕ} {v : Vector α n} (h : a.toVector n = .ok v) {i : ℕ}
    (hi : i < n) : a.Holds i (getElem v i hi) := by
  unfold toVector at h
  split at h
  · rename_i hs
    obtain rfl := Except.ok.inj h
    exact ⟨(hs i hi).1, by simp⟩
  · cases h

theorem toVector_assigned {a : Arr ℕ α} {n : ℕ} (h : ∀ i < n, a.Assigned i) :
    ∃ v, a.toVector n = .ok v := by
  have hs : ∀ i < n, a.dom i = true ∧ (a.val i).isSome := fun i hi => by
    obtain ⟨v, hd, hv⟩ := h i hi
    exact ⟨hd, by rw [hv]; rfl⟩
  exact ⟨_, dif_pos hs⟩

/-! ## Arrays by their cells -/

theorem holds_full {D : ι → Bool} {i : ι} (f : ι → α) (h : D i = true) :
    (full D f).Holds i (f i) := ⟨h, if_pos h⟩

theorem get_full {D : ι → Bool} {i : ι} (f : ι → α) (h : D i = true) :
    (full D f).get i = .ok (f i) := get_ok (holds_full f h)

theorem set_full [DecidableEq ι] {D : ι → Bool} {i : ι} (f : ι → α) (h : D i = true) (v : α) :
    (full D f).set i v = .ok (full D (Function.update f i v)) := by
  rw [set_ok (show (full D f).dom i = true from h)]
  congr 2
  funext j
  by_cases hji : j = i
  · subst hji
    simp [h]
  · simp [hji, full]

theorem full_inj {D : ι → Bool} {f g : ι → α} :
    full D f = full D g ↔ ∀ i, D i = true → f i = g i := by
  refine ⟨fun h i hi => (holds_full f hi).inj (h ▸ holds_full g hi), fun h => ?_⟩
  unfold full
  congr 1
  funext i
  split
  · rw [h i ‹_›]
  · rfl

theorem Holds.map {β : Type} {a : Arr ι α} {i : ι} {v : α} (h : a.Holds i v) (g : α → β) :
    (a.map g).Holds i (g v) := ⟨h.1, congrArg (Option.map g) h.2⟩

theorem map_full {β : Type} (D : ι → Bool) (g : α → β) (f : ι → α) :
    (full D f).map g = full D fun i => g (f i) := by
  unfold full map
  congr 1
  funext i
  dsimp only
  split <;> rfl

theorem map_get {β : Type} (g : α → β) (a : Arr ι α) (i : ι) : g <$> a.get i = (a.map g).get i := by
  unfold get map
  dsimp only
  split
  · cases a.val i <;> rfl
  · rfl

theorem map_set {β : Type} [DecidableEq ι] (g : α → β) (a : Arr ι α) (i : ι) (v : α) :
    map g <$> a.set i v = (a.map g).set i (g v) := by
  unfold set map
  dsimp only
  split
  · refine congrArg (fun w => Except.ok (⟨a.dom, w⟩ : Arr ι β)) (funext fun j => ?_)
    by_cases hji : j = i
    · subst hji
      simp
    · simp [hji]
  · rfl

/-! ## Loops over an array -/

/-- The array has `n` cells, and the first `i` of them hold `f`. -/
structure Fills (a : Arr ℕ α) (n i : ℕ) (f : ℕ → α) : Prop where
  dom : ∀ j, a.dom j = true ↔ j < n
  holds : ∀ j < i, a.Holds j (f j)

theorem fills_fresh (n : ℕ) (f : ℕ → α) : (fresh n : Arr ℕ α).Fills n 0 f :=
  ⟨fun j => dom_fresh n j, fun j hj => absurd hj (Nat.not_lt_zero j)⟩

theorem Fills.ends_set {a : Arr ℕ α} {n i : ℕ} {f : ℕ → α} (h : a.Fills n i f) (hi : i < n) :
    Ends (a.set i (f i)) fun b => b.Fills n (i + 1) f := by
  refine (Arr.ends_set ((h.dom i).2 hi) (f i)).mono fun b hb =>
    ⟨fun j => by rw [dom_set hb, h.dom], fun j hj => ?_⟩
  rcases Nat.lt_succ_iff_lt_or_eq.1 hj with hj | rfl
  · exact holds_set_ne hb (Nat.ne_of_lt hj) (h.holds j hj)
  · exact holds_set_self hb

theorem Fills.is {a : Arr ℕ α} {n : ℕ} {f : ℕ → α} (h : a.Fills n n f) : a.Is n f :=
  ⟨h.dom, h.holds⟩

/-- The contents of an array of which the first `i` cells, which held `f`, now hold `g`. -/
def replaced (i : ℕ) (g f : ℕ → α) (k : ℕ) : α := if k < i then g k else f k

theorem replaced_zero (g f : ℕ → α) : replaced 0 g f = f := by
  funext k
  exact if_neg (Nat.not_lt_zero k)

theorem replaced_self (i : ℕ) (g f : ℕ → α) : replaced i g f i = f i := if_neg (Nat.lt_irrefl i)

theorem replaced_of_lt {i k : ℕ} (h : k < i) (g f : ℕ → α) : replaced i g f k = g k := if_pos h

theorem replaced_of_le {i k : ℕ} (h : i ≤ k) (g f : ℕ → α) : replaced i g f k = f k :=
  if_neg (Nat.not_lt.2 h)

theorem update_replaced (i : ℕ) (g f : ℕ → α) :
    Function.update (replaced i g f) i (g i) = replaced (i + 1) g f := by
  funext k
  by_cases hki : k = i
  · subst hki
    rw [Function.update_self, replaced_of_lt (Nat.lt_succ_self k)]
  · have : k < i + 1 ↔ k < i := by omega
    rw [Function.update_of_ne hki]
    simp only [replaced, this]

/-! ## Interleaved arrays -/

/-- The contents `x 0, y 0, x 1, y 1, …`. -/
def interleave (x y : ℕ → α) (k : ℕ) : α := if k % 2 = 0 then x (k / 2) else y (k / 2)

@[simp] theorem interleave_even (x y : ℕ → α) (p : ℕ) : interleave x y (2 * p) = x p := by
  simp [interleave]

@[simp] theorem interleave_odd (x y : ℕ → α) (p : ℕ) : interleave x y (2 * p + 1) = y p := by
  have h2 : (2 * p + 1) / 2 = p := by omega
  simp [interleave, h2]

theorem update_interleave_even (x y : ℕ → α) (p : ℕ) (v : α) :
    Function.update (interleave x y) (2 * p) v = interleave (Function.update x p v) y := by
  funext k
  obtain ⟨q, rfl | rfl⟩ := Nat.even_or_odd' k
  · by_cases hq : q = p
    · simp [hq]
    · have : 2 * q ≠ 2 * p := by omega
      simp [hq, this]
  · have : 2 * q + 1 ≠ 2 * p := by omega
    simp [this]

theorem update_interleave_odd (x y : ℕ → α) (p : ℕ) (v : α) :
    Function.update (interleave x y) (2 * p + 1) v = interleave x (Function.update y p v) := by
  funext k
  obtain ⟨q, rfl | rfl⟩ := Nat.even_or_odd' k
  · have : 2 * q ≠ 2 * p + 1 := by omega
    simp [this]
  · by_cases hq : q = p
    · simp [hq]
    · have : 2 * q + 1 ≠ 2 * p + 1 := by omega
      simp [hq]

end Arr

end Checked
