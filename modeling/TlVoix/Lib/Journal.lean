import TlVoix.Lib.Arr

/-!
# Journals of writes

A `Journal` is a checked array with the list of the indices that a run has written, oldest first.
Its accesses are those of the array and fault as they do: `map_set` projects a write on the write to
the array, so that by the rules of `Checked.Run` a program that runs on a journal projects on the
program that runs on the array.
-/

namespace Checked

/-- An array and the indices written so far. -/
structure Journal (ι α : Type) where
  arr : Arr ι α
  writes : List ι

namespace Journal

variable {ι α : Type}

/-- An array with nothing written yet. -/
def start (a : Arr ι α) : Journal ι α := ⟨a, []⟩

/-- `a[i]`. -/
def get (j : Journal ι α) (i : ι) : Run α := j.arr.get i

variable [DecidableEq ι]

/-- `a[i] = v`. -/
def set (j : Journal ι α) (i : ι) (v : α) : Run (Journal ι α) := do
  let arr ← j.arr.set i v
  pure ⟨arr, j.writes ++ [i]⟩

theorem map_set (j : Journal ι α) (i : ι) (v : α) : arr <$> j.set i v = j.arr.set i v := by
  unfold set
  cases j.arr.set i v <;> rfl

/-- A write in bounds; the array is described by the lemmas on `Arr.set`. -/
theorem ends_set {j : Journal ι α} {i : ι} (h : j.arr.dom i = true) (v : α) :
    Ends (j.set i v) fun k => j.arr.set i v = .ok k.arr ∧ k.writes = j.writes ++ [i] :=
  (Arr.ends_set h v).bind fun _ ha => Ends.ok ⟨ha, rfl⟩

end Journal

end Checked
