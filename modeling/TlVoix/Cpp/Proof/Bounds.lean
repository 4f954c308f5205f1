import TlVoix.Cpp.Classif
import TlVoix.Cpp.Proof.Dtw
import TlVoix.Cpp.Proof.Lecture

/-!
# The accesses of `dtw` during a recognition

* `dtw_ok_iff`: `dtw` stays in its arrays exactly if both pieces have a frame.
* `hashmap_ok_iff`: so `classif` fills its map exactly if every call of `dtw` does.
* `dtw_inBounds_iff`: with the shipped parameters, on pieces built by `lecture`, that is if every
  recording has at least `tailleFrame` samples, or the base is empty.
-/

namespace TlVoix

open Checked

section
variable {P : Parameters} {K : Type} [Field K] [LinearOrder K] [LibM K]

omit [Field K] [LinearOrder K] [LibM K] in
theorem yields_frame (m : Morceau P K) (i : ℕ) : Yields (m.frame i) fun _ => i < m.getNFrames := by
  intro f hf
  by_contra hi
  have hsize : ¬i < m.frames.size := m.alloc ▸ hi
  simp [Morceau.frame, Morceau.getFrames, hsize] at hf

/-- `dtw` begins with the first frames, which have to exist. -/
theorem yields_dtw (m1 m2 : Morceau P K) :
    Yields (dtw m1 m2) fun _ => 1 ≤ m1.getNFrames ∧ 1 ≤ m2.getNFrames := by
  have hfirst : Yields (do pure (distance (← m1.frame 0) (← m2.frame 0)) : Run K) fun _ =>
      1 ≤ m1.getNFrames ∧ 1 ≤ m2.getNFrames :=
    (yields_frame m1 0).bind fun _ h1 => (yields_frame m2 0).bind fun _ h2 => Yields.ok ⟨h1, h2⟩
  have hcell : Yields (dtw.distances m1.getNFrames m2.getNFrames fun i j => do
      pure (distance (← m1.frame i) (← m2.frame j))) fun _ =>
      1 ≤ m1.getNFrames ∧ 1 ≤ m2.getNFrames := hfirst.bind fun _ h _ _ => h
  exact hcell.bind fun _ h => Yields.ok h

theorem dtw_ok_iff [IsStrictOrderedRing K] {m1 m2 : Morceau P K} :
    (∃ v, dtw m1 m2 = .ok v) ↔ 1 ≤ m1.getNFrames ∧ 1 ≤ m2.getNFrames :=
  ⟨fun ⟨v, hv⟩ => yields_dtw m1 m2 v hv,
    fun h => (ends_dtw h.1 h.2).elim fun v hv => ⟨v, hv.1⟩⟩

theorem hashmap_ok_iff {m : Morceau P K} {base : List (Morceau P K)} :
    (∃ t, classif.hashmap m base = .ok t) ↔ ∀ b ∈ base, ∃ v, dtw m b = .ok v := by
  unfold classif.hashmap
  generalize (∅ : Std.TreeMap K ℤ) = t0
  induction base generalizing t0 with
  | nil => simp
  | cons b base ih =>
    rw [List.foldlM_cons, List.forall_mem_cons]
    constructor
    · intro h
      obtain ⟨t, ht⟩ := h
      obtain ⟨t1, ht1, ht⟩ := bind_eq_ok.1 ht
      obtain ⟨v, hv, -⟩ := bind_eq_ok.1 ht1
      exact ⟨⟨v, hv⟩, (ih t1).1 ⟨t, ht⟩⟩
    · intro h
      obtain ⟨⟨v, hv⟩, hbase⟩ := h
      rw [hv]
      exact (ih _).2 hbase

end

/-- Every access made by the `dtw` calls of `classif` is in its arrays, and no divisor is zero. -/
def DtwInBounds {P : Parameters} (m : Morceau P ℝ) (base : List (Morceau P ℝ)) : Prop :=
  (∃ t, classif.hashmap m base = .ok t) ∧ ∀ b ∈ base, m.getNFrames + b.getNFrames ≠ 0

/-- The piece is built by `lecture` from the recording `infile`, whatever the stack holds. -/
def Lu {σ : Type} (sf : Sndfile σ ℝ) (son : σ → List ℝ) (infile : Option σ)
    (m : Morceau parameters ℝ) : Prop :=
  ∃ (pile : ℕ → ℕ → ℝ) (fuel : ℕ) (classe : ℤ), (samples son infile).length ≤ fuel ∧
    lecture parameters sf (fun n i => some (pile n i)) fuel infile classe = .ok m

section
variable {σ : Type} {sf : Sndfile σ ℝ} {son : σ → List ℝ}

theorem dtwInBounds_iff_frames {P : Parameters} {m : Morceau P ℝ} {base : List (Morceau P ℝ)} :
    DtwInBounds m base ↔ base = [] ∨ 1 ≤ m.getNFrames ∧ ∀ b ∈ base, 1 ≤ b.getNFrames := by
  rw [DtwInBounds, hashmap_ok_iff]
  simp only [dtw_ok_iff]
  constructor
  · intro hr
    obtain ⟨h, -⟩ := hr
    cases base with
    | nil => exact .inl rfl
    | cons b base => exact .inr ⟨(h b List.mem_cons_self).1, fun b hb => (h b hb).2⟩
  · intro hr
    rcases hr with rfl | ⟨hm, hbase⟩
    · simp
    · exact ⟨fun b hb => ⟨hm, hbase b hb⟩, fun b hb => by omega⟩

/-- `lecture` with the shipped parameters never faults. -/
theorem exists_lu (hsf : sf.Reads son) (infile : Option σ) : ∃ m, Lu sf son infile m := by
  obtain ⟨m, hm, -⟩ := ends_lecture hsf (h := 128) (by decide) (.inr ⟨le_rfl, by decide⟩)
    (fun _ _ => 0) (le_refl (samples son infile).length) 0
  exact ⟨m, fun _ _ => 0, _, 0, le_rfl, hm⟩

theorem Lu.getNFrames (hsf : sf.Reads son) {infile : Option σ} {m : Morceau parameters ℝ}
    (h : Lu sf son infile m) : m.getNFrames = (samples son infile).length / 128 - 1 := by
  obtain ⟨pile, fuel, classe, hfuel, hm⟩ := h
  obtain ⟨m', hm', hf⟩ := ends_lecture hsf (h := 128) (by decide) (.inr ⟨le_rfl, by decide⟩) pile
    hfuel classe
  obtain rfl := Except.ok.inj (hm.symm.trans hm')
  exact hf.count

theorem Lu.one_le_iff (hsf : sf.Reads son) {infile : Option σ} {m : Morceau parameters ℝ}
    (h : Lu sf son infile m) :
    1 ≤ m.getNFrames ↔ parameters.tailleFrame ≤ (samples son infile).length := by
  rw [h.getNFrames hsf, parameters]
  dsimp only
  omega

end

/-- **No absent frame is indexed** exactly if the base is empty, or the unknown recording and every
recording of the base have a frame. -/
theorem dtw_inBounds_iff {σ : Type} (sf : Sndfile σ ℝ) (son : σ → List ℝ) (hsf : sf.Reads son)
    (nom : Option σ) (m : Morceau parameters ℝ) (hm : Lu sf son nom m)
    (fichiers : List (Option σ)) (base : List (Morceau parameters ℝ))
    (hbase : List.Forall₂ (Lu sf son) fichiers base) :
    DtwInBounds m base ↔ fichiers = [] ∨
      parameters.tailleFrame ≤ (samples son nom).length ∧
      ∀ f ∈ fichiers, parameters.tailleFrame ≤ (samples son f).length := by
  have hall : (∀ b ∈ base, 1 ≤ b.getNFrames) ↔
      ∀ f ∈ fichiers, parameters.tailleFrame ≤ (samples son f).length := by
    induction hbase with
    | nil => simp
    | cons h _ ih => rw [List.forall_mem_cons, List.forall_mem_cons, h.one_le_iff hsf, ih]
  have hnil : base = [] ↔ fichiers = [] := by
    cases hbase <;> simp
  rw [dtwInBounds_iff_frames, hall, hnil, hm.one_le_iff hsf]

theorem dtw_inBounds_256 : ∃ m b : Morceau parameters ℝ,
    Lu .memory id (some (List.replicate 256 1)) m ∧
    Lu .memory id (some (List.replicate 256 0)) b ∧ DtwInBounds m [b] := by
  obtain ⟨m, hm⟩ := exists_lu Sndfile.memory_reads (some (List.replicate 256 1))
  obtain ⟨b, hb⟩ := exists_lu Sndfile.memory_reads (some (List.replicate 256 0))
  refine ⟨m, b, hm, hb, (dtw_inBounds_iff .memory id Sndfile.memory_reads _ m hm
    [some (List.replicate 256 0)] [b] (.cons hb .nil)).2 (.inr ⟨?_, ?_⟩)⟩
  · exact (length_samples_replicate 256 1).ge
  · rw [List.forall_mem_singleton]
    exact (length_samples_replicate 256 0).ge

/-- A file that cannot be opened, against a recording of one frame. -/
theorem not_dtw_inBounds : ∃ m b : Morceau parameters ℝ, Lu .memory id none m ∧
    Lu .memory id (some (List.replicate 256 0)) b ∧ ¬DtwInBounds m [b] := by
  obtain ⟨m, hm⟩ := exists_lu Sndfile.memory_reads none
  obtain ⟨b, hb⟩ := exists_lu Sndfile.memory_reads (some (List.replicate 256 0))
  refine ⟨m, b, hm, hb, fun h => ?_⟩
  have h0 := hm.getNFrames Sndfile.memory_reads
  rcases dtwInBounds_iff_frames.1 h with h | ⟨h, -⟩
  · simp at h
  · rw [h0] at h
    simp [samples] at h

end TlVoix
