import TlVoix.Cpp.Morceau
import TlVoix.Cpp.Proof.Features
import TlVoix.Cpp.Proof.Lpc
import Mathlib.Data.List.GetD

/-!
# `lecture` cuts a recording into overlapping frames

* `ends_create`, `yields_create`: the constructor of `Frame` on a frame of `2 h` samples, with the
  shipped orders: it stores the samples, if `128 ≤ h` and `8 ∣ h`; else it leaves its arrays.
* `Window`: the invariant of the loop of `lecture`. Before the test on the read that follows frame
  `n`, a full read leaves half frame `n` in the head of `concat` and half frame `n + 1` in `data`; a
  short read leaves what it may, and ends the loop.
* `lecture_framing_iff`: the pieces of `lecture` are `Framed`, if no frame is built or the
  constructor of `Frame` can run.
-/

namespace TlVoix

open Checked

/-! ## The constructor of `Frame` -/

/-- `set_lpc` of order one: the second cell of `autocorr` is read, with what the stack holds. -/
theorem ends_setLpc_one {K : Type} [Field K] (pile : ℕ → K) {signal lpc : Arr ℕ K} {s : ℕ → K}
    {taille : ℕ} (hs : ∀ j < taille, signal.Holds j (s j)) (ht : 3 ≤ taille)
    (hd : lpc.dom 0 = true) :
    Ends (Frame.setLpc (fun i => some (pile i)) signal taille 1 lpc) fun b => b.Holds 0 1 := by
  unfold Frame.setLpc
  refine (ends_autocorr hs (by omega) fun i hi => ?_).bind fun autocorr ⟨hdom, hR, hrest⟩ => ?_
  · rw [Arr.dom_alloc]
    omega
  have h1 : autocorr.Holds 1 (pile 1) := by
    refine ⟨?_, hrest 1 (Nat.le_refl 1)⟩
    rw [hdom, Arr.dom_alloc]
    omega
  rw [Arr.get_ok (hR 0 Nat.one_pos), Arr.get_ok h1]
  refine (Arr.ends_set hd _).bind fun lpc1 hlpc1 => ?_
  simp only [ok_bind, forUp_of_le (show 1 ≤ 2 by decide)]
  exact (Arr.ends_set (by rw [Arr.dom_set hlpc1]; exact hd) 1).mono fun b hb =>
    Arr.holds_set_self hb

section
variable {L : ℕ}

theorem ends_create (pile : ℕ → ℝ) {signal : Arr ℕ ℝ} {s : ℕ → ℝ} (h256 : 256 ≤ L)
    (h16 : 16 ∣ L) (hs : ∀ j < L, signal.Holds j (s j)) :
    Ends (Frame.create ⟨L, 1, 25⟩ (fun i => some (pile i)) signal L 1 25) fun f =>
      f.signal = Vector.ofFn fun i : Fin L => s i := by
  refine (Arr.ends_copyTo fun i hi => ⟨(hs i hi).1, ?_⟩).bind ?_
  · rw [Arr.dom_fresh]
    show 0 + i < L
    omega
  intro signal' h
  obtain ⟨hd, hv, -⟩ := h
  have hs' : ∀ j < L, signal'.Holds j (s j) := fun j hj => by
    have := hv j hj
    rw [Nat.zero_add] at this
    exact ⟨by rw [hd, Arr.dom_fresh]; exact hj, by rw [this, (hs j hj).2]⟩
  refine (ends_setLpc_one pile hs' (by omega) ((Arr.dom_fresh 1 0).2 Nat.one_pos)).bind
    fun lpc hlpc => ?_
  refine (ends_setMfcc hs' h256 (.inr (by omega)) (by decide) fun i hi =>
    (Arr.dom_fresh 25 i).2 hi).bind fun mfcc hmfcc => ?_
  obtain ⟨vlpc, hvlpc⟩ := Arr.toVector_assigned (a := lpc) (n := 1) fun i hi => by
    obtain rfl : i = 0 := by omega
    exact ⟨1, hlpc⟩
  obtain ⟨vmfcc, hvmfcc⟩ := Arr.toVector_assigned hmfcc
  rw [Arr.toVector_ok hs']
  simp only [ok_bind]
  rw [hvlpc]
  simp only [ok_bind]
  rw [hvmfcc]
  exact Ends.ok rfl

/-- On every other even length the constructor faults. -/
theorem yields_create {K : Type} [Field K] [LinearOrder K] [LibM K] (pile : ℕ → Option K)
    (signal : Arr ℕ K) (hint : L < 2 ^ 31) (heven : L % 2 = 0) :
    Yields (Frame.create ⟨L, 1, 25⟩ pile signal L 1 25) fun _ => 256 ≤ L ∧ 16 ∣ L :=
  (Yields.self _).bind fun signal' _ => (Yields.self _).bind fun _ _ =>
    (yields_setMfcc signal' _ hint).bind fun _ h _ _ => by
      obtain ⟨h256, hmore⟩ := h
      obtain ⟨h16, -⟩ := hmore (by decide)
      exact ⟨h256, by omega⟩

end

/-! ## The recording -/

section
variable {σ K : Type}

/-- The samples of a file that remain to be read; none if it could not be opened. -/
def samples (son : σ → List K) : Option σ → List K
  | none => []
  | some s => son s

/-- What `sf_read_double` does, on an opened file or not. -/
structure ReadDouble (son : σ → List K) (infile : Option σ) (data : Arr ℕ K) (len : ℕ)
    (r : ℕ × Arr ℕ K × Option σ) : Prop where
  count : r.1 = min len (samples son infile).length
  dom : r.2.1.dom = data.dom
  head : ∀ i < min len (samples son infile).length, r.2.1.val i = (samples son infile)[i]?
  rest : samples son r.2.2 = (samples son infile).drop len

theorem Sndfile.Reads.sfReadDouble {sf : Sndfile σ K} {son : σ → List K} (h : sf.Reads son)
    (infile : Option σ) (data : Arr ℕ K) (len : ℕ) :
    ReadDouble son infile data len (sfReadDouble sf infile data len) := by
  cases infile with
  | none => exact ⟨by simp [TlVoix.sfReadDouble, samples], rfl, by simp [samples],
      by simp [TlVoix.sfReadDouble, samples]⟩
  | some s => exact ⟨h.count s data len, h.dom s data len, h.head s data len, h.rest s data len⟩

/-- A piece made of the frames of `P.tailleFrame` samples that begin every `h` samples of `son`. -/
structure Framed {P : Parameters} (h : ℕ) (son : List K) (m : Morceau P K) : Prop where
  count : m.getNFrames = son.length / h - 1
  signal : ∀ t < m.getNFrames, ∃ f, m.frame t = .ok f ∧
    ∀ u (hu : u < P.tailleFrame), son[h * t + u]? = some f.getSignal[u]

end

/-! ## The loop of `lecture` -/

section
variable {σ : Type} {h : ℕ} {x : List ℝ} {son : σ → List ℝ}

/-- Before the test of the loop, after `s.nFrames` frames of the recording `x`. -/
structure Window (h : ℕ) (x : List ℝ) (son : σ → List ℝ) (s : Lecture ⟨2 * h, 1, 25⟩ σ ℝ) :
    Prop where
  built : s.nFrames = 0 ∨ h * (s.nFrames + 1) ≤ x.length
  lu : s.lu = min h (x.length - h * (s.nFrames + 1))
  rest : samples son s.infile = x.drop (h * (s.nFrames + 2))
  domData : ∀ i, s.data.dom i = true ↔ i < h
  domConcat : ∀ i, s.concat.dom i = true ↔ i < 2 * h
  data : s.lu = h → ∀ i < h, s.data.val i = x[h * (s.nFrames + 1) + i]?
  concat : s.lu = h → ∀ i < h, s.concat.val i = x[h * s.nFrames + i]?
  length : s.frames.length = s.nFrames
  frames : ∀ t f, s.frames[t]? = some f → ∀ u (hu : u < 2 * h),
    x[h * t + u]? = some (getElem f.getSignal u hu)

theorem Window.full {s : Lecture ⟨2 * h, 1, 25⟩ σ ℝ} (hw : Window h x son s) (hh : 1 ≤ h)
    (hlu : s.lu = h) : h * s.nFrames + 2 * h ≤ x.length := by
  have := hw.lu
  rw [hlu, Nat.mul_succ] at this
  omega

theorem forall_getElem?_append {α : Type} {l : List α} {a : α} {n : ℕ} {Q : ℕ → α → Prop}
    (hlen : l.length = n) (hl : ∀ t b, l[t]? = some b → Q t b) (ha : Q n a) :
    ∀ t b, (l ++ [a])[t]? = some b → Q t b := by
  intro t b hb
  rcases Nat.lt_or_ge t l.length with ht | ht
  · rw [List.getElem?_append_left ht] at hb
    exact hl t b hb
  · rw [List.getElem?_append_right ht] at hb
    cases hk : t - l.length with
    | zero =>
      rw [hk] at hb
      obtain rfl : a = b := by simpa using hb
      obtain rfl : t = n := by omega
      exact ha
    | succ k =>
      rw [hk] at hb
      simp at hb

/-- The frame: half frame `n`, kept in `concat`, then half frame `n + 1`, from `data`. -/
theorem Window.frame {s : Lecture ⟨2 * h, 1, 25⟩ σ ℝ} (hw : Window h x son s) (hlu : s.lu = h)
    {concat : Arr ℕ ℝ} (hdom : concat.dom = s.concat.dom)
    (hnew : ∀ i < h, concat.val (h + i) = s.data.val i)
    (hold : ∀ i, i < h ∨ h + h ≤ i → concat.val i = s.concat.val i) {u : ℕ} (hu : u < 2 * h)
    (hx : h * s.nFrames + u < x.length) : concat.Holds u x[h * s.nFrames + u] := by
  refine ⟨by rw [hdom]; exact (hw.domConcat u).2 hu, ?_⟩
  rw [← List.getElem?_eq_getElem]
  rcases Nat.lt_or_ge u h with hlt | hge
  · rw [hold u (.inl hlt), hw.concat hlu u hlt]
  · obtain ⟨v, rfl⟩ := Nat.exists_eq_add_of_le hge
    rw [hnew v (by omega), hw.data hlu v (by omega), Nat.mul_succ, Nat.add_assoc]

theorem Window.step {sf : Sndfile σ ℝ} (hsf : sf.Reads son) (pile : ℕ → ℕ → ℝ) (h128 : 128 ≤ h)
    (h8 : 8 ∣ h) {s : Lecture ⟨2 * h, 1, 25⟩ σ ℝ} (hw : Window h x son s) (hlu : s.lu = h) :
    Ends (lecture.step ⟨2 * h, 1, 25⟩ sf (fun n i => some (pile n i)) s) fun t =>
      Window h x son t ∧ t.nFrames = s.nFrames + 1 := by
  have hfull := hw.full (by omega) hlu
  have hhalf : 2 * h / 2 = h := Nat.mul_div_cancel_left h Nat.two_pos
  have hdata := hw.data hlu
  unfold lecture.step
  simp only [hhalf]
  refine (Arr.ends_copyTo fun i hi => ⟨(hw.domData i).2 hi, (hw.domConcat _).2 (by omega)⟩).bind ?_
  intro concat hr
  obtain ⟨hcd, hcv, hcrest⟩ := hr
  refine (ends_create (s := fun u => x.getD (h * s.nFrames + u) 0) (pile (s.nFrames + 1))
    (by omega) (by omega) fun u hu => ?_).bind fun f hf => ?_
  · rw [List.getD_eq_getElem _ _ (show h * s.nFrames + u < x.length by omega)]
    exact hw.frame hlu hcd hcv hcrest hu _
  refine (Arr.ends_copyTo fun i hi => ⟨(hw.domData i).2 hi, ?_⟩).bind ?_
  · rw [hcd]
    exact (hw.domConcat _).2 (by omega)
  intro concat' hr
  obtain ⟨hcd', hcv', -⟩ := hr
  obtain ⟨hcount, hdom, hhead, hrest⟩ := hsf.sfReadDouble s.infile s.data h
  rw [hw.rest] at hcount hhead hrest
  generalize sfReadDouble sf s.infile s.data h = r at hcount hdom hhead hrest
  obtain ⟨lu, data, infile⟩ := r
  have hlen : (x.drop (h * (s.nFrames + 2))).length = x.length - h * (s.nFrames + 1 + 1) := by
    rw [List.length_drop]
  refine Ends.ok ⟨⟨.inr ?_, ?_, ?_, ?_, ?_, ?_, ?_, ?_, ?_⟩, rfl⟩
  · show h * (s.nFrames + 1 + 1) ≤ x.length
    rw [Nat.mul_succ, Nat.mul_succ]
    omega
  · rw [← hlen]
    exact hcount
  · show samples son infile = _
    rw [hrest, List.drop_drop, Nat.mul_succ h (s.nFrames + 2)]
  · exact fun i => by rw [show data.dom = s.data.dom from hdom, hw.domData]
  · exact fun i => by rw [show concat'.dom = concat.dom from hcd', hcd, hw.domConcat]
  · intro (hfull' : lu = h) i hi
    have hc : lu = min h (x.drop (h * (s.nFrames + 2))).length := hcount
    show data.val i = _
    rw [hhead i (by omega), List.getElem?_drop]
  · intro _ i hi
    have := hcv' i hi
    rw [Nat.zero_add] at this
    exact this.trans (hdata i hi)
  · show (s.frames ++ [f]).length = _
    rw [List.length_append, List.length_singleton, hw.length]
  · refine forall_getElem?_append hw.length hw.frames fun u hu => ?_
    have hx : h * s.nFrames + u < x.length := by omega
    rw [Frame.getSignal, hf]
    simp [hx]

theorem ends_lectureStart {K : Type} {sf : Sndfile σ K} {son : σ → List K} (hsf : sf.Reads son)
    (infile : Option σ) :
    let r := sfReadDouble sf infile (Arr.fresh h) h
    Ends (r.2.1.copyTo h (Arr.fresh (2 * h)) 0) fun concat =>
      (∀ i, concat.dom i = true ↔ i < 2 * h) ∧
      ∀ i < min h (samples son infile).length, concat.val i = (samples son infile)[i]? := by
  obtain ⟨-, hdom, hhead, -⟩ := hsf.sfReadDouble infile (Arr.fresh h) h
  refine (Arr.ends_copyTo fun i hi => ⟨?_, ?_⟩).mono ?_
  · rw [hdom, Arr.dom_fresh]
    exact hi
  · rw [Arr.dom_fresh]
    omega
  intro concat hr
  obtain ⟨hd, hv, -⟩ := hr
  refine ⟨fun i => by rw [hd, Arr.dom_fresh], fun i hi => ?_⟩
  have := hv i (by omega)
  rw [Nat.zero_add] at this
  rw [this, hhead i hi]

theorem window_start {sf : Sndfile σ ℝ} (hsf : sf.Reads son) {infile : Option σ}
    {concat : Arr ℕ ℝ} (hdom : ∀ i, concat.dom i = true ↔ i < 2 * h)
    (hval : ∀ i < min h (samples son infile).length, concat.val i = (samples son infile)[i]?) :
    let r := sfReadDouble sf infile (Arr.fresh h) h
    let r' := sfReadDouble sf r.2.2 r.2.1 h
    Window h (samples son infile) son ⟨r'.1, r'.2.2, r'.2.1, concat, [], 0⟩ := by
  intro r r'
  obtain ⟨-, hd, -, hrest⟩ := hsf.sfReadDouble infile (Arr.fresh h) h
  obtain ⟨hcount', hd', hhead', hrest'⟩ := hsf.sfReadDouble r.2.2 r.2.1 h
  rw [hrest, List.length_drop] at hcount'
  rw [hrest, List.length_drop] at hhead'
  rw [hrest, List.drop_drop] at hrest'
  refine ⟨.inl rfl, ?_, ?_, fun i => ?_, hdom, fun hlu i hi => ?_, fun hlu i hi => ?_, rfl,
    fun t f hf => ?_⟩
  · rw [hcount', Nat.zero_add, Nat.mul_one]
  · rw [hrest', Nat.zero_add, Nat.mul_two]
  · rw [hd', hd, Arr.dom_fresh]
  · have hlu : (sfReadDouble sf r.2.2 r.2.1 h).1 = h := hlu
    rw [hhead' i (by omega), List.getElem?_drop, Nat.zero_add, Nat.mul_one]
  · have hlu : (sfReadDouble sf r.2.2 r.2.1 h).1 = h := hlu
    rw [hval i (by omega), Nat.mul_zero, Nat.zero_add]
  · simp at hf

theorem ends_lecture {sf : Sndfile σ ℝ} (hsf : sf.Reads son) (hh : 1 ≤ h)
    {infile : Option σ} (hgood : (samples son infile).length < 2 * h ∨ 128 ≤ h ∧ 8 ∣ h)
    (pile : ℕ → ℕ → ℝ) {fuel : ℕ} (hfuel : (samples son infile).length ≤ fuel) (classe : ℤ) :
    Ends (lecture ⟨2 * h, 1, 25⟩ sf (fun n i => some (pile n i)) fuel infile classe)
      (Framed h (samples son infile)) := by
  have hhalf : 2 * h / 2 = h := Nat.mul_div_cancel_left h Nat.two_pos
  unfold lecture
  simp only [hhalf]
  refine (ends_lectureStart hsf infile).bind fun concat ⟨hdom, hval⟩ => ?_
  refine Ends.bind (Ends.whileLoop (Window h (samples son infile) son)
    (fun s => (samples son infile).length - h * s.nFrames) (fun s hw hc => ?_) fuel _
    (window_start hsf hdom hval) ?_) ?_
  · have hlu : s.lu = h := (beq_iff_eq.1 hc).symm
    have hfull := hw.full hh hlu
    obtain ⟨h128, h8⟩ : 128 ≤ h ∧ 8 ∣ h := hgood.resolve_left (by omega)
    refine (hw.step hsf pile h128 h8 hlu).mono fun t ht => ⟨ht.1, ?_⟩
    rw [ht.2, Nat.mul_succ]
    omega
  · rw [Nat.mul_zero]
    exact hfuel
  · intro s hr
    obtain ⟨hw, hc⟩ := hr
    have hlu : s.lu ≠ h := fun heq => by simp [heq] at hc
    have hlt : (samples son infile).length < h * (s.nFrames + 2) := by
      have := hw.lu
      rw [Nat.mul_succ h (s.nFrames + 1)]
      omega
    refine ⟨⟨s.frames.toArray, s.nFrames, classe, hw.length⟩, by
      rw [Morceau.create, dif_pos hw.length]; rfl, ?_, fun t ht => ?_⟩
    · show s.nFrames = _
      rcases hw.built with h0 | hge
      · rw [h0] at hlt ⊢
        have : (samples son infile).length / h < 0 + 2 := Nat.div_lt_of_lt_mul hlt
        omega
      · have hdiv : (samples son infile).length / h = s.nFrames + 1 := by
          refine Nat.div_eq_of_lt_le ?_ ?_
          · rw [Nat.mul_comm]
            exact hge
          · rw [Nat.mul_comm]
            exact hlt
        rw [hdiv, Nat.add_sub_cancel]
    · have ht : t < s.frames.length := hw.length.symm ▸ ht
      refine ⟨s.frames[t], ?_, hw.frames t _ (List.getElem?_eq_getElem ht)⟩
      simp [Morceau.frame, Morceau.getFrames, ht]

theorem yields_lecture {K : Type} [Field K] [LinearOrder K] [LibM K] {sf : Sndfile σ K}
    {son : σ → List K} (hsf : sf.Reads son) (hint : 2 * h < 2 ^ 31) (infile : Option σ)
    (pile : ℕ → ℕ → Option K) (fuel : ℕ) (classe : ℤ) :
    Yields (lecture ⟨2 * h, 1, 25⟩ sf pile fuel infile classe) fun _ =>
      (samples son infile).length < 2 * h ∨ 128 ≤ h ∧ 8 ∣ h := by
  have hhalf : 2 * h / 2 = h := Nat.mul_div_cancel_left h Nat.two_pos
  unfold lecture
  simp only [hhalf]
  refine (Yields.self _).bind fun concat _ => ?_
  obtain ⟨-, -, -, hrest⟩ := hsf.sfReadDouble infile (Arr.fresh h) h
  set r := sfReadDouble sf infile (Arr.fresh h) h
  have hcount := (hsf.sfReadDouble r.2.2 r.2.1 h).count
  set r' := sfReadDouble sf r.2.2 r.2.1 h
  rw [hrest, List.length_drop] at hcount
  -- a second iteration means that the first one built a frame
  refine Yields.bind (Yields.whileLoop (fun s => s.lu = r'.1 ∨ 128 ≤ h ∧ 8 ∣ h)
    (fun s _ _ => ?_) fuel _ (.inl rfl)) ?_
  · unfold lecture.step
    simp only [hhalf]
    refine (Yields.self _).bind fun concat _ => ?_
    exact (yields_create (pile (s.nFrames + 1)) concat hint (Nat.mul_mod_right 2 h)).bind
      fun _ hL _ _ => .inr ⟨by omega, by omega⟩
  · intro s hr m _
    obtain ⟨hs, hc⟩ := hr
    refine hs.imp_left fun hlu => ?_
    have : s.lu ≠ h := fun heq => by simp [heq] at hc
    omega

end

/-! ## Framing -/

/-- **`lecture` frames a recording** into its overlapping frames exactly if the recording is too
short for a frame, or the constructor of `Frame` stays in its arrays: a frame has 256 samples at
least, in a multiple of 16. The length `2 * h` of a frame is an `int`. -/
theorem lecture_framing_iff {σ : Type} (sf : Sndfile σ ℝ) (son : σ → List ℝ) (hsf : sf.Reads son)
    (h : ℕ) (hh : 1 ≤ h) (hint : 2 * h < 2 ^ 31) (infile : Option σ) (pile : ℕ → ℕ → ℝ) (fuel : ℕ)
    (hfuel : (samples son infile).length ≤ fuel) (classe : ℤ) :
    Ends (lecture ⟨2 * h, 1, 25⟩ sf (fun n i => some (pile n i)) fuel infile classe)
        (Framed h (samples son infile)) ↔
      (samples son infile).length < 2 * h ∨ 128 ≤ h ∧ 8 ∣ h := by
  refine ⟨fun ⟨m, hm, _⟩ => ?_, fun hgood => ends_lecture hsf hh hgood pile hfuel classe⟩
  exact yields_lecture hsf hint infile _ fuel classe m hm

/-- A file in memory: `sf_read_double` clears the cells it has no sample for. -/
def Sndfile.memory : Sndfile (List ℝ) ℝ where
  readDouble s data len := (min len s.length,
    { data with val := fun i => if i < len then some (s.getD i 0) else data.val i }, s.drop len)

theorem Sndfile.memory_reads : Sndfile.memory.Reads id where
  count _ _ _ := rfl
  dom _ _ _ := rfl
  head s _ len i hi := by
    have hi2 : i < s.length := Nat.lt_of_lt_of_le hi (Nat.min_le_right _ _)
    show (if i < len then some (s.getD i 0) else _) = s[i]?
    rw [if_pos (Nat.lt_of_lt_of_le hi (Nat.min_le_left _ _)), List.getD_eq_getElem _ _ hi2,
      List.getElem?_eq_getElem hi2]
  rest _ _ _ := rfl

theorem length_samples_replicate (n : ℕ) (v : ℝ) :
    (samples id (some (List.replicate n v))).length = n := List.length_replicate

/-- Three half frames of 128 samples. -/
theorem lecture_framing_384 :
    Ends (lecture ⟨2 * 128, 1, 25⟩ .memory (fun _ _ => some 0) 384 (some (List.replicate 384 1)) 1)
      (Framed 128 (List.replicate 384 (1 : ℝ))) :=
  (lecture_framing_iff .memory id Sndfile.memory_reads 128 (by decide) (by decide)
    (some (List.replicate 384 1)) (fun _ _ => 0) 384 (length_samples_replicate 384 1).le 1).2
    (.inr ⟨le_rfl, by decide⟩)

/-- With frames of 128 samples the transform of `set_mfcc` leaves its arrays. -/
theorem not_lecture_framing :
    ¬Ends (lecture ⟨2 * 64, 1, 25⟩ .memory (fun _ _ => some 0) 128 (some (List.replicate 128 1)) 1)
      (Framed 64 (List.replicate 128 (1 : ℝ))) := by
  intro h
  obtain ⟨m, hm, -⟩ := h
  have := yields_lecture Sndfile.memory_reads (by decide) _ _ _ _ m hm
  rw [length_samples_replicate] at this
  omega

end TlVoix
