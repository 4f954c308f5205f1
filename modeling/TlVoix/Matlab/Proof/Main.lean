import TlVoix.Lib.Scan
import TlVoix.Matlab.Main
import TlVoix.Matlab.Proof.DistGlobale
import TlVoix.Matlab.Proof.Mylpc
import TlVoix.Matlab.Proof.Mymfcc
import TlVoix.Matlab.Proof.RemoveBlanc

/-!
# A run of `main.m`

* `getCarac_eq`: the rows that `get_carac` normalises; they are numbers if those of the recording
  are, and are not all equal (`Variee`).
* `firstMin_indiceMin`: the index that `min` returns.
* `mainScript_nearest`: the script names the first of the nearest references; a recording that is
  that of a reference is at distance zero, if its rows are numbers.
-/

namespace TlVoix.Matlab

open Checked Warp

/-! ## Rows -/

section
variable {K : Type} [Field K] [DecidableEq K]

/-- A row of numbers that are not all equal. -/
theorem normaliser_some {n : ℕ} {v : List K} (h : variance v * n ≠ 0) :
    getCarac.normaliser n (v.map some) =
      (v.map fun x => (x - mean v) / (variance v * n)).map some := by
  have hall : (v.map some).all Option.isSome = true := by simp
  have hget : (v.map some).map (fun x => x.getD 0) = v := by simp
  rw [getCarac.normaliser, if_pos hall, hget]
  simp only [if_neg h, List.map_map]
  rfl

end

/-! ## The features of a recording -/

section
variable (fEch : ℝ) (son : List ℝ) (framesLength nFiltres ordre : ℕ)

/-- Row `frame` of `coeffs_mfcc`. -/
noncomputable def getCarac.mfcc (frame : ℕ) : List (Option ℝ) :=
  coeffs (mymfcc.ligne fEch son framesLength nFiltres frame) nFiltres

/-- Row `frame` of `coeffs_carac`. -/
noncomputable def getCarac.ligne (frame : ℕ) : List (Option ℝ) :=
  getCarac.normaliser (son.length / framesLength * 2 - 1)
      ((mylpc.ligne son framesLength ordre frame).map some) ++
    getCarac.normaliser (son.length / framesLength * 2 - 1)
      (getCarac.mfcc fEch son framesLength nFiltres frame)

end

section
variable {fEch : ℝ} {son : List ℝ} {framesLength nFiltres ordre : ℕ}

theorem lire_mfcc (fEch : ℝ) (son : List ℝ) (framesLength nFiltres frame : ℕ) :
    lire nFiltres (Arr.full (row nFiltres) (mymfcc.ligne fEch son framesLength nFiltres frame)) =
      .ok (getCarac.mfcc fEch son framesLength nFiltres frame) :=
  ends_eq_iff.1 (ends_lire fun _ h1 hj => Arr.holds_full _ (row_eq_true.2 ⟨h1, hj⟩))

theorem getCarac_eq (hn : 1 ≤ nFiltres) (hL : 2 ∣ framesLength) (h4 : 4 ≤ framesLength)
    (hf : 0 < fEch) (ho : 1 ≤ ordre) (hs : Sounds son framesLength) :
    getCarac fEch son (son.length / framesLength * 2 - 1) framesLength nFiltres ordre =
      .ok (Arr.full (row (son.length / framesLength * 2 - 1))
        (getCarac.ligne fEch son framesLength nFiltres ordre)) := by
  refine ends_eq_iff.1 ?_
  unfold getCarac
  rw [mymfcc_eq hn hL h4 hf, mylpc_eq hL (by omega) ho hs, ok_bind, ok_bind]
  refine Ends.bind (ends_fillRow fun k hk1 hkn f _ => ?_) fun r hr => Ends.ok hr
  have hk : row (son.length / framesLength * 2 - 1) k = true := row_eq_true.2 ⟨hk1, hkn⟩
  rw [Arr.get_full _ hk, ok_bind, lire_mfcc, ok_bind, Arr.get_full _ hk, ok_bind,
    Arr.set_full _ hk]
  exact Ends.ok rfl

end

/-! ## Distances -/

theorem distLocal_nonneg {length : ℕ} {x y : ℕ → Option ℝ} :
    0 ≤ nombre (distGlobale.valeur (distLocal length x y)) := by
  have hfold : ∀ (l : List ℕ) (d : ℝ), 0 ≤ d → ∀ e, l.foldlM (fun d i => do
      let a ← x i
      let b ← y i
      pure (d + (a - b) * (a - b))) d = some e → 0 ≤ e := by
    intro l
    induction l with
    | nil =>
      intro d hd e he
      exact Option.some.inj he ▸ hd
    | cons i l ih =>
      intro d hd e he
      rw [List.foldlM_cons] at he
      obtain ⟨d', hd', he⟩ := Option.bind_eq_some_iff.1 he
      obtain ⟨a, -, hd'⟩ := Option.bind_eq_some_iff.1 hd'
      obtain ⟨b, -, hd'⟩ := Option.bind_eq_some_iff.1 hd'
      obtain rfl := Option.some.inj hd'
      exact ih _ (add_nonneg hd (mul_self_nonneg _)) e he
  cases h : distLocal length x y with
  | none => exact le_top
  | some e => exact WithTop.coe_le_coe.2 (hfold _ 0 le_rfl e h)

/-- A row of numbers is at distance zero of itself. -/
theorem distLocal_self {length : ℕ} {x : ℕ → Option ℝ}
    (h : ∀ i, 1 ≤ i → i ≤ length → (x i).isSome) : distLocal length x x = some 0 := by
  have hfold : ∀ l : List ℕ, (∀ i ∈ l, (x i).isSome) → l.foldlM (fun (d : ℝ) i => do
      let a ← x i
      let b ← x i
      pure (d + (a - b) * (a - b))) 0 = some 0 := by
    intro l
    induction l with
    | nil => exact fun _ => rfl
    | cons i l ih =>
      intro hl
      obtain ⟨hi, hl⟩ := List.forall_mem_cons.1 hl
      obtain ⟨a, ha⟩ := Option.isSome_iff_exists.1 hi
      rw [List.foldlM_cons, ha]
      simp only [Option.bind_eq_bind, Option.bind_some, Option.pure_def, sub_self, mul_zero,
        add_zero]
      exact ih hl
  refine hfold _ fun i hi => ?_
  have := List.mem_range'_1.1 hi
  exact h i this.1 (by omega)

theorem nonneg_of_mem_costs {c : ℕ × ℕ → WithTop ℝ} (hc : ∀ p, 0 ≤ c p) {S : Set (ℕ × ℕ)}
    {q : ℕ × ℕ} {x : WithTop ℝ} (hx : x ∈ costs c S q) : 0 ≤ x := by
  obtain ⟨s, -, l, -, rfl⟩ := hx
  refine List.sum_nonneg fun v hv => ?_
  obtain ⟨p, -, rfl⟩ := List.mem_map.1 hv
  exact hc p

theorem zero_mem_costs_diag {c : ℕ × ℕ → WithTop ℝ} {n : ℕ} (hc : ∀ i ≤ n, c (i, i) = 0) :
    (0 : WithTop ℝ) ∈ costs c {(0, 0)} (n, n) := by
  induction n with
  | zero => exact mem_costs.2 (.inl ⟨rfl, (hc 0 le_rfl).symm⟩)
  | succ n ih =>
    refine mem_costs.2 (.inr ⟨(n, n), .diag n n, 0, ih fun i hi => hc i (Nat.le_succ_of_le hi), ?_⟩)
    rw [hc (n + 1) le_rfl, add_zero]

/-- **The index that `min` returns**: the first place where the value is least. -/
theorem firstMin_indiceMin {α : Type} [LinearOrder α] (d : ℕ → α) {n : ℕ} (hn : 1 ≤ n) :
    FirstMax (fun k => OrderDual.toDual (d k)) n (indiceMin d n - 1) := by
  rw [indiceMin, Nat.add_sub_cancel]
  induction n, hn using Nat.le_induction with
  | base =>
    have hfold : (List.range 1).foldl (fun b k => if d k < d b then k else b) 0 = 0 := by
      simp [List.range_succ]
    rw [hfold]
    exact firstMax_one _
  | succ n _ ih =>
    rw [List.range_succ, List.foldl_append, List.foldl_cons, List.foldl_nil]
    exact ih.step

/-! ## The script -/

/-- A recording of one frame at least, of which no windowed frame is silent. -/
structure Etudiable (son : List ℝ) : Prop where
  frame : 320 ≤ son.length
  sounds : Sounds son 320

/-- The study of a recording. -/
noncomputable def etude (name : String) (son : List ℝ) : Etude ℝ where
  name := name
  nFrames := son.length / 320 * 2 - 1
  carac := Arr.full (row (son.length / 320 * 2 - 1))
    (getCarac.ligne ((16000 : ℕ) : ℝ) son 320 40 10)

/-- The coefficients of every frame are numbers, not all equal ones. -/
def Variee (son : List ℝ) : Prop :=
  ∀ frame, 1 ≤ frame → frame ≤ son.length / 320 * 2 - 1 →
    (∃ w, getCarac.mfcc ((16000 : ℕ) : ℝ) son 320 40 frame = w.map some ∧ variance w ≠ 0) ∧
      variance (mylpc.ligne son 320 10 frame) ≠ 0

section
variable {wavread : String → List ℝ} {name : String} {son : List ℝ}

theorem etudier_eq (hson : removeBlanc (wavread name) = .ok son) (he : Etudiable son) :
    etudier wavread name = .ok (etude name son) := by
  have hcarac : getCarac ((16000 : ℕ) : ℝ) son (son.length / 320 * 2 - 1) 320 40 10 = .ok _ :=
    getCarac_eq (by decide) ⟨160, rfl⟩ (by decide) (Nat.cast_pos.2 (by decide)) (by decide)
      he.sounds
  unfold etudier
  rw [hson, ok_bind]
  simp only [hcarac]
  rfl

theorem Variee.isSome_coeff (hv : Variee son) {i : ℕ} (h1 : 1 ≤ i)
    (hi : i ≤ son.length / 320 * 2 - 1) (j : ℕ) : ((etude name son).coeff i j).isSome := by
  obtain ⟨⟨w, hmfcc, hw⟩, hlpc⟩ := hv i h1 hi
  have hn : ((son.length / 320 * 2 - 1 : ℕ) : ℝ) ≠ 0 := Nat.cast_ne_zero.2 (by omega)
  have hligne : ∀ x ∈ getCarac.ligne ((16000 : ℕ) : ℝ) son 320 40 10 i, x.isSome := by
    intro x hx
    rw [getCarac.ligne, hmfcc, normaliser_some (mul_ne_zero hlpc hn),
      normaliser_some (mul_ne_zero hw hn), ← List.map_append] at hx
    obtain ⟨_, -, rfl⟩ := List.mem_map.1 hx
    rfl
  have hval : (etude name son).carac.val i =
      some (getCarac.ligne ((16000 : ℕ) : ℝ) son 320 40 10 i) :=
    (Arr.holds_full _ (row_eq_true.2 ⟨h1, hi⟩)).2
  rw [Etude.coeff, hval, Option.getD_some, List.getD_eq_getElem?_getD]
  cases h : (getCarac.ligne ((16000 : ℕ) : ℝ) son 320 40 10 i)[j - 1]? with
  | none => rfl
  | some x => exact hligne x (List.mem_of_getElem? h)

end

/-- The name of the reference `k`, from 0 on. -/
def reference (k : ℕ) : String := references.getD k ""

/-- The distance of the reference `k` to the tested recording is `d`: the least cost of the paths
that `dist_globale` allows, among the frames that are numbers. -/
def AtDistance (son : String → List ℝ) (k : ℕ) (d : WithTop ℝ) : Prop :=
  let r := etude (reference k) (son (reference k))
  let t := etude "test3/enavant2.wav" (son "test3/enavant2.wav")
  Moindre (cost fun i j => nombre (distGlobale.valeur (distLocal 51 (r.coeff i) (t.coeff j)))) seeds
    (r.nFrames - 1, t.nFrames - 1) d

/-- `nom` is the first of the nearest references, if one is near at all; a reference that is the
tested recording, and of which the coefficients vary, is at distance zero. -/
def PlusProche (son : String → List ℝ) (nom : String) : Prop :=
  ∃ (d : ℕ → WithTop ℝ) (b : ℕ), (∀ k < 4, AtDistance son k (d k)) ∧ b < 4 ∧ nom = reference b ∧
    (∀ k < 4, d b ≤ d k) ∧ (d b ≠ ⊤ → ∀ k < b, d b < d k) ∧
    (Variee (son "test3/enavant2.wav") →
      ∀ k < 4, son (reference k) = son "test3/enavant2.wav" → d b = 0 ∧ b ≤ k)

theorem reference_mem : ∀ k < 4, reference k ∈ references := by decide

section
variable {son : String → List ℝ} {k : ℕ} {d : WithTop ℝ}

theorem AtDistance.nonneg (h : AtDistance son k d) : 0 ≤ d := by
  cases h.mem with
  | inl htop => exact htop ▸ le_top
  | inr hmem => exact nonneg_of_mem_costs (fun p => distLocal_nonneg) hmem

/-- The same recording twice. -/
theorem AtDistance.le_zero (h : AtDistance son k d)
    (hson : son (reference k) = son "test3/enavant2.wav")
    (he : Etudiable (son "test3/enavant2.wav")) (hv : Variee (son "test3/enavant2.wav")) :
    d ≤ 0 := by
  have hlen := he.frame
  refine h.le 0 (mem_costs_seeds.2 (.inl ?_))
  rw [hson]
  refine zero_mem_costs_diag fun i hi => ?_
  have hin : i + 1 ≤ (son "test3/enavant2.wav").length / 320 * 2 - 1 := by
    have : i ≤ (son "test3/enavant2.wav").length / 320 * 2 - 1 - 1 := hi
    omega
  refine congrArg (fun x => nombre (distGlobale.valeur x)) (distLocal_self fun j _ _ => ?_)
  exact hv.isSome_coeff (Nat.le_add_left 1 i) hin j

/-- The distance that `dist_globale` computes. -/
theorem ends_atDistance (hr : Etudiable (son (reference k)))
    (ht : Etudiable (son "test3/enavant2.wav")) :
    Ends (distGlobale (etude (reference k) (son (reference k))).nFrames
      (etude "test3/enavant2.wav" (son "test3/enavant2.wav")).nFrames 51
      (etude (reference k) (son (reference k))).coeff
      (etude "test3/enavant2.wav" (son "test3/enavant2.wav")).coeff) fun u =>
        AtDistance son k (nombre u) := by
  have hr := hr.frame
  have ht := ht.frame
  refine ends_table _ _ _ ?_ ?_
  · show 1 ≤ (son (reference k)).length / 320 * 2 - 1
    omega
  · show 1 ≤ (son "test3/enavant2.wav").length / 320 * 2 - 1
    omega

/-- The index of the first least distance. -/
theorem plusProche_indiceMin {u : ℕ → WithTop (WithTop ℝ)}
    (hu : ∀ k < 4, AtDistance son k (nombre (u k))) (ht : Etudiable (son "test3/enavant2.wav"))
    {b : ℕ} (hb : b = indiceMin (fun k => ((List.range 4).map u).getD k ⊤) 4 - 1) :
    b < 4 ∧ PlusProche son (reference b) := by
  have hdist : ∀ k < 4, ((List.range 4).map u).getD k ⊤ = u k := by
    intro k hk
    rw [List.getD_eq_getElem?_getD, List.getElem?_map, List.getElem?_range hk, Option.map_some,
      Option.getD_some]
  have hmin := hb ▸ firstMin_indiceMin (fun k => ((List.range 4).map u).getD k ⊤)
    (show 1 ≤ 4 by decide)
  have hb4 : b < 4 := hmin.lt
  have hle : ∀ k < 4, nombre (u b) ≤ nombre (u k) := by
    intro k hk
    have hle := hmin.le k hk
    rw [hdist k hk, hdist b hb4] at hle
    exact monotone_nombre hle
  have hlt : nombre (u b) ≠ ⊤ → ∀ k < b, nombre (u b) < nombre (u k) := by
    intro hfini k hk
    have hlt := hmin.first k hk
    rw [hdist k (hk.trans hb4), hdist b hb4] at hlt
    exact nombre_lt_nombre hfini hlt
  refine ⟨hb4, fun k => nombre (u k), b, hu, hb4, rfl, hle, hlt, fun hv k hk hsame => ?_⟩
  have hzero := (hu k hk).le_zero hsame ht hv
  have hbzero : nombre (u b) = 0 := le_antisymm ((hle k hk).trans hzero) (hu b hb4).nonneg
  refine ⟨hbzero, Nat.not_lt.1 fun hkb => ?_⟩
  have hlt := hlt (hbzero ▸ WithTop.zero_ne_top) k hkb
  exact absurd (hbzero ▸ hlt) (not_lt.2 hzero)

end

/-! ### The two loops -/

section
variable {wavread : String → List ℝ} {son : String → List ℝ}

/-- The references, studied. -/
noncomputable def refSon (son : String → List ℝ) : List (Etude ℝ) :=
  (List.range 4).map fun k => etude (reference k) (son (reference k))

theorem getElem?_refSon {k : ℕ} (hk : k < 4) :
    (refSon son)[k]? = some (etude (reference k) (son (reference k))) := by
  rw [refSon, List.getElem?_map, List.getElem?_range hk, Option.map_some]

theorem ends_refSon (h : ∀ k < 4, etudier wavread (reference k) =
      .ok (etude (reference k) (son (reference k)))) :
    Ends (forUp 1 5 [] fun i refSon => do
      pure (refSon ++ [← etudier wavread (references.getD (i - 1) "")])) fun r =>
        r.2 = refSon son := by
  refine (Ends.forUp (fun i l => l = (List.range (i - 1)).map fun k =>
    etude (reference k) (son (reference k))) (by decide) rfl fun i l h1 h5 hl => ?_).mono
      fun r hr => hr.2
  obtain ⟨k, rfl⟩ : ∃ k, i = k + 1 := ⟨i - 1, by omega⟩
  have hk := h k (by omega)
  rw [reference] at hk
  rw [Nat.add_sub_cancel, hk, ok_bind, hl]
  refine Ends.ok ?_
  rw [Nat.add_sub_cancel, Nat.add_sub_cancel, List.range_succ, List.map_append, List.map_singleton,
    reference]

theorem ends_dist {t : Etude ℝ} {d : ℕ → WithTop (WithTop ℝ)}
    (h : ∀ k < 4, distGlobale (etude (reference k) (son (reference k))).nFrames t.nFrames 51
      (etude (reference k) (son (reference k))).coeff t.coeff = .ok (d k)) :
    Ends (mainScript.dist (refSon son) t) (· = (List.range 4).map d) := by
  refine Ends.bind (Ends.forUp (fun i l => l = (List.range (i - 1)).map d) (by decide) rfl
    fun i l h1 h5 hl => ?_) fun r hr => Ends.ok hr.2
  obtain ⟨k, rfl⟩ : ∃ k, i = k + 1 := ⟨i - 1, by omega⟩
  rw [Nat.add_sub_cancel, getElem?_refSon (by omega)]
  dsimp only
  rw [h k (by omega), ok_bind, hl]
  refine Ends.ok ?_
  rw [Nat.add_sub_cancel, Nat.add_sub_cancel, List.range_succ, List.map_append, List.map_singleton]

end

/-- **The script names the first of the nearest references**, whatever the coefficients of its five
recordings. -/
theorem mainScript_nearest (wavread : String → List ℝ) (son : String → List ℝ)
    (hson : ∀ nom ∈ "test3/enavant2.wav" :: references, removeBlanc (wavread nom) = .ok (son nom))
    (he : ∀ nom ∈ "test3/enavant2.wav" :: references, Etudiable (son nom)) :
    Ends (mainScript wavread) (PlusProche son) := by
  have hetude : ∀ nom ∈ "test3/enavant2.wav" :: references,
      etudier wavread nom = .ok (etude nom (son nom)) := fun nom hnom =>
    etudier_eq (hson nom hnom) (he nom hnom)
  have hmem : ∀ k < 4, reference k ∈ "test3/enavant2.wav" :: references := fun k hk =>
    List.mem_cons_of_mem _ (reference_mem k hk)
  have ht := he _ List.mem_cons_self
  have hex : ∀ k, ∃ u, k < 4 → distGlobale (etude (reference k) (son (reference k))).nFrames
      (etude "test3/enavant2.wav" (son "test3/enavant2.wav")).nFrames 51
      (etude (reference k) (son (reference k))).coeff
      (etude "test3/enavant2.wav" (son "test3/enavant2.wav")).coeff = .ok u ∧
        AtDistance son k (nombre u) := by
    intro k
    by_cases hk : k < 4
    · exact (ends_atDistance (he _ (hmem k hk)) ht).imp fun _ hu _ => hu
    · exact ⟨0, fun hk' => absurd hk' hk⟩
  choose u hu using hex
  unfold mainScript
  refine (ends_refSon fun k hk => hetude _ (hmem k hk)).bind fun r hr => ?_
  obtain ⟨_, l⟩ := r
  obtain rfl := hr
  dsimp only
  rw [hetude _ List.mem_cons_self, ok_bind]
  refine (ends_dist fun k hk => (hu k hk).1).bind fun dist hdist => ?_
  subst hdist
  rw [List.length_map, List.length_range]
  obtain ⟨hb, hnearest⟩ := plusProche_indiceMin (fun k hk => (hu k hk).2) ht rfl
  rw [getElem?_refSon hb]
  exact Ends.ok hnearest

/-- A click of 420 samples, then a silence. -/
noncomputable def clic (v : ℝ) : List ℝ := List.replicate 420 v ++ List.replicate 99 0

theorem length_clic (v : ℝ) : (clic v).length = 519 := by
  rw [clic, List.length_append, List.length_replicate, List.length_replicate]

theorem loud_clic {v : ℝ} (hv : 1 ≤ v) {t : ℕ} (ht : t + 100 ≤ 420) : Loud (clic v) (t + 100) := by
  refine loud_of_run (by rw [length_clic]; omega) ?_
  rw [clic, List.drop_append_of_le_length (by rw [List.length_replicate]; omega),
    List.drop_replicate,
    List.take_append_of_le_length (by rw [List.length_replicate]; omega), List.take_replicate,
    List.map_replicate, List.sum_replicate, Nat.min_eq_left (by omega), nsmul_eq_mul]
  have habs := hv.trans (le_abs_self v)
  push_cast
  linarith

theorem exists_clic {v : ℝ} (hv : 1 ≤ v) : ∃ son, removeBlanc (clic v) = .ok son ∧
    Etudiable son := by
  have hquiet : (((clic v).drop ((clic v).length - 99)).map abs).sum = 0 := by
    rw [length_clic, clic, List.drop_left' (List.length_replicate), List.map_replicate,
      List.sum_replicate, abs_zero, smul_zero]
  have hfirst := loud_clic hv (t := 0) (by decide)
  obtain ⟨a, b, ha, hb, heq⟩ := removeBlanc_eq ⟨_, hfirst⟩
  have ha100 : a ≤ 100 := ha.2 hfirst
  have hb420 : 420 ≤ b := hb.2 (loud_clic hv (t := 320) (by decide))
  have hpos : 1 ≤ a := ha.1.1
  have hin : b ≤ 519 := by
    by_contra hlt
    have hloud := hb.1.tail (by rw [length_clic]; omega)
    rw [hquiet] at hloud
    exact absurd hloud (by norm_num)
  have hlen : (((clic v).take b).drop (a - 1)).length = b - (a - 1) := by
    rw [List.length_drop, List.length_take, length_clic, Nat.min_eq_left hin]
  refine ⟨((clic v).take b).drop (a - 1), ?_, by omega, fun frame h1 hframe => ?_⟩
  · rw [heq, colon_ok hpos (by omega) (by rw [length_clic]; exact hin)]
  · obtain rfl : frame = 1 := by omega
    -- the first sample of the click
    refine exists_sonFen_ne_zero ⟨160, rfl⟩ (by decide) le_rfl hframe fun _ => ?_
    simp only [clic, List.get_eq_getElem, List.getElem_drop, List.getElem_take]
    rw [List.getElem_append_left (by rw [List.length_replicate]; omega), List.getElem_replicate]
    exact (zero_lt_one.trans_le hv).ne'

/-- A click in every file, that of the tested recording and of the third reference twice as loud. -/
theorem mainScript_nearest_clic : ∃ son fort : List ℝ, removeBlanc (clic 1) = .ok son ∧
    removeBlanc (clic 2) = .ok fort ∧
      Ends (mainScript fun nom =>
          if nom ∈ ["test3/enavant.wav", "test3/enavant2.wav"] then clic 2 else clic 1)
        (PlusProche fun nom =>
          if nom ∈ ["test3/enavant.wav", "test3/enavant2.wav"] then fort else son) := by
  obtain ⟨son, hson, he⟩ := exists_clic le_rfl
  obtain ⟨fort, hfort, hef⟩ := exists_clic one_le_two
  refine ⟨son, fort, hson, hfort, mainScript_nearest _ _ (fun nom _ => ?_) fun nom _ => ?_⟩
  · split
    · exact hfort
    · exact hson
  · split
    · exact hef
    · exact he

end TlVoix.Matlab
