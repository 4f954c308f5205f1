import TlVoix.Lib.Fuel
import TlVoix.Cpp.Main
import TlVoix.Cpp.Proof.Istream
import TlVoix.Cpp.Proof.Classif
import TlVoix.Cpp.Proof.Commande

/-!
# `main` reads its base

* `map_charge`: the loop that fills the base adds the entries of its text, one after the other.
* `main_base_iff`: the base holds the pieces of its entries, in order, exactly if there are at most
  `lBase` entries and every name fits the array `nom`.
* `entrees_fichiers`: the entries of the shipped text.
-/

namespace TlVoix

open Checked

/-! ## Fuel -/

section
variable {P : Parameters} {σ K : Type} [Field K] [LinearOrder K] [LibM K] (sf : Sndfile σ K)

theorem steady_lecture (pile : ℕ → ℕ → Option K) (infile : Option σ) (classe : ℤ) :
    Steady fun fuel => lecture P sf pile fuel infile classe := by
  unfold lecture
  refine Steady.bind (Steady.const _) fun concat => Steady.bind ?_ fun s => Steady.const _
  exact Steady.whileLoop_const _

theorem steady_classif (pile : ℕ → ℕ → Option K) (base : List (Morceau P K)) (nom : Option σ)
    (k : ℕ) : Steady fun fuel => classif sf pile fuel base nom k :=
  Steady.bind (steady_lecture sf pile nom 0) fun _ => Steady.const _

theorem steady_ecriturePortSerie (oracle : ℕ → List Char → Ecriture) (h : Option PortSerie)
    (c : List Char) : Steady fun fuel => ecriturePortSerie oracle fuel h c := by
  cases h with
  | none => exact Steady.const _
  | some h =>
    exact Steady.bind (Steady.whileLoop_const _) fun s => Steady.const _

theorem steady_commande (oracle : ℕ → List Char → Ecriture) (port : Option PortSerie)
    (classe : ℤ) : Steady fun fuel => commande oracle fuel port classe :=
  Steady.bind (steady_ecriturePortSerie oracle port _) fun r =>
    Steady.bind (steady_ecriturePortSerie oracle r.2 _) fun _ => Steady.const _

end

/-! ## The base -/

section
variable {P : Parameters} {σ K : Type} [Field K] [LinearOrder K] [LibM K] (sf : Sndfile σ K)
  (disque : ℕ → List Char → Option σ) (pile : ℕ → ℕ → ℕ → Option K) (fuel : ℕ)

/-- One more entry in the base, after `s.1` entries. -/
def ajoute (s : ℕ × Arr ℕ (Morceau P K)) (e : List Char × ℤ) : Run (ℕ × Arr ℕ (Morceau P K)) := do
  let nom ← copieTexte 50 e.1
  let m ← lecture P sf (pile s.1) fuel (disque s.1 nom) e.2
  let base ← s.2.set s.1 m
  pure (s.1 + 1, base)

/-- The state of the loop that fills the base when its test reads a line of `f`. -/
def Chargement.avant (f : Istream) (line : List Char) (s : ℕ × Arr ℕ (Morceau P K)) :
    Chargement P K :=
  ⟨!(f.getline line).1.fail, (f.getline line).1, (f.getline line).2, s.1, s.2⟩

/-- The body of the loop, on the class that its own `getline` reads. -/
theorem charge_eq {s : Chargement P K} {f : Istream} {line : List Char}
    (h : s.f.getline s.line = (f, line)) :
    main.charge P sf disque pile fuel s =
      ajoute sf disque pile fuel (s.i, s.base) (s.line, atoi line) >>= fun t =>
        .ok (Chargement.avant f line t) := by
  unfold main.charge ajoute
  rw [h]
  simp only [bind_assoc]
  rfl

/-- What the loop leaves, after a test that fails. -/
theorem loop_end {s : Chargement P K} (h : s.lu = false) (fuel' : ℕ) :
    (fun s => (s.i, s.base)) <$> whileLoop (fun s : Chargement P K => s.lu)
      (main.charge P sf disque pile fuel) fuel' s = .ok (s.i, s.base) := by
  rw [whileLoop_of_not h]
  rfl

/-- What it leaves, after a test that succeeds. -/
theorem loop_step {s : Chargement P K} (h : s.lu = true) {f : Istream} {line : List Char}
    (hf : s.f.getline s.line = (f, line)) (fuel' : ℕ) :
    (fun s => (s.i, s.base)) <$> whileLoop (fun s : Chargement P K => s.lu)
        (main.charge P sf disque pile fuel) (fuel' + 1) s =
      ajoute sf disque pile fuel (s.i, s.base) (s.line, atoi line) >>= fun t =>
        (fun s => (s.i, s.base)) <$> whileLoop (fun s : Chargement P K => s.lu)
          (main.charge P sf disque pile fuel) fuel' (.avant f line t) := by
  rw [whileLoop_succ h, charge_eq sf disque pile fuel hf]
  simp only [map_bind, bind_assoc]
  rfl

/-- An exhausted stream ends the loop. -/
theorem loop_eof (r line : List Char) (fail : Bool) (s : ℕ × Arr ℕ (Morceau P K)) (fuel' : ℕ) :
    (fun s => (s.i, s.base)) <$> whileLoop (fun s : Chargement P K => s.lu)
      (main.charge P sf disque pile fuel) fuel' (.avant ⟨r, true, fail⟩ line s) = .ok s :=
  loop_end sf disque pile fuel rfl fuel'

/-- **The base has the entries of its text**, added one after the other. -/
theorem map_charge (n : ℕ) : ∀ (text line : List Char) (s : ℕ × Arr ℕ (Morceau P K)) (fuel' : ℕ),
    text.length ≤ n → (entrees (lignes text)).length ≤ fuel' →
    (fun s => (s.i, s.base)) <$> whileLoop (fun s : Chargement P K => s.lu)
        (main.charge P sf disque pile fuel) fuel' (.avant (.ofText text) line s) =
      (entrees (lignes text)).foldlM (ajoute sf disque pile fuel) s := by
  induction n using Nat.strong_induction_on with
  | _ n ih =>
    intro text line s fuel' hn hfuel
    rcases line_cases text with ha | ⟨a, r, rfl, ha⟩
    · rw [lignes_of_notMem ha] at hfuel ⊢
      unfold Chargement.avant
      rw [Istream.getline_last ha]
      by_cases hnil : text = []
      · subst hnil
        exact loop_end sf disque pile fuel rfl fuel'
      · -- the class is the line of the name, which `getline` leaves
        have hlast : entrees [text] = [(text, atoi text)] := if_neg hnil
        rw [hlast] at hfuel ⊢
        obtain ⟨k, rfl⟩ : ∃ k, fuel' = k + 1 := Nat.exists_eq_add_of_le' hfuel
        rw [loop_step sf disque pile fuel (by simp [hnil]) (Istream.getline_eof ..)]
        simp only [loop_eof, List.foldlM_cons, List.foldlM_nil]
        rfl
    · rw [lignes_cons ha] at hfuel ⊢
      unfold Chargement.avant
      rw [Istream.getline_line ha]
      rcases line_cases r with hb | ⟨b, t, rfl, hb⟩
      · rw [lignes_of_notMem hb] at hfuel ⊢
        obtain ⟨k, rfl⟩ : ∃ k, fuel' = k + 1 := Nat.exists_eq_add_of_le' hfuel
        rw [loop_step sf disque pile fuel rfl (Istream.getline_last hb _)]
        simp only [loop_eof]
        rfl
      · rw [lignes_cons hb] at hfuel ⊢
        obtain ⟨k, rfl⟩ : ∃ k, fuel' = k + 1 :=
          Nat.exists_eq_add_of_le' (Nat.le_of_add_left_le hfuel)
        rw [loop_step sf disque pile fuel rfl (Istream.getline_line hb t _), entrees,
          List.foldlM_cons]
        have hlen : t.length < n := by
          simp only [List.length_append, List.length_cons] at hn
          omega
        congr 1
        funext s'
        exact ih t.length hlen t b s' k le_rfl (Nat.le_of_succ_le_succ hfuel)

end

section
variable {σ : Type} {sf : Sndfile σ ℝ} {son : σ → List ℝ}

/-- `m` is the piece of the entry `e`, of which the file is the `n`-th one to be opened. -/
def Piece (sf : Sndfile σ ℝ) (son : σ → List ℝ) (disque : ℕ → List Char → Option σ) (n : ℕ)
    (e : List Char × ℤ) (m : Morceau parameters ℝ) : Prop :=
  Lu sf son (disque n e.1) m ∧ m.getClasse = e.2

theorem yields_lecture_classe {P : Parameters} {K : Type} [Field K] [LinearOrder K] [LibM K]
    (sf : Sndfile σ K) (pile : ℕ → ℕ → Option K) (fuel : ℕ) (infile : Option σ) (classe : ℤ) :
    Yields (lecture P sf pile fuel infile classe) fun m => m.getClasse = classe := by
  unfold lecture
  refine (Yields.self _).bind fun _ _ => (Yields.self _).bind fun s _ => ?_
  intro m hm
  unfold Morceau.create at hm
  split at hm
  · obtain rfl := Except.ok.inj hm
    rfl
  · split at hm <;> cases hm

theorem halts_lecture (hsf : sf.Reads son) (pile : ℕ → ℕ → ℝ) (infile : Option σ) (classe : ℤ) :
    Halts (fun fuel => lecture parameters sf (fun k i => some (pile k i)) fuel infile classe)
      fun m => Lu sf son infile m ∧ m.getClasse = classe := by
  obtain ⟨m, hm, -⟩ := ends_lecture hsf (h := 128) (by decide) (.inr ⟨le_rfl, by decide⟩)
    pile (le_refl (samples son infile).length) classe
  refine Halts.of_ends (steady_lecture sf _ infile classe)
    ⟨m, hm, ⟨pile, _, classe, le_rfl, hm⟩, ?_⟩
  exact yields_lecture_classe sf _ _ infile classe m hm

theorem copieTexte_eq_ok {n : ℕ} {s t : List Char} :
    copieTexte n s = .ok t ↔ s.length < n ∧ s = t := by
  unfold copieTexte
  split
  · rename_i h
    simp [h]
  · rename_i h
    simp [h]

/-- One more entry. -/
theorem halts_ajoute (hsf : sf.Reads son) (disque : ℕ → List Char → Option σ)
    (pile : ℕ → ℕ → ℕ → ℝ) {lBase i : ℕ} {base : Arr ℕ (Morceau parameters ℝ)}
    {f : ℕ → Morceau parameters ℝ} (hb : base.Is lBase f) (hi : i < lBase) {e : List Char × ℤ}
    (he : e.1.length < 50) :
    Halts (fun fuel => ajoute sf disque (fun n k i => some (pile n k i)) fuel (i, base) e)
      fun t => t.1 = i + 1 ∧ ∃ m, Piece sf son disque i e m ∧
        t.2.Is lBase (Function.update f i m) := by
  unfold ajoute
  rw [copieTexte_eq_ok.2 ⟨he, rfl⟩]
  refine (halts_lecture hsf (pile i) (disque i e.1) e.2).bind fun m hm => ?_
  obtain ⟨b, hb', his⟩ := hb.ends_set hi m
  rw [hb']
  exact Halts.ok ⟨rfl, m, hm, his⟩

/-- One entry too many, or a name that does not fit. -/
theorem fails_ajoute (hsf : sf.Reads son) (disque : ℕ → List Char → Option σ)
    (pile : ℕ → ℕ → ℕ → ℝ) {lBase i : ℕ} {base : Arr ℕ (Morceau parameters ℝ)}
    {f : ℕ → Morceau parameters ℝ} (hb : base.Is lBase f) {e : List Char × ℤ}
    (h : ¬(i < lBase ∧ e.1.length < 50)) :
    Fails (fun fuel => ajoute sf disque (fun n k i => some (pile n k i)) fuel (i, base) e)
      .outOfBounds := by
  unfold ajoute
  by_cases he : e.1.length < 50
  · rw [copieTexte_eq_ok.2 ⟨he, rfl⟩]
    refine (halts_lecture hsf (pile i) (disque i e.1) e.2).bind_fails fun m _ => ⟨0, fun _ _ => ?_⟩
    rw [Arr.set_error fun hd => h ⟨(hb.dom i).1 hd, he⟩, error_bind]
  · refine ⟨0, fun _ _ => ?_⟩
    dsimp only
    rw [copieTexte, if_neg he, throw_eq_error, error_bind]

/-- All the entries. -/
theorem halts_ajoutes (hsf : sf.Reads son) (disque : ℕ → List Char → Option σ)
    (pile : ℕ → ℕ → ℕ → ℝ) {lBase : ℕ} (es : List (List Char × ℤ)) {i : ℕ}
    {base : Arr ℕ (Morceau parameters ℝ)} {f : ℕ → Morceau parameters ℝ} (hb : base.Is lBase f)
    (hi : i + es.length ≤ lBase) (hes : ∀ e ∈ es, e.1.length < 50) :
    Halts (fun fuel =>
        es.foldlM (ajoute sf disque (fun n k i => some (pile n k i)) fuel) (i, base))
      fun t => t.1 = i + es.length ∧ ∃ g, t.2.Is lBase g ∧
        (∀ j, j < i ∨ i + es.length ≤ j → g j = f j) ∧
        ∀ j e, es[j]? = some e → Piece sf son disque (i + j) e (g (i + j)) := by
  induction es generalizing i base f with
  | nil => exact Halts.ok ⟨rfl, f, hb, fun _ _ => rfl, nofun⟩
  | cons e es ih =>
    rw [List.forall_mem_cons] at hes
    rw [List.length_cons] at hi ⊢
    simp only [List.foldlM_cons]
    refine (halts_ajoute hsf disque pile hb (by omega) hes.1).bind fun t ht => ?_
    obtain ⟨i', base'⟩ := t
    obtain ⟨rfl, m, hm, hb'⟩ := ht
    refine (ih hb' (by omega) hes.2).mono fun t ht => ?_
    obtain ⟨ht, g, hg, hrest, hpieces⟩ := ht
    refine ⟨by omega, g, hg, fun j hj => ?_, fun j e' hj => ?_⟩
    · rw [hrest j (by omega), Function.update_of_ne (by omega)]
    · cases j with
      | zero =>
        have := hrest i (.inl (Nat.lt_succ_self i))
        rw [Function.update_self] at this
        rw [Nat.add_zero, this]
        obtain rfl : e = e' := Option.some.inj hj
        exact hm
      | succ j =>
        have := hpieces j e' hj
        rwa [Nat.succ_add_eq_add_succ] at this

theorem fails_ajoutes (hsf : sf.Reads son) (disque : ℕ → List Char → Option σ)
    (pile : ℕ → ℕ → ℕ → ℝ) {lBase : ℕ} (es : List (List Char × ℤ)) {i : ℕ}
    {base : Arr ℕ (Morceau parameters ℝ)} {f : ℕ → Morceau parameters ℝ} (hb : base.Is lBase f)
    (hi : i ≤ lBase) (h : ¬(i + es.length ≤ lBase ∧ ∀ e ∈ es, e.1.length < 50)) :
    Fails (fun fuel =>
        es.foldlM (ajoute sf disque (fun n k i => some (pile n k i)) fuel) (i, base))
      .outOfBounds := by
  induction es generalizing i base f with
  | nil => exact absurd ⟨hi, nofun⟩ h
  | cons e es ih =>
    rw [List.length_cons, List.forall_mem_cons] at h
    simp only [List.foldlM_cons]
    by_cases he : i < lBase ∧ e.1.length < 50
    · refine (halts_ajoute hsf disque pile hb he.1 he.2).bind_fails fun t ht => ?_
      obtain ⟨i', base'⟩ := t
      obtain ⟨rfl, m, -, hb'⟩ := ht
      exact ih hb' (by omega) fun hes => h ⟨by omega, he.2, hes.2⟩
    · exact (fails_ajoute hsf disque pile hb he).bind

/-- The base that `main` builds from the entries `es`: their pieces, in order, and then pieces
without frame. -/
structure BaseLue (sf : Sndfile σ ℝ) (son : σ → List ℝ) (disque : ℕ → List Char → Option σ)
    (indet : ℕ → ℤ) (lBase : ℕ) (es : List (List Char × ℤ))
    (r : ℕ × List (Morceau parameters ℝ)) : Prop where
  ouvertures : r.1 = es.length
  length : r.2.length = lBase
  lues : ∀ j e, es[j]? = some e → ∃ m, r.2[j]? = some m ∧ Piece sf son disque j e m
  reste : ∀ j, es.length ≤ j → j < lBase → r.2[j]? = some (Morceau.defaut (indet j))

/-- `main.base` on the entries of its text. -/
theorem main_base_eq {P : Parameters} {K : Type} [Field K] [LinearOrder K] [LibM K]
    (sf : Sndfile σ K) (disque : ℕ → List Char → Option σ) (pile : ℕ → ℕ → ℕ → Option K)
    (indet : ℕ → ℤ) (lBase : ℕ) (texte : List Char) {fuel : ℕ}
    (hfuel : (entrees (lignes (cString texte))).length ≤ fuel) :
    main.base P sf disque pile fuel indet lBase texte =
      (entrees (lignes (cString texte))).foldlM (ajoute sf disque pile fuel)
        (0, Arr.ofFn lBase fun i => Morceau.defaut (indet i)) >>= fun s =>
          s.2.toVector lBase >>= fun base => pure (s.1, base.toList) := by
  rw [← map_charge sf disque pile fuel _ _ [] _ fuel le_rfl hfuel, bind_map_left]
  rfl

/-- A text that fits. -/
theorem halts_main_base (hsf : sf.Reads son) (disque : ℕ → List Char → Option σ)
    (pile : ℕ → ℕ → ℕ → ℝ) (indet : ℕ → ℤ) {lBase : ℕ} {texte : List Char}
    (hlen : (entrees (lignes (cString texte))).length ≤ lBase)
    (hes : ∀ e ∈ entrees (lignes (cString texte)), e.1.length < 50) :
    Halts (fun fuel => main.base parameters sf disque (fun n k i => some (pile n k i)) fuel indet
        lBase texte)
      (BaseLue sf son disque indet lBase (entrees (lignes (cString texte)))) := by
  rw [halts_congr fun fuel hfuel => main_base_eq sf disque _ indet lBase texte hfuel]
  generalize entrees (lignes (cString texte)) = es at hlen hes ⊢
  have hbase := Arr.is_ofFn lBase fun i => (Morceau.defaut (indet i) : Morceau parameters ℝ)
  refine (halts_ajoutes hsf disque pile es hbase (by omega) hes).bind fun s hs => ?_
  obtain ⟨i, base⟩ := s
  obtain ⟨hi, g, hg, hrest, hpieces⟩ := hs
  rw [Nat.zero_add] at hi
  rw [Arr.toVector_ok hg.holds]
  refine Halts.ok ⟨hi, Vector.length_toList, fun j e hj => ⟨g j, ?_, ?_⟩, fun j h1 h2 => ?_⟩
  · obtain ⟨hj, -⟩ := List.getElem?_eq_some_iff.1 hj
    simp [show j < lBase by omega]
  · have := hpieces j e hj
    rwa [Nat.zero_add] at this
  · rw [← hrest j (.inr (by omega))]
    simp [h2]

/-- A text that does not. -/
theorem fails_main_base (hsf : sf.Reads son) (disque : ℕ → List Char → Option σ)
    (pile : ℕ → ℕ → ℕ → ℝ) (indet : ℕ → ℤ) {lBase : ℕ} {texte : List Char}
    (h : ¬((entrees (lignes (cString texte))).length ≤ lBase ∧
      ∀ e ∈ entrees (lignes (cString texte)), e.1.length < 50)) :
    Fails (fun fuel => main.base parameters sf disque (fun n k i => some (pile n k i)) fuel indet
      lBase texte) .outOfBounds := by
  refine fails_congr (fun fuel hfuel => main_base_eq sf disque _ indet lBase texte hfuel) ?_
  have hbase := Arr.is_ofFn lBase fun i => (Morceau.defaut (indet i) : Morceau parameters ℝ)
  refine (fails_ajoutes hsf disque pile _ hbase (Nat.zero_le lBase) ?_).bind
  rwa [Nat.zero_add]

/-- **The base** is the one of its text exactly if the text has at most `lBase` entries, of which
the names fit their array; else `main` leaves one of its arrays. -/
theorem main_base_iff {σ : Type} (sf : Sndfile σ ℝ) (son : σ → List ℝ) (hsf : sf.Reads son)
    (disque : ℕ → List Char → Option σ) (pile : ℕ → ℕ → ℕ → ℝ) (indet : ℕ → ℤ) (lBase : ℕ)
    (texte : List Char) :
    (Halts (fun fuel => main.base parameters sf disque (fun n k i => some (pile n k i)) fuel indet
        lBase texte) (BaseLue sf son disque indet lBase (entrees (lignes (cString texte)))) ↔
      (entrees (lignes (cString texte))).length ≤ lBase ∧
        ∀ e ∈ entrees (lignes (cString texte)), e.1.length < 50) ∧
    (¬((entrees (lignes (cString texte))).length ≤ lBase ∧
        ∀ e ∈ entrees (lignes (cString texte)), e.1.length < 50) →
      Fails (fun fuel => main.base parameters sf disque (fun n k i => some (pile n k i)) fuel indet
        lBase texte) .outOfBounds) := by
  refine ⟨⟨fun h => ?_, fun h => halts_main_base hsf disque pile indet h.1 h.2⟩, fun h =>
    fails_main_base hsf disque pile indet h⟩
  by_contra hno
  exact (fails_main_base hsf disque pile indet hno).not_halts h

/-- Two recordings of the two classes, of which one is absent: room for two, and for one. -/
theorem main_base_two :
    Halts (fun fuel => main.base parameters .memory
        (fun _ nom => if nom = "adroite7.wav".toList then some (List.replicate 300 1) else none)
        (fun _ _ _ => some 0) fuel (fun _ => 0) 2 "adroite7.wav\n1\nagauche7.wav\n2\n".toList)
      (BaseLue .memory id
        (fun _ nom => if nom = "adroite7.wav".toList then some (List.replicate 300 1) else none)
        (fun _ => 0) 2
        (entrees (lignes (cString "adroite7.wav\n1\nagauche7.wav\n2\n".toList)))) ∧
    Fails (fun fuel => main.base parameters .memory
        (fun _ nom => if nom = "adroite7.wav".toList then some (List.replicate 300 1) else none)
        (fun _ _ _ => some 0) fuel (fun _ => 0) 1 "adroite7.wav\n1\nagauche7.wav\n2\n".toList)
      .outOfBounds :=
  ⟨(main_base_iff .memory id Sndfile.memory_reads
      (fun _ nom => if nom = "adroite7.wav".toList then some (List.replicate 300 1) else none)
      (fun _ _ _ => 0) (fun _ => 0) 2
      "adroite7.wav\n1\nagauche7.wav\n2\n".toList).1.2 ⟨by decide, by decide⟩,
    (main_base_iff .memory id Sndfile.memory_reads
      (fun _ nom => if nom = "adroite7.wav".toList then some (List.replicate 300 1) else none)
      (fun _ _ _ => 0) (fun _ => 0) 1
      "adroite7.wav\n1\nagauche7.wav\n2\n".toList).2 (by decide)⟩

end

/-! ## The shipped base -/

/-- The entries of `FICHIERS`. -/
def fichiersEntrees : List (List Char × ℤ) :=
  [7, 8, 9, 5, 10, 11, 12, 13, 14].flatMap fun version : ℕ =>
    [("adroite", 1), ("agauche", 2), ("enavant", 3), ("stop", 4)].map fun e : String × ℕ =>
      ("../test3/creations/".toList ++ e.1.toList ++ Nat.toDigits 10 version ++ ".wav".toList,
        Int.ofNat e.2)

theorem texteEntree_ofNat (nom : List Char) (classe : ℕ) :
    texteEntree (nom, Int.ofNat classe) = nom ++ '\n' :: (Nat.toDigits 10 classe ++ ['\n']) := by
  unfold texteEntree
  dsimp only
  rw [toList_toString_ofNat]

theorem lignes_eq (nom : String) (version classe : ℕ) :
    fichiers.lignes nom version classe = texteEntree ("../test3/creations/".toList ++ nom.toList ++
      Nat.toDigits 10 version ++ ".wav".toList, Int.ofNat classe) := by
  rw [texteEntree_ofNat]
  unfold fichiers.lignes
  with_reducible rfl

theorem fichiers_eq : fichiers = fichiersEntrees.flatMap texteEntree := by
  rw [fichiers, fichiersEntrees, List.flatMap_assoc]
  congr 1
  funext version
  simp only [lignes_eq, List.map_cons, List.map_nil, List.flatMap_cons, List.flatMap_nil,
    List.append_nil, List.append_assoc]

theorem length_fichiersEntrees : fichiersEntrees.length = nbFichiers := by
  simp only [fichiersEntrees, nbFichiers, List.length_flatMap, List.length_map]
  rfl

theorem fichiersEntrees_ok : ∀ e ∈ fichiersEntrees,
    '\n' ∉ e.1 ∧ '\x00' ∉ e.1 ∧ e.1.length < 50 ∧ 1 ≤ e.2 ∧ e.2 ≤ 4 := by
  intro e he
  obtain ⟨version, hv, he⟩ := List.mem_flatMap.1 he
  obtain ⟨⟨nom, classe⟩, hn, rfl⟩ := List.mem_map.1 he
  have hdigits : (Nat.toDigits 10 version).length ≤ 2 := by
    refine (Nat.length_toDigits_le_iff (by decide) (by decide)).2 ?_
    exact (by decide : ∀ v ∈ [7, 8, 9, 5, 10, 11, 12, 13, 14], v < 10 ^ 2) version hv
  have hchar : ∀ c : Char, c.isDigit = false → c ∉ "../test3/creations/".toList →
      c ∉ nom.toList → c ∉ ".wav".toList → c ∉ "../test3/creations/".toList ++ nom.toList ++
        Nat.toDigits 10 version ++ ".wav".toList := by
    intro c hc h1 h2 h3 h
    simp only [List.mem_append] at h
    rcases h with ((h | h) | h) | h
    · exact h1 h
    · exact h2 h
    · rw [isDigit_of_mem h] at hc
      cases hc
    · exact h3 h
  have hnom : '\n' ∉ nom.toList ∧ '\x00' ∉ nom.toList ∧ nom.toList.length ≤ 7 ∧ 1 ≤ classe ∧
      classe ≤ 4 := by
    exact (by decide : ∀ e ∈ [("adroite", 1), ("agauche", 2), ("enavant", 3), ("stop", 4)],
      '\n' ∉ e.1.toList ∧ '\x00' ∉ e.1.toList ∧ e.1.toList.length ≤ 7 ∧ 1 ≤ e.2 ∧ e.2 ≤ 4) _ hn
  refine ⟨hchar _ rfl (by decide) hnom.1 (by decide), hchar _ rfl (by decide) hnom.2.1 (by decide),
    ?_, by simp [hnom.2.2.2.1], by simp [hnom.2.2.2.2]⟩
  have h1 : "../test3/creations/".toList.length = 19 := by decide
  have h2 : ".wav".toList.length = 4 := by decide
  simp only [List.length_append, h1, h2]
  omega

theorem entrees_fichiers : entrees (lignes (cString fichiers)) = fichiersEntrees := by
  rw [fichiers_eq, cString_catalogue fun e he => (fichiersEntrees_ok e he).2.1,
    entrees_texte _ fun e he => (fichiersEntrees_ok e he).1]
  refine (List.map_congr_left fun e he => ?_).trans (List.map_id _)
  obtain ⟨-, -, -, h1, h4⟩ := fichiersEntrees_ok e he
  rw [(atoi_toString_iff e.2).2 (by omega)]
  rfl

end TlVoix
