import TlVoix.Cpp.Proof.Acoustic
import TlVoix.Cpp.Proof.DtwSequence
import TlVoix.Cpp.Proof.Main
import TlVoix.Cpp.Proof.Sounds

/-!
# `main` computes the verdict of the recogniser

* `distance_of_dtw`, `classif_verdict`: `dtw` and `classif` on the pieces of recordings are the
  distance and the verdict of `acoustic` on their samples.
* `main_verdict_iff`: so the orders that `main` sends are functions of the samples of the base and
  of the requests (`attendue`).
* `main_alike`, `main_reverse`: what these functions do not see, in whole runs.
-/

namespace TlVoix

open Checked Ballot Acoustic

/-! ## The distance -/

theorem distance_of_dtw {m b : Morceau parameters ℝ} {x y : List ℝ} (hm : m.mfccs = trace x)
    (hb : b.mfccs = trace y) {v : ℝ} (h : dtw m b = .ok v) : acoustic.distance x y = v := by
  obtain ⟨h1, h2⟩ := dtw_ok_iff.1 ⟨v, h⟩
  have hv := Except.ok.inj ((dtw_eq h1 h2).symm.trans h)
  have hx : acoustic.trace x = (suites parameters).trace m.mfccs := hm.symm
  have hy : acoustic.trace y = (suites parameters).trace b.mfccs := hb.symm
  have hgap : acoustic.gap = (suites parameters).gap := rfl
  rw [Recogniser.distance_congr hgap hx hy, hv]

/-! ## The verdict -/

/-- The piece `b` sounds like the recording of `e`, and has its class. -/
def Joue (b : Morceau parameters ℝ) (e : List ℝ × ℤ) : Prop :=
  b.mfccs = trace e.1 ∧ b.getClasse = e.2

theorem entries_eq {m : Morceau parameters ℝ} {x : List ℝ} (hm : m.mfccs = trace x)
    {base : List (Morceau parameters ℝ)} {sons : List (List ℝ × ℤ)}
    (hbase : List.Forall₂ Joue base sons) (hdtw : ∀ b ∈ base, ∃ v, dtw m b = .ok v) :
    entries m base = acoustic.entries sons x := by
  unfold entries Recogniser.entries
  induction hbase with
  | nil => rfl
  | cons h _ ih =>
    obtain ⟨⟨v, hv⟩, hdtw⟩ := List.forall_mem_cons.1 hdtw
    rw [List.map_cons, List.map_cons, ih hdtw, distance_of_dtw hm h.1 hv, h.2, distanceGlobale, hv]

/-- **`classif`** on a base that sounds like `sons`; it returns -1 where there is no verdict. -/
theorem classif_verdict {m : Morceau parameters ℝ} {x : List ℝ} (hm : m.mfccs = trace x)
    {base : List (Morceau parameters ℝ)} {sons : List (List ℝ × ℤ)}
    (hbase : List.Forall₂ Joue base sons) {k : ℕ} (hk : 1 ≤ k)
    (hlabels : ∀ b ∈ base, 1 ≤ b.getClasse ∧ b.getClasse ≤ 4) {c : ℤ}
    (h : classif.morceau base m k = .ok c) : c = (acoustic.verdict k sons x).getD (-1) := by
  obtain ⟨t, ht, -⟩ := bind_eq_ok.1 h
  have hdtw := hashmap_ok_iff.1 ⟨t, ht⟩
  obtain ⟨c', hc', hchoice⟩ := ends_classif hk hlabels hdtw
  obtain rfl := Except.ok.inj (h.symm.trans hc')
  rw [entries_eq hm hbase hdtw] at hchoice
  rw [Recogniser.verdict]
  rcases hchoice with ⟨rfl, hnone⟩ | ⟨-, d, hfirst⟩
  · rw [choice_eq_none hnone]
    rfl
  · rw [choice_eq_some hfirst]
    rfl

/-! ## Whole runs -/

section
variable {σ : Type} {sf : Sndfile σ ℝ} {son : σ → List ℝ} {disque : ℕ → List Char → Option σ}

/-- The recordings of the shipped base, with their classes. -/
def sonsFichiers (son : σ → List ℝ) (disque : ℕ → List Char → Option σ) : List (List ℝ × ℤ) :=
  fichiersEntrees.mapIdx fun j e => (samples son (disque j e.1), e.2)

/-- The recording that round `i` asks for. -/
def sonDemande (son : σ → List ℝ) (disque : ℕ → List Char → Option σ) (l : List (List Char))
    (i : ℕ) : List ℝ :=
  samples son (disque (nbFichiers + i) (cString ((demande l i).getD [])))

/-- The class of round `i`, from the samples of the recordings. -/
noncomputable def attendue (son : σ → List ℝ) (disque : ℕ → List Char → Option σ)
    (l : List (List Char)) (i : ℕ) : ℤ :=
  (acoustic.verdict 3 (sonsFichiers son disque) (sonDemande son disque l i)).getD (-1)

theorem BaseLue.joue (hsf : sf.Reads son) {indet : ℕ → ℤ} {r : ℕ × List (Morceau parameters ℝ)}
    (h : BaseLue sf son disque indet nbFichiers fichiersEntrees r) :
    List.Forall₂ Joue r.2 (sonsFichiers son disque) := by
  refine List.forall₂_iff_get.2 ⟨?_, fun j h1 h2 => ?_⟩
  · rw [h.length, sonsFichiers, List.length_mapIdx, length_fichiersEntrees]
  · have hj : j < fichiersEntrees.length := by
      rwa [sonsFichiers, List.length_mapIdx] at h2
    obtain ⟨m, hm, hpiece⟩ := h.lues j _ (List.getElem?_eq_getElem hj)
    obtain rfl := Option.some.inj ((List.getElem?_eq_getElem h1).symm.trans hm)
    obtain ⟨hlu, hclasse⟩ := hpiece
    refine ⟨?_, ?_⟩
    · simp [sonsFichiers, hlu.mfccs hsf]
    · simp [sonsFichiers, hclasse]

theorem Classe.eq_attendue (hsf : sf.Reads son) {indet : ℕ → ℤ}
    {base : List (Morceau parameters ℝ)}
    (hlue : BaseLue sf son disque indet nbFichiers fichiersEntrees (nbFichiers, base))
    {l : List (List Char)} {i : ℕ} {c : ℤ} (h : Classe sf son disque base l nbFichiers i c) :
    c = attendue son disque l i := by
  obtain ⟨w, hw, m, hm, hc⟩ := h
  rw [attendue, sonDemande, hw]
  exact classif_verdict (hm.mfccs hsf) (hlue.joue hsf) (by decide) hlue.labels hc

/-- The port has received the orders of the classes `c` of the rounds, and the stop orders, or what
it accepts of them. -/
def Obei (oracle : ℕ → List Char → Ecriture) (c : ℕ → ℤ) (n : ℕ) (port : Option PortSerie)
    (s : Session) : Prop :=
  ∃ k : ℕ → ℕ × ℕ, (∀ i < n, Partie oracle (c i) (k i)) ∧
    Envoye port s.port ((List.range n).flatMap fun i => ordre (c i) (k i))

theorem Servi.obei (hsf : sf.Reads son) {oracle : ℕ → List Char → Ecriture} {indet : ℕ → ℤ}
    {l : List (List Char)} {n : ℕ} {port : Option PortSerie} {s : Session}
    (h : Servi sf son disque oracle indet l n port s) :
    Obei oracle (attendue son disque l) n port s := by
  obtain ⟨base, hlue, c, k, hck, hsent⟩ := h
  have hc : ∀ i < n, c i = attendue son disque l i := fun i hi => (hck i hi).1.eq_attendue hsf hlue
  refine ⟨k, fun i hi => hc i hi ▸ (hck i hi).2, ?_⟩
  have hsame : (List.range n).flatMap (fun i => ordre (attendue son disque l i) (k i)) =
      (List.range n).flatMap fun i => ordre (c i) (k i) :=
    List.flatMap_congr fun i hi => by rw [hc i (List.mem_range.1 hi)]
  rwa [hsame]

end

/-- **`main` computes the verdict of the recogniser** in every round, and sends its order, exactly
if the recordings of its base and of the requests have frames, and every name fits its array. -/
theorem main_verdict_iff {σ : Type} (sf : Sndfile σ ℝ) (son : σ → List ℝ) (hsf : sf.Reads son)
    (disque : ℕ → List Char → Option σ) (pile : ℕ → ℕ → ℕ → ℝ)
    (oracle : ℕ → List Char → Ecriture) (ho : Admissible oracle) (indet : ℕ → ℤ) (cin : List Char)
    (port : Option PortSerie) (n : ℕ) (hn : 1 ≤ n) :
    Halts (fun fuel => main parameters sf disque (fun n k i => some (pile n k i)) oracle fuel indet
        nbFichiers fichiers cin port n) (Obei oracle (attendue son disque (mots cin)) n port) ↔
      Service son disque (mots cin) n :=
  ⟨service_of_halts_main hsf pile ho indet hn,
    fun h => (halts_main hsf pile ho indet port h).mono fun _ hs => hs.obei hsf⟩

/-- Every request of a whistle, on a base of silences, is nearest to the shortest ones. -/
theorem entries_silences {x : List ℝ} {s : ℕ → ℝ} (hx : trace x = [feature s]) :
    acoustic.entries (sonsFichiers id disqueSilences) x =
      (fichiersEntrees.mapIdx fun j e => (j, e.2)).map fun p =>
        ((p.1 + 1 : ℕ) * acoustic.gap (feature s) (feature fun _ => 0) / (p.1 + 2 : ℕ), p.2) := by
  rw [Recogniser.entries, sonsFichiers]
  refine List.ext_getElem (by simp) fun j h1 h2 => ?_
  have hj : j < nbFichiers := by simpa [length_fichiersEntrees] using h2
  simp only [List.getElem_map, List.getElem_mapIdx]
  rw [disqueSilences, if_pos hj, samples, id, distance_silence hx]

/-- The third recording of class 1 is the ninth one of the base. -/
theorem attendue_silences (l : List (List Char)) : attendue id disqueSilences l = fun _ => 1 := by
  funext i
  have hwhistle : trace (sonDemande id disqueSilences l i) = [feature (tone 8 1 1 0)] := by
    rw [sonDemande, disqueSilences, if_neg (by omega), samples, id, trace, List.length_ofFn]
    refine congrArg (fun f => [f]) (feature_congr (spectrum_congr fun u hu => ?_))
    rw [window, Nat.mul_zero, Nat.zero_add, List.getD_eq_getElem _ _ (by rwa [List.length_ofFn]),
      List.getElem_ofFn, tone, one_mul]
    congr 1
    push_cast
    ring
  have hsplit : (fichiersEntrees.mapIdx fun j e => (j, e.2)) =
      [(0, 1), (1, 2), (2, 3), (3, 4), (4, 1), (5, 2), (6, 3), (7, 4)] ++ (8, 1) ::
        (fichiersEntrees.mapIdx fun j e => (j, e.2)).drop 9 := rfl
  have hsorted : (fichiersEntrees.mapIdx fun j e => (j, e.2)).Pairwise fun p q => p.1 < q.1 := by
    decide
  have hlt : ∀ c : ℤ,
      total [((0 : ℕ), 1), (1, 2), (2, 3), (3, 4), (4, 1), (5, 2), (6, 3), (7, 4)] c < 3 := by
    intro c
    have hnil : total ([] : List (ℕ × ℤ)) c = 0 := rfl
    simp only [total_cons, hnil]
    split_ifs <;> omega
  rw [hsplit] at hsorted
  have hchoice := choice_map_of_sorted (k := 3) (strictMono_distance gap_tone_pos) hsorted rfl hlt
  rw [attendue, Recogniser.verdict, entries_silences hwhistle, hsplit, hchoice]
  rfl

theorem main_verdict_two :
    Halts (fun fuel => main parameters .memory disqueSilences (fun _ _ _ => some 0)
        (fun _ c => .accepte c.length) fuel (fun _ => 0) nbFichiers fichiers
        "a.wav\nb.wav\n".toList (some ⟨0, []⟩) 2)
      (Obei (fun _ c => .accepte c.length) (fun _ => 1) 2 (some ⟨0, []⟩)) := by
  rw [← attendue_silences (mots "a.wav\nb.wav\n".toList)]
  exact (main_verdict_iff .memory id Sndfile.memory_reads _ (fun _ _ _ => 0) _ admissible_whole _ _
    _ 2 (by decide)).2 service_silences

/-! ## Other disks -/

section
variable {σ σ' : Type} {son : σ → List ℝ} {son' : σ' → List ℝ}
  {disque : ℕ → List Char → Option σ} {disque' : ℕ → List Char → Option σ'}

theorem forall₂_mapIdx {α β γ : Type} {R : β → γ → Prop} {f : ℕ → α → β} {g : ℕ → α → γ}
    (h : ∀ j a, R (f j a) (g j a)) (l : List α) : List.Forall₂ R (l.mapIdx f) (l.mapIdx g) := by
  refine List.forall₂_iff_get.2 ⟨by simp, fun j h1 h2 => ?_⟩
  simp only [List.get_eq_getElem, List.getElem_mapIdx]
  exact h j _

theorem attendue_congr (h : ∀ n nom n' nom', acoustic.distance (samples son (disque n nom))
      (samples son (disque n' nom')) = acoustic.distance (samples son' (disque' n nom))
        (samples son' (disque' n' nom'))) (l : List (List Char)) :
    attendue son disque l = attendue son' disque' l := by
  funext i
  have hbase : List.Forall₂ (fun b b' => acoustic.distance (sonDemande son disque l i) b.1 =
      acoustic.distance (sonDemande son' disque' l i) b'.1 ∧ b.2 = b'.2)
      (sonsFichiers son disque) (sonsFichiers son' disque') :=
    forall₂_mapIdx (fun j e => ⟨h _ _ _ _, rfl⟩) fichiersEntrees
  rw [attendue, attendue, Recogniser.verdict_congr 3 hbase]

/-- The recordings of two disks that have as many frames. -/
theorem Service.of_length (h : ∀ n nom, (samples son' (disque' n nom)).length / 128 =
      (samples son (disque n nom)).length / 128) {l : List (List Char)} {n : ℕ}
    (hs : Service son disque l n) : Service son' disque' l n := by
  have hframe : ∀ n nom, parameters.tailleFrame ≤ (samples son (disque n nom)).length →
      parameters.tailleFrame ≤ (samples son' (disque' n nom)).length := by
    intro n nom hlen
    have := h n nom
    rw [parameters] at hlen ⊢
    dsimp only at hlen ⊢
    omega
  refine ⟨fun j e he => hframe _ _ (hs.1 j e he), fun i hi => ?_⟩
  obtain ⟨w, hw, hlt, hlen⟩ := hs.2 i hi
  exact ⟨w, hw, hlt, hframe _ _ hlen⟩

/-- The orders for recordings with the traces of those of another disk. -/
theorem halts_main_trace {sf' : Sndfile σ' ℝ} (hsf' : sf'.Reads son')
    (htrace : ∀ n nom, acoustic.trace (samples son' (disque' n nom)) =
      acoustic.trace (samples son (disque n nom)))
    (hlen : ∀ n nom, (samples son' (disque' n nom)).length / 128 =
      (samples son (disque n nom)).length / 128)
    (pile : ℕ → ℕ → ℕ → ℝ) {oracle : ℕ → List Char → Ecriture} (ho : Admissible oracle)
    (indet : ℕ → ℤ) {cin : List Char} (port : Option PortSerie) {n : ℕ}
    (h : Service son disque (mots cin) n) :
    Halts (fun fuel => main parameters sf' disque' (fun n k i => some (pile n k i)) oracle fuel
        indet nbFichiers fichiers cin port n)
      (Obei oracle (attendue son disque (mots cin)) n port) := by
  have hsame : attendue son disque (mots cin) = attendue son' disque' (mots cin) :=
    attendue_congr (fun n nom n' nom' =>
      Recogniser.distance_congr rfl (htrace n nom).symm (htrace n' nom').symm) (mots cin)
  rw [hsame]
  exact (halts_main hsf' pile ho indet port (h.of_length hlen)).mono fun _ hs => hs.obei hsf'

end

/-- **Recordings that sound the same**: if every recording of another disk has the whole half frames
of the one of the first disk, or their opposites, `main` sends the orders of the first disk. -/
theorem main_alike {σ σ' : Type} (sf' : Sndfile σ' ℝ) (son : σ → List ℝ) (son' : σ' → List ℝ)
    (hsf' : sf'.Reads son') (disque : ℕ → List Char → Option σ)
    (disque' : ℕ → List Char → Option σ')
    (halike : ∀ n nom, Alike (samples son (disque n nom)) (samples son' (disque' n nom)))
    (pile : ℕ → ℕ → ℕ → ℝ) (oracle : ℕ → List Char → Ecriture) (ho : Admissible oracle)
    (indet : ℕ → ℤ) (cin : List Char) (port : Option PortSerie) (n : ℕ)
    (h : Service son disque (mots cin) n) :
    Halts (fun fuel => main parameters sf' disque' (fun n k i => some (pile n k i)) oracle fuel
        indet nbFichiers fichiers cin port n)
      (Obei oracle (attendue son disque (mots cin)) n port) :=
  halts_main_trace hsf' (fun n nom => (halike n nom).trace) (fun n nom => (halike n nom).length)
    pile ho indet port h

theorem samples_map (f : List ℝ → List ℝ) (n : ℕ) (nom : List Char) :
    samples id ((disqueSilences n nom).map f) = f (samples id (disqueSilences n nom)) := rfl

theorem alike_neg_append {x y : List ℝ} (hx : 128 ∣ x.length) (hy : y.length < 128) :
    Alike x (x.map (-·) ++ y) := by
  obtain ⟨n, hn⟩ := hx
  have hlen : 128 * ((128 * n + y.length) / 128) = (x.map (-·)).length := by
    rw [List.length_map, hn]
    omega
  refine .inr ?_
  rw [whole, whole, List.length_append, List.length_map, hn, hlen, List.take_left, ← hn,
    Nat.mul_div_cancel' ⟨n, hn⟩, List.take_length]

/-- The opposite recordings, with some samples more. -/
theorem main_alike_two :
    Halts (fun fuel => main parameters .memory
        (fun n nom => (disqueSilences n nom).map fun x => x.map (-·) ++ [1, 2, 3])
        (fun _ _ _ => some 0) (fun _ c => .accepte c.length) fuel (fun _ => 0) nbFichiers fichiers
        "a.wav\nb.wav\n".toList (some ⟨0, []⟩) 2)
      (Obei (fun _ c => .accepte c.length) (fun _ => 1) 2 (some ⟨0, []⟩)) := by
  rw [← attendue_silences (mots "a.wav\nb.wav\n".toList)]
  refine main_alike .memory id id Sndfile.memory_reads disqueSilences _ (fun n nom => ?_)
    (fun _ _ _ => 0) _ admissible_whole _ _ _ 2 service_silences
  rw [samples_map]
  exact alike_neg_append (length_silences n nom).2 (by decide)

/-- **Recordings played backwards**: if all the recordings are whole half frames, and those of
another disk are the same ones read from their end, `main` sends the orders of the first disk. -/
theorem main_reverse {σ σ' : Type} (sf' : Sndfile σ' ℝ) (son : σ → List ℝ) (son' : σ' → List ℝ)
    (hsf' : sf'.Reads son') (disque : ℕ → List Char → Option σ)
    (disque' : ℕ → List Char → Option σ')
    (hreverse : ∀ n nom, 128 ∣ (samples son (disque n nom)).length ∧
      samples son' (disque' n nom) = (samples son (disque n nom)).reverse)
    (pile : ℕ → ℕ → ℕ → ℝ) (oracle : ℕ → List Char → Ecriture) (ho : Admissible oracle)
    (indet : ℕ → ℤ) (cin : List Char) (port : Option PortSerie) (n : ℕ)
    (h : Service son disque (mots cin) n) :
    Halts (fun fuel => main parameters sf' disque' (fun n k i => some (pile n k i)) oracle fuel
        indet nbFichiers fichiers cin port n)
      (Obei oracle (attendue son disque (mots cin)) n port) := by
  have htrace : ∀ n nom, acoustic.trace (samples son' (disque' n nom)) =
      (acoustic.trace (samples son (disque n nom))).reverse := by
    intro n nom
    obtain ⟨hdvd, hrev⟩ := hreverse n nom
    rw [hrev]
    exact trace_reverse hdvd
  have hsame : attendue son disque (mots cin) = attendue son' disque' (mots cin) :=
    attendue_congr (fun n nom n' nom' =>
      (Recogniser.distance_reverse (htrace n nom) (htrace n' nom')).symm) (mots cin)
  have hs : Service son' disque' (mots cin) n := h.of_length fun n nom => by
    rw [(hreverse n nom).2, List.length_reverse]
  rw [hsame]
  exact (halts_main hsf' pile ho indet port hs).mono fun _ hs => hs.obei hsf'

/-- The whistles of the requests, backwards. -/
theorem main_reverse_two :
    Halts (fun fuel => main parameters .memory
        (fun n nom => (disqueSilences n nom).map List.reverse)
        (fun _ _ _ => some 0) (fun _ c => .accepte c.length) fuel (fun _ => 0) nbFichiers fichiers
        "a.wav\nb.wav\n".toList (some ⟨0, []⟩) 2)
      (Obei (fun _ c => .accepte c.length) (fun _ => 1) 2 (some ⟨0, []⟩)) := by
  rw [← attendue_silences (mots "a.wav\nb.wav\n".toList)]
  exact main_reverse .memory id id Sndfile.memory_reads disqueSilences _
    (fun n nom => ⟨(length_silences n nom).2, samples_map List.reverse n nom⟩) (fun _ _ _ => 0) _
    admissible_whole _ _ _ 2 service_silences

end TlVoix
