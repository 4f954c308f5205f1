import TlVoix.Cpp.Proof.Base
import TlVoix.Cpp.Proof.Commande

/-!
# The program `main` answers requests

* `nom_eq_ok`: round `i` answers the `i`-th word of the input, and then its last word again.
* `halts_tour`, `halts_tours`: a round classifies the recording of its request and sends the order;
  a run of rounds, by induction. `recevable_of_halts_tours` is the converse.
* `main_iff`: the shipped program answers `n` requests exactly if its recordings have frames and the
  names fit. `main_lignes`: what the robot then reads.
-/

namespace TlVoix

open Checked

/-! ## Requests -/

/-- The request of round `i`, in an input of words `l`: after the last word it is the same. -/
def demande (l : List (List Char)) (i : ℕ) : Option (List Char) := l[min i (l.length - 1)]?

theorem demande_of_lt {l : List (List Char)} {i : ℕ} (h : i < l.length) : demande l i = l[i]? := by
  rw [demande, Nat.min_eq_left (Nat.le_sub_one_of_lt h)]

theorem demande_succ {l : List (List Char)} {i : ℕ} (h : l.length ≤ i + 1) :
    demande l (i + 1) = demande l i := by
  rw [demande, demande, Nat.min_eq_right (by omega), Nat.min_eq_right (by omega)]

/-- The state after `i` rounds, on an input of words `l` and after `o` calls of `sf_open`. -/
structure Rendue (l : List (List Char)) (o i : ℕ) (s : Session) : Prop where
  usable : s.cin.Usable
  reste : mots s.cin.reste = l.drop i
  vide : i = 0 → s.nom0 = none
  nom0 : ∀ j, i = j + 1 → ∃ w, demande l j = some w ∧ w.length < 50 ∧ s.nom0 = some (cString w)
  ouvertures : s.ouvertures = o + i

theorem rendue_zero (texte : List Char) (o : ℕ) (port : Option PortSerie) :
    Rendue (mots texte) o 0 ⟨.ofText texte, none, o, port⟩ :=
  ⟨Istream.usable_ofText texte, rfl, fun _ => rfl, nofun, rfl⟩

/-- The request of a round. -/
theorem nom_eq_ok {l : List (List Char)} {o i : ℕ} {s : Session} (hs : Rendue l o i s)
    {r : Istream × List Char} :
    main.nom s = .ok r ↔
      ∃ w, demande l i = some w ∧ w.length < 50 ∧ r = (s.cin.mot.1, cString w) := by
  obtain ⟨-, hmot, -⟩ := Istream.mot_eq hs.usable
  rw [hs.reste, List.head?_drop] at hmot
  have hnom : main.nom s = match s.cin.mot.2, s.nom0 with
      | some m, _ => do pure (s.cin.mot.1, cString (← copieTexte 50 m))
      | none, some nom => pure (s.cin.mot.1, nom)
      | none, none => throw .uninitialised := by
    unfold main.nom
    rcases s.cin.mot with ⟨cin, _ | m⟩ <;> cases s.nom0 <;> rfl
  rw [hnom, hmot]
  rcases Nat.lt_or_ge i l.length with hi | hi
  · rw [demande_of_lt hi, List.getElem?_eq_getElem hi]
    dsimp only
    rw [bind_eq_ok]
    constructor
    · intro h
      obtain ⟨m, hm, h⟩ := h
      obtain ⟨hlt, rfl⟩ := copieTexte_eq_ok.1 hm
      exact ⟨_, rfl, hlt, (Except.ok.inj h).symm⟩
    · intro h
      obtain ⟨w, hw, hlt, rfl⟩ := h
      obtain rfl := Option.some.inj hw
      exact ⟨_, copieTexte_eq_ok.2 ⟨hlt, rfl⟩, rfl⟩
  · rw [List.getElem?_eq_none hi]
    cases i with
    | zero =>
      obtain rfl : l = [] := List.length_eq_zero_iff.1 (Nat.le_zero.1 hi)
      rw [hs.vide rfl]
      simp [demande]
    | succ j =>
      obtain ⟨w, hw, hlt, hnom0⟩ := hs.nom0 j rfl
      rw [demande_succ hi, hw, hnom0]
      dsimp only
      constructor
      · intro h
        exact ⟨w, rfl, hlt, (Except.ok.inj h).symm⟩
      · intro h
        obtain ⟨w', hw', -, rfl⟩ := h
        obtain rfl := Option.some.inj hw'
        rfl

/-! ## Answers -/

section
variable {σ : Type} {sf : Sndfile σ ℝ} {son : σ → List ℝ} {base : List (Morceau parameters ℝ)}

/-- `c` is the class of the recording `infile`. -/
def Reponse (sf : Sndfile σ ℝ) (son : σ → List ℝ) (base : List (Morceau parameters ℝ))
    (infile : Option σ) (c : ℤ) : Prop :=
  ∃ m, Lu sf son infile m ∧ classif.morceau base m 3 = .ok c

/-- The recording `infile` and the pieces of the base have frames, if they are compared. -/
def Comparable (son : σ → List ℝ) (base : List (Morceau parameters ℝ)) (infile : Option σ) : Prop :=
  base = [] ∨ parameters.tailleFrame ≤ (samples son infile).length ∧ ∀ b ∈ base, 1 ≤ b.getNFrames

/-- `classif` classifies the recordings that can be compared. -/
theorem halts_classif (hsf : sf.Reads son)
    (hlabels : ∀ b ∈ base, 1 ≤ b.getClasse ∧ b.getClasse ≤ 4) (pile : ℕ → ℕ → ℝ)
    {infile : Option σ} (h : Comparable son base infile) :
    Halts (fun fuel => classif sf (fun k i => some (pile k i)) fuel base infile 3)
      (Reponse sf son base infile) := by
  refine (halts_lecture hsf pile infile 0).bind fun m hm => ?_
  have hdtw : ∀ b ∈ base, ∃ v, dtw m b = .ok v := by
    intro b hb
    rcases h with rfl | ⟨hlen, hframes⟩
    · cases hb
    · exact dtw_ok_iff.2 ⟨(hm.1.one_le_iff hsf).2 hlen, hframes b hb⟩
  obtain ⟨c, hc, -⟩ := ends_classif (k := 3) (by decide) hlabels hdtw
  exact ⟨0, c, ⟨m, hm.1, hc⟩, fun _ _ => hc⟩

theorem comparable_of_halts_classif (hsf : sf.Reads son) (pile : ℕ → ℕ → ℝ) {infile : Option σ}
    {c : ℤ} (h : Halts (fun fuel => classif sf (fun k i => some (pile k i)) fuel base infile 3)
      (· = c)) : Comparable son base infile := by
  obtain ⟨m, hm, fuel, a, -, ha⟩ := (halts_bind_iff (steady_lecture sf _ infile 0)).1 h
  have hlu := hm.unique (halts_lecture hsf pile infile 0)
  obtain ⟨t, ht, -⟩ := bind_eq_ok.1 (ha fuel le_rfl)
  have hdtw := hashmap_ok_iff.1 ⟨t, ht⟩
  cases hbase : base with
  | nil => exact .inl rfl
  | cons b base' =>
    rw [← hbase]
    refine .inr ⟨?_, fun b' hb' => (dtw_ok_iff.1 (hdtw b' hb')).2⟩
    have hb : b ∈ base := hbase ▸ List.mem_cons_self
    exact (hlu.1.one_le_iff hsf).1 (dtw_ok_iff.1 (hdtw b hb)).1

end

/-- The text `t` was sent. -/
def Envoye (port port' : Option PortSerie) (t : List Char) : Prop :=
  port'.map PortSerie.recu = port.map fun h => h.recu ++ t

theorem Envoye.nil (port : Option PortSerie) : Envoye port port [] := by
  cases port <;> simp [Envoye]

theorem Envoye.append {port port' port'' : Option PortSerie} {t t' : List Char}
    (h : Envoye port port' t) (h' : Envoye port' port'' t') : Envoye port port'' (t ++ t') := by
  unfold Envoye at *
  cases port with
  | none =>
    rw [Option.map_none, Option.map_eq_none_iff] at h
    rw [h', h]
    rfl
  | some p =>
    rw [Option.map_some, Option.map_eq_some_iff] at h
    obtain ⟨p', rfl, h⟩ := h
    rw [h', Option.map_some, Option.map_some, h, List.append_assoc]

/-- What `commande` sends: a part of the order, and a part of the stop order. -/
def ordre (c : ℤ) (n : ℕ × ℕ) : List Char := (commande.consigne c).take n.1 ++ consigneSTOP.take n.2

/-- Every accepted call of `write` takes its whole buffer. -/
def Entier (oracle : ℕ → List Char → Ecriture) : Prop :=
  ∀ i c n, oracle i c = .accepte n → n = c.length

/-- The parts are not empty, and they are whole if the calls of `write` are. -/
structure Partie (oracle : ℕ → List Char → Ecriture) (c : ℤ) (n : ℕ × ℕ) : Prop where
  ordre : 1 ≤ n.1 ∧ n.1 ≤ (commande.consigne c).length
  arret : 1 ≤ n.2 ∧ n.2 ≤ consigneSTOP.length
  entier : Entier oracle → n = ((commande.consigne c).length, consigneSTOP.length)

theorem halts_commande {oracle : ℕ → List Char → Ecriture} (ho : Admissible oracle)
    (port : Option PortSerie) (c : ℤ) :
    Halts (fun fuel => commande oracle fuel port c) fun port' =>
      ∃ n, Partie oracle c n ∧ Envoye port port' (ordre c n) := by
  cases port with
  | none =>
    have hc : ∀ fuel, commande oracle fuel none c = .ok none := fun _ => rfl
    have hpart : Partie oracle c ((commande.consigne c).length, consigneSTOP.length) :=
      ⟨⟨List.length_pos_iff.2 (consigne_ne_nil c), le_rfl⟩,
        ⟨List.length_pos_iff.2 consigneSTOP_ne_nil, le_rfl⟩, fun _ => rfl⟩
    exact ⟨0, none, ⟨_, hpart, rfl⟩, fun fuel _ => hc fuel⟩
  | some h =>
    obtain ⟨j, n, hj, h1, hn⟩ := ho.exists_firstAccepted (consigne_ne_nil c) h.appels
    obtain ⟨j', n', hj', h1', hn'⟩ := ho.exists_firstAccepted consigneSTOP_ne_nil (j + 1)
    have hpart : Partie oracle c (n, n') := by
      refine ⟨⟨h1, hn⟩, ⟨h1', hn'⟩, fun he => ?_⟩
      rw [he _ _ _ hj.accepted, he _ _ _ hj'.accepted]
    refine ⟨j' - h.appels, _, ⟨(n, n'), hpart, ?_⟩, fun fuel hf => ends_commande hj hj' hf⟩
    simp [Envoye, ordre]

/-! ## Rounds -/

section
variable {σ : Type} {sf : Sndfile σ ℝ} {son : σ → List ℝ} {base : List (Morceau parameters ℝ)}
  {disque : ℕ → List Char → Option σ} {oracle : ℕ → List Char → Ecriture}

/-- Round `i` can be answered. -/
def Recevable (son : σ → List ℝ) (disque : ℕ → List Char → Option σ)
    (base : List (Morceau parameters ℝ)) (l : List (List Char)) (o i : ℕ) : Prop :=
  ∃ w, demande l i = some w ∧ w.length < 50 ∧ Comparable son base (disque (o + i) (cString w))

/-- The class of round `i` is `c`. -/
def Classe (sf : Sndfile σ ℝ) (son : σ → List ℝ) (disque : ℕ → List Char → Option σ)
    (base : List (Morceau parameters ℝ)) (l : List (List Char)) (o i : ℕ) (c : ℤ) : Prop :=
  ∃ w, demande l i = some w ∧ Reponse sf son base (disque (o + i) (cString w)) c

theorem length_cString_le (s : List Char) : (cString s).length ≤ s.length :=
  (List.takeWhile_sublist _).length_le

/-- The text of the command that plays the recording fits its array. -/
theorem copieTexte_play {w : List Char} (h : w.length < 50) :
    copieTexte 100 ("play ".toList ++ cString w) = .ok ("play ".toList ++ cString w) := by
  refine copieTexte_eq_ok.2 ⟨?_, rfl⟩
  have h5 : "play ".toList.length = 5 := by decide
  have := length_cString_le w
  rw [List.length_append, h5]
  omega

theorem steady_tour {P : Parameters} {K : Type} [Field K] [LinearOrder K] [LibM K]
    (sf : Sndfile σ K) (disque : ℕ → List Char → Option σ) (pile : ℕ → ℕ → ℕ → Option K)
    (oracle : ℕ → List Char → Ecriture) (base : List (Morceau P K)) (s : Session) :
    Steady fun fuel => main.tour sf disque pile oracle fuel base s :=
  Steady.bind (Steady.const _) fun _ => Steady.bind (Steady.const _) fun _ =>
    Steady.bind (steady_classif sf _ base _ 3) fun c =>
      Steady.bind (steady_commande oracle s.port c) fun _ => Steady.const _

/-- A round that can be answered. -/
theorem halts_tour (hsf : sf.Reads son) (ho : Admissible oracle)
    (hlabels : ∀ b ∈ base, 1 ≤ b.getClasse ∧ b.getClasse ≤ 4) (pile : ℕ → ℕ → ℕ → ℝ)
    {l : List (List Char)} {o i : ℕ} {s : Session} (hs : Rendue l o i s)
    (h : Recevable son disque base l o i) :
    Halts (fun fuel => main.tour sf disque (fun n k i => some (pile n k i)) oracle fuel base s)
      fun s' => Rendue l o (i + 1) s' ∧ ∃ c n, Classe sf son disque base l o i c ∧
        Partie oracle c n ∧ Envoye s.port s'.port (ordre c n) := by
  obtain ⟨w, hw, hlt, hcomp⟩ := h
  unfold main.tour
  rw [(nom_eq_ok hs).2 ⟨w, hw, hlt, rfl⟩]
  simp only [ok_bind]
  rw [copieTexte_play hlt, hs.ouvertures]
  simp only [ok_bind]
  refine (halts_classif hsf hlabels (pile (o + i)) hcomp).bind fun c hc => ?_
  refine (halts_commande ho s.port c).bind fun port hport => Halts.ok ⟨?_, ?_⟩
  · obtain ⟨huse, -, hrest⟩ := Istream.mot_eq hs.usable
    refine ⟨huse, ?_, nofun, fun j hj => ?_, rfl⟩
    · rw [hrest, hs.reste, List.tail_drop]
    · obtain rfl : i = j := Nat.succ.inj hj
      exact ⟨w, hw, hlt, rfl⟩
  · obtain ⟨n, hn, hport⟩ := hport
    exact ⟨c, n, ⟨w, hw, hc⟩, hn, hport⟩

theorem recevable_of_halts_tour (hsf : sf.Reads son) (pile : ℕ → ℕ → ℕ → ℝ)
    {l : List (List Char)} {o i : ℕ} {s : Session} (hs : Rendue l o i s) {Q : Session → Prop}
    (h : Halts (fun fuel =>
      main.tour sf disque (fun n k i => some (pile n k i)) oracle fuel base s) Q) :
    Recevable son disque base l o i := by
  obtain ⟨r, hr, h⟩ := (halts_bind_iff (Steady.const _)).1 h
  obtain ⟨fuel, _, rfl, hr⟩ := hr
  obtain ⟨w, hw, hlt, rfl⟩ := (nom_eq_ok hs).1 (hr fuel le_rfl)
  obtain ⟨_, -, h⟩ := (halts_bind_iff (Steady.const _)).1 h
  obtain ⟨c, hc, -⟩ := (halts_bind_iff (steady_classif sf _ base _ 3)).1 h
  rw [hs.ouvertures] at hc
  exact ⟨w, hw, hlt, comparable_of_halts_classif hsf _ hc⟩

theorem tours_succ {P : Parameters} {K : Type} [Field K] [LinearOrder K] [LibM K]
    (sf : Sndfile σ K) (disque : ℕ → List Char → Option σ) (pile : ℕ → ℕ → ℕ → Option K)
    (oracle : ℕ → List Char → Ecriture) (fuel : ℕ) (base : List (Morceau P K)) (n : ℕ)
    (s : Session) :
    main.tours sf disque pile oracle fuel base (n + 1) s =
      main.tours sf disque pile oracle fuel base n s >>=
        main.tour sf disque pile oracle fuel base := by
  induction n generalizing s with
  | zero => exact bind_pure _
  | succ n ih =>
    have hleft : main.tours sf disque pile oracle fuel base (n + 1) s =
      main.tour sf disque pile oracle fuel base s >>=
        main.tours sf disque pile oracle fuel base n := rfl
    rw [main.tours, hleft, bind_assoc]
    congr 1
    funext s'
    exact ih s'

theorem steady_tours {P : Parameters} {K : Type} [Field K] [LinearOrder K] [LibM K]
    (sf : Sndfile σ K) (disque : ℕ → List Char → Option σ) (pile : ℕ → ℕ → ℕ → Option K)
    (oracle : ℕ → List Char → Ecriture) (base : List (Morceau P K)) (n : ℕ) (s : Session) :
    Steady fun fuel => main.tours sf disque pile oracle fuel base n s := by
  induction n generalizing s with
  | zero => exact Steady.const _
  | succ n ih => exact Steady.bind (steady_tour sf disque pile oracle base s) ih

/-- After `n` rounds: for each of them, the class of its request and what was sent for it. -/
def Repondu (sf : Sndfile σ ℝ) (son : σ → List ℝ) (disque : ℕ → List Char → Option σ)
    (oracle : ℕ → List Char → Ecriture) (base : List (Morceau parameters ℝ)) (l : List (List Char))
    (o n : ℕ) (port port' : Option PortSerie) : Prop :=
  ∃ (c : ℕ → ℤ) (k : ℕ → ℕ × ℕ),
    (∀ i < n, Classe sf son disque base l o i (c i) ∧ Partie oracle (c i) (k i)) ∧
    Envoye port port' ((List.range n).flatMap fun i => ordre (c i) (k i))

/-- All the rounds, by induction on their number. -/
theorem halts_tours (hsf : sf.Reads son) (ho : Admissible oracle)
    (hlabels : ∀ b ∈ base, 1 ≤ b.getClasse ∧ b.getClasse ≤ 4) (pile : ℕ → ℕ → ℕ → ℝ)
    {l : List (List Char)} {o : ℕ} {s : Session} (hs : Rendue l o 0 s) {n : ℕ}
    (h : ∀ i < n, Recevable son disque base l o i) :
    Halts (fun fuel => main.tours sf disque (fun n k i => some (pile n k i)) oracle fuel base n s)
      fun s' => Rendue l o n s' ∧ Repondu sf son disque oracle base l o n s.port s'.port := by
  induction n with
  | zero => exact Halts.ok ⟨hs, fun _ => 0, fun _ => 0, nofun, Envoye.nil s.port⟩
  | succ n ih =>
    simp only [tours_succ]
    refine (ih fun i hi => h i (Nat.lt_succ_of_lt hi)).bind fun s' hs' => ?_
    obtain ⟨hs', c, k, hck, hsent⟩ := hs'
    refine (halts_tour hsf ho hlabels pile hs' (h n (Nat.lt_succ_self n))).mono fun s'' h'' => ?_
    obtain ⟨hs'', cn, kn, hcn, hkn, hlast⟩ := h''
    refine ⟨hs'', Function.update c n cn, Function.update k n kn, fun i hi => ?_, ?_⟩
    · rcases Nat.lt_succ_iff_lt_or_eq.1 hi with hi | rfl
      · rw [Function.update_of_ne (Nat.ne_of_lt hi), Function.update_of_ne (Nat.ne_of_lt hi)]
        exact hck i hi
      · rw [Function.update_self, Function.update_self]
        exact ⟨hcn, hkn⟩
    · have hpast : (List.range n).flatMap (fun i => ordre (Function.update c n cn i)
          (Function.update k n kn i)) = (List.range n).flatMap fun i => ordre (c i) (k i) := by
        refine List.flatMap_congr fun i hi => ?_
        have hne : i ≠ n := Nat.ne_of_lt (List.mem_range.1 hi)
        rw [Function.update_of_ne hne, Function.update_of_ne hne]
      rw [List.range_succ, List.flatMap_append, hpast, List.flatMap_singleton,
        Function.update_self, Function.update_self]
      exact hsent.append hlast

theorem recevable_of_halts_tours (hsf : sf.Reads son) (ho : Admissible oracle)
    (hlabels : ∀ b ∈ base, 1 ≤ b.getClasse ∧ b.getClasse ≤ 4) (pile : ℕ → ℕ → ℕ → ℝ)
    {l : List (List Char)} {o : ℕ} {s : Session} (hs : Rendue l o 0 s) {n : ℕ}
    {Q : Session → Prop} (h : Halts (fun fuel =>
      main.tours sf disque (fun n k i => some (pile n k i)) oracle fuel base n s) Q) :
    ∀ i < n, Recevable son disque base l o i := by
  induction n generalizing Q with
  | zero => nofun
  | succ n ih =>
    simp only [tours_succ] at h
    obtain ⟨s', hs', hlast⟩ := (halts_bind_iff (steady_tours sf disque _ oracle base n s)).1 h
    have hn := ih hs'
    obtain ⟨hs', -⟩ := hs'.unique (halts_tours hsf ho hlabels pile hs hn)
    intro i hi
    rcases Nat.lt_succ_iff_lt_or_eq.1 hi with hi | rfl
    · exact hn i hi
    · exact recevable_of_halts_tour hsf pile hs' hlast

end

/-! ## The shipped program -/

theorem steady_base {P : Parameters} {σ K : Type} [Field K] [LinearOrder K] [LibM K]
    (sf : Sndfile σ K) (disque : ℕ → List Char → Option σ) (pile : ℕ → ℕ → ℕ → Option K)
    (indet : ℕ → ℤ) (lBase : ℕ) (texte : List Char) :
    Steady fun fuel => main.base P sf disque pile fuel indet lBase texte := by
  refine Steady.bind (Steady.whileLoop (fun s => ?_) _) fun _ => Steady.const _
  exact Steady.bind (Steady.const _) fun _ => Steady.bind (steady_lecture sf _ _ _) fun _ =>
    Steady.const _

section
variable {σ : Type} {sf : Sndfile σ ℝ} {son : σ → List ℝ} {disque : ℕ → List Char → Option σ}

/-- A base without piece by default. -/
theorem BaseLue.exists_piece {indet : ℕ → ℤ} {es : List (List Char × ℤ)}
    {r : ℕ × List (Morceau parameters ℝ)} (h : BaseLue sf son disque indet es.length es r)
    {b : Morceau parameters ℝ} (hb : b ∈ r.2) :
    ∃ j e, es[j]? = some e ∧ Piece sf son disque j e b := by
  obtain ⟨j, hj⟩ := List.getElem?_of_mem hb
  have hlt : j < es.length := h.length ▸ (List.getElem?_eq_some_iff.1 hj).1
  have he := List.getElem?_eq_getElem hlt
  obtain ⟨m, hm, hpiece⟩ := h.lues j _ he
  obtain rfl := Option.some.inj (hj.symm.trans hm)
  exact ⟨j, _, he, hpiece⟩

/-- The recordings that `main` opens before round `n`, and the names that it reads, are those of a
base of recordings with frames, and of requests for recordings with frames. -/
def Service (son : σ → List ℝ) (disque : ℕ → List Char → Option σ) (l : List (List Char)) (n : ℕ) :
    Prop :=
  (∀ j e, fichiersEntrees[j]? = some e →
      parameters.tailleFrame ≤ (samples son (disque j e.1)).length) ∧
    ∀ i < n, ∃ w, demande l i = some w ∧ w.length < 50 ∧
      parameters.tailleFrame ≤ (samples son (disque (nbFichiers + i) (cString w))).length

/-- The state that `main` reaches after `n` rounds. -/
def Servi (sf : Sndfile σ ℝ) (son : σ → List ℝ) (disque : ℕ → List Char → Option σ)
    (oracle : ℕ → List Char → Ecriture) (indet : ℕ → ℤ) (l : List (List Char)) (n : ℕ)
    (port : Option PortSerie) (s : Session) : Prop :=
  ∃ base, BaseLue sf son disque indet nbFichiers fichiersEntrees (nbFichiers, base) ∧
    Repondu sf son disque oracle base l nbFichiers n port s.port

/-- `main.base` on the shipped text. -/
theorem halts_base (hsf : sf.Reads son) (disque : ℕ → List Char → Option σ)
    (pile : ℕ → ℕ → ℕ → ℝ) (indet : ℕ → ℤ) :
    Halts (fun fuel => main.base parameters sf disque (fun n k i => some (pile n k i)) fuel indet
      nbFichiers fichiers) (BaseLue sf son disque indet nbFichiers fichiersEntrees) := by
  rw [← entrees_fichiers]
  refine halts_main_base hsf disque pile indet ?_ ?_ <;> rw [entrees_fichiers]
  · exact length_fichiersEntrees.le
  · exact fun e he => (fichiersEntrees_ok e he).2.2.1

/-- On a base that `main` has read, a round can be answered if and only if the recordings have
frames. -/
theorem BaseLue.comparable_iff (hsf : sf.Reads son) {indet : ℕ → ℤ}
    {r : ℕ × List (Morceau parameters ℝ)}
    (h : BaseLue sf son disque indet nbFichiers fichiersEntrees r) (infile : Option σ) :
    Comparable son r.2 infile ↔ parameters.tailleFrame ≤ (samples son infile).length ∧
      ∀ j e, fichiersEntrees[j]? = some e →
        parameters.tailleFrame ≤ (samples son (disque j e.1)).length := by
  have hne : r.2 ≠ [] := by
    intro hnil
    have := h.length
    rw [hnil] at this
    cases this
  have hframes : (∀ b ∈ r.2, 1 ≤ b.getNFrames) ↔ ∀ j e, fichiersEntrees[j]? = some e →
      parameters.tailleFrame ≤ (samples son (disque j e.1)).length := by
    constructor
    · intro hb j e he
      obtain ⟨m, hm, hpiece⟩ := h.lues j e he
      exact (hpiece.1.one_le_iff hsf).1 (hb m (List.mem_of_getElem? hm))
    · intro he b hb
      rw [← length_fichiersEntrees] at h
      obtain ⟨j, e, hj, hpiece⟩ := h.exists_piece hb
      exact (hpiece.1.one_le_iff hsf).2 (he j e hj)
  rw [Comparable, or_iff_right hne, hframes]

theorem BaseLue.labels {indet : ℕ → ℤ} {r : ℕ × List (Morceau parameters ℝ)}
    (h : BaseLue sf son disque indet nbFichiers fichiersEntrees r) :
    ∀ b ∈ r.2, 1 ≤ b.getClasse ∧ b.getClasse ≤ 4 := by
  intro b hb
  rw [← length_fichiersEntrees] at h
  obtain ⟨j, e, he, hpiece⟩ := h.exists_piece hb
  rw [hpiece.2]
  exact (fichiersEntrees_ok e (List.mem_of_getElem? he)).2.2.2

variable {oracle : ℕ → List Char → Ecriture}

theorem halts_main (hsf : sf.Reads son) (pile : ℕ → ℕ → ℕ → ℝ) (ho : Admissible oracle)
    (indet : ℕ → ℤ) {cin : List Char} (port : Option PortSerie) {n : ℕ}
    (h : Service son disque (mots cin) n) :
    Halts (fun fuel => main parameters sf disque (fun n k i => some (pile n k i)) oracle fuel indet
      nbFichiers fichiers cin port n) (Servi sf son disque oracle indet (mots cin) n port) := by
  obtain ⟨hfichiers, hrounds⟩ := h
  refine (halts_base hsf disque pile indet).bind fun r hlue => ?_
  obtain ⟨o, base⟩ := r
  obtain rfl : o = nbFichiers := hlue.ouvertures.trans length_fichiersEntrees
  refine (halts_tours hsf ho hlue.labels pile (rendue_zero cin nbFichiers port)
    fun i hi => ?_).mono fun s hs => ⟨base, hlue, hs.2⟩
  obtain ⟨w, hw, hlt, hlen⟩ := hrounds i hi
  exact ⟨w, hw, hlt, (hlue.comparable_iff hsf _).2 ⟨hlen, hfichiers⟩⟩

theorem service_of_halts_main (hsf : sf.Reads son) (pile : ℕ → ℕ → ℕ → ℝ) (ho : Admissible oracle)
    (indet : ℕ → ℤ) {cin : List Char} {port : Option PortSerie} {n : ℕ} (hn : 1 ≤ n)
    {Q : Session → Prop} (h : Halts (fun fuel => main parameters sf disque
      (fun n k i => some (pile n k i)) oracle fuel indet nbFichiers fichiers cin port n) Q) :
    Service son disque (mots cin) n := by
  obtain ⟨r, hr, h⟩ := (halts_bind_iff (steady_base sf disque _ indet nbFichiers fichiers)).1 h
  have hlue := hr.unique (halts_base hsf disque pile indet)
  obtain ⟨o, base⟩ := r
  obtain rfl : o = nbFichiers := hlue.ouvertures.trans length_fichiersEntrees
  have hrounds := recevable_of_halts_tours hsf ho hlue.labels pile
    (rendue_zero cin nbFichiers port) h
  refine ⟨?_, fun i hi => ?_⟩
  · obtain ⟨_, -, -, hcomp⟩ := hrounds 0 hn
    exact ((hlue.comparable_iff hsf _).1 hcomp).2
  · obtain ⟨w, hw, hlt, hcomp⟩ := hrounds i hi
    exact ⟨w, hw, hlt, ((hlue.comparable_iff hsf _).1 hcomp).1⟩

end

/-- **`main`** answers `n` requests exactly if the recordings of its base and of the requests have
frames, and every name fits its array. Round `i` then sends the order of the class of the `i`-th
request, or of the last one, and the stop order, or what the port accepts of them. -/
theorem main_iff {σ : Type} (sf : Sndfile σ ℝ) (son : σ → List ℝ) (hsf : sf.Reads son)
    (disque : ℕ → List Char → Option σ) (pile : ℕ → ℕ → ℕ → ℝ)
    (oracle : ℕ → List Char → Ecriture) (ho : Admissible oracle) (indet : ℕ → ℤ) (cin : List Char)
    (port : Option PortSerie) (n : ℕ) (hn : 1 ≤ n) :
    Halts (fun fuel => main parameters sf disque (fun n k i => some (pile n k i)) oracle fuel indet
        nbFichiers fichiers cin port n) (Servi sf son disque oracle indet (mots cin) n port) ↔
      Service son disque (mots cin) n :=
  ⟨service_of_halts_main hsf pile ho indet hn, halts_main hsf pile ho indet port⟩

/-- A disk where the recordings of the base are silent, each one frame longer than the one before,
and those of the requests are one period of a whistle. -/
noncomputable def disqueSilences (n : ℕ) (_ : List Char) : Option (List ℝ) :=
  some (if n < nbFichiers then List.replicate (128 * (n + 2)) 0
    else List.ofFn fun u : Fin 256 => Real.cos (2 • Real.pi * u / (256 : ℕ)))

theorem length_silences (n : ℕ) (nom : List Char) :
    parameters.tailleFrame ≤ (samples id (disqueSilences n nom)).length ∧
      128 ∣ (samples id (disqueSilences n nom)).length := by
  have hframe : parameters.tailleFrame = 256 := rfl
  rw [disqueSilences, samples, id, hframe]
  split
  · rw [List.length_replicate]
    exact ⟨by omega, Nat.dvd_mul_right 128 (n + 2)⟩
  · rw [List.length_ofFn]
    exact ⟨le_rfl, by decide⟩

/-- Two requests on this disk. -/
theorem service_silences : Service id disqueSilences (mots "a.wav\nb.wav\n".toList) 2 := by
  refine ⟨fun j e _ => (length_silences j e.1).1, fun i hi => ?_⟩
  obtain ⟨w, hw, hlt⟩ : ∃ w, demande (mots "a.wav\nb.wav\n".toList) i = some w ∧ w.length < 50 :=
    (by decide : ∀ i < 2, ∃ w, demande (mots "a.wav\nb.wav\n".toList) i = some w ∧
      w.length < 50) i hi
  exact ⟨w, hw, hlt, (length_silences _ _).1⟩

theorem main_iff_two :
    Halts (fun fuel => main parameters .memory disqueSilences (fun _ _ _ => some 0)
        (fun _ c => .accepte c.length) fuel (fun _ => 0) nbFichiers fichiers
        "a.wav\nb.wav\n".toList (some ⟨0, []⟩) 2)
      (Servi .memory id disqueSilences (fun _ c => .accepte c.length) (fun _ => 0)
        (mots "a.wav\nb.wav\n".toList) 2 (some ⟨0, []⟩)) :=
  (main_iff .memory id Sndfile.memory_reads _ (fun _ _ _ => 0) _ admissible_whole _ _ _ 2
    (by decide)).2 service_silences

/-! ## What the robot reads -/

/-- The line of the order of a class. -/
def ligne (c : ℤ) : List Char := (commande.consigne c).dropLast

theorem consigne_eq (c : ℤ) :
    commande.consigne c = ligne c ++ ['\n'] ∧ '\n' ∉ ligne c := by
  unfold ligne commande.consigne
  split_ifs <;> decide

theorem lignes_consigne (c : ℤ) (t : List Char) :
    lignes (commande.consigne c ++ t) = ligne c :: lignes t := by
  obtain ⟨h, hne⟩ := consigne_eq c
  rw [h, List.append_assoc, List.singleton_append, lignes_cons hne]

/-- Whole orders and stop orders are read line by line. -/
theorem lignes_ordres (c : ℕ → ℤ) (l : List ℕ) :
    lignes (l.flatMap fun i => commande.consigne (c i) ++ consigneSTOP) =
      (l.flatMap fun i => [ligne (c i), "D,0,0".toList]) ++ [[]] := by
  induction l with
  | nil => rfl
  | cons i l ih =>
    have hstop : consigneSTOP = commande.consigne 4 := rfl
    have hligne : ligne 4 = "D,0,0".toList := by decide
    rw [List.flatMap_cons, List.append_assoc, lignes_consigne, hstop, lignes_consigne, ← hstop, ih,
      hligne]
    rfl

theorem recoit_consigneSTOP (r : Robot) : (consigneSTOP.foldl Robot.recoit r).courante = [] := rfl

/-- **The robot reads the orders** of the requests, in turn, each followed by the stop order, which
is the last line that it has read after every round, if every accepted call of `write` takes its
whole buffer. -/
theorem main_lignes {σ : Type} (sf : Sndfile σ ℝ) (son : σ → List ℝ) (hsf : sf.Reads son)
    (disque : ℕ → List Char → Option σ) (pile : ℕ → ℕ → ℕ → ℝ)
    (oracle : ℕ → List Char → Ecriture) (ho : Admissible oracle) (hentier : Entier oracle)
    (indet : ℕ → ℤ) (cin : List Char) (h : PortSerie) (n : ℕ) (hn : 1 ≤ n)
    (hs : Service son disque (mots cin) n) :
    Halts (fun fuel => main parameters sf disque (fun n k i => some (pile n k i)) oracle fuel indet
        nbFichiers fichiers cin (some h) n) fun s =>
      ∃ base h' t, ∃ c : ℕ → ℤ,
        BaseLue sf son disque indet nbFichiers fichiersEntrees (nbFichiers, base) ∧
        (∀ i < n, Classe sf son disque base (mots cin) nbFichiers i (c i)) ∧
        s.port = some h' ∧ h'.recu = h.recu ++ t ∧
        lignes t = ((List.range n).flatMap fun i => [ligne (c i), "D,0,0".toList]) ++ [[]] ∧
        ∀ r : Robot, h'.recu.foldl Robot.recoit r = ⟨[], some "D,0,0".toList⟩ := by
  refine (halts_main hsf pile ho indet (some h) hs).mono fun s hserv => ?_
  obtain ⟨base, hlue, c, k, hck, hsent⟩ := hserv
  have htext : (List.range n).flatMap (fun i => ordre (c i) (k i)) =
      (List.range n).flatMap fun i => commande.consigne (c i) ++ consigneSTOP := by
    refine List.flatMap_congr fun i hi => ?_
    rw [ordre, (hck i (List.mem_range.1 hi)).2.entier hentier, List.take_length, List.take_length]
  rw [htext, Envoye, Option.map_some, Option.map_eq_some_iff] at hsent
  obtain ⟨h', hport, hrecu⟩ := hsent
  refine ⟨base, h', _, c, hlue, fun i hi => (hck i hi).1, hport, hrecu, lignes_ordres c _, ?_⟩
  -- the last round
  obtain ⟨m, rfl⟩ := Nat.exists_eq_add_of_le' hn
  intro r
  rw [hrecu, List.range_succ, List.flatMap_append, List.flatMap_singleton, ← List.append_assoc,
    List.foldl_append]
  have hlast := robot_derniere
    ((h.recu ++ (List.range m).flatMap fun i => commande.consigne (c i) ++ consigneSTOP).foldl
      Robot.recoit r) (c m)
  rw [List.foldl_append] at hlast ⊢
  rw [← hlast, ← recoit_consigneSTOP]

theorem main_lignes_two : ∃ bound, ∃ s : Session, ∃ h',
    main parameters .memory disqueSilences (fun _ _ _ => some 0) (fun _ c => .accepte c.length)
        bound (fun _ => 0) nbFichiers fichiers "a.wav\nb.wav\n".toList (some ⟨0, []⟩) 2 = .ok s ∧
      s.port = some h' ∧ ∀ r : Robot, h'.recu.foldl Robot.recoit r = ⟨[], some "D,0,0".toList⟩ := by
  obtain ⟨bound, s, ⟨_, h', _, _, _, _, hport, _, _, hrobot⟩, hs⟩ :=
    main_lignes .memory id Sndfile.memory_reads _ (fun _ _ _ => 0) _ admissible_whole
      (fun _ _ _ he => (Ecriture.accepte.inj he).symm) (fun _ => 0) _ ⟨0, []⟩ 2 (by decide)
      service_silences
  exact ⟨bound, s, h', hs bound le_rfl, hport, hrobot⟩

end TlVoix
