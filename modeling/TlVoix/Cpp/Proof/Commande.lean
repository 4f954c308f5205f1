import TlVoix.Cpp.Serie
import Mathlib.Data.List.Basic
import Mathlib.Data.Nat.Find
import Mathlib.Order.Basic

/-!
# Orders on the serial port

`ecriturePortSerie` calls `write` until it is not refused, and once: what the first accepted call
leaves out of the buffer is lost (`ends_ecriturePortSerie`). `commande` looks at neither result.

`commande_complete_iff`: the port receives an order and then the stop order, whole, exactly if the
first accepted call on each of the two buffers accepts all of it.
-/

namespace TlVoix

open Checked

/-! ## The system call -/

/-- `write` accepts a non-empty prefix of its buffer, or refuses; it does not refuse for ever. -/
structure Admissible (oracle : ℕ → List Char → Ecriture) : Prop where
  head : ∀ i c n, c ≠ [] → oracle i c = .accepte n → 1 ≤ n ∧ n ≤ c.length
  noError : ∀ i c, c ≠ [] → oracle i c ≠ .erreur
  finite : ∀ i c, c ≠ [] → ∃ j ≥ i, oracle j c ≠ .eagain

/-- Of the calls from the `i`-th on with the buffer `c`, the `j`-th is the first that is not
refused, and it accepts `n` bytes. -/
structure FirstAccepted (oracle : ℕ → List Char → Ecriture) (c : List Char) (i j n : ℕ) :
    Prop where
  le : i ≤ j
  refused : ∀ k, i ≤ k → k < j → oracle k c = .eagain
  accepted : oracle j c = .accepte n

theorem FirstAccepted.unique {oracle : ℕ → List Char → Ecriture} {c : List Char}
    {i j n j' n' : ℕ} (h : FirstAccepted oracle c i j n) (h' : FirstAccepted oracle c i j' n') :
    j = j' ∧ n = n' := by
  have key : ∀ {a m b m'}, FirstAccepted oracle c i a m → FirstAccepted oracle c i b m' →
      ¬a < b := by
    intro a m b m' ha hb hlt
    have := hb.refused a ha.le hlt
    rw [ha.accepted] at this
    cases this
  obtain rfl : j = j' := by
    have := key h h'
    have := key h' h
    omega
  have := h.accepted.symm.trans h'.accepted
  exact ⟨rfl, Ecriture.accepte.inj this⟩

theorem Admissible.exists_firstAccepted {oracle : ℕ → List Char → Ecriture}
    (ho : Admissible oracle) {c : List Char} (hc : c ≠ []) (i : ℕ) :
    ∃ j n, FirstAccepted oracle c i j n ∧ 1 ≤ n ∧ n ≤ c.length := by
  classical
  let p : ℕ → Prop := fun j => i ≤ j ∧ oracle j c ≠ .eagain
  have hp : ∃ j, p j := ho.finite i c hc
  obtain ⟨hij, hj⟩ := Nat.find_spec hp
  have hmin : ∀ k, i ≤ k → k < Nat.find hp → oracle k c = .eagain := fun k hk hlt => by
    by_contra hne
    exact Nat.find_min hp hlt ⟨hk, hne⟩
  cases hr : oracle (Nat.find hp) c with
  | accepte n => exact ⟨_, n, ⟨hij, hmin, hr⟩, ho.head _ c n hc hr⟩
  | eagain => exact absurd hr hj
  | erreur => exact absurd hr (ho.noError _ c hc)

/-! ## One order -/

theorem write_accepte {oracle : ℕ → List Char → Ecriture} {c : List Char} {h : PortSerie} {n : ℕ}
    (hr : oracle h.appels c = .accepte n) :
    ecriturePortSerie.write oracle c h = (.accepte n, ⟨h.appels + 1, h.recu ++ c.take n⟩) := by
  simp [ecriturePortSerie.write, hr]

theorem write_eagain {oracle : ℕ → List Char → Ecriture} {c : List Char} {h : PortSerie}
    (hr : oracle h.appels c = .eagain) :
    ecriturePortSerie.write oracle c h = (.eagain, ⟨h.appels + 1, h.recu⟩) := by
  simp [ecriturePortSerie.write, hr]

/-- **`ecriturePortSerie`** writes what the first accepted call accepts, and no more. -/
theorem ends_ecriturePortSerie {oracle : ℕ → List Char → Ecriture} {c : List Char}
    {h : PortSerie} {j n fuel : ℕ} (hj : FirstAccepted oracle c h.appels j n)
    (hf : j - h.appels ≤ fuel) :
    ecriturePortSerie oracle fuel (some h) c = .ok (n, some ⟨j + 1, h.recu ++ c.take n⟩) := by
  -- after a call, either it was refused and `j` is still to come, or it was the `j`-th
  let P : Ecriture × PortSerie → Prop := fun s =>
    (s.1 = .eagain ∧ h.appels < s.2.appels ∧ s.2.appels ≤ j ∧ s.2.recu = h.recu) ∨
      s = (.accepte n, ⟨j + 1, h.recu ++ c.take n⟩)
  have call : ∀ h' : PortSerie, h.appels ≤ h'.appels → h'.appels ≤ j → h'.recu = h.recu →
      P (ecriturePortSerie.write oracle c h') ∧
        (ecriturePortSerie.write oracle c h').2.appels = h'.appels + 1 := by
    intro h' hle hle' hrecu
    rcases Nat.lt_or_eq_of_le hle' with hlt | heq
    · rw [write_eagain (hj.refused _ hle hlt)]
      exact ⟨.inl ⟨rfl, Nat.lt_succ_of_le hle, hlt, hrecu⟩, rfl⟩
    · rw [write_accepte (heq ▸ hj.accepted), hrecu, heq]
      exact ⟨.inr rfl, rfl⟩
  obtain ⟨h0, ha⟩ := call h (Nat.le_refl _) hj.le rfl
  have step : ∀ s, P s → (s.1 == .eagain) = true →
      Ends (pure (ecriturePortSerie.write oracle c s.2)) fun t =>
        P t ∧ j + 1 - t.2.appels < j + 1 - s.2.appels := by
    intro s hP hc
    rcases hP with ⟨-, hlt, hle, hrecu⟩ | rfl
    · obtain ⟨h1, h2⟩ := call s.2 hlt.le hle hrecu
      refine Ends.ok ⟨h1, ?_⟩
      rw [h2]
      omega
    · simp at hc
  obtain ⟨s, hs, hP, hc⟩ := Ends.whileLoop P (fun s => j + 1 - s.2.appels) step fuel _ h0
    (by rw [ha]; omega)
  have hs' : s = (.accepte n, ⟨j + 1, h.recu ++ c.take n⟩) := by
    rcases hP with ⟨he, -⟩ | he
    · rw [he] at hc
      cases hc
    · exact he
  subst hs'
  simp only [ecriturePortSerie, hs]
  rfl

/-! ## Two orders -/

theorem consigne_ne_nil (classe : ℤ) : commande.consigne classe ≠ [] := by
  unfold commande.consigne
  split_ifs <;> decide

theorem consigneSTOP_ne_nil : consigneSTOP ≠ [] := by decide

/-- `commande` writes a prefix of the order, then a prefix of the stop order. -/
theorem ends_commande {oracle : ℕ → List Char → Ecriture} {h : PortSerie} {classe : ℤ}
    {j n j' n' fuel : ℕ} (hj : FirstAccepted oracle (commande.consigne classe) h.appels j n)
    (hj' : FirstAccepted oracle consigneSTOP (j + 1) j' n') (hf : j' - h.appels ≤ fuel) :
    commande oracle fuel (some h) classe = .ok (some ⟨j' + 1,
      h.recu ++ (commande.consigne classe).take n ++ consigneSTOP.take n'⟩) := by
  have h1 := hj.le
  have h2 := hj'.le
  unfold commande
  rw [ends_ecriturePortSerie hj (by omega), ok_bind]
  dsimp only
  rw [ends_ecriturePortSerie (h := ⟨j + 1, _⟩) hj' (by simp only; omega), ok_bind]
  rfl

/-! ## The robot -/

/-- The robot reads the stream line by line: the line being received, and the last complete one. -/
structure Robot where
  courante : List Char
  derniere : Option (List Char)

def Robot.recoit (r : Robot) (c : Char) : Robot :=
  if c = '\n' then ⟨[], some r.courante⟩ else ⟨r.courante ++ [c], r.derniere⟩

theorem consigne_endsLine (classe : ℤ) :
    ∃ l, commande.consigne classe = l ++ ['\n'] := by
  unfold commande.consigne
  split_ifs
  · exact ⟨"D,0,0".toList, by decide⟩
  · exact ⟨"D,10,10".toList, by decide⟩
  · exact ⟨"D,-20,20".toList, by decide⟩
  · exact ⟨"D,20,-20".toList, by decide⟩
  · exact ⟨"D,0,0".toList, by decide⟩

/-- After a whole order and a whole stop order, the last complete line is the stop order. -/
theorem robot_derniere (r : Robot) (classe : ℤ) :
    ((commande.consigne classe ++ consigneSTOP).foldl Robot.recoit r).derniere =
      some "D,0,0".toList := by
  obtain ⟨l, hl⟩ := consigne_endsLine classe
  rw [hl, List.foldl_append, List.foldl_append]
  rfl

/-- What `commande` must do on an open port: the port receives the order and the stop order, whole,
so that whatever it received before, the last complete line is the stop order. -/
def CommandeComplete (oracle : ℕ → List Char → Ecriture) (h : PortSerie) (classe : ℤ) : Prop :=
  ∃ bound, ∀ fuel ≥ bound, ∃ h', commande oracle fuel (some h) classe = .ok (some h') ∧
    h'.recu = h.recu ++ commande.consigne classe ++ consigneSTOP ∧
    ∀ r : Robot, (h'.recu.foldl Robot.recoit r).derniere = some "D,0,0".toList

/-- **The stop order is complete** exactly if neither of the two accepted calls is short. -/
theorem commande_complete_iff (oracle : ℕ → List Char → Ecriture) (ho : Admissible oracle)
    (h : PortSerie) (classe : ℤ) :
    CommandeComplete oracle h classe ↔
      ∃ j j', FirstAccepted oracle (commande.consigne classe) h.appels j
          (commande.consigne classe).length ∧
        FirstAccepted oracle consigneSTOP (j + 1) j' consigneSTOP.length := by
  obtain ⟨j, n, hj, -, hn⟩ := ho.exists_firstAccepted (consigne_ne_nil classe) h.appels
  obtain ⟨j', n', hj', -, hn'⟩ := ho.exists_firstAccepted consigneSTOP_ne_nil (j + 1)
  constructor
  · intro hs
    obtain ⟨bound, hb⟩ := hs
    obtain ⟨h', hc, hr, -⟩ := hb (max bound (j' - h.appels)) (le_max_left _ _)
    rw [ends_commande hj hj' (le_max_right _ _)] at hc
    obtain rfl := Option.some.inj (Except.ok.inj hc)
    -- two prefixes are as long as the two texts only if they are the texts
    have hlen := congrArg List.length hr
    simp only [List.length_append, List.length_take] at hlen
    have e : n = (commande.consigne classe).length := by omega
    have e' : n' = consigneSTOP.length := by omega
    exact ⟨j, j', e ▸ hj, e' ▸ hj'⟩
  · intro hs
    obtain ⟨i, i', hi, hi'⟩ := hs
    obtain ⟨rfl, rfl⟩ := hi.unique hj
    obtain ⟨rfl, rfl⟩ := hi'.unique hj'
    refine ⟨i' - h.appels, fun fuel hf => ⟨_, ends_commande hi hi' hf, ?_, fun r => ?_⟩⟩
    · rw [List.take_length, List.take_length]
    · rw [List.take_length, List.take_length, List.append_assoc, List.foldl_append]
      exact robot_derniere _ classe

theorem admissible_whole : Admissible fun _ c => .accepte c.length := by
  refine ⟨fun i c n hc he => ?_, fun _ _ _ => nofun, fun i _ _ => ⟨i, le_rfl, nofun⟩⟩
  obtain rfl := Ecriture.accepte.inj he
  exact ⟨List.length_pos_iff.2 hc, le_rfl⟩

/-- A port that accepts every buffer whole. -/
theorem commande_complete_whole :
    CommandeComplete (fun _ c => .accepte c.length) ⟨0, []⟩ 3 := by
  refine (commande_complete_iff (fun _ c => .accepte c.length) ⟨?_, ?_, ?_⟩ ⟨0, []⟩ 3).2
    ⟨0, 1, ⟨le_rfl, fun k _ hk => absurd hk (Nat.not_lt_zero k), rfl⟩,
      ⟨le_rfl, fun k h1 h2 => absurd h1 (by omega), rfl⟩⟩
  · intro i c n hc he
    obtain rfl := Ecriture.accepte.inj he
    exact ⟨List.length_pos_iff.2 hc, le_rfl⟩
  · exact fun _ _ _ => nofun
  · exact fun i _ _ => ⟨i, le_rfl, nofun⟩

/-- The port takes four bytes of `D,20,-20`, then the whole stop order: it receives the one line
`D,20D,0,0`. -/
theorem not_commande_complete :
    Admissible (fun i c => .accepte (if i = 0 then min 4 c.length else c.length)) ∧
      commande (fun i c => .accepte (if i = 0 then min 4 c.length else c.length)) 0 (some ⟨0, []⟩)
        1 = .ok (some ⟨2, "D,20D,0,0\n".toList⟩) ∧
      ¬CommandeComplete (fun i c => .accepte (if i = 0 then min 4 c.length else c.length))
        ⟨0, []⟩ 1 := by
  have ho : Admissible fun i c => .accepte (if i = 0 then min 4 c.length else c.length) := by
    refine ⟨fun i c n hc he => ?_, fun _ _ _ => nofun, fun i _ _ => ⟨i, le_rfl, nofun⟩⟩
    have hpos := List.length_pos_iff.2 hc
    obtain rfl := Ecriture.accepte.inj he
    split_ifs <;> omega
  have hj : FirstAccepted (fun i c => .accepte (if i = 0 then min 4 c.length else c.length))
      (commande.consigne 1) 0 0 4 :=
    ⟨le_rfl, fun k _ hk => absurd hk (Nat.not_lt_zero k), by decide⟩
  have hj' : FirstAccepted (fun i c => .accepte (if i = 0 then min 4 c.length else c.length))
      consigneSTOP 1 1 6 := ⟨le_rfl, fun k h1 h2 => absurd h1 (by omega), by decide⟩
  have hrun : ∀ fuel ≥ 1, commande (fun i c => .accepte (if i = 0 then min 4 c.length
      else c.length)) fuel (some ⟨0, []⟩) 1 = .ok (some ⟨2, "D,20D,0,0\n".toList⟩) :=
    fun fuel hf => ends_commande (h := ⟨0, []⟩) hj hj' hf
  refine ⟨ho, by decide, ?_⟩
  intro hs
  obtain ⟨bound, hb⟩ := hs
  obtain ⟨h', hc, hr, -⟩ := hb (max bound 1) (le_max_left _ _)
  rw [hrun _ (le_max_right _ _)] at hc
  obtain rfl := Option.some.inj (Except.ok.inj hc)
  exact absurd hr (by decide)

end TlVoix
