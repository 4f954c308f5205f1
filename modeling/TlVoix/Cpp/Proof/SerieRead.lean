import TlVoix.Lib.Fuel
import TlVoix.Cpp.SerieRead
import Mathlib.Data.List.GetD
import Mathlib.Data.Nat.Find
import Mathlib.Order.Basic

/-!
# What `lecturePortSerie` reads

`recus oracle len i k` is the bytes that `k` calls of `read` give, from the `i`-th on, when each
asks for what is missing.

* `ends_read`, `ends_appel`: one call, and one iteration, store what they are given.
* `lecturePortSerie_iff`: a blocking port returns exactly if `len` bytes come, with these; a port
  that does not block always returns, after two calls at most.
-/

namespace TlVoix

open Checked

/-- The bytes of `k` calls of `read`. -/
def recus (oracle : ℕ → ℕ → Option (List Char)) (len i : ℕ) : ℕ → List Char
  | 0 => []
  | k + 1 => recus oracle len i k ++
      (oracle (i + k) (len - (recus oracle len i k).length)).getD []

/-- `read` gives no more than it is asked for. -/
def Mesure (oracle : ℕ → ℕ → Option (List Char)) : Prop :=
  ∀ i n l, oracle i n = some l → l.length ≤ n

section
variable {oracle : ℕ → ℕ → Option (List Char)} {len i : ℕ}

theorem length_recus_le (ho : Mesure oracle) (k : ℕ) : (recus oracle len i k).length ≤ len := by
  induction k with
  | zero => exact Nat.zero_le len
  | succ k ih =>
    rw [recus, List.length_append]
    cases h : oracle (i + k) (len - (recus oracle len i k).length) with
    | none =>
      rw [Option.getD_none, List.length_nil]
      exact ih
    | some l =>
      have := ho _ _ l h
      rw [Option.getD_some]
      omega

theorem length_recus_mono {j k : ℕ} (h : j ≤ k) :
    (recus oracle len i j).length ≤ (recus oracle len i k).length := by
  induction h with
  | refl => exact le_rfl
  | step _ ih =>
    rw [recus, List.length_append]
    omega

/-- The state after `k` calls, for an array that held `f` before. -/
structure Appele (oracle : ℕ → ℕ → Option (List Char)) (len i : ℕ) (c : Arr ℕ Char) (k : ℕ)
    (s : LecturePort) : Prop where
  appels : s.appels = i + k
  total : s.totalBytesRead = (recus oracle len i k).length
  dom : s.c.dom = c.dom
  lus : ∀ j x, (recus oracle len i k)[j]? = some x → s.c.val j = some x
  reste : ∀ j, (recus oracle len i k).length ≤ j → s.c.val j = c.val j

/-- One call. -/
theorem ends_read (ho : Mesure oracle) {c : Arr ℕ Char} (hc : ∀ j < len, c.dom j = true) {k : ℕ}
    {s : LecturePort} (hs : Appele oracle len i c k s) :
    Ends (lecturePortSerie.read oracle len s) fun t =>
      Appele oracle len i c (k + 1) t ∧ t.rendu = s.rendu := by
  have hle : (recus oracle len i (k + 1)).length ≤ len := length_recus_le ho (k + 1)
  have hrec : recus oracle len i (k + 1) =
      recus oracle len i k ++ (oracle s.appels (len - s.totalBytesRead)).getD [] := by
    rw [recus, hs.appels, hs.total]
  unfold lecturePortSerie.read
  rw [hrec, List.length_append] at hle
  generalize (oracle s.appels (len - s.totalBytesRead)).getD [] = l at hrec hle
  refine (Arr.ends_copyTo fun j hj => ⟨(Arr.dom_ofFn ..).2 hj, ?_⟩).bind fun b hb => ?_
  · rw [hs.dom]
    exact hc _ (by rw [hs.total]; omega)
  obtain ⟨hdom, hnew, hold⟩ := hb
  refine Ends.ok ⟨⟨?_, ?_, by rw [hdom, hs.dom], fun j x hj => ?_, fun j hj => ?_⟩, rfl⟩
  · show s.appels + 1 = _
    rw [hs.appels, Nat.add_assoc]
  · show s.totalBytesRead + l.length = _
    rw [hrec, List.length_append, hs.total]
  · rw [hrec, List.getElem?_append] at hj
    split at hj
    · rw [hold j (.inl (by rw [hs.total]; assumption)), hs.lus j x hj]
    · rename_i hge
      obtain ⟨hlt, hx⟩ := List.getElem?_eq_some_iff.1 hj
      have := hnew _ hlt
      rw [hs.total, Nat.add_sub_cancel' (Nat.not_lt.1 hge)] at this
      rw [this, ← hx]
      show some (l.getD _ _) = _
      rw [List.getD_eq_getElem _ _ hlt]
  · rw [hrec, List.length_append] at hj
    rw [hold j (.inr (by rw [hs.total]; omega)), hs.reste j (by omega)]

/-- One iteration: one call, or two if the port does not block and bytes are missing. -/
theorem ends_appel (ho : Mesure oracle) {c : Arr ℕ Char} (hc : ∀ j < len, c.dom j = true)
    (bloque : Bool) {k : ℕ} {s : LecturePort} (hs : Appele oracle len i c k s)
    (hr : s.rendu = false) :
    Ends (lecturePortSerie.step oracle bloque len s) fun t =>
      (Appele oracle len i c (k + 1) t ∧ t.rendu = false ∧
          (bloque = true ∨ (recus oracle len i (k + 1)).length = len)) ∨
        Appele oracle len i c (k + 2) t ∧ t.rendu = true ∧ bloque = false ∧
          (recus oracle len i (k + 1)).length < len := by
  unfold lecturePortSerie.step
  refine (ends_read ho hc hs).bind fun t ht => ?_
  obtain ⟨ht, htr⟩ := ht
  have hle : (recus oracle len i (k + 1)).length ≤ len := length_recus_le ho (k + 1)
  split
  · rename_i hmore
    rw [ht.total] at hmore
    refine (ends_read ho hc ht).bind fun u hu => Ends.ok (.inr ⟨?_, rfl, hmore.2, hmore.1⟩)
    obtain ⟨h1, h2, h3, h4, h5⟩ := hu.1
    exact ⟨h1, h2, h3, h4, h5⟩
  · rename_i hdone
    rw [ht.total] at hdone
    refine Ends.ok (.inl ⟨ht, htr.trans hr, ?_⟩)
    cases bloque with
    | true => exact .inl rfl
    | false => exact .inr (Nat.le_antisymm hle (Nat.not_lt.1 fun hlt => hdone ⟨hlt, rfl⟩))

theorem steady_lecturePortSerie (oracle : ℕ → ℕ → Option (List Char)) (h : Option PortLu)
    (c : Arr ℕ Char) (len : ℕ) : Steady fun fuel => lecturePortSerie oracle fuel h c len := by
  cases h with
  | none => exact Steady.const _
  | some h => exact Steady.bind (Steady.whileLoop_const _) fun _ => Steady.const _

/-- What `lecturePortSerie` must leave, after `k` calls: their bytes, in order, at the head of the
array, and the other cells as they were. No call is made when nothing is missing, and no more than
two on a port that does not block; without all the bytes, the port does not block and two calls were
made. -/
structure Lue (oracle : ℕ → ℕ → Option (List Char)) (len : ℕ) (h : PortLu) (c : Arr ℕ Char) (k : ℕ)
    (r : ℕ × Arr ℕ Char × Option PortLu) : Prop where
  total : r.1 = (recus oracle len h.appels k).length
  lus : ∀ j x, (recus oracle len h.appels k)[j]? = some x → r.2.1.Holds j x
  reste : ∀ j, r.1 ≤ j → r.2.1.val j = c.val j
  port : r.2.2 = some { h with appels := h.appels + k }
  manque : ∀ j < k, (recus oracle len h.appels j).length < len
  fin : r.1 = len ∨ h.bloque = false ∧ k = 2
  deux : h.bloque = false → k ≤ 2

theorem Appele.lue (ho : Mesure oracle) {h : PortLu} {c : Arr ℕ Char}
    (hc : ∀ j < len, c.dom j = true) {k : ℕ} {s : LecturePort}
    (hs : Appele oracle len h.appels c k s)
    (hmanque : ∀ j < k, (recus oracle len h.appels j).length < len)
    (hfin : s.totalBytesRead = len ∨ h.bloque = false ∧ k = 2) (hdeux : h.bloque = false → k ≤ 2) :
    Lue oracle len h c k (s.totalBytesRead, s.c, some { h with appels := s.appels }) := by
  refine ⟨hs.total, fun j x hj => ⟨?_, hs.lus j x hj⟩, fun j hj => hs.reste j (hs.total ▸ hj), ?_,
    hmanque, hfin, hdeux⟩
  · rw [hs.dom]
    have := (List.getElem?_eq_some_iff.1 hj).1
    have hle : (recus oracle len h.appels k).length ≤ len := length_recus_le ho k
    exact hc j (by omega)
  · rw [hs.appels]

/-- The invariant of the loop, after `k` calls. -/
structure EnCours (oracle : ℕ → ℕ → Option (List Char)) (len : ℕ) (h : PortLu) (c : Arr ℕ Char)
    (k : ℕ) (s : LecturePort) : Prop where
  appele : Appele oracle len h.appels c k s
  manque : ∀ j < k, (recus oracle len h.appels j).length < len
  etat : s.rendu = false ∧
      (h.bloque = true ∨ k = 0 ∨ (recus oracle len h.appels k).length = len) ∨
    s.rendu = true ∧ h.bloque = false ∧ k = 2
  deux : h.bloque = false → k ≤ 2

theorem EnCours.step (ho : Mesure oracle) {h : PortLu} {c : Arr ℕ Char}
    (hc : ∀ j < len, c.dom j = true) {k : ℕ} {s : LecturePort} (hs : EnCours oracle len h c k s)
    (hcond : s.encore len = true) :
    s.rendu = false ∧ (recus oracle len h.appels k).length < len ∧
      Ends (lecturePortSerie.step oracle h.bloque len s) fun t =>
        EnCours oracle len h c (k + 1) t ∨
          (h.bloque = false ∧ k = 0) ∧ EnCours oracle len h c 2 t := by
  simp only [LecturePort.encore, Bool.and_eq_true, Bool.not_eq_eq_eq_not, Bool.not_true,
    decide_eq_true_eq] at hcond
  obtain ⟨hr, hlt⟩ := hcond
  rw [hs.appele.total] at hlt
  have hmanque : ∀ j < k + 1, (recus oracle len h.appels j).length < len := by
    intro j hj
    rcases Nat.lt_succ_iff_lt_or_eq.1 hj with hj | rfl
    · exact hs.manque j hj
    · exact hlt
  -- a port that does not block is in its first iteration
  have hfirst : h.bloque = false → k = 0 := by
    intro hb
    rcases hs.etat with ⟨-, hb' | hk | hfull⟩ | ⟨hr', -, -⟩
    · rw [hb] at hb'
      cases hb'
    · exact hk
    · exact absurd hfull (Nat.ne_of_lt hlt)
    · rw [hr] at hr'
      cases hr'
  refine ⟨hr, hlt, (ends_appel ho hc h.bloque hs.appele hr).mono fun t ht => ?_⟩
  rcases ht with ⟨ht, htr, hwhy⟩ | ⟨ht, htr, hb, hlt1⟩
  · refine .inl ⟨ht, hmanque, .inl ⟨htr, hwhy.imp_right .inr⟩, fun hb => ?_⟩
    rw [hfirst hb]
    decide
  · obtain rfl := hfirst hb
    refine .inr ⟨⟨hb, rfl⟩, ht, fun j hj => ?_, .inr ⟨htr, hb, rfl⟩, fun _ => le_rfl⟩
    rcases Nat.lt_succ_iff_lt_or_eq.1 hj with hj | rfl
    · exact hmanque j hj
    · exact hlt1

theorem EnCours.lue (ho : Mesure oracle) {h : PortLu} {c : Arr ℕ Char}
    (hc : ∀ j < len, c.dom j = true) {k : ℕ} {s : LecturePort} (hs : EnCours oracle len h c k s)
    (hcond : s.encore len = false) :
    Lue oracle len h c k (s.totalBytesRead, s.c, some { h with appels := s.appels }) := by
  refine hs.appele.lue ho hc hs.manque ?_ hs.deux
  have hle : (recus oracle len h.appels k).length ≤ len := length_recus_le ho k
  rcases hs.etat with ⟨hr, -⟩ | ⟨-, hb, hk⟩
  · left
    have hge : len ≤ s.totalBytesRead := by simpa [LecturePort.encore, hr] using hcond
    rw [hs.appele.total] at hge ⊢
    exact Nat.le_antisymm hle hge
  · exact .inr ⟨hb, hk⟩

theorem ends_lecturePortSerie (ho : Mesure oracle) {h : PortLu} {c : Arr ℕ Char}
    (hc : ∀ j < len, c.dom j = true) {n : ℕ} (h2 : 2 ≤ n)
    (hn : h.bloque = true → (recus oracle len h.appels n).length = len) :
    Ends (lecturePortSerie oracle n (some h) c len) fun r => ∃ k, Lue oracle len h c k r := by
  refine Ends.bind (Ends.whileLoop (fun s => ∃ k ≤ n, EnCours oracle len h c k s)
    (fun s => h.appels + n - s.appels) (fun s hs hcond => ?_) n _
    ⟨0, Nat.zero_le n, ⟨rfl, rfl, rfl, nofun, fun _ _ => rfl⟩, nofun, .inl ⟨rfl, .inr (.inl rfl)⟩,
      fun _ => Nat.zero_le 2⟩
    (by simp)) ?_
  · obtain ⟨k, hk, hs⟩ := hs
    obtain ⟨hr, hlt, hstep⟩ := hs.step ho hc hcond
    have happels := hs.appele.appels
    refine hstep.mono fun t ht => ?_
    rcases ht with ht | ⟨⟨-, rfl⟩, ht⟩
    · have happels' := ht.appele.appels
      have hkn : k < n := by
        rcases hs.etat with ⟨-, hb | h0 | hfull⟩ | ⟨hr', -⟩
        · by_contra hge
          have hmono :
              (recus oracle len h.appels n).length ≤ (recus oracle len h.appels k).length :=
            length_recus_mono (Nat.not_lt.1 hge)
          rw [hn hb] at hmono
          omega
        · omega
        · omega
        · rw [hr] at hr'
          cases hr'
      exact ⟨⟨k + 1, hkn, ht⟩, by omega⟩
    · have happels' := ht.appele.appels
      exact ⟨⟨2, h2, ht⟩, by omega⟩
  · intro s hs
    obtain ⟨⟨k, -, hs⟩, hcond⟩ := hs
    exact Ends.ok ⟨k, hs.lue ho hc hcond⟩

end

/-- **`lecturePortSerie`** returns the bytes that `read` gives, none lost and none twice: on a port
that blocks, exactly if `len` bytes come, and on the others always, after two calls at most. -/
theorem lecturePortSerie_iff (oracle : ℕ → ℕ → Option (List Char)) (ho : Mesure oracle)
    (h : PortLu) (c : Arr ℕ Char) (len : ℕ) (hc : ∀ j < len, c.dom j = true) :
    Halts (fun fuel => lecturePortSerie oracle fuel (some h) c len)
        (fun r => ∃ k, Lue oracle len h c k r) ↔
      (h.bloque = true → ∃ k, (recus oracle len h.appels k).length = len) := by
  constructor
  · intro hhalts hb
    obtain ⟨-, r, ⟨k, hk⟩, -⟩ := hhalts
    rcases hk.fin with hlen | ⟨hb', -⟩
    · exact ⟨k, hk.total ▸ hlen⟩
    · rw [hb] at hb'
      cases hb'
  · intro hcome
    obtain ⟨n, hn⟩ : ∃ n, h.bloque = true → (recus oracle len h.appels n).length = len := by
      by_cases hb : h.bloque = true
      · exact (hcome hb).imp fun _ hk _ => hk
      · exact ⟨0, fun hb' => absurd hb' hb⟩
    refine Halts.of_ends (steady_lecturePortSerie oracle (some h) c len)
      (ends_lecturePortSerie ho hc (Nat.le_max_left 2 n) fun hb => ?_)
    have hmono : (recus oracle len h.appels n).length ≤
      (recus oracle len h.appels (max 2 n)).length := length_recus_mono (Nat.le_max_right 2 n)
    rw [hn hb] at hmono
    exact Nat.le_antisymm (length_recus_le ho _) hmono

/-- A port that does not block, where two of the four bytes come, one at each call. -/
theorem lecturePortSerie_iff_short :
    Halts (fun fuel => lecturePortSerie (fun _ n => some (['a'].take n)) fuel (some ⟨0, false⟩)
        (Arr.fresh 4) 4)
      (fun r => ∃ k, Lue (fun _ n => some (['a'].take n)) 4 ⟨0, false⟩ (Arr.fresh 4) k r) := by
  refine (lecturePortSerie_iff _ (fun i n l h => ?_) ⟨0, false⟩ (Arr.fresh 4) 4
    fun j hj => (Arr.dom_fresh 4 j).2 hj).2 nofun
  obtain rfl := Option.some.inj h
  exact List.length_take_le n ['a']

end TlVoix
