import TlVoix.Cpp.Proof.Bounds
import TlVoix.Lib.Ballot

/-!
# The vote of `classif`

The pieces of the base are entries of a ballot: their distance to the unknown piece, and their class
(`entries`).

* `ends_vote`: on the entries of a map, in order, `vote` returns the class of the entry that gives
  its class `k` entries, or -1.
* `ends_classif`: so `classif` returns the first class among the entries that the map retains
  (`kept`): the map has one piece for each distance, the last one.
* `classif_law_iff`: the returned class is one that all the pieces elect, for all labels and all
  numbers of votes, exactly if every recording has a frame and no two pieces are at one distance.
-/

namespace TlVoix

open Checked Ballot

section
variable {P : Parameters} {K : Type} [Field K] [LinearOrder K] [LibM K]

/-- The value of `dtw`, where it has one. -/
def distanceGlobale (m b : Morceau P K) : K :=
  match dtw m b with
  | .ok d => d
  | .error _ => 0

/-- The pieces of the base: their distance to `m`, and their class. -/
def entries (m : Morceau P K) (base : List (Morceau P K)) : List (K × ℤ) :=
  base.map fun b => (distanceGlobale m b, b.getClasse)

theorem hashmap_eq {m : Morceau P K} {base : List (Morceau P K)}
    (h : ∀ b ∈ base, ∃ v, dtw m b = .ok v) :
    classif.hashmap m base = .ok ((entries m base).foldl (fun t p => t.insert p.1 p.2) ∅) := by
  unfold classif.hashmap entries
  generalize (∅ : Std.TreeMap K ℤ) = t
  induction base generalizing t with
  | nil => rfl
  | cons b base ih =>
    rw [List.forall_mem_cons] at h
    obtain ⟨⟨v, hv⟩, hbase⟩ := h
    have hd : distanceGlobale m b = v := by
      rw [distanceGlobale, hv]
    rw [List.foldlM_cons, hv, List.map_cons, List.foldl_cons, hd]
    exact ih hbase (t.insert v b.getClasse)

end

/-! ## The vote -/

section
variable {K : Type}

/-- The classes of the entries are those of the array `classes`. -/
def Labelled (v : List (K × ℤ)) : Prop := ∀ p ∈ v, 1 ≤ p.2 ∧ p.2 ≤ 4

/-- `classes` holds the numbers of votes `n`. -/
def Tally (classes : Arr ℤ ℕ) (n : ℤ → ℕ) : Prop :=
  ∀ c, 1 ≤ c → c ≤ 4 → classes.Holds (c - 1) (n c)

theorem Tally.set {classes : Arr ℤ ℕ} {n : ℤ → ℕ} (h : Tally classes n) {c : ℤ} (h1 : 1 ≤ c)
    (h4 : c ≤ 4) : Ends (classes.set (c - 1) (n c + 1)) fun b =>
      Tally b (Function.update n c (n c + 1)) := by
  refine (Arr.ends_set (h c h1 h4).1 _).mono fun b hb c' h1' h4' => ?_
  by_cases hc : c' = c
  · subst hc
    rw [Function.update_self]
    exact Arr.holds_set_self hb
  · rw [Function.update_of_ne hc]
    exact Arr.holds_set_ne hb (by omega) (h c' h1' h4')

theorem count_cons (n : ℤ → ℕ) (d : K) (c : ℤ) (w : List (K × ℤ)) (c' : ℤ) :
    n c' + total ((d, c) :: w) c' = Function.update n c (n c + 1) c' + total w c' := by
  rw [total_cons]
  by_cases hcc : c = c'
  · rw [← hcc, Function.update_self, if_pos rfl]
    omega
  · rw [Function.update_of_ne (Ne.symm hcc), if_neg hcc]
    omega

/-- The loop of `classif`, from the numbers of votes `n`. -/
theorem ends_vote {k : ℕ} (v : List (K × ℤ)) {classes : Arr ℤ ℕ} {n : ℤ → ℕ} (hv : Labelled v)
    (hn : Tally classes n) (hk : ∀ c, n c < k) :
    Ends (classif.vote k v classes) fun r => (r = -1 ∧ ∀ c, n c + total v c < k) ∨
      ∃ v1 d v2, v = v1 ++ (d, r) :: v2 ∧ n r + total v1 r + 1 = k ∧
        ∀ c, n c + total v1 c < k := by
  induction v generalizing classes n with
  | nil => exact Ends.ok (.inl ⟨rfl, hk⟩)
  | cons p v ih =>
    obtain ⟨d, c⟩ := p
    obtain ⟨⟨h1, h4⟩, hv⟩ := List.forall_mem_cons.1 hv
    unfold classif.vote
    rw [Arr.get_ok (hn c h1 h4)]
    refine (hn.set h1 h4).bind fun classes' hn' => ?_
    have hc := hn' c h1 h4
    rw [Function.update_self] at hc
    rw [Arr.get_ok hc]
    simp only [ok_bind]
    split
    · rename_i heq
      exact Ends.ok (.inr ⟨[], d, v, rfl, heq, hk⟩)
    · rename_i hne
      have hnc := hk c
      have hk' : ∀ c', Function.update n c (n c + 1) c' < k := by
        intro c'
        by_cases hcc : c' = c
        · rw [hcc, Function.update_self]
          omega
        · rw [Function.update_of_ne hcc]
          exact hk c'
      refine (ih hv hn' hk').mono fun r hr => ?_
      rcases hr with ⟨hr, hnone⟩ | ⟨v1, e, v2, rfl, hr, hlt⟩
      · exact .inl ⟨hr, fun c' => count_cons n d c v c' ▸ hnone c'⟩
      · exact .inr ⟨(d, c) :: v1, e, v2, rfl, count_cons n d c v1 r ▸ hr,
          fun c' => count_cons n d c v1 c' ▸ hlt c'⟩

end

section
variable {P : Parameters} {K : Type} [Field K] [LinearOrder K] [LibM K]

theorem tally_classes : Tally classif.classes fun _ => 0 := by
  intro c h1 h4
  refine ⟨?_, rfl⟩
  simp only [classif.classes, decide_eq_true_eq]
  omega

theorem labelled_entries {m : Morceau P K} {base : List (Morceau P K)}
    (h : ∀ b ∈ base, 1 ≤ b.getClasse ∧ b.getClasse ≤ 4) : Labelled (entries m base) := by
  intro p hp
  obtain ⟨b, hb, rfl⟩ := List.mem_map.1 hp
  exact h b hb

/-- **`classif` elects among the entries that its map retains.** -/
theorem ends_classif {m : Morceau P K} {base : List (Morceau P K)} {k : ℕ} (hk : 1 ≤ k)
    (hlabels : ∀ b ∈ base, 1 ≤ b.getClasse ∧ b.getClasse ≤ 4)
    (hdtw : ∀ b ∈ base, ∃ v, dtw m b = .ok v) :
    Ends (classif.morceau base m k) fun r =>
      (r = -1 ∧ ∀ c, total (kept (entries m base)) c < k) ∨
      (r ≠ -1 ∧ ∃ d, First k (kept (entries m base)) r d) := by
  unfold classif.morceau
  rw [hashmap_eq hdtw]
  have hperm := toList_foldl_insert_perm (entries m base)
  generalize (entries m base).foldl (fun t p => t.insert p.1 p.2) (∅ : Std.TreeMap K ℤ) = t at hperm
  have hlab : Labelled t.toList := fun p hp =>
    labelled_entries hlabels p ((kept_sublist _).subset (hperm.subset hp))
  refine (ends_vote t.toList hlab tally_classes fun _ => hk).mono fun r hr => ?_
  rcases hr with ⟨hr, hnone⟩ | ⟨v1, d, v2, heq, hr, hlt⟩
  · refine .inl ⟨hr, fun c => ?_⟩
    have := hnone c
    rwa [Nat.zero_add, total, hperm.countP_eq] at this
  · have hfirst : First k (v1 ++ (d, r) :: v2) r d :=
      first_of_sorted (heq ▸ sorted_toList t) (by omega) fun c => by
        have := hlt c
        omega
    have hmem : (d, r) ∈ t.toList := heq ▸ by simp
    have h1 : 1 ≤ r := (hlab _ hmem).1
    exact .inr ⟨by omega, d, (heq ▸ hfirst).perm hperm⟩

end

/-! ## The law of the vote -/

/-- `classif` returns -1 if no class has `k` pieces, and a class that all the pieces elect if one
has. -/
def NoVoteLost {P : Parameters} (m : Morceau P ℝ) (base : List (Morceau P ℝ)) (k : ℕ) : Prop :=
  ∃ r, classif.morceau base m k = .ok r ∧
    (r = -1 ↔ ∀ c, total (entries m base) c < k) ∧ (r ≠ -1 → Elected k (entries m base) r)

theorem noVoteLost_of_nodup {P : Parameters} {m : Morceau P ℝ} {base : List (Morceau P ℝ)} {k : ℕ}
    (hk : 1 ≤ k) (hlabels : ∀ b ∈ base, 1 ≤ b.getClasse ∧ b.getClasse ≤ 4)
    (hdtw : ∀ b ∈ base, ∃ v, dtw m b = .ok v) (hne : (base.map (distanceGlobale m)).Nodup) :
    NoVoteLost m base k := by
  have hkept : kept (entries m base) = entries m base := kept_of_nodup (by
    rw [entries, List.map_map]
    exact hne)
  obtain ⟨r, hr, h⟩ := ends_classif hk hlabels hdtw
  rw [hkept] at h
  refine ⟨r, hr, ?_⟩
  rcases h with ⟨h1, h⟩ | ⟨h1, d, h⟩
  · exact ⟨iff_of_true h1 h, fun hne => absurd h1 hne⟩
  · have helected := h.elected hk
    exact ⟨iff_of_false h1 fun hlt => absurd helected.enough (Nat.not_le.2 (hlt r)),
      fun _ => helected⟩

/-- The pieces of `base`, with other labels. -/
def Relabelled {P : Parameters} (base base' : List (Morceau P ℝ)) : Prop :=
  List.Forall₂ (fun b b' => b.getFrames = b'.getFrames) base base'

theorem dtw_relabelled {P : Parameters} (m : Morceau P ℝ) {b b' : Morceau P ℝ}
    (h : b.getFrames = b'.getFrames) : dtw m b = dtw m b' := by
  obtain ⟨frames, n, c, hn⟩ := b
  obtain ⟨frames', n', c', hn'⟩ := b'
  obtain rfl : frames = frames' := h
  obtain rfl : n = n' := hn.symm.trans hn'
  rfl

theorem Relabelled.distances {P : Parameters} {base base' : List (Morceau P ℝ)}
    (h : Relabelled base base') (m : Morceau P ℝ) :
    base.map (distanceGlobale m) = base'.map (distanceGlobale m) := by
  induction h with
  | nil => rfl
  | cons hb _ ih =>
    rw [List.map_cons, List.map_cons, ih, distanceGlobale, distanceGlobale, dtw_relabelled m hb]

theorem Relabelled.frames {P : Parameters} {base base' : List (Morceau P ℝ)}
    (h : Relabelled base base') :
    (∀ b ∈ base, 1 ≤ b.getNFrames) ↔ ∀ b ∈ base', 1 ≤ b.getNFrames := by
  induction h with
  | nil => exact Iff.rfl
  | @cons b b' _ _ hb _ ih =>
    have hn : b.getNFrames = b'.getNFrames :=
      b.alloc.symm.trans ((congrArg Array.size hb).trans b'.alloc)
    rw [List.forall_mem_cons, List.forall_mem_cons, ih, hn]

theorem relabelled_two {P : Parameters} (base : List (Morceau P ℝ)) :
    Relabelled base (base.map fun b => { b with classe := 2 }) := by
  induction base with
  | nil => exact .nil
  | cons b base ih => exact .cons rfl ih

/-- Labels that are all equal, and as many votes to win as pieces. -/
theorem nodup_of_noVoteLost {P : Parameters} {m : Morceau P ℝ} {base : List (Morceau P ℝ)}
    (hne : base ≠ []) (hlabels : ∀ b ∈ base, b.getClasse = 2)
    (h : NoVoteLost m base base.length) : (base.map (distanceGlobale m)).Nodup := by
  obtain ⟨r, hr, hnone, -⟩ := h
  obtain ⟨t, ht, -⟩ := bind_eq_ok.1 hr
  obtain ⟨r', hr', hchoice⟩ := ends_classif (List.length_pos_iff.2 hne)
    (fun b hb => by rw [hlabels b hb]; decide) (hashmap_ok_iff.1 ⟨t, ht⟩)
  obtain rfl := Except.ok.inj (hr.symm.trans hr')
  have hlength : (entries m base).length = base.length := List.length_map _
  have hall : total (entries m base) 2 = base.length := by
    rw [← hlength, total, List.countP_eq_length]
    intro p hp
    obtain ⟨b, hb, rfl⟩ := List.mem_map.1 hp
    exact decide_eq_true (hlabels b hb)
  have hmap : (entries m base).map Prod.fst = base.map (distanceGlobale m) := by
    rw [entries, List.map_map]
    rfl
  rw [← hmap, ← length_kept_eq_iff]
  rcases hchoice with ⟨hr1, -⟩ | ⟨-, d, hfirst⟩
  · exact absurd (hnone.1 hr1 2) (by omega)
  · refine Nat.le_antisymm (kept_sublist _).length_le ?_
    exact hlength.le.trans ((hfirst.reached.trans (within_le_total _ r d)).trans
      List.countP_le_length)

/-- **No vote is lost**, whatever the labels of the pieces and the number of votes to win, exactly
if every call of `dtw` has frames and the pieces are at distinct distances: a piece at the distance
of a later one is overwritten in the map. -/
theorem classif_law_iff {P : Parameters} (m : Morceau P ℝ) (base : List (Morceau P ℝ)) :
    (∀ base' k, Relabelled base base' → 1 ≤ k →
        (∀ b ∈ base', 1 ≤ b.getClasse ∧ b.getClasse ≤ 4) → NoVoteLost m base' k) ↔
      (base = [] ∨ 1 ≤ m.getNFrames ∧ ∀ b ∈ base, 1 ≤ b.getNFrames) ∧
        (base.map (distanceGlobale m)).Nodup := by
  constructor
  · intro h
    by_cases hne : base = []
    · subst hne
      exact ⟨.inl rfl, List.nodup_nil⟩
    have hrel := relabelled_two base
    have hlabels : ∀ b ∈ base.map fun b => { b with classe := 2 }, b.getClasse = 2 := by
      intro b hb
      obtain ⟨b', -, rfl⟩ := List.mem_map.1 hb
      rfl
    have hlost := h _ base.length hrel (List.length_pos_iff.2 hne) fun b hb => by
      rw [hlabels b hb]
      decide
    refine ⟨.inr ?_, ?_⟩
    · obtain ⟨r, hr, -⟩ := hlost
      obtain ⟨t, ht, -⟩ := bind_eq_ok.1 hr
      have hdtw := fun b hb => dtw_ok_iff.1 (hashmap_ok_iff.1 ⟨t, ht⟩ b hb)
      obtain ⟨b, hb⟩ := List.exists_mem_of_ne_nil _ (mt List.map_eq_nil_iff.1 hne)
      exact ⟨(hdtw b hb).1, hrel.frames.2 fun b hb => (hdtw b hb).2⟩
    · rw [hrel.distances m]
      refine nodup_of_noVoteLost (mt List.map_eq_nil_iff.1 hne) hlabels ?_
      rwa [List.length_map]
  · intro h base' k hrel hk hlabels
    obtain ⟨hframes, hnodup⟩ := h
    refine noVoteLost_of_nodup hk hlabels (fun b hb => ?_) (hrel.distances m ▸ hnodup)
    rcases hframes with rfl | ⟨hm, hbase⟩
    · cases hrel
      cases hb
    · exact dtw_ok_iff.2 ⟨hm, hrel.frames.1 hbase b hb⟩

/-- Four pieces at distinct distances, and two votes to win. -/
theorem classif_law_four :
    NoVoteLost (Morceau.constant [0] 1) [Morceau.constant [3] 2, Morceau.constant [1] 1,
      Morceau.constant [4] 3, Morceau.constant [2] 2] 2 := by
  refine (classif_law_iff _ [Morceau.constant [3] 2, Morceau.constant [1] 1,
    Morceau.constant [4] 3, Morceau.constant [2] 2]).2 ⟨.inr ⟨le_rfl, ?_⟩, ?_⟩ _ 2
      (List.forall₂_same.2 fun _ _ => rfl) (by decide) ?_
  · simp [Morceau.constant, Morceau.getNFrames]
  · simp only [List.map_cons, List.map_nil, distanceGlobale, dtw_constant]
    norm_num
  · simp [Morceau.constant, Morceau.getClasse]

/-- A recording twice in the base, and two votes to win: the second piece overwrites the first one,
and its class is not found. -/
theorem not_noVoteLost :
    classif.morceau [Morceau.constant [1] 2, Morceau.constant [1] 2] (Morceau.constant [0] 1) 2 =
        .ok (-1) ∧
      ¬NoVoteLost (Morceau.constant [0] 1) [Morceau.constant [1] 2, Morceau.constant [1] 2] 2 := by
  have htotal : ∀ c, total (kept (entries (Morceau.constant [0] 1)
      [Morceau.constant [1] 2, Morceau.constant [1] 2])) c < 2 := by
    intro c
    have hkept : kept (entries (Morceau.constant [0] 1)
        [Morceau.constant [1] 2, Morceau.constant [1] 2]) =
        [(distanceGlobale (Morceau.constant [0] 1) (Morceau.constant [1] 2), 2)] := by
      simp [entries, kept, Morceau.constant, Morceau.getClasse]
    rw [hkept, total]
    exact Nat.lt_succ_of_le List.countP_le_length
  have hlabels : ∀ b ∈ [Morceau.constant [1] 2, Morceau.constant [1] 2],
      1 ≤ b.getClasse ∧ b.getClasse ≤ 4 := by
    simp [Morceau.constant, Morceau.getClasse]
  have hdtw : ∀ b ∈ [Morceau.constant [1] 2, Morceau.constant [1] 2],
      ∃ v, dtw (Morceau.constant [0] 1) b = .ok v := by
    simp [dtw_ok_iff, Morceau.constant, Morceau.getNFrames]
  obtain ⟨r, hr, h⟩ := ends_classif (Nat.le_succ 1) hlabels hdtw
  obtain ⟨rfl, -⟩ | ⟨-, d, h⟩ := h
  swap
  · exact absurd (h.reached.trans (within_le_total _ r d)) (Nat.not_le.2 (htotal r))
  refine ⟨hr, ?_⟩
  intro hs
  obtain ⟨r', hr', hnone, -⟩ := hs
  obtain rfl := Except.ok.inj (hr.symm.trans hr')
  have h2 := hnone.1 rfl 2
  simp [total, entries, Morceau.constant, Morceau.getClasse] at h2

end TlVoix
