import TlVoix.Cpp.Proof.Classif
import TlVoix.Cpp.Proof.DtwLaws

/-!
# What the decision of `classif` depends on

* `Decided m base k vus d c`: once it has scanned the entries `vus` of its map, `classif` chooses
  the class `c` at the entry of distance `d`. It returns a class exactly so (`Decided.classif`,
  `exists_decided`).
* `classif_perm`: the order of the base does not matter, if equal distances have equal classes.
* `classif_inserted`: pieces farther than the entry of the decision do not change it.
* `classif_decides`: with enough distances, there is a decision, by pigeonhole over the classes.
-/

namespace TlVoix

open Checked Ballot

/-! ## The scan -/

section
variable {K : Type}

/-- `classes[it->second-1] += 1`. -/
def classif.compte (classes : Arr ℤ ℕ) (p : K × ℤ) : Run (Arr ℤ ℕ) := do
  classes.set (p.2 - 1) ((← classes.get (p.2 - 1)) + 1)

theorem vote_cons (k : ℕ) (p : K × ℤ) (v : List (K × ℤ)) (classes : Arr ℤ ℕ) :
    classif.vote k (p :: v) classes = (do
      let classes ← classif.compte classes p
      if (← classes.get (p.2 - 1)) = k then pure p.2 else classif.vote k v classes) := by
  rw [classif.vote, classif.compte]
  cases classes.get (p.2 - 1) <;> rfl

theorem vote_cons_eq_ok {k : ℕ} {p : K × ℤ} {v : List (K × ℤ)} {classes : Arr ℤ ℕ} {c : ℤ} :
    classif.vote k (p :: v) classes = .ok c ↔ ∃ classes' n,
      classif.compte classes p = .ok classes' ∧ classes'.get (p.2 - 1) = .ok n ∧
      (n = k ∧ p.2 = c ∨ n ≠ k ∧ classif.vote k v classes' = .ok c) := by
  rw [vote_cons]
  constructor
  · intro h
    obtain ⟨classes', hclasses, h⟩ := bind_eq_ok.1 h
    obtain ⟨n, hn, h⟩ := bind_eq_ok.1 h
    refine ⟨classes', n, hclasses, hn, ?_⟩
    split at h
    · rename_i hk
      exact .inl ⟨hk, Except.ok.inj h⟩
    · rename_i hk
      exact .inr ⟨hk, h⟩
  · intro h
    obtain ⟨classes', n, hclasses, hn, h⟩ := h
    rw [hclasses, ok_bind, hn, ok_bind]
    rcases h with ⟨hk, rfl⟩ | ⟨hk, h⟩
    · rw [if_pos hk]
      rfl
    · rw [if_neg hk, h]

/-- A decision does not look further. -/
theorem vote_append {k : ℕ} {v : List (K × ℤ)} (w : List (K × ℤ)) {classes : Arr ℤ ℕ} {c : ℤ}
    (h : classif.vote k v classes = .ok c) (hc : c ≠ -1) :
    classif.vote k (v ++ w) classes = .ok c := by
  induction v generalizing classes with
  | nil => exact absurd (Except.ok.inj h).symm hc
  | cons p v ih =>
    rw [List.cons_append, vote_cons_eq_ok]
    obtain ⟨classes', n, hclasses, hn, h⟩ := vote_cons_eq_ok.1 h
    exact ⟨classes', n, hclasses, hn, h.imp_right fun h => ⟨h.1, ih h.2⟩⟩

/-- The entry of the decision. -/
theorem vote_split {k : ℕ} {v : List (K × ℤ)} {classes : Arr ℤ ℕ} {c : ℤ}
    (h : classif.vote k v classes = .ok c) (hc : c ≠ -1) :
    ∃ v1 d v2, v = v1 ++ (d, c) :: v2 ∧ classif.vote k v1 classes = .ok (-1) ∧
      classif.vote k (v1 ++ [(d, c)]) classes = .ok c := by
  induction v generalizing classes with
  | nil => exact absurd (Except.ok.inj h).symm hc
  | cons p v ih =>
    obtain ⟨classes', n, hclasses, hn, h⟩ := vote_cons_eq_ok.1 h
    rcases h with ⟨hk, rfl⟩ | ⟨hk, h⟩
    · exact ⟨[], p.1, v, rfl, rfl,
        vote_cons_eq_ok.2 ⟨classes', n, hclasses, hn, .inl ⟨hk, rfl⟩⟩⟩
    · obtain ⟨v1, d, v2, rfl, hnone, hsome⟩ := ih h
      exact ⟨p :: v1, d, v2, rfl,
        vote_cons_eq_ok.2 ⟨classes', n, hclasses, hn, .inr ⟨hk, hnone⟩⟩,
        vote_cons_eq_ok.2 ⟨classes', n, hclasses, hn, .inr ⟨hk, hsome⟩⟩⟩

/-- The counters after a list of entries. -/
theorem ends_compte (v : List (K × ℤ)) {classes : Arr ℤ ℕ} {n : ℤ → ℕ} (hv : Labelled v)
    (hn : Tally classes n) :
    Ends (v.foldlM classif.compte classes) fun b => Tally b fun c => n c + total v c := by
  induction v generalizing classes n with
  | nil => exact Ends.ok hn
  | cons p v ih =>
    obtain ⟨d, c⟩ := p
    obtain ⟨⟨h1, h4⟩, hv⟩ := List.forall_mem_cons.1 hv
    rw [List.foldlM_cons, classif.compte, Arr.get_ok (hn c h1 h4)]
    refine (hn.set h1 h4).bind fun classes' hn' => (ih hv hn').mono fun b hb c' h1' h4' => ?_
    show b.Holds (c' - 1) (n c' + total ((d, c) :: v) c')
    rw [count_cons]
    exact hb c' h1' h4'

end

section
variable {P : Parameters} {K : Type} [Field K] [LinearOrder K] [LibM K]

/-- `classif` scans the entries `vus` of its map without a decision, then chooses the class `c` at
the entry of distance `d`. -/
structure Decided (m : Morceau P K) (base : List (Morceau P K)) (k : ℕ) (vus : List (K × ℤ))
    (d : K) (c : ℤ) : Prop where
  map : ∃ t suite, classif.hashmap m base = .ok t ∧ t.toList = vus ++ (d, c) :: suite
  before : classif.vote k vus classif.classes = .ok (-1)
  chosen : classif.vote k (vus ++ [(d, c)]) classif.classes = .ok c
  ne : c ≠ -1

theorem Decided.classif {m : Morceau P K} {base : List (Morceau P K)} {k : ℕ}
    {vus : List (K × ℤ)} {d : K} {c : ℤ} (h : Decided m base k vus d c) :
    classif.morceau base m k = .ok c := by
  obtain ⟨t, suite, ht, hlist⟩ := h.map
  have := vote_append suite h.chosen h.ne
  rw [List.append_assoc, List.singleton_append] at this
  rw [classif.morceau, ht, ok_bind, hlist, this]

theorem exists_decided {m : Morceau P K} {base : List (Morceau P K)} {k : ℕ} {c : ℤ}
    (h : classif.morceau base m k = .ok c) (hc : c ≠ -1) : ∃ vus d, Decided m base k vus d c := by
  obtain ⟨t, ht, h⟩ := bind_eq_ok.1 h
  obtain ⟨v1, d, v2, heq, hnone, hsome⟩ := vote_split h hc
  exact ⟨v1, d, ⟨t, v2, ht, heq⟩, hnone, hsome, hc⟩

end

/-! ## The map -/

section
variable {P : Parameters} {K : Type} [Field K] [LinearOrder K] [LibM K]

/-- The map of `classif` lists the entries that it retains, by increasing distance. -/
theorem exists_hashmap {m : Morceau P K} {base : List (Morceau P K)}
    (h : ∀ b ∈ base, ∃ v, dtw m b = .ok v) :
    ∃ t, classif.hashmap m base = .ok t ∧ t.toList.Perm (kept (entries m base)) :=
  ⟨_, hashmap_eq h, toList_foldl_insert_perm (entries m base)⟩

theorem hashmap_perm {m : Morceau P K} {base : List (Morceau P K)} {t : Std.TreeMap K ℤ}
    (h : classif.hashmap m base = .ok t) : t.toList.Perm (kept (entries m base)) := by
  obtain ⟨t', ht', hperm⟩ := exists_hashmap (hashmap_ok_iff.1 ⟨t, h⟩)
  obtain rfl := Except.ok.inj (h.symm.trans ht')
  exact hperm

theorem distanceGlobale_eq {m b : Morceau P K} {v : K} (h : dtw m b = .ok v) :
    distanceGlobale m b = v := by
  rw [distanceGlobale, h]

theorem dtw_error {m1 m2 : Morceau P K} (h : ¬(1 ≤ m1.getNFrames ∧ 1 ≤ m2.getNFrames)) :
    dtw m1 m2 = .error .outOfBounds := by
  have hframe : ∀ {m : Morceau P K}, ¬1 ≤ m.getNFrames → m.frame 0 = .error .outOfBounds := by
    intro m hm
    have hsize : ¬0 < m.frames.size := m.alloc ▸ hm
    simp [Morceau.frame, Morceau.getFrames, hsize]
  rw [dtw, dtw.distances]
  by_cases h1 : 1 ≤ m1.getNFrames
  · rw [Morceau.frame_ok h1, hframe fun h2 => h ⟨h1, h2⟩]
    rfl
  · rw [hframe h1]
    rfl

variable [IsStrictOrderedRing K]

/-- A fault of `dtw` is a fault of `classif`. -/
theorem hashmap_error {m : Morceau P K} {base : List (Morceau P K)}
    (h : ¬∀ b ∈ base, ∃ v, dtw m b = .ok v) :
    classif.hashmap m base = .error .outOfBounds := by
  unfold classif.hashmap
  generalize (∅ : Std.TreeMap K ℤ) = t
  induction base generalizing t with
  | nil => exact absurd nofun h
  | cons b base ih =>
    rw [List.foldlM_cons]
    by_cases hb : ∃ v, dtw m b = .ok v
    · obtain ⟨v, hv⟩ := hb
      rw [hv]
      exact ih (fun hall => h (List.forall_mem_cons.2 ⟨⟨v, hv⟩, hall⟩)) _
    · rw [dtw_error (mt dtw_ok_iff.2 hb)]
      rfl

end

/-! ## Orders -/

/-- **The order of the base does not matter**, if pieces at the same distance carry the same
class. -/
theorem classif_perm {P : Parameters} (m : Morceau P ℝ) (base base' : List (Morceau P ℝ)) (k : ℕ)
    (hperm : base.Perm base')
    (hclass : ∀ b ∈ base, ∀ b' ∈ base, ∀ d, dtw m b = .ok d → dtw m b' = .ok d →
      b.getClasse = b'.getClasse) :
    classif.morceau base m k = classif.morceau base' m k := by
  have hall : (∀ b ∈ base', ∃ v, dtw m b = .ok v) ↔ ∀ b ∈ base, ∃ v, dtw m b = .ok v :=
    forall_congr' fun b => by rw [hperm.mem_iff]
  unfold classif.morceau
  by_cases h : ∀ b ∈ base, ∃ v, dtw m b = .ok v
  · have hcons : Consistent (entries m base) := by
      intro p hp q hq heq
      obtain ⟨b, hb, rfl⟩ := List.mem_map.1 hp
      obtain ⟨b', hb', rfl⟩ := List.mem_map.1 hq
      obtain ⟨v, hv⟩ := h b hb
      obtain ⟨v', hv'⟩ := h b' hb'
      obtain rfl : v = v' := by
        rw [← distanceGlobale_eq hv, ← distanceGlobale_eq hv']
        exact heq
      exact hclass b hb b' hb' v hv hv'
    obtain ⟨t, ht, htp⟩ := exists_hashmap h
    obtain ⟨t', ht', htp'⟩ := exists_hashmap (hall.2 h)
    have hkept := kept_perm hcons (hperm.map fun b => (distanceGlobale m b, b.getClasse))
    rw [ht, ht', ok_bind, ok_bind, eq_of_sorted (sorted_toList t) (sorted_toList t')
      (htp.trans (hkept.trans htp'.symm))]
  · rw [hashmap_error h, hashmap_error (mt hall.1 h)]

/-- Two classes, and two pieces of one class at the same distance. -/
theorem classif_perm_constant :
    classif.morceau [Morceau.constant [1] 2, Morceau.constant [-1] 2, Morceau.constant [3] 4,
        Morceau.constant [2] 4] (Morceau.constant [0] 1) 2 =
      classif.morceau [Morceau.constant [2] 4, Morceau.constant [1] 2, Morceau.constant [-1] 2,
        Morceau.constant [3] 4] (Morceau.constant [0] 1) 2 := by
  have hperm : ∀ w x y z : Morceau parameters ℝ, List.Perm [w, x, y, z] [z, w, x, y] :=
    fun w x y z => List.perm_append_singleton z [w, x, y]
  refine classif_perm _ _ _ 2 (hperm _ _ _ _) fun b hb b' hb' d hd hd' => ?_
  simp only [List.mem_cons, List.not_mem_nil, or_false] at hb hb'
  rcases hb with rfl | rfl | rfl | rfl <;> rcases hb' with rfl | rfl | rfl | rfl <;>
    first
    | rfl
    | exfalso
      have := Except.ok.inj (((dtw_constant _ _ _ _).symm.trans hd).trans
        (hd'.symm.trans (dtw_constant _ _ _ _)))
      norm_num at this

/-! ## Farther examples -/

/-- **Farther examples never change a decision**: `classif` that chooses `c` at the entry of
distance `d` chooses `c` with any pieces at distances above `d` inserted in its base. -/
theorem classif_inserted {P : Parameters} (m : Morceau P ℝ) (base base' : List (Morceau P ℝ))
    (k : ℕ) (vus : List (ℝ × ℤ)) (d : ℝ) (c : ℤ) (h : Decided m base k vus d c)
    (hins : Inserted (fun b => ∃ v, dtw m b = .ok v ∧ d < v) base base') :
    classif.morceau base m k = .ok c ∧ classif.morceau base' m k = .ok c := by
  refine ⟨h.classif, ?_⟩
  obtain ⟨t, suite, ht, hlist⟩ := h.map
  have hperm := hashmap_perm ht
  have hdtw' := hins.forall_mem (hashmap_ok_iff.1 ⟨t, ht⟩) fun b hb => hb.imp fun v hv => hv.1
  obtain ⟨t', ht', hperm'⟩ := exists_hashmap hdtw'
  have hentries : Inserted (fun p => d < p.1) (entries m base) (entries m base') :=
    hins.map fun b hb => by
      obtain ⟨v, hv, hd⟩ := hb
      exact (distanceGlobale_eq hv).symm ▸ hd
  -- the two maps have the same entries up to `d`
  have hfilter : t'.toList.filter (fun p => decide (p.1 ≤ d)) = vus ++ [(d, c)] := by
    rw [← filter_of_sorted (p := (d, c)) (hlist ▸ sorted_toList t), ← hlist]
    refine eq_of_sorted ((sorted_toList t').filter _) ((sorted_toList t).filter _) ?_
    exact (hperm'.filter _).trans ((List.Perm.of_eq hentries.filter_kept).trans
      (hperm.filter _).symm)
  obtain ⟨suite', hlist'⟩ := exists_eq_filter_append (sorted_toList t') d
  rw [classif.morceau, ht', ok_bind, hlist', hfilter]
  exact vote_append suite' h.chosen h.ne

/-- A base in the order of its distances. -/
theorem decided_of_sorted {P : Parameters} {m : Morceau P ℝ} {base : List (Morceau P ℝ)} {k : ℕ}
    {vus suite : List (ℝ × ℤ)} {d : ℝ} {c : ℤ} (hdtw : ∀ b ∈ base, ∃ v, dtw m b = .ok v)
    (hlist : entries m base = vus ++ (d, c) :: suite)
    (hsorted : (entries m base).Pairwise fun p q => p.1 < q.1)
    (hbefore : classif.vote k vus classif.classes = .ok (-1))
    (hchosen : classif.vote k (vus ++ [(d, c)]) classif.classes = .ok c) (hc : c ≠ -1) :
    Decided m base k vus d c := by
  obtain ⟨t, ht, hperm⟩ := exists_hashmap hdtw
  have hnodup : ((entries m base).map Prod.fst).Nodup :=
    (List.pairwise_map.2 hsorted).imp fun h => h.ne
  rw [kept_of_nodup hnodup] at hperm
  exact ⟨⟨t, suite, ht, (eq_of_sorted (sorted_toList t) hsorted hperm).trans hlist⟩, hbefore,
    hchosen, hc⟩

/-- Two votes of class 2, and two pieces of class 3 that are farther. -/
theorem classif_inserted_constant :
    classif.morceau [Morceau.constant [1] 2, Morceau.constant [2] 2] (Morceau.constant [0] 1) 2 =
        .ok 2 ∧
      classif.morceau [Morceau.constant [3] 3, Morceau.constant [1] 2, Morceau.constant [4] 3,
        Morceau.constant [2] 2] (Morceau.constant [0] 1) 2 = .ok 2 := by
  have hentries : entries (Morceau.constant [0] 1)
      [Morceau.constant [1] 2, Morceau.constant [2] 2] =
        [(25 * |0 - 1| / 2, 2)] ++ (25 * |0 - 2| / 2, 2) :: [] := by
    simp only [entries, List.map_cons, List.map_nil, distanceGlobale_eq (dtw_constant _ _ _ _)]
    rfl
  have hdecided : Decided (Morceau.constant [0] 1) [Morceau.constant [1] 2, Morceau.constant [2] 2]
      2 [(25 * |0 - 1| / 2, 2)] (25 * |0 - 2| / 2) 2 := by
    refine decided_of_sorted ?_ hentries ?_ rfl rfl (by decide)
    · simp [dtw_constant]
    · rw [hentries]
      norm_num
  refine classif_inserted _ _ _ 2 _ _ 2 hdecided (.insert ⟨_, dtw_constant _ _ _ _, ?_⟩ (.keep _
    (.insert ⟨_, dtw_constant _ _ _ _, ?_⟩ (.keep _ .nil))))
  · norm_num
  · norm_num

/-! ## Large bases -/

section
variable {P : Parameters} {m : Morceau P ℝ} {base : List (Morceau P ℝ)} {k : ℕ}
  {vus : List (ℝ × ℤ)} {d : ℝ} {c : ℤ}

theorem Decided.subset (h : Decided m base k vus d c) :
    ∀ p ∈ vus ++ [(d, c)], p ∈ entries m base := by
  intro p hp
  obtain ⟨t, suite, ht, hlist⟩ := h.map
  have hmem : p ∈ t.toList := by
    rw [hlist, ← List.singleton_append, ← List.append_assoc]
    exact List.mem_append_left suite hp
  exact (kept_sublist _).subset ((hashmap_perm ht).subset hmem)

theorem Decided.labelled (h : Decided m base k vus d c)
    (hlabels : ∀ b ∈ base, 1 ≤ b.getClasse ∧ b.getClasse ≤ 4) : Labelled (vus ++ [(d, c)]) :=
  fun p hp => labelled_entries hlabels p (h.subset p hp)

theorem Decided.total_lt (h : Decided m base k vus d c) (hk : 1 ≤ k)
    (hlabels : ∀ b ∈ base, 1 ≤ b.getClasse ∧ b.getClasse ≤ 4) (c' : ℤ) : total vus c' < k := by
  have hlab : Labelled vus := fun p hp => h.labelled hlabels p (List.mem_append_left _ hp)
  obtain ⟨r, hr, hcase⟩ := ends_vote vus hlab tally_classes fun _ => hk
  obtain rfl := Except.ok.inj (h.before.symm.trans hr)
  rcases hcase with ⟨-, hlt⟩ | ⟨v1, e, v2, rfl, -⟩
  · have := hlt c'
    rwa [Nat.zero_add] at this
  · have := (hlab (e, -1) (by simp)).1
    omega

/-- The distances up to the decision are those of the entries scanned. -/
theorem Decided.card_le (h : Decided m base k vus d c) :
    (((entries m base).map Prod.fst).toFinset.filter (· ≤ d)).card ≤ vus.length + 1 := by
  obtain ⟨t, suite, ht, hlist⟩ := h.map
  have hfilter := filter_of_sorted (p := (d, c)) (hlist ▸ sorted_toList t)
  have hsub : ((entries m base).map Prod.fst).toFinset.filter (· ≤ d) ⊆
      ((vus ++ [(d, c)]).map Prod.fst).toFinset := by
    intro x hx
    obtain ⟨hx, hxd⟩ := Finset.mem_filter.1 hx
    obtain ⟨p, hp, rfl⟩ := List.mem_map.1 (List.mem_toFinset.1 hx)
    obtain ⟨q, hq, heq⟩ := exists_kept hp
    rw [List.mem_toFinset, ← hfilter, ← hlist, ← heq]
    refine List.mem_map_of_mem (List.mem_filter.2 ⟨(hashmap_perm ht).symm.subset hq, ?_⟩)
    exact decide_eq_true (heq ▸ hxd)
  refine (Finset.card_le_card hsub).trans ((List.toFinset_card_le _).trans ?_)
  simp

/-- Few votes for each class, few distances. -/
theorem card_distances_le (hlabels : ∀ b ∈ base, 1 ≤ b.getClasse ∧ b.getClasse ≤ 4)
    (hlt : ∀ c, total (kept (entries m base)) c < k) :
    ((entries m base).map Prod.fst).toFinset.card ≤ 4 * (k - 1) := by
  have hsub : ((entries m base).map Prod.fst).toFinset ⊆
      ((kept (entries m base)).map Prod.fst).toFinset := by
    intro x hx
    obtain ⟨p, hp, rfl⟩ := List.mem_map.1 (List.mem_toFinset.1 hx)
    obtain ⟨q, hq, heq⟩ := exists_kept hp
    exact List.mem_toFinset.2 (heq ▸ List.mem_map_of_mem hq)
  calc ((entries m base).map Prod.fst).toFinset.card
      ≤ ((kept (entries m base)).map Prod.fst).toFinset.card := Finset.card_le_card hsub
    _ ≤ (kept (entries m base)).length := by
      simpa using List.toFinset_card_le ((kept (entries m base)).map Prod.fst)
    _ ≤ (Finset.Icc (1 : ℤ) 4).card * (k - 1) := length_le_of_total_lt (fun p hp =>
        Finset.mem_Icc.2 (labelled_entries hlabels p ((kept_sublist _).subset hp))) hlt
    _ = 4 * (k - 1) := rfl

theorem distances_eq {ds : List ℝ} (h : List.Forall₂ (fun b d => dtw m b = .ok d) base ds) :
    (∀ b ∈ base, ∃ v, dtw m b = .ok v) ∧ ds = (entries m base).map Prod.fst := by
  induction h with
  | nil => exact ⟨nofun, rfl⟩
  | @cons b d base ds hd _ ih =>
    refine ⟨List.forall_mem_cons.2 ⟨⟨d, hd⟩, ih.1⟩, ?_⟩
    rw [ih.2, entries, entries, List.map_cons, List.map_cons, distanceGlobale_eq hd]

end

/-- **A large base yields a decision**: with `4 (k - 1) + 1` distinct distances, `classif` chooses
a class within as many of the smallest ones, when every other class has fewer than `k` votes. -/
theorem classif_decides {P : Parameters} (m : Morceau P ℝ) (base : List (Morceau P ℝ)) (k : ℕ)
    (hk : 1 ≤ k) (hlabels : ∀ b ∈ base, 1 ≤ b.getClasse ∧ b.getClasse ≤ 4) (ds : List ℝ)
    (hds : List.Forall₂ (fun b d => dtw m b = .ok d) base ds)
    (hlarge : 4 * (k - 1) + 1 ≤ ds.toFinset.card) :
    ∃ c vus d, classif.morceau base m k = .ok c ∧ 1 ≤ c ∧ c ≤ 4 ∧ Decided m base k vus d c ∧
      d ∈ ds ∧ (ds.toFinset.filter (· ≤ d)).card ≤ 4 * (k - 1) + 1 ∧
      Ends ((vus ++ [(d, c)]).foldlM classif.compte classif.classes) fun classes =>
        ∀ c', 1 ≤ c' → c' ≤ 4 → c' ≠ c → ∃ n, classes.Holds (c' - 1) n ∧ n < k := by
  obtain ⟨hdtw, rfl⟩ := distances_eq hds
  obtain ⟨c, hc, hcase⟩ := ends_classif hk hlabels hdtw
  rcases hcase with ⟨-, hlt⟩ | ⟨hne, -⟩
  · have := card_distances_le hlabels hlt
    omega
  obtain ⟨vus, d, h⟩ := exists_decided hc hne
  have hlab := h.labelled hlabels
  have hvus : vus.length ≤ 4 * (k - 1) := length_le_of_total_lt (S := Finset.Icc (1 : ℤ) 4)
    (fun p hp => Finset.mem_Icc.2 (hlab p (List.mem_append_left _ hp))) (h.total_lt hk hlabels)
  obtain ⟨h1, h4⟩ := hlab (d, c) (by simp)
  have hmem : d ∈ (entries m base).map Prod.fst :=
    List.mem_map_of_mem (f := Prod.fst) (h.subset (d, c) (by simp))
  refine ⟨c, vus, d, hc, h1, h4, h, hmem, h.card_le.trans (by omega), ?_⟩
  refine (ends_compte _ hlab tally_classes).mono fun b hb c' h1' h4' hcc =>
    ⟨_, hb c' h1' h4', ?_⟩
  have hlt := h.total_lt hk hlabels c'
  simpa [total, List.countP_append, Ne.symm hcc] using hlt

/-- Five distances and four classes: the second vote of class 1 is the fifth one. -/
theorem classif_decides_five : ∃ c vus d,
    classif.morceau [Morceau.constant [2] 3, Morceau.constant [1] 1, Morceau.constant [5] 1,
      Morceau.constant [3] 2, Morceau.constant [4] 4] (Morceau.constant [0] 1) 2 = .ok c ∧
      1 ≤ c ∧ c ≤ 4 ∧
      Decided (Morceau.constant [0] 1) [Morceau.constant [2] 3, Morceau.constant [1] 1,
        Morceau.constant [5] 1, Morceau.constant [3] 2, Morceau.constant [4] 4] 2 vus d c ∧
      d ∈ [2, 1, 5, 3, 4].map (fun x : ℝ => 25 * |0 - x| / 2) ∧
      ((([2, 1, 5, 3, 4].map fun x : ℝ => 25 * |0 - x| / 2).toFinset.filter (· ≤ d)).card ≤
        4 * (2 - 1) + 1) ∧
      Ends ((vus ++ [(d, c)]).foldlM classif.compte classif.classes) fun classes =>
        ∀ c', 1 ≤ c' → c' ≤ 4 → c' ≠ c → ∃ n, classes.Holds (c' - 1) n ∧ n < 2 := by
  refine classif_decides (Morceau.constant [0] 1) [Morceau.constant [2] 3, Morceau.constant [1] 1,
    Morceau.constant [5] 1, Morceau.constant [3] 2, Morceau.constant [4] 4] 2 (by decide) ?_ _ ?_ ?_
  · simp [Morceau.constant, Morceau.getClasse]
  · simp only [List.map_cons, List.map_nil, List.forall₂_cons, List.forall₂_nil_right_iff,
      dtw_constant, and_self]
  · rw [List.toFinset_card_of_nodup]
    · decide
    · norm_num

end TlVoix
