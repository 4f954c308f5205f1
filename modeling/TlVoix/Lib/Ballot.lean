import Mathlib.Algebra.BigOperators.Ring.Finset
import Mathlib.Algebra.Group.Action.Defs
import Mathlib.Algebra.Order.BigOperators.Group.Finset
import Mathlib.Data.List.Induction
import Mathlib.Order.Defs.LinearOrder
import Mathlib.Order.Std
import Mathlib.Tactic.Linarith

/-!
# Votes by rank

A ballot is a list of entries: a rank in a linear order, and a label.

* `kth l k` is the `k`-th smallest element of a list; it is at most `x` exactly if `k` elements are
  (`kth_le_iff`).
* `Elected k v r`: the label `r` has `k` entries, the `k`-th of which is the least among the labels
  with `k` entries; by counts, `elected_iff`.
* `kept v` drops the entries whose rank occurs again further on. It is what a sorted map with the
  ranks as keys retains of `v` (`toList_foldl_insert_perm`).
* `First k v r d`: in order of rank, `r` is the first label with `k` entries, at rank `d`; it is
  elected (`First.elected`). `choice k v` is the first label of `kept v`, if there is one.
* What `kept` does not see: the order of a ballot whose ranks have one label each (`kept_perm`),
  and, up to a rank, the entries inserted above it (`Inserted.filter_kept`).
* `length_le_of_total_lt`: few entries for each of the labels, few entries.
-/

namespace Ballot

section
variable {α : Type*} [LinearOrder α]

/-- The `k`-th smallest element, from `k = 1`. -/
def kth (l : List α) (k : ℕ) : Option α := (l.mergeSort fun a b => decide (a ≤ b))[k - 1]?

theorem getElem?_le_iff {l : List α} (h : l.Pairwise (· ≤ ·)) {k : ℕ} {d x : α}
    (hd : l[k]? = some d) : d ≤ x ↔ k + 1 ≤ l.countP (· ≤ x) := by
  induction l generalizing k with
  | nil => simp at hd
  | cons a l ih =>
    rw [List.pairwise_cons] at h
    rw [List.countP_cons]
    -- nothing is at most `x` after an element above it
    have hzero : ¬a ≤ x → l.countP (· ≤ x) = 0 := fun hax => by
      rw [List.countP_eq_zero]
      intro b hb hbx
      exact hax ((h.1 b hb).trans (of_decide_eq_true hbx))
    cases k with
    | zero =>
      obtain rfl : a = d := by simpa using hd
      by_cases hax : a ≤ x
      · simp [hax]
      · simp [hax, hzero hax]
    | succ k =>
      rw [List.getElem?_cons_succ] at hd
      rw [ih h.2 hd]
      by_cases hax : a ≤ x
      · simp [hax]
      · simp [hax, hzero hax]

theorem sorted_mergeSort (l : List α) :
    (l.mergeSort fun a b => decide (a ≤ b)).Pairwise (· ≤ ·) := by
  refine (List.pairwise_mergeSort (fun a b c hab hbc => ?_) (fun a b => ?_) l).imp
    fun h => of_decide_eq_true h
  · exact decide_eq_true ((of_decide_eq_true hab).trans (of_decide_eq_true hbc))
  · simpa using le_total a b

/-- **The rank of an element by counting.** -/
theorem kth_le_iff {l : List α} {k : ℕ} (hk : 1 ≤ k) {d x : α} (hd : kth l k = some d) :
    d ≤ x ↔ k ≤ l.countP (· ≤ x) := by
  rw [getElem?_le_iff (sorted_mergeSort l) hd, Nat.sub_add_cancel hk,
    (List.mergeSort_perm l _).countP_eq]

theorem exists_kth {l : List α} {k : ℕ} (hk : 1 ≤ k) (hl : k ≤ l.length) :
    ∃ d, kth l k = some d :=
  ⟨_, List.getElem?_eq_getElem (by rw [List.length_mergeSort]; omega)⟩

end

/-! ## Ballots -/

section
variable {α ι : Type*} [LinearOrder α] [DecidableEq ι]

/-- The number of entries of a label. -/
def total (v : List (α × ι)) (c : ι) : ℕ := v.countP fun p => p.2 = c

/-- The number of entries of a label up to a rank. -/
def within (v : List (α × ι)) (c : ι) (x : α) : ℕ := v.countP fun p => p.2 = c ∧ p.1 ≤ x

/-- The ranks of a label. -/
def ranks (v : List (α × ι)) (c : ι) : List α := (v.filter fun p => p.2 = c).map Prod.fst

omit [LinearOrder α] in
theorem length_ranks (v : List (α × ι)) (c : ι) : (ranks v c).length = total v c := by
  rw [ranks, List.length_map, total, List.countP_eq_length_filter]

theorem countP_ranks (v : List (α × ι)) (c : ι) (x : α) :
    (ranks v c).countP (· ≤ x) = within v c x := by
  rw [ranks, List.countP_map, List.countP_filter, within]
  refine List.countP_congr fun p _ => ?_
  simp [and_comm]

theorem within_le_total (v : List (α × ι)) (c : ι) (x : α) : within v c x ≤ total v c :=
  List.countP_mono_left fun p _ h => by
    simp only [decide_eq_true_eq] at h ⊢
    exact h.1

theorem within_mono (v : List (α × ι)) (c : ι) {x y : α} (h : x ≤ y) :
    within v c x ≤ within v c y :=
  List.countP_mono_left fun p _ hp => by
    simp only [decide_eq_true_eq] at hp ⊢
    exact ⟨hp.1, hp.2.trans h⟩

/-- The label `r` has `k` entries, and the least `k`-th rank of all the labels that have. -/
structure Elected (k : ℕ) (v : List (α × ι)) (r : ι) : Prop where
  enough : k ≤ total v r
  least : ∀ c, k ≤ total v c → ∀ d e, kth (ranks v r) k = some d → kth (ranks v c) k = some e →
    d ≤ e

/-- `Elected`, by counts: up to any rank, `r` has `k` entries if any label has. -/
theorem elected_iff {k : ℕ} (hk : 1 ≤ k) {v : List (α × ι)} {r : ι} :
    Elected k v r ↔ k ≤ total v r ∧ ∀ c x, k ≤ within v c x → k ≤ within v r x := by
  constructor
  · refine fun h => ⟨h.enough, fun c x hx => ?_⟩
    have hc : k ≤ total v c := hx.trans (within_le_total v c x)
    obtain ⟨d, hd⟩ := exists_kth hk (length_ranks v r ▸ h.enough)
    obtain ⟨e, he⟩ := exists_kth hk (length_ranks v c ▸ hc)
    have hex : e ≤ x := (kth_le_iff hk he).2 (countP_ranks v c x ▸ hx)
    rw [← countP_ranks, ← kth_le_iff hk hd]
    exact (h.least c hc d e hd he).trans hex
  · refine fun ⟨henough, hleast⟩ => ⟨henough, fun c _ d e hd he => ?_⟩
    have hce : k ≤ within v c e := countP_ranks v c e ▸ (kth_le_iff hk he).1 le_rfl
    exact (kth_le_iff hk hd).2 (countP_ranks v r e ▸ hleast c e hce)

/-- In order of rank, `r` is the first label with `k` entries, at rank `d`. -/
structure First (k : ℕ) (v : List (α × ι)) (r : ι) (d : α) : Prop where
  reached : k ≤ within v r d
  alone : ∀ c, k ≤ within v c d → c = r
  before : ∀ x, x < d → ∀ c, within v c x < k

omit [LinearOrder α] in
theorem total_cons (p : α × ι) (v : List (α × ι)) (c : ι) :
    total (p :: v) c = total v c + if p.2 = c then 1 else 0 := by
  simp [total, List.countP_cons]

omit [LinearOrder α] in
theorem total_map {β : Type*} (f : α → β) (v : List (α × ι)) (c : ι) :
    total (v.map fun p => (f p.1, p.2)) c = total v c := by
  rw [total, List.countP_map]
  rfl

theorem within_append (v w : List (α × ι)) (c : ι) (x : α) :
    within (v ++ w) c x = within v c x + within w c x := List.countP_append

theorem within_cons (p : α × ι) (v : List (α × ι)) (c : ι) (x : α) :
    within (p :: v) c x = within v c x + if p.2 = c ∧ p.1 ≤ x then 1 else 0 := by
  simp [within, List.countP_cons]

theorem within_eq_zero {v : List (α × ι)} {x : α} (h : ∀ p ∈ v, x < p.1) (c : ι) :
    within v c x = 0 := by
  rw [within, List.countP_eq_zero]
  intro p hp hpx
  exact absurd (of_decide_eq_true hpx).2 (not_le.2 (h p hp))

theorem within_eq_total {v : List (α × ι)} {x : α} (h : ∀ p ∈ v, p.1 ≤ x) (c : ι) :
    within v c x = total v c :=
  List.countP_congr fun p hp => by simp [h p hp]

/-- The entry that gives its label `k` entries, in a sorted list. -/
theorem first_of_sorted {k : ℕ} {v w : List (α × ι)} {r : ι} {d : α}
    (hs : (v ++ (d, r) :: w).Pairwise fun p q => p.1 < q.1) (hr : total v r + 1 = k)
    (hlt : ∀ c, total v c < k) : First k (v ++ (d, r) :: w) r d := by
  rw [List.pairwise_append, List.pairwise_cons] at hs
  obtain ⟨-, ⟨hw, -⟩, hvw⟩ := hs
  have hv : ∀ p ∈ v, p.1 < d := fun p hp => hvw p hp (d, r) List.mem_cons_self
  have hat : ∀ c, within (v ++ (d, r) :: w) c d = total v c + if r = c then 1 else 0 := fun c => by
    rw [within_append, within_cons, within_eq_total (fun p hp => (hv p hp).le),
      within_eq_zero (fun q hq => hw q hq)]
    simp
  refine ⟨?_, fun c hc => ?_, fun x hx c => ?_⟩
  · rw [hat, if_pos rfl, hr]
  · by_contra hne
    rw [hat, if_neg (Ne.symm hne)] at hc
    exact absurd hc (Nat.not_le.2 (hlt c))
  · rw [within_append, within_cons, within_eq_zero (fun q hq => hx.trans (hw q hq)),
      if_neg fun h => absurd h.2 (not_le.2 hx)]
    exact (within_le_total v c x).trans_lt (hlt c)

/-- The first label with `k` entries is elected. -/
theorem First.elected {k : ℕ} (hk : 1 ≤ k) {v : List (α × ι)} {r : ι} {d : α}
    (h : First k v r d) : Elected k v r := by
  refine (elected_iff hk).2 ⟨h.reached.trans (within_le_total v r d), fun c x hx => ?_⟩
  have hdx : d ≤ x := not_lt.1 fun hlt => absurd hx (Nat.not_le.2 (h.before x hlt c))
  exact h.reached.trans (within_mono v r hdx)

theorem First.perm {k : ℕ} {v w : List (α × ι)} {r : ι} {d : α} (h : First k v r d)
    (hp : v.Perm w) : First k w r d := by
  have heq : ∀ c x, within v c x = within w c x := fun c x => hp.countP_eq _
  exact ⟨heq r d ▸ h.reached, fun c hc => h.alone c (heq c d ▸ hc),
    fun x hx c => heq c x ▸ h.before x hx c⟩

/-! ## Entries of one rank -/

/-- The entries that no later entry of the same rank follows. -/
def kept : List (α × ι) → List (α × ι)
  | [] => []
  | p :: v => if ∃ q ∈ v, q.1 = p.1 then kept v else p :: kept v

omit [DecidableEq ι] in
theorem kept_sublist (v : List (α × ι)) : (kept v).Sublist v := by
  induction v with
  | nil => exact .slnil
  | cons p v ih =>
    unfold kept
    split
    · exact ih.cons p
    · exact ih.cons_cons p

omit [DecidableEq ι] in
theorem kept_of_nodup {v : List (α × ι)} (h : (v.map Prod.fst).Nodup) : kept v = v := by
  induction v with
  | nil => rfl
  | cons p v ih =>
    rw [List.map_cons, List.nodup_cons] at h
    have hp : ¬∃ q ∈ v, q.1 = p.1 := fun ⟨q, hq, heq⟩ => h.1 (heq ▸ List.mem_map_of_mem hq)
    rw [kept, if_neg hp, ih h.2]

omit [DecidableEq ι] in
theorem kept_concat (v : List (α × ι)) (p : α × ι) :
    kept (v ++ [p]) = (kept v).filter (fun q => decide (q.1 ≠ p.1)) ++ [p] := by
  induction v with
  | nil => simp [kept]
  | cons q v ih =>
    rw [List.cons_append, kept, kept, ih]
    by_cases hqp : q.1 = p.1
    · have h1 : ∃ r ∈ v ++ [p], r.1 = q.1 := ⟨p, by simp, hqp.symm⟩
      rw [if_pos h1]
      split
      · rfl
      · rw [List.filter_cons_of_neg (by simpa using hqp)]
    · have h1 : (∃ r ∈ v ++ [p], r.1 = q.1) ↔ ∃ r ∈ v, r.1 = q.1 := by
        refine ⟨fun ⟨r, hr, hrq⟩ => ?_, fun ⟨r, hr, hrq⟩ => ⟨r, List.mem_append_left _ hr, hrq⟩⟩
        rcases List.mem_append.1 hr with hr | hr
        · exact ⟨r, hr, hrq⟩
        · obtain rfl : r = p := List.mem_singleton.1 hr
          exact absurd hrq.symm hqp
      rw [if_congr h1 rfl rfl]
      split
      · rfl
      · rw [List.filter_cons_of_pos (by simpa using hqp), List.cons_append]

omit [DecidableEq ι] in
theorem nodup_kept (v : List (α × ι)) : ((kept v).map Prod.fst).Nodup := by
  induction v with
  | nil => exact List.nodup_nil
  | cons p v ih =>
    unfold kept
    split
    · exact ih
    · rename_i hp
      refine List.nodup_cons.2 ⟨fun hmem => ?_, ih⟩
      obtain ⟨q, hq, heq⟩ := List.mem_map.1 hmem
      exact hp ⟨q, (kept_sublist v).subset hq, heq⟩

omit [DecidableEq ι] in
/-- An entry is lost exactly if two entries have one rank. -/
theorem length_kept_eq_iff {v : List (α × ι)} :
    (kept v).length = v.length ↔ (v.map Prod.fst).Nodup :=
  ⟨fun h => (kept_sublist v).eq_of_length h ▸ nodup_kept v, fun h => by rw [kept_of_nodup h]⟩

omit [DecidableEq ι] in
/-- Every rank is kept. -/
theorem exists_kept {v : List (α × ι)} {p : α × ι} (hp : p ∈ v) : ∃ q ∈ kept v, q.1 = p.1 := by
  induction v generalizing p with
  | nil => cases hp
  | cons r v ih =>
    unfold kept
    split
    · rename_i hr
      rcases List.mem_cons.1 hp with rfl | hp
      · -- a later entry has the rank of `p`
        obtain ⟨q, hq, heq⟩ := hr
        obtain ⟨q', hq', heq'⟩ := ih hq
        exact ⟨q', hq', heq'.trans heq⟩
      · exact ih hp
    · rcases List.mem_cons.1 hp with rfl | hp
      · exact ⟨p, List.mem_cons_self, rfl⟩
      · obtain ⟨q, hq, heq⟩ := ih hp
        exact ⟨q, List.mem_cons_of_mem r hq, heq⟩

/-- The entries of one rank have one label. -/
def Consistent (v : List (α × ι)) : Prop := ∀ p ∈ v, ∀ q ∈ v, p.1 = q.1 → p.2 = q.2

omit [DecidableEq ι] in
theorem Consistent.mem_kept {v : List (α × ι)} (h : Consistent v) {p : α × ι} :
    p ∈ kept v ↔ p ∈ v := by
  refine ⟨fun hp => (kept_sublist v).subset hp, fun hp => ?_⟩
  obtain ⟨q, hq, heq⟩ := exists_kept hp
  have hqp : q = p := Prod.ext heq (h q ((kept_sublist v).subset hq) p hp heq)
  exact hqp ▸ hq

omit [DecidableEq ι] in
/-- **The order of a consistent ballot is not seen.** -/
theorem kept_perm {v w : List (α × ι)} (h : Consistent v) (hp : v.Perm w) :
    (kept v).Perm (kept w) := by
  have hw : Consistent w := fun p hpw q hqw => h p (hp.symm.subset hpw) q (hp.symm.subset hqw)
  refine (List.perm_ext_iff_of_nodup (nodup_kept v).of_map (nodup_kept w).of_map).2 fun p => ?_
  rw [h.mem_kept, hw.mem_kept, hp.mem_iff]

theorem First.unique {k : ℕ} {v : List (α × ι)} {r r' : ι} {d d' : α} (h : First k v r d)
    (h' : First k v r' d') : r = r' ∧ d = d' := by
  have hd : d = d' := le_antisymm
    (not_lt.1 fun hlt => absurd h'.reached (Nat.not_le.2 (h.before d' hlt r')))
    (not_lt.1 fun hlt => absurd h.reached (Nat.not_le.2 (h'.before d hlt r)))
  subst hd
  exact ⟨h'.alone r h.reached, rfl⟩

open scoped Classical in
/-- The first label with `k` kept entries, if one has. -/
noncomputable def choice (k : ℕ) (v : List (α × ι)) : Option ι :=
  if h : ∃ r d, First k (kept v) r d then some h.choose else none

theorem choice_eq_some {k : ℕ} {v : List (α × ι)} {r : ι} {d : α} (h : First k (kept v) r d) :
    choice k v = some r := by
  have hex : ∃ r d, First k (kept v) r d := ⟨r, d, h⟩
  obtain ⟨_, hd⟩ := hex.choose_spec
  rw [choice, dif_pos hex, (hd.unique h).1]

theorem choice_eq_none {k : ℕ} {v : List (α × ι)} (h : ∀ c, total (kept v) c < k) :
    choice k v = none := by
  refine dif_neg fun hex => ?_
  obtain ⟨r, d, hd⟩ := hex
  exact absurd (hd.reached.trans (within_le_total _ r d)) (Nat.not_le.2 (h r))

/-- In a sorted ballot, and any other one with its order of ranks, the label of the entry that gives
it `k` entries. -/
theorem choice_map_of_sorted {β : Type*} [LinearOrder β] {f : α → β} (hf : StrictMono f) {k : ℕ}
    {v w : List (α × ι)} {r : ι} {d : α}
    (hs : (v ++ (d, r) :: w).Pairwise fun p q => p.1 < q.1) (hr : total v r + 1 = k)
    (hlt : ∀ c, total v c < k) :
    choice k ((v ++ (d, r) :: w).map fun p => (f p.1, p.2)) = some r := by
  have hmap : ((v ++ (d, r) :: w).map fun p => (f p.1, p.2)).Pairwise fun p q => p.1 < q.1 :=
    List.pairwise_map.2 (hs.imp fun h => hf h)
  refine choice_eq_some (d := f d) ?_
  rw [kept_of_nodup (List.pairwise_map.2 (hmap.imp fun h => h.ne))]
  rw [List.map_append, List.map_cons] at hmap ⊢
  exact first_of_sorted hmap (by rwa [total_map]) fun c => by rw [total_map]; exact hlt c

end

/-! ## Insertions -/

/-- `w` is `v` with elements of `Q` inserted, anywhere. -/
inductive Inserted {β : Type*} (Q : β → Prop) : List β → List β → Prop
  | nil : Inserted Q [] []
  | keep (a : β) {v w : List β} : Inserted Q v w → Inserted Q (a :: v) (a :: w)
  | insert {a : β} {v w : List β} : Q a → Inserted Q v w → Inserted Q v (a :: w)

theorem Inserted.map {β γ : Type*} {Q : β → Prop} {R : γ → Prop} {f : β → γ} {v w : List β}
    (h : Inserted Q v w) (hf : ∀ a, Q a → R (f a)) : Inserted R (v.map f) (w.map f) := by
  induction h with
  | nil => exact .nil
  | keep a _ ih => exact .keep (f a) ih
  | insert ha _ ih => exact .insert (hf _ ha) ih

theorem Inserted.mem_iff {β : Type*} {Q : β → Prop} {v w : List β} (h : Inserted Q v w) {a : β}
    (ha : ¬Q a) : a ∈ w ↔ a ∈ v := by
  induction h with
  | nil => exact Iff.rfl
  | keep b _ ih => rw [List.mem_cons, List.mem_cons, ih]
  | insert hb _ ih =>
    rw [List.mem_cons, ih]
    exact or_iff_right fun heq => ha (heq ▸ hb)

theorem Inserted.forall_mem {β : Type*} {Q R : β → Prop} {v w : List β} (h : Inserted Q v w)
    (hv : ∀ a ∈ v, R a) (hQ : ∀ a, Q a → R a) : ∀ a ∈ w, R a := by
  intro a ha
  by_cases hqa : Q a
  · exact hQ a hqa
  · exact hv a ((h.mem_iff hqa).1 ha)

section
variable {α ι : Type*} [LinearOrder α]

/-- **Insertions above a rank are not seen up to it.** -/
theorem Inserted.filter_kept {v w : List (α × ι)} {d : α} (h : Inserted (fun p => d < p.1) v w) :
    (kept w).filter (fun p => decide (p.1 ≤ d)) = (kept v).filter fun p => decide (p.1 ≤ d) := by
  have habove : ∀ {p : α × ι} (u : List (α × ι)), d < p.1 →
      (kept (p :: u)).filter (fun p => decide (p.1 ≤ d)) =
        (kept u).filter fun p => decide (p.1 ≤ d) := by
    intro p u hp
    rw [kept]
    split
    · rfl
    · exact List.filter_cons_of_neg (by simpa using hp)
  induction h with
  | nil => rfl
  | @insert p v w hp _ ih => rw [habove w hp, ih]
  | @keep p v w hvw ih =>
    rcases lt_or_ge d p.1 with hp | hp
    · rw [habove w hp, habove v hp, ih]
    · -- an entry of this rank is not an inserted one
      have hiff : (∃ q ∈ w, q.1 = p.1) ↔ ∃ q ∈ v, q.1 = p.1 := by
        refine exists_congr fun q => and_congr_left fun heq => hvw.mem_iff ?_
        exact not_lt.2 (heq ▸ hp)
      rw [kept, kept, if_congr hiff rfl rfl]
      split
      · exact ih
      · rw [List.filter_cons_of_pos (by simpa using hp),
          List.filter_cons_of_pos (by simpa using hp), ih]

end

/-! ## Counting -/

section
variable {α ι : Type*} [DecidableEq ι]

theorem length_eq_sum_total {v : List (α × ι)} {S : Finset ι} (h : ∀ p ∈ v, p.2 ∈ S) :
    v.length = ∑ c ∈ S, total v c := by
  induction v with
  | nil => simp [total]
  | cons p v ih =>
    obtain ⟨hp, hv⟩ := List.forall_mem_cons.1 h
    simp only [total_cons, Finset.sum_add_distrib, Finset.sum_ite_eq, hp, ↓reduceIte]
    rw [List.length_cons, ih hv]

/-- **Pigeonhole**: with fewer than `k` entries for each label of `S`. -/
theorem length_le_of_total_lt {v : List (α × ι)} {S : Finset ι} {k : ℕ} (h : ∀ p ∈ v, p.2 ∈ S)
    (hlt : ∀ c, total v c < k) : v.length ≤ S.card * (k - 1) := by
  rw [length_eq_sum_total h, ← smul_eq_mul]
  exact Finset.sum_le_card_nsmul S _ _ fun c _ => Nat.le_sub_one_of_lt (hlt c)

end

/-! ## Sorted maps -/

section
variable {α ι : Type*} [LinearOrder α]

/-- The entries of a map filled in the order of `v`. -/
theorem toList_foldl_insert_perm (v : List (α × ι)) :
    (v.foldl (fun t p => t.insert p.1 p.2) (∅ : Std.TreeMap α ι)).toList.Perm (kept v) := by
  induction v using List.reverseRec with
  | nil => exact .refl []
  | append_singleton v p ih =>
    rw [List.foldl_append, kept_concat]
    refine (Std.TreeMap.toList_insert_perm.trans (.cons _ (ih.filter _))).trans ?_
    refine List.Perm.trans ?_ List.perm_append_comm
    rw [List.singleton_append]
    refine (List.Perm.of_eq ?_).cons p
    refine List.filter_congr fun q _ => ?_
    by_cases h : q.1 = p.1
    · simp [h]
    · simp [h, Ne.symm h]

/-- A list sorted by rank is determined by its entries. -/
theorem eq_of_sorted {v w : List (α × ι)} (hv : v.Pairwise fun p q => p.1 < q.1)
    (hw : w.Pairwise fun p q => p.1 < q.1) (h : v.Perm w) : v = w :=
  h.eq_of_pairwise (fun _ _ _ _ hpq hqp => absurd hpq hqp.asymm) hv hw

/-- The entries of a sorted list up to the rank of one of them. -/
theorem filter_of_sorted {v w : List (α × ι)} {p : α × ι}
    (hs : (v ++ p :: w).Pairwise fun p q => p.1 < q.1) :
    (v ++ p :: w).filter (fun q => decide (q.1 ≤ p.1)) = v ++ [p] := by
  rw [List.pairwise_append, List.pairwise_cons] at hs
  obtain ⟨-, ⟨hw, -⟩, hvw⟩ := hs
  have hv : ∀ q ∈ v, decide (q.1 ≤ p.1) = true := fun q hq =>
    decide_eq_true (hvw q hq p List.mem_cons_self).le
  have hw' : ∀ q ∈ w, ¬decide (q.1 ≤ p.1) = true := fun q hq => by
    simpa using hw q hq
  rw [List.filter_append, List.filter_eq_self.2 hv, List.filter_cons_of_pos (by simp),
    List.filter_eq_nil_iff.2 hw']

/-- A list sorted by rank begins with its entries up to any rank. -/
theorem exists_eq_filter_append {v : List (α × ι)} (hv : v.Pairwise fun p q => p.1 < q.1) (d : α) :
    ∃ w, v = v.filter (fun p => decide (p.1 ≤ d)) ++ w := by
  refine ⟨v.filter fun p => !decide (p.1 ≤ d), eq_of_sorted hv ?_ ?_⟩
  · refine List.pairwise_append.2 ⟨hv.filter _, hv.filter _, fun p hp q hq => ?_⟩
    have hpd : p.1 ≤ d := by simpa using (List.mem_filter.1 hp).2
    have hqd : d < q.1 := by simpa using (List.mem_filter.1 hq).2
    exact hpd.trans_lt hqd
  · exact (List.filter_append_perm _ v).symm

theorem sorted_toList (t : Std.TreeMap α ι) : t.toList.Pairwise fun p q => p.1 < q.1 :=
  Std.TreeMap.ordered_keys_toList.imp fun h => compare_lt_iff_lt.1 h

end

end Ballot
