import TlVoix.Cpp.Istream

/-!
# What the streams of `main.cpp` read

A text is a sequence of lines (`lignes`) and a sequence of words (`mots`).

* `getline_line`, `getline_last`, `getline_eof`: `getline` takes the first line, or the rest of a
  text without end of line, or nothing.
* `mot_eq`: `operator>>` takes the first word, or nothing.
* `entrees_catalogue_iff`: the entries written on two lines each (`texteEntree`) are read back by
  `entrees`, the pairs of lines that the loop of `main` reads, if their numbers are
  (`atoi_toString_iff`).
-/

namespace TlVoix

/-- The lines of a text; the last one is what follows the last end of line. -/
def lignes (s : List Char) : List (List Char) := s.splitOn '\n'

/-- The words of a text. -/
def mots (s : List Char) : List (List Char) := (s.splitOnP isspace).filter (· ≠ [])

/-! ## Prefixes -/

section
variable {p : Char → Bool}

/-- A text is without separator, or begins with a text without separator and a separator. -/
theorem span_cases (p : Char → Bool) (s : List Char) :
    (∀ c ∈ s, p c = false) ∨
      ∃ a c r, s = a ++ c :: r ∧ p c = true ∧ ∀ c ∈ a, p c = false := by
  induction s with
  | nil => exact .inl nofun
  | cons c s ih =>
    cases hc : p c with
    | true => exact .inr ⟨[], c, s, rfl, hc, nofun⟩
    | false =>
      rcases ih with h | ⟨a, d, r, rfl, hd, ha⟩
      · exact .inl (List.forall_mem_cons.2 ⟨hc, h⟩)
      · exact .inr ⟨c :: a, d, r, rfl, hd, List.forall_mem_cons.2 ⟨hc, ha⟩⟩

theorem takeWhile_append_cons {a r : List Char} {c : Char} (ha : ∀ c ∈ a, p c = true)
    (hc : p c = false) : (a ++ c :: r).takeWhile p = a := by
  rw [List.takeWhile_append_of_pos ha, List.takeWhile_cons_of_neg (by simp [hc]), List.append_nil]

theorem dropWhile_append_cons {a r : List Char} {c : Char} (ha : ∀ c ∈ a, p c = true)
    (hc : p c = false) : (a ++ c :: r).dropWhile p = c :: r := by
  rw [List.dropWhile_append_of_pos ha, List.dropWhile_cons_of_neg (by simp [hc])]

theorem dropWhile_of_forall {a : List Char} (ha : ∀ c ∈ a, p c = true) : a.dropWhile p = [] := by
  rw [← List.append_nil a, List.dropWhile_append_of_pos ha, List.dropWhile_nil]

theorem takeWhile_of_forall {a : List Char} (ha : ∀ c ∈ a, p c = true) : a.takeWhile p = a := by
  rw [← List.append_nil a, List.takeWhile_append_of_pos ha, List.takeWhile_nil]

end

/-! ## Lines -/

theorem lignes_of_notMem {a : List Char} (ha : '\n' ∉ a) : lignes a = [a] :=
  List.splitOn_eq_singleton ha

theorem lignes_cons {a : List Char} (ha : '\n' ∉ a) (r : List Char) :
    lignes (a ++ '\n' :: r) = a :: lignes r :=
  List.splitOn_append_cons_self_of_not_mem ha r

/-- A text is a line, or a line and its end, and a text. -/
theorem line_cases (s : List Char) :
    '\n' ∉ s ∨ ∃ a r, s = a ++ '\n' :: r ∧ '\n' ∉ a := by
  rcases span_cases (· == '\n') s with h | ⟨a, c, r, rfl, hc, ha⟩
  · exact .inl fun hs => absurd (h _ hs) (by decide)
  · rw [eq_of_beq hc]
    exact .inr ⟨a, r, rfl, fun hs => absurd (ha _ hs) (by decide)⟩

theorem forall_ne_newline {a : List Char} (ha : '\n' ∉ a) : ∀ c ∈ a, (c != '\n') = true :=
  fun _ hc => bne_iff_ne.2 fun h => ha (h ▸ hc)

namespace Istream

theorem getline_line {a : List Char} (ha : '\n' ∉ a) (r line : List Char) :
    (ofText (a ++ '\n' :: r)).getline line = (ofText r, a) := by
  have ht := takeWhile_append_cons (r := r) (forall_ne_newline ha) (c := '\n') rfl
  have hd := dropWhile_append_cons (r := r) (forall_ne_newline ha) (c := '\n') rfl
  simp [getline, ofText, ht, hd]

theorem getline_last {a : List Char} (ha : '\n' ∉ a) (line : List Char) :
    (ofText a).getline line = (⟨[], true, a.isEmpty⟩, a) := by
  have hd := dropWhile_of_forall (forall_ne_newline ha)
  simp [getline, ofText, hd]

theorem getline_eof (r line : List Char) (fail : Bool) :
    (⟨r, true, fail⟩ : Istream).getline line = (⟨r, true, true⟩, line) := rfl

end Istream

/-! ## Words -/

theorem mots_nil {s : List Char} (hs : ∀ c ∈ s, isspace c = true) : mots s = [] := by
  induction s with
  | nil => rfl
  | cons c s ih =>
    rw [List.forall_mem_cons] at hs
    have := List.splitOnP_append_cons (p := isspace) [] s hs.1
    rw [List.nil_append] at this
    rw [mots, this, List.splitOnP_nil, List.filter_append]
    exact ih hs.2

/-- Spaces before a word are skipped. -/
theorem mots_append {a : List Char} (ha : ∀ c ∈ a, isspace c = true) (s : List Char) :
    mots (a ++ s) = mots s := by
  induction a with
  | nil => rfl
  | cons c a ih =>
    rw [List.forall_mem_cons] at ha
    have := List.splitOnP_append_cons (p := isspace) [] (a ++ s) ha.1
    rw [List.nil_append] at this
    rw [List.cons_append, mots, this, List.splitOnP_nil, List.filter_append]
    exact ih ha.2

theorem mots_word {w : List Char} (hne : w ≠ []) (hw : ∀ c ∈ w, isspace c = false) :
    mots w = [w] := by
  simp [mots, List.splitOnP_eq_singleton hw, hne]

theorem mots_word_cons {w : List Char} (hne : w ≠ []) (hw : ∀ c ∈ w, isspace c = false) {c : Char}
    (hc : isspace c = true) (r : List Char) : mots (w ++ c :: r) = w :: mots (c :: r) := by
  have hr := mots_append (a := [c]) (by simpa using hc) r
  rw [List.singleton_append] at hr
  rw [hr, mots, List.splitOnP_append_cons_of_forall_mem hw c hc, List.filter_cons_of_pos (by
    simpa using hne)]
  rfl

namespace Istream

/-- The stream is good, or its text is exhausted. -/
def Usable (f : Istream) : Prop := (f.eof || f.fail) = true → f.reste = []

theorem usable_ofText (s : List Char) : (ofText s).Usable := nofun

/-- **`operator>>`** takes the first word, or nothing. -/
theorem mot_eq {f : Istream} (hf : f.Usable) :
    f.mot.1.Usable ∧ f.mot.2 = (mots f.reste).head? ∧ mots f.mot.1.reste = (mots f.reste).tail := by
  unfold mot
  split
  · rename_i hbad
    rw [hf hbad]
    exact ⟨fun _ => rfl, rfl, rfl⟩
  rename_i hgood
  -- the spaces before the word
  obtain hs | ⟨a, c, s, hs, hc, ha⟩ := span_cases (fun c => !isspace c) f.reste
  · have hs : ∀ c ∈ f.reste, isspace c = true := by simpa using hs
    rw [dropWhile_of_forall hs, mots_nil hs]
    exact ⟨fun _ => rfl, rfl, rfl⟩
  have ha : ∀ c ∈ a, isspace c = true := by simpa using ha
  have hc : isspace c = false := by simpa using hc
  rw [hs, dropWhile_append_cons ha hc, mots_append ha]
  -- the word
  obtain hw | ⟨w, d, r, hw, hd, hne⟩ := span_cases isspace (c :: s)
  · have hpos : ∀ e ∈ c :: s, (!isspace e) = true := fun e he => by rw [hw e he]; rfl
    dsimp only
    rw [dropWhile_of_forall hpos, takeWhile_of_forall hpos, mots_word (List.cons_ne_nil c s) hw]
    exact ⟨fun _ => rfl, rfl, rfl⟩
  · have hpos : ∀ c ∈ w, (!isspace c) = true := by simpa using hne
    have hd' : (!isspace d) = false := by simpa using hd
    have hwne : w ≠ [] := by
      rintro rfl
      rw [List.nil_append, List.cons.injEq] at hw
      rw [hw.1, hd] at hc
      cases hc
    dsimp only
    rw [hw, dropWhile_append_cons hpos hd', takeWhile_append_cons hpos hd',
      mots_word_cons hwne hne hd]
    exact ⟨fun h => by simp at h, rfl, rfl⟩

end Istream

/-! ## Entries on two lines -/

/-- The pairs of lines that the loop of `main` reads. A last line without its second one is read
twice, unless nothing follows the end of the text. -/
def entrees : List (List Char) → List (List Char × ℤ)
  | [] => []
  | [nom] => if nom = [] then [] else [(nom, atoi nom)]
  | nom :: classe :: l => (nom, atoi classe) :: entrees l

/-- An entry as it is written. -/
def texteEntree (e : List Char × ℤ) : List Char :=
  e.1 ++ '\n' :: ((toString e.2).toList ++ ['\n'])

theorem isDigit_of_mem {n : ℕ} {c : Char} (hc : c ∈ Nat.toDigits 10 n) : c.isDigit = true :=
  Nat.isDigit_of_mem_toDigits (by decide) le_rfl hc

theorem not_isspace_of_isDigit {c : Char} (hc : c.isDigit = true) : isspace c = false := by
  have h : 48 ≤ c.toNat := by
    simp only [Char.isDigit, Bool.and_eq_true, decide_eq_true_eq] at hc
    exact hc.1
  have hne : c ≠ ' ' := by
    rintro rfl
    exact absurd hc (by decide)
  simp [isspace, hne]
  omega

theorem chiffres_toDigits (n : ℕ) : strtol.chiffres (Nat.toDigits 10 n) = n := by
  rw [strtol.chiffres, takeWhile_of_forall fun _ => isDigit_of_mem, Nat.ofDigitChars_ten_toDigits]

theorem nombre_toDigits (n : ℕ) : strtol.nombre (Nat.toDigits 10 n) = n := by
  obtain ⟨d, l, hl⟩ := List.exists_cons_of_ne_nil (Nat.toDigits_ne_nil (n := n) (b := 10))
  have hd : d.isDigit = true := isDigit_of_mem (n := n) (hl ▸ List.mem_cons_self)
  rw [strtol.nombre, hl, List.dropWhile_cons_of_neg (by simp [not_isspace_of_isDigit hd]), ← hl]
  -- the first character is no sign
  split
  · rename_i h
    rw [hl, List.cons.injEq] at h
    rw [h.1] at hd
    cases hd
  · rename_i h
    rw [hl, List.cons.injEq] at h
    rw [h.1] at hd
    cases hd
  · rw [chiffres_toDigits]

theorem toList_toString_ofNat (n : ℕ) : (toString (Int.ofNat n)).toList = Nat.toDigits 10 n :=
  Nat.toList_repr

theorem toList_toString_negSucc (n : ℕ) :
    (toString (Int.negSucc n)).toList = '-' :: Nat.toDigits 10 (n + 1) := by
  show ("-" ++ (n + 1).repr).toList = _
  rw [String.toList_append, Nat.toList_repr]
  rfl

/-- The decimal text of an integer. -/
theorem nombre_toString (c : ℤ) : strtol.nombre (toString c).toList = c := by
  cases c with
  | ofNat n =>
    rw [toList_toString_ofNat, nombre_toDigits]
    rfl
  | negSucc n =>
    rw [toList_toString_negSucc, strtol.nombre, List.dropWhile_cons_of_neg (by decide)]
    show -(strtol.chiffres (Nat.toDigits 10 (n + 1)) : ℤ) = _
    rw [chiffres_toDigits]
    rfl

/-- An integer is read back from its text exactly if it is an `int`. -/
theorem atoi_toString_iff (c : ℤ) :
    atoi (toString c).toList = c ↔ -2 ^ 31 ≤ c ∧ c < 2 ^ 31 := by
  rw [atoi, strtol, nombre_toString, Int.bmod]
  omega

theorem mem_toString {c : ℤ} {d : Char} (hd : d ∈ (toString c).toList) :
    d = '-' ∨ d.isDigit = true := by
  cases c with
  | ofNat n => exact .inr (isDigit_of_mem (toList_toString_ofNat n ▸ hd))
  | negSucc n =>
    rw [toList_toString_negSucc, List.mem_cons] at hd
    exact hd.imp_right isDigit_of_mem

/-- Entries are read back with the numbers of their texts. -/
theorem entrees_texte (l : List (List Char × ℤ)) (hl : ∀ e ∈ l, '\n' ∉ e.1) :
    entrees (lignes (l.flatMap texteEntree)) =
      l.map fun e => (e.1, atoi (toString e.2).toList) := by
  induction l with
  | nil => rfl
  | cons e l ih =>
    rw [List.forall_mem_cons] at hl
    have htext : (e :: l).flatMap texteEntree =
        e.1 ++ '\n' :: ((toString e.2).toList ++ '\n' :: l.flatMap texteEntree) := by
      simp [List.flatMap_cons, texteEntree]
    have hnum : '\n' ∉ (toString e.2).toList := fun h => absurd (mem_toString h) (by decide)
    rw [htext, lignes_cons hl.1, lignes_cons hnum, entrees, ih hl.2, List.map_cons]

theorem cString_of_notMem {s : List Char} (hs : '\x00' ∉ s) : cString s = s :=
  takeWhile_of_forall fun _ hc => bne_iff_ne.2 fun h => hs (h ▸ hc)

/-- The text of a catalogue is read up to its end. -/
theorem cString_catalogue {l : List (List Char × ℤ)} (hl : ∀ e ∈ l, '\x00' ∉ e.1) :
    cString (l.flatMap texteEntree) = l.flatMap texteEntree := by
  refine cString_of_notMem fun h => ?_
  obtain ⟨e, he, h⟩ := List.mem_flatMap.1 h
  rw [texteEntree, List.mem_append, List.mem_cons, List.mem_append, List.mem_singleton] at h
  rcases h with h | h | h | h
  · exact hl e he h
  · exact absurd h (by decide)
  · exact absurd (mem_toString h) (by decide)
  · exact absurd h (by decide)

/-- **Entries are read back** from the text that has each of them on two lines, exactly if their
classes are of type `int`. -/
theorem entrees_catalogue_iff (l : List (List Char × ℤ))
    (hl : ∀ e ∈ l, '\n' ∉ e.1 ∧ '\x00' ∉ e.1) :
    entrees (lignes (cString (l.flatMap texteEntree))) = l ↔
      ∀ e ∈ l, -2 ^ 31 ≤ e.2 ∧ e.2 < 2 ^ 31 := by
  rw [cString_catalogue fun e he => (hl e he).2, entrees_texte l fun e he => (hl e he).1]
  have hmap := List.map_inj_left (l := l) (g := id)
    (f := fun e => (e.1, atoi (toString e.2).toList))
  rw [List.map_id] at hmap
  rw [hmap]
  refine forall₂_congr fun e _ => ?_
  rw [← atoi_toString_iff, id, Prod.ext_iff]
  exact and_iff_right rfl

theorem entrees_catalogue_two :
    entrees (lignes (cString ([("a.wav".toList, 3), ([], -12)].flatMap texteEntree))) =
      [("a.wav".toList, 3), ([], -12)] :=
  (entrees_catalogue_iff [("a.wav".toList, 3), ([], -12)] (by decide)).2 (by decide)

end TlVoix
