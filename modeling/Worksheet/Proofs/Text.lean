import Mathlib.Data.List.TakeWhile
import Worksheet.Text

/-! Runs of characters and trimmed texts. A run that is read from the head of a text is what it was put there
    as, provided that the text behind it `Stops` the run. -/

namespace Worksheet

namespace Byte

theorem isDigit_of_char_isDigit {c : Char} (h : c.isDigit = true) : isDigit c = true := by
  simpa [isDigit, Char.isDigit, Char.le_def] using h

theorem isAlphanumeric_of_isDigit {c : Char} (h : isDigit c = true) : isAlphanumeric c = true := by
  simp [isAlphanumeric, h]

theorem isAlphanumeric_of_isBlank {c : Char} (h : isBlank c = true) : isAlphanumeric c = false := by
  simp only [isBlank, Bool.or_eq_true, beq_iff_eq] at h
  rcases h with (rfl | rfl) | rfl <;> rfl

theorem isBlank_of_isAlphanumeric {c : Char} (h : isAlphanumeric c = true) : isBlank c = false := by
  cases hb : isBlank c with
  | false => rfl
  | true => rw [isAlphanumeric_of_isBlank hb] at h; cases h

end Byte

namespace Text

/-! ### Runs -/

/-- Nothing of the text goes on with a run of `p`. -/
def Stops (p : Char → Bool) (t : Text) : Prop := ∀ c ∈ t.head?, p c = false

section Runs
variable {p q : Char → Bool} {t u : Text} {c : Char}

@[simp] theorem stops_nil : Stops p [] := by simp [Stops]

@[simp] theorem stops_cons : Stops p (c :: t) ↔ p c = false := by simp [Stops]

theorem Stops.mono (h : Stops q t) (hpq : ∀ c, p c = true → q c = true) : Stops p t := by
  intro c hc
  cases hp : p c with
  | false => rfl
  | true => rw [← h c hc, hpq c hp]

theorem Stops.append (h : Stops p t) (h' : Stops p u) : Stops p (t ++ u) := by
  cases t with
  | nil => exact h'
  | cons c t => simpa using h

theorem takeWhile_of_stops (h : Stops p t) : t.takeWhile p = [] := by
  cases t with
  | nil => rfl
  | cons c t => simp [stops_cons.mp h]

theorem dropWhile_of_stops (h : Stops p t) : t.dropWhile p = t := by
  cases t with
  | nil => rfl
  | cons c t => simp [stops_cons.mp h]

theorem takeWhile_append_of_stops (t : Text) (hu : Stops p u) : (t ++ u).takeWhile p = t.takeWhile p := by
  induction t with
  | nil => exact takeWhile_of_stops hu
  | cons c t ih => rw [List.cons_append, List.takeWhile_cons, List.takeWhile_cons, ih]

theorem dropWhile_append_of_stops (t : Text) (hu : Stops p u) :
    (t ++ u).dropWhile p = t.dropWhile p ++ u := by
  rw [List.dropWhile_append, dropWhile_of_stops hu]
  split
  · rename_i h
    rw [List.isEmpty_iff.mp h, List.nil_append]
  · rfl

theorem takeWhile_run (ht : ∀ c ∈ t, p c = true) (hu : Stops p u) : (t ++ u).takeWhile p = t := by
  rw [List.takeWhile_append_of_pos ht, takeWhile_of_stops hu, List.append_nil]

theorem span_run (ht : ∀ c ∈ t, p c = true) (hu : Stops p u) : span p (t ++ u) = t.length := by
  rw [span, takeWhile_run ht hu]

end Runs

/-- A word ends here: at the end of the text or at a blank. -/
def Ends (t : Text) : Prop := ∀ c ∈ t.head?, Byte.isBlank c = true

@[simp] theorem ends_nil : Ends [] := by simp [Ends]

@[simp] theorem ends_cons {c : Char} {t : Text} : Ends (c :: t) ↔ Byte.isBlank c = true := by simp [Ends]

theorem Ends.stops {t : Text} (h : Ends t) {p : Char → Bool} (hp : [' ', '\t', '\r'].any p = false) : Stops p t := by
  intro c hc
  have hblank := h c hc
  simp only [Byte.isBlank, Bool.or_eq_true, beq_iff_eq] at hblank
  simp only [List.any_cons, List.any_nil, Bool.or_eq_false_iff] at hp
  rcases hblank with (rfl | rfl) | rfl
  · exact hp.1
  · exact hp.2.1
  · exact hp.2.2.1

/-- A property of the empty text and of every text that begins with a blank. -/
theorem Ends.elim {P : Text → Prop} {u : Text} (h : Ends u) (hnil : P [])
    (hblank : ∀ t, P (' ' :: t) ∧ P ('\t' :: t) ∧ P ('\r' :: t)) : P u := by
  cases u with
  | nil => exact hnil
  | cons c u =>
    have hc : Byte.isBlank c = true := by simpa using h
    simp only [Byte.isBlank, Bool.or_eq_true, beq_iff_eq] at hc
    rcases hc with (rfl | rfl) | rfl
    · exact (hblank u).1
    · exact (hblank u).2.1
    · exact (hblank u).2.2

/-! ### Digits -/

theorem isDigit_of_mem_ofNat {n : Nat} {c : Char} (h : c ∈ ofNat n) : Byte.isDigit c = true :=
  Byte.isDigit_of_char_isDigit (Nat.isDigit_of_mem_toDigits (by decide) (by decide) h)

theorem ofNat_ne_nil (n : Nat) : ofNat n ≠ [] := Nat.toDigits_ne_nil

/-! ### Trimming -/

/-- A text is trimmed if it neither begins nor ends with a blank. -/
theorem trimLeft_eq_self_iff {t : Text} : trimLeft t = t ↔ Stops Byte.isBlank t := by
  cases t with
  | nil => simp [trimLeft]
  | cons c t => simp [trimLeft, List.dropWhile_eq_self_iff]

theorem trimRight_eq_self_iff {t : Text} : trimRight t = t ↔ Stops Byte.isBlank t.reverse := by
  unfold trimRight
  rw [List.reverse_eq_iff, ← trimLeft_eq_self_iff]
  rfl

theorem trim_eq_self_iff {t : Text} : trim t = t ↔ Stops Byte.isBlank t ∧ Stops Byte.isBlank t.reverse := by
  rw [← trimLeft_eq_self_iff, ← trimRight_eq_self_iff]
  constructor
  · intro h
    have hleft : (trimLeft t).length ≤ t.length := (List.dropWhile_suffix _).length_le
    have hright : (trim t).length ≤ (trimLeft t).length := by
      simpa [trim, trimRight] using (List.dropWhile_suffix Byte.isBlank (l := (trimLeft t).reverse)).length_le
    rw [h] at hright
    have hsame : trimLeft t = t := (List.dropWhile_suffix _).eq_of_length (Nat.le_antisymm hleft hright)
    exact ⟨hsame, by rwa [trim, hsame] at h⟩
  · rintro ⟨hleft, hright⟩
    rw [trim, hleft, hright]

/-- Two trimmed texts that are not empty, with anything between them. -/
theorem trim_append {t u v : Text} (ht : trim t = t) (htne : t ≠ []) (hu : trim u = u) (hune : u ≠ []) :
    trim (t ++ v ++ u) = t ++ v ++ u := by
  rw [trim_eq_self_iff] at ht hu ⊢
  obtain ⟨c, t, rfl⟩ := List.exists_cons_of_ne_nil htne
  obtain ⟨d, u', hd⟩ := List.exists_cons_of_ne_nil (List.reverse_ne_nil_iff.mpr hune)
  have hlast := hu.2
  rw [hd] at hlast
  refine ⟨by simpa using ht.1, ?_⟩
  rw [List.reverse_append, hd]
  simpa using hlast

theorem trim_blank_cons {t : Text} {c : Char} (hc : Byte.isBlank c = true) : trim (c :: t) = trim t := by
  simp [trim, trimLeft, hc]

theorem trimRight_cons (c : Char) (t : Text) :
    trimRight (c :: t) = if trimRight t = [] ∧ Byte.isBlank c = true then [] else c :: trimRight t := by
  unfold trimRight
  rw [List.reverse_cons, List.dropWhile_append]
  cases hd : t.reverse.dropWhile Byte.isBlank with
  | nil =>
    cases hc : Byte.isBlank c <;> simp [hc]
  | cons d u => simp

theorem trimLeft_trimRight (t : Text) : trimLeft (trimRight t) = trimRight (trimLeft t) := by
  induction t with
  | nil => rfl
  | cons c t ih =>
    cases hc : Byte.isBlank c with
    | true =>
      have hleft : trimLeft (c :: t) = trimLeft t := by simp [trimLeft, hc]
      rw [hleft, ← ih, trimRight_cons]
      split
      · rename_i h
        rw [h.1]
      · simp [trimLeft, hc]
    | false =>
      have hleft (u : Text) : trimLeft (c :: u) = c :: u := by simp [trimLeft, hc]
      rw [hleft, trimRight_cons, if_neg (by simp [hc]), hleft]

theorem stops_trimLeft (t : Text) : Stops Byte.isBlank (trimLeft t) := by
  intro c hc
  have hhead := List.head?_dropWhile_not Byte.isBlank t
  unfold trimLeft at hc
  rw [Option.mem_def.mp hc] at hhead
  simpa using hhead

theorem trimLeft_trimLeft (t : Text) : trimLeft (trimLeft t) = trimLeft t := trimLeft_eq_self_iff.mpr (stops_trimLeft t)

theorem trimRight_trimRight (t : Text) : trimRight (trimRight t) = trimRight t := by
  refine trimRight_eq_self_iff.mpr ?_
  rw [trimRight, List.reverse_reverse]
  exact stops_trimLeft t.reverse

theorem trim_trimRight (t : Text) : trim (trimRight t) = trim t := by
  rw [trim, trimLeft_trimRight, trimRight_trimRight, trim]

theorem trim_blank_append {t u : Text} (hu : ∀ c ∈ u, Byte.isBlank c = true) : trim (u ++ t) = trim t := by
  rw [trim, trimLeft, List.dropWhile_append_of_pos hu]
  rfl

theorem trim_append_blank {t u : Text} (hu : ∀ c ∈ u, Byte.isBlank c = true) : trim (t ++ u) = trim t := by
  have hright : trimRight (t ++ u) = trimRight t := by
    unfold trimRight
    rw [List.reverse_append, List.dropWhile_append_of_pos (by simpa using hu)]
  rw [← trim_trimRight, hright, trim_trimRight]

/-- A part of a text that leaves out nothing but blanks is trimmed to the same. -/
theorem trim_slice {t : Text} {first last : Nat} (hle : first ≤ last)
    (hfirst : ∀ c ∈ t.take first, Byte.isBlank c = true) (hlast : ∀ c ∈ t.drop last, Byte.isBlank c = true) : trim (slice t first last) = trim t := by
  have hsplit : t.take first ++ (slice t first last ++ t.drop last) = t := by
    have hdrop : t.drop last = (t.drop first).drop (last - first) := by rw [List.drop_drop, Nat.add_sub_cancel' hle]
    rw [slice, hdrop, List.take_append_drop, List.take_append_drop]
  rw [← trim_append_blank hlast, ← trim_blank_append hfirst, hsplit]

theorem slice_between (a b c : Text) : slice (a ++ (b ++ c)) a.length (a.length + b.length) = b := by
  rw [slice, List.drop_left, Nat.add_sub_cancel_left, List.take_left]

theorem filter_trim (t : Text) : (trim t).filter (!Byte.isBlank ·) = t.filter (!Byte.isBlank ·) := by
  have hleft (t : Text) : (trimLeft t).filter (!Byte.isBlank ·) = t.filter (!Byte.isBlank ·) := by
    induction t with
    | nil => rfl
    | cons c t ih =>
      cases hc : Byte.isBlank c with
      | true => simpa [trimLeft, hc] using ih
      | false => simp [trimLeft, hc]
  rw [trim, trimRight, List.filter_reverse, ← trimLeft, hleft, List.filter_reverse, List.reverse_reverse, hleft]

theorem trim_append_eq_iff {y z : Text} (hz : Stops Byte.isBlank z) : trim y = trim (y ++ z) ↔ z = [] := by
  constructor
  · intro h
    have hfilter := congrArg (List.filter (!Byte.isBlank ·)) h
    rw [filter_trim, filter_trim, List.filter_append, List.self_eq_append_right] at hfilter
    cases z with
    | nil => rfl
    | cons c z => simp [stops_cons.mp hz] at hfilter
  · rintro rfl
    rw [List.append_nil]

@[simp] theorem trim_trim (t : Text) : trim (trim t) = trim t := by
  rw [trim, trim, trimLeft_trimRight, trimLeft_trimLeft, trimRight_trimRight]

/-- Behind a word only the end of a text is trimmed. -/
theorem trim_word_append {v t : Text} (hv : ∀ c ∈ v, Byte.isBlank c = false) (hne : v ≠ []) :
    trim (v ++ t) = v ++ trimRight t := by
  have hleft : trimLeft (v ++ t) = v ++ t := by
    obtain ⟨c, v, rfl⟩ := List.exists_cons_of_ne_nil hne
    exact trimLeft_eq_self_iff.mpr (by simpa using hv c List.mem_cons_self)
  rw [trim, hleft]
  clear hleft
  induction v with
  | nil => exact absurd rfl hne
  | cons c v ih =>
    have hc := hv c List.mem_cons_self
    rw [List.cons_append, trimRight_cons, if_neg (by simp [hc])]
    cases v with
    | nil => rfl
    | cons d v =>
      rw [ih (fun e he => hv e (List.mem_cons_of_mem c he)) (List.cons_ne_nil _ _)]
      rfl

theorem Ends.trimRight {t : Text} (h : Ends t) : Ends (trimRight t) := by
  cases t with
  | nil => exact ends_nil
  | cons c t =>
    rw [trimRight_cons]
    split
    · exact ends_nil
    · exact h

/-! ### Lines -/

section Lines
variable {l t : Text} {ls : List Text}

theorem lines_cons_of_ne {c : Char} (hc : c ≠ '\n') (t : Text) :
    ∃ l ls, lines t = l :: ls ∧ lines (c :: t) = (c :: l) :: ls := by
  obtain ⟨l, ls, h⟩ := List.exists_cons_of_ne_nil (lines_ne_nil t)
  exact ⟨l, ls, h, by rw [lines, if_neg hc, h]⟩

theorem lines_append_newline (h : '\n' ∉ l) (t : Text) : lines (l ++ '\n' :: t) = l :: lines t := by
  induction l with
  | nil => exact if_pos rfl
  | cons c l ih =>
    obtain ⟨hc, hl⟩ := not_or.mp (mt List.mem_cons.mpr h)
    obtain ⟨m, ms, hlines, hcons⟩ := lines_cons_of_ne (Ne.symm hc) (l ++ '\n' :: t)
    rw [ih hl] at hlines
    obtain ⟨rfl, rfl⟩ := List.cons.inj hlines
    exact hcons

theorem lines_of_not_mem (h : '\n' ∉ l) : lines l = [l] := by
  induction l with
  | nil => rfl
  | cons c l ih =>
    obtain ⟨hc, hl⟩ := not_or.mp (mt List.mem_cons.mpr h)
    obtain ⟨m, ms, hlines, hcons⟩ := lines_cons_of_ne (Ne.symm hc) l
    rw [ih hl] at hlines
    obtain ⟨rfl, rfl⟩ := List.cons.inj hlines
    exact hcons

/-- Lines without newlines are found again in the text that they make. -/
theorem lines_unlines (hne : ls ≠ []) (h : ∀ l ∈ ls, '\n' ∉ l) : lines (unlines ls) = ls := by
  induction ls with
  | nil => exact absurd rfl hne
  | cons l ls ih =>
    have hl := h l List.mem_cons_self
    cases ls with
    | nil => exact lines_of_not_mem hl
    | cons m ms =>
      rw [unlines_cons (List.cons_ne_nil m ms), lines_append_newline hl,
        ih (List.cons_ne_nil m ms) fun n hn => h n (List.mem_cons_of_mem l hn)]

theorem unlines_concat (ls : List Text) (l : Text) : unlines (ls ++ [l]) = ls.flatMap (· ++ ['\n']) ++ l := by
  induction ls with
  | nil => rfl
  | cons m ms ih =>
    rw [List.cons_append, unlines_cons (by simp), ih, List.flatMap_cons, List.append_assoc, List.append_assoc]
    rfl

theorem mem_unlines {c : Char} (h : l ∈ ls) (hc : c ∈ l) : c ∈ unlines ls := by
  induction ls with
  | nil => cases h
  | cons m ms ih =>
    cases ms with
    | nil => exact List.mem_singleton.mp h ▸ hc
    | cons n ns =>
      rw [unlines_cons (List.cons_ne_nil n ns), List.mem_append]
      rcases List.mem_cons.mp h with rfl | h
      · exact .inl hc
      · exact .inr (List.mem_cons_of_mem '\n' (ih h))

theorem mem_of_mem_lines {c : Char} (h : l ∈ lines t) (hc : c ∈ l) : c ∈ t := unlines_lines t ▸ mem_unlines h hc

theorem newline_not_mem_of_mem_lines (h : l ∈ lines t) : '\n' ∉ l := by
  induction t generalizing l with
  | nil =>
    obtain rfl := List.mem_singleton.mp h
    simp
  | cons c t ih =>
    by_cases hc : c = '\n'
    · rw [lines, if_pos hc] at h
      rcases List.mem_cons.mp h with rfl | h
      · simp
      · exact ih h
    · obtain ⟨m, ms, hlines, hcons⟩ := lines_cons_of_ne hc t
      rw [hcons] at h
      rcases List.mem_cons.mp h with rfl | h
      · refine fun hmem => ih (l := m) (hlines ▸ List.mem_cons_self) ?_
        exact (List.mem_cons.mp hmem).resolve_left (Ne.symm hc)
      · exact ih (hlines ▸ List.mem_cons_of_mem m h)

end Lines
end Text
end Worksheet
