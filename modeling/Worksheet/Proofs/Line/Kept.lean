import Worksheet.Proofs.Line.Commented
import Worksheet.Proofs.Line.Rewrite

/-! A line stays what it is when its value is written anew. Behind the marker stand, without the old value, the
    same markers and brackets as before or none at all, and the comments are put behind the unit, where they are
    read as the same comments. -/

namespace Worksheet
open Text Lexer

namespace OutputText

/-! ### An old value is quiet -/

theorem quiet_startsWith {c : Char} (hc : isQuiet c = true) (t : Text) : Quiet (startsWith c t) t := by
  unfold startsWith
  split
  · rename_i hhead
    obtain ⟨u, rfl⟩ := List.head?_eq_some_iff.mp hhead
    exact (Quiet.zero u).char hc
  · exact .zero t

theorem quiet_sign {t : Text} (h : (t.drop (startsWith '-' t)).head? ≠ some '>') : Quiet (startsWith '-' t) t := by
  unfold startsWith at h ⊢
  split
  · rename_i hhead
    rw [if_pos hhead] at h
    obtain ⟨u, rfl⟩ := List.head?_eq_some_iff.mp hhead
    exact (Quiet.zero u).minus h
  · exact .zero t

theorem quiet_fraction (t : Text) : Quiet (fractionLength t) t := by
  unfold fractionLength
  split
  · rename_i t
    split
    · rw [Nat.add_comm]
      exact (quiet_run (fun c => isQuiet_of_isDigit) t).char rfl
    · exact .zero _
  · exact .zero t

/-- A sign with digits behind it. -/
theorem quiet_signed (t : Text)
    (hne : span Byte.isDigit (t.drop (max (startsWith '+' t) (startsWith '-' t))) ≠ 0) :
    Quiet (max (startsWith '+' t) (startsWith '-' t)) t := by
  by_cases hplus : t.head? = some '+'
  · obtain ⟨u, rfl⟩ := List.head?_eq_some_iff.mp hplus
    have hone : max (startsWith '+' ('+' :: u)) (startsWith '-' ('+' :: u)) = 1 := by simp [startsWith]
    rw [hone]
    exact (Quiet.zero u).char rfl
  · have hminus : max (startsWith '+' t) (startsWith '-' t) = startsWith '-' t := by simp [startsWith, hplus]
    rw [hminus] at hne ⊢
    refine quiet_sign fun hhead => hne ?_
    obtain ⟨u, hu⟩ := List.head?_eq_some_iff.mp hhead
    rw [hu]
    rfl

theorem quiet_exponent (t : Text) : Quiet (exponentLength t) t := by
  unfold exponentLength
  split
  · rename_i hhead
    dsimp only
    split
    · exact .zero t
    · rename_i hne
      have hletter : Quiet 1 t := by
        have hhead : t.head? = some 'e' ∨ t.head? = some 'E' := by simpa using hhead
        rcases hhead with hhead | hhead <;> obtain ⟨u, rfl⟩ := List.head?_eq_some_iff.mp hhead
        · exact (Quiet.zero u).char rfl
        · exact (Quiet.zero u).char rfl
      refine (hletter.add (quiet_signed _ hne)).add ?_
      rw [← List.drop_drop]
      exact quiet_run (fun c => isQuiet_of_isDigit) _
  · exact .zero t

theorem quiet_decimal {n : Nat} {t : Text} (h : decimalLength? t = some n) : Quiet n t := by
  rw [decimalLength?_eq] at h
  obtain ⟨m, hm, rfl⟩ := Option.map_eq_some_iff.mp h
  have hminus : (t.drop (startsWith '-' t)).head? ≠ some '>' := by
    intro hhead
    obtain ⟨u, hu⟩ := List.head?_eq_some_iff.mp hhead
    rw [← List.drop_drop, hu] at hm
    cases hm
  refine ((quiet_sign hminus).add (quiet_startsWith rfl _)).add ?_
  generalize t.drop (startsWith '-' t + startsWith '$' (t.drop (startsWith '-' t))) = u at hm ⊢
  unfold digitsLength? at hm
  dsimp only at hm
  split at hm
  · obtain rfl := Option.some.inj hm
    have hwhole : Quiet (u.takeWhile Numeral.isWhole).length u :=
      quiet_run (fun c => isQuiet_of (p := Numeral.isWhole) rfl) u
    exact (hwhole.add (quiet_fraction _)).add ((quiet_startsWith rfl _).add (quiet_exponent _))
  · cases hm

theorem quiet_special {n : Nat} {t : Text} (h : specialLength? t = some n) : Quiet n t := by
  obtain ⟨u, hu, rfl⟩ := Option.map_eq_some_iff.mp h
  have hinit : u <+: t := List.isPrefixOf_iff_prefix.mp (by simpa using List.find?_some hu)
  have hmem := List.mem_of_find?_eq_some hu
  clear hu h
  obtain ⟨r, rfl⟩ := hinit
  have hspecials : specials =
      [['-', 'I', 'n', 'f', 'i', 'n', 'i', 't', 'y'], ['I', 'n', 'f', 'i', 'n', 'i', 't', 'y'], ['N', 'a', 'N']] := by
    decide
  have hname {v : Text} (hv : v.all isQuiet = true) : Quiet v.length (v ++ r) :=
    quiet_of_eq_append rfl (List.all_eq_true.mp hv)
  simp only [hspecials, List.mem_cons, List.not_mem_nil, or_false] at hmem
  rcases hmem with rfl | rfl | rfl
  · exact Quiet.minus (by simp) (hname (v := ['I', 'n', 'f', 'i', 'n', 'i', 't', 'y']) rfl)
  · exact hname rfl
  · exact hname rfl

theorem quiet_based {n : Nat} {t : Text} (h : basedLength? t = some n) : Quiet n t := by
  unfold basedLength? at h
  dsimp only at h
  split at h
  · rename_i r hr
    split at h
    · obtain rfl := Option.some.inj h
      rw [Nat.add_assoc, Nat.add_comm 1]
      refine (quiet_run (fun c => isQuiet_of_isAlphanumeric) t).add ?_
      rw [hr]
      exact (quiet_run (fun c => isQuiet_of_isDigit) r).char rfl
    · cases h
  · cases h

/-- No marker, bracket or comment begins in an old value. -/
theorem quiet_valueLength (t : Text) : Quiet (valueLength t) t := by
  unfold valueLength
  cases hbased : basedLength? t with
  | some n => exact quiet_based hbased
  | none =>
    cases hspecial : specialLength? t with
    | some n => exact quiet_special hspecial
    | none =>
      cases hdecimal : decimalLength? t with
      | some n => exact quiet_decimal hdecimal
      | none => exact .zero t

end OutputText

namespace Classify
open Token

/-! ### The markers of a trimmed text -/

section Trim
variable {t : Text}

theorem marks_outline_offset (skip offset offset' depth : Nat) (t : Text) :
    marks depth (outline skip offset t) = marks depth (outline skip offset' t) := by
  have hzero (n : Nat) : marks depth (outline skip n t) = marks depth (outline skip 0 t) := by
    have hmoved := signs_lexFrom_moved (p := { offset := 0 }) (q := { offset := n }) (Nat.zero_add n).symm skip {} t
    rw [signs_lexFrom, signs_lexFrom] at hmoved
    rw [hmoved, marks_shift]
  rw [hzero, ← hzero offset']

theorem marks_drop {n : Nat} (h : Quiet n t) (hn : n ≤ t.length) (depth : Nat) :
    marks depth (outline 0 0 (t.drop n)) = marks depth (outline 0 0 t) := by
  rw [h.outline, outline_drop hn]
  exact marks_outline_offset _ _ _ _ _

theorem marks_trimLeft (depth : Nat) (t : Text) :
    marks depth (outline 0 0 (trimLeft t)) = marks depth (outline 0 0 t) := by
  induction t with
  | nil => rfl
  | cons c t ih =>
    cases hc : Byte.isBlank c with
    | false => simp [trimLeft, hc]
    | true =>
      have hleft : trimLeft (c :: t) = trimLeft t := by simp [trimLeft, hc]
      rw [hleft, ih, outline_blank hc]
      exact marks_outline_offset _ _ _ _ _

theorem outline_isBlank {r : Text} (h : ∀ c ∈ r, Byte.isBlank c = true) (offset : Nat) : outline 0 offset r = [] := by
  induction r generalizing offset with
  | nil => exact outline_nil 0 offset
  | cons c r ih =>
    rw [outline_blank (h c List.mem_cons_self)]
    exact ih (fun d hd => h d (List.mem_cons_of_mem c hd)) _

theorem exists_trimRight (t : Text) : ∃ r, t = trimRight t ++ r ∧ ∀ c ∈ r, Byte.isBlank c = true := by
  refine ⟨(t.reverse.takeWhile Byte.isBlank).reverse, ?_, fun c hc => ?_⟩
  · rw [trimRight, ← List.reverse_append, List.takeWhile_append_dropWhile, List.reverse_reverse]
  · exact List.mem_takeWhile_imp (List.mem_reverse.mp hc)

theorem isInfix_trim (t : Text) : trim t <:+: t := by
  have hleft : trimLeft t <:+: t := (List.dropWhile_suffix _).isInfix
  obtain ⟨r, hr, -⟩ := exists_trimRight (trimLeft t)
  have hright : trimRight (trimLeft t) <:+: trimLeft t := List.IsPrefix.isInfix ⟨r, hr.symm⟩
  exact hright.trans hleft

theorem Bare.marks_trim (h : Bare t) (depth : Nat) : marks depth (outline 0 0 (trim t)) = marks depth (outline 0 0 t) := by
  obtain ⟨r, hr, hblank⟩ := exists_trimRight (trimLeft t)
  have hsplit : trimLeft t = trim t ++ r := hr
  have hbare : Bare (trim t) := h.mono (isInfix_trim t)
  have hends : Ends r := fun c hc => hblank c (List.mem_of_head? hc)
  rw [← marks_trimLeft depth t, hsplit, hbare.outline_append hends (Nat.zero_le _), outline_isBlank hblank,
    List.append_nil]

/-- Without the old value the unit has the same markers. -/
theorem Bare.marks_split (h : Bare t) (depth : Nat) :
    Bare (OutputText.split t).2 ∧ marks depth (outline 0 0 (OutputText.split t).2) = marks depth (outline 0 0 t) := by
  have htrim : Bare (trim t) := h.mono (isInfix_trim t)
  unfold OutputText.split
  dsimp only
  split
  · exact ⟨htrim, h.marks_trim depth⟩
  · rename_i hne
    have hdrop : Bare ((trim t).drop (OutputText.valueLength (trim t))) := htrim.mono (List.drop_suffix _ _).isInfix
    have hquiet := OutputText.quiet_valueLength (trim t)
    refine ⟨hdrop.mono (isInfix_trim _), ?_⟩
    rw [hdrop.marks_trim, marks_drop hquiet hquiet.length_le, h.marks_trim]

end Trim

/-! ### Writing a value -/

theorem trimRight_blanks (n : Nat) : trimRight (blanks n) = [] := by simp [trimRight, blanks, Byte.isBlank]

/-- A text with a blank before it, if it is there. -/
def pad (t : Text) : Text := if t.isEmpty then [] else ' ' :: t

theorem ends_pad (t : Text) : Ends (pad t) := by
  unfold pad
  split <;> simp [Byte.isBlank]

theorem behind_eq_pad (l : ValueLine) : l.behind = pad l.unit ++ pad l.trailing := by
  unfold ValueLine.behind pad
  cases l.unit <;> cases l.trailing <;> simp

section Write
variable {u b h v line : Text} {cs : List Text} {l : ValueLine}

/-- What stands behind a value that is written: the unit, and the comments in place of blanks. -/
theorem Commented.behind (hu : Commented u b cs) (hunit : Bare l.unit) (htrailing : l.trailing = Classify.joinBlank cs) :
    ∃ n, Commented l.behind (pad l.unit ++ blanks n) cs := by
  have hpad : ∃ n, Commented (pad l.trailing) (blanks n) cs := by
    rw [htrailing]
    have hjoin := hu.joinBlank
    unfold pad
    split
    · exact ⟨_, (List.isEmpty_iff.mp ‹_›) ▸ hjoin⟩
    · exact ⟨_ + 1, .char (c := ' ') (Classify.note?_eq_none.mpr ⟨by decide, by simp⟩) hjoin⟩
  obtain ⟨n, hn⟩ := hpad
  have hbare : Bare (pad l.unit) := by
    unfold pad
    split
    · exact bare_nil
    · exact bare_cons.mpr ⟨by decide, by simp, hunit⟩
  rw [behind_eq_pad]
  exact ⟨n, hbare.commented_append (ends_pad _) hn⟩

/-- Behind a value that is written stand the markers of the unit. -/
theorem marks_behind (hunit : Bare l.unit) (n depth : Nat) :
    marks depth (outline 0 0 (pad l.unit ++ blanks n)) = marks depth (outline 0 0 l.unit) := by
  have hblanks : ∀ c ∈ blanks n, Byte.isBlank c = true := by
    intro c hc
    rw [List.eq_of_mem_replicate hc]
    rfl
  have hends : Ends (blanks n) := fun c hc => hblanks c (List.mem_of_head? hc)
  unfold pad
  split
  · rename_i hnil
    rw [List.isEmpty_iff.mp hnil, List.nil_append, outline_isBlank hblanks, outline_nil]
  · rw [List.cons_append, outline_blank rfl, hunit.outline_append hends (Nat.zero_le _), outline_isBlank hblanks,
      List.append_nil]
    exact marks_outline_offset _ _ _ _ _

/-- Behind a value that is written stand no other markers than before: those of the unit, which is what an output
    marker has besides the old value, and nothing at all behind an input marker. -/
theorem marks_unit (hu : Commented u b cs) (hpayload : (l.valueText, l.unit) = valueBehind l.marker (trim b)) :
    Bare l.unit ∧ ∀ depth, marks depth (outline 0 0 l.unit) ⊆ marks depth (signs (tokenize u)) := by
  have hbare : Bare (trim b) := hu.bare.mono (isInfix_trim b)
  have hunit : l.unit = (valueBehind l.marker (trim b)).2 := congrArg Prod.snd hpayload
  rw [hunit]
  unfold valueBehind
  split
  · refine ⟨(hbare.marks_split 0).1, fun depth => ?_⟩
    rw [(hbare.marks_split depth).2, hu.bare.marks_trim, hu.marks_eq]
    exact List.Subset.refl _
  · refine ⟨bare_nil, fun depth => ?_⟩
    rw [outline_nil]
    exact List.nil_subset _

/-- A line stays what it is when a word is written as its value. -/
theorem classifyLine_write (hline : '\n' ∉ line) (hl : classifyLine line = some l) (hv : OutputText.Word v) :
    ∃ value unit quoted, classifyLine (l.write line v) = some { l with valueText := value, unit, quoted } ∧
      (l.isOutput = false → value = v) := by
  have hend : l.markerEnd = (line.take l.markerEnd).length := by
    rw [List.length_take]
    exact (Nat.min_eq_left (markerEnd_le hl)).symm
  have hsplit : line.take l.markerEnd ++ line.drop l.markerEnd = line := List.take_append_drop _ _
  have hdrop : '\n' ∉ line.drop l.markerEnd := fun hmem => hline (List.mem_of_mem_drop hmem)
  rw [← hsplit] at hl
  rw [l.write_of_ne_nil line hv.ne_nil]
  generalize line.take l.markerEnd = h at hend hl ⊢
  generalize line.drop l.markerEnd = u at hdrop hl
  obtain ⟨b, cs, hu⟩ := exists_commented u hdrop
  obtain ⟨hpayload, htrailing⟩ := classifyLine_payload hl hend
  rw [hu.blankComments_eq] at hpayload
  rw [hu.comments_eq] at htrailing
  obtain ⟨hbare, hmarks⟩ := marks_unit hu hpayload
  obtain ⟨n, hbehind⟩ := hu.behind hbare htrailing
  have hmarks' (depth : Nat) : marks depth (signs (tokenize l.behind)) ⊆ marks depth (signs (tokenize u)) := by
    rw [hbehind.marks_eq, marks_behind hbare]
    exact hmarks depth
  obtain ⟨quoted, hquoted⟩ := classifyLine_word hl hend hv.isWordPart hv.ne_nil l.ends_behind hmarks'
  rw [hbehind.comments_eq, ← htrailing] at hquoted
  refine ⟨_, _, quoted, hquoted, fun hinput => ?_⟩
  -- Behind an input marker there is no unit, so all that follows the value is blank.
  have hinput : l.marker.isOutput = false := hinput
  have hunit : l.unit = [] := by
    have hunit := congrArg Prod.snd hpayload
    simpa [valueBehind, hinput] using hunit
  have hblank : trimRight (blankComments l.behind) = [] := by
    rw [hbehind.blankComments_eq, hunit]
    exact trimRight_blanks n
  rw [trim_word_append (fun _ => hv.isBlank_of_mem) hv.ne_nil, hblank, List.append_nil]
  simp [valueBehind, hinput]

/-- Writing a value leaves the line what it is: it gives a value for the same declaration or expression, with the
    same marker at the same place, the same decoration and the same comments; behind an input marker the value
    is what was written. -/
theorem classifyLine_writeValue (s : Settings) (x : Float) (style : Style) (full : Bool) (base : Nat) {line : Text}
    {l : ValueLine} (hline : '\n' ∉ line) (hl : classifyLine line = some l) :
    ∃ value unit quoted, classifyLine (l.write line (s.writeValue x style full base)) =
        some { l with valueText := value, unit, quoted } ∧
      (l.isOutput = false → value = s.writeValue x style full base) :=
  classifyLine_write hline hl (OutputText.word_render (Written.proper_value x style full base s))

theorem classifyLine_writeValue_limits :
    '\n' ∉ "limit x[0:9]: 5 \"a\" km // b".toList ∧ ∃ l, classifyLine "limit x[0:9]: 5 \"a\" km // b".toList = some l ∧
      l.isOutput = false ∧ ∃ unit quoted, classifyLine (l.write "limit x[0:9]: 5 \"a\" km // b".toList
        (({} : Settings).writeValue 2.5 .plain false 10)) =
          some { l with valueText := ({} : Settings).writeValue 2.5 .plain false 10, unit, quoted } := by
  have hline : '\n' ∉ "limit x[0:9]: 5 \"a\" km // b".toList := by decide
  have hinput : (classifyLine "limit x[0:9]: 5 \"a\" km // b".toList).map (·.isOutput) = some false := by
    decide +kernel
  obtain ⟨l, hl, houtput⟩ := Option.map_eq_some_iff.mp hinput
  obtain ⟨value, unit, quoted, hwritten, hvalue⟩ := classifyLine_writeValue {} 2.5 .plain false 10 hline hl
  rw [hvalue houtput] at hwritten
  exact ⟨hline, l, hl, houtput, unit, quoted, hwritten⟩

end Write
end Classify
end Worksheet
