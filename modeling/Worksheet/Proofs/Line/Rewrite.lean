import Worksheet.Document.Clear
import Worksheet.Proofs.Line.Insert
import Worksheet.Proofs.Line.ReadBack

/-! Writing a value into a value line. A value that is read back stands in the line as its value from then on:
    the line keeps its subject, its marker, its unit and its comments, and taking the value out again gives back
    the line as it was. -/

namespace Worksheet
open Text

namespace Written

/-- A written value is made of letters, digits and the signs of a numeral. -/
theorem mem_render {w : Written} (hw : w.Proper) {c : Char} (hc : c ∈ w.render) :
    Byte.isAlphanumeric c = true ∨ Numeral.isShown c = true ∨ c = '#' := by
  have hnamed {t : Text} (ht : (t.all fun c => Byte.isAlphanumeric c || Numeral.isShown c) = true) (hc : c ∈ t) :
      Byte.isAlphanumeric c = true ∨ Numeral.isShown c = true ∨ c = '#' := by
    rcases Bool.or_eq_true_iff.mp (List.all_eq_true.mp ht c hc) with h | h
    · exact .inl h
    · exact .inr (.inl h)
  cases w with
  | nan => exact hnamed (t := render nan) (by decide) hc
  | infinite negative percent =>
    exact hnamed (t := render (infinite negative percent)) (by cases negative <;> cases percent <;> decide) hc
  | based negative digits base =>
    simp only [render, List.mem_append, List.mem_cons] at hc
    rcases hc with (hc | hc) | rfl | hc
    · split at hc
      · obtain rfl := List.mem_singleton.mp hc
        exact .inr (.inl rfl)
      · cases hc
    · exact .inl (hw.2 c hc)
    · exact .inr (.inr rfl)
    · exact .inl (Byte.isAlphanumeric_of_isDigit (isDigit_of_mem_ofNat hc))
  | decimal n => exact .inr (.inl (Numeral.Proper.isShown_of_mem_render hw hc))

/-- The characters of a written value are those of a word. -/
theorem isWordPart_of_mem_render {w : Written} (hw : w.Proper) {c : Char} (hc : c ∈ w.render) :
    Lexer.isWordPart c = true := by
  rcases mem_render hw hc with h | h | rfl
  · exact Lexer.isWordPart_of rfl h
  · exact Lexer.isWordPart_of rfl h
  · rfl

end Written

namespace OutputText

/-- A word that is read as a value is found with everything behind it that is no blank for its unit. -/
theorem split_word {v b : Text} (hv : ∀ c ∈ v, Byte.isBlank c = false) (hne : v ≠ []) (hb : Ends b)
    (hlength : ∀ r, Ends r → valueLength (v ++ r) = v.length) : split (trim (v ++ b)) = (v, trim b) := by
  have htrim := trim_word_append (t := b) hv hne
  have hsame : trim (v ++ trimRight b) = v ++ trimRight b := by rw [← htrim, trim_trim]
  rw [htrim, split_append hne hsame (hlength _ hb.trimRight), trim_trimRight]

end OutputText

namespace Classify

theorem ends_blankOut {t : Text} (h : Ends t) (offset length : Nat) : Ends (blankOut t offset length) := by
  unfold blankOut
  cases t with
  | nil => cases length <;> simp [Text.blanks, List.replicate_succ, Byte.isBlank]
  | cons c t =>
    cases offset with
    | zero => cases length <;> simp_all [Text.blanks, List.replicate_succ, Byte.isBlank]
    | succ offset => simpa using h

theorem ends_blankComments {t : Text} (h : Ends t) : Ends (blankComments t) := by
  rw [blankComments_eq]
  unfold blankAll
  induction commentsOf (Token.signs (tokenize t)) generalizing t with
  | nil => exact h
  | cons c cs ih => exact ih (ends_blankOut h _ _)

/-- The marker that counts stands in the line, perhaps behind its decoration. -/
theorem exists_marker {line : Text} {l : ValueLine} (hl : classifyLine line = some l) :
    ∃ x z u, line = x ++ (z ++ l.marker.text ++ u) ∧ l.markerBegin = x.length ∧
      l.markerEnd = (x ++ (z ++ l.marker.text)).length := by
  obtain ⟨index, m, t, found, hchoose, ht, -, -, -, rfl⟩ := ofTokens_eq_some_iff.mp hl
  have hkind : t.kind.marker? = some m := by
    obtain ⟨-, a, ha, hm⟩ := candidates_spec (choose_mem hchoose)
    obtain rfl := Option.some.inj (ht.symm.trans ha)
    exact hm
  have hmarker : ∃ d, t.kind = .marker m d := by
    cases hk : t.kind <;> simp_all [Token.Kind.marker?]
  obtain ⟨d, hd⟩ := hmarker
  have hmem : t ∈ Lexer.lexFrom 0 {} {} line := List.mem_of_mem_filter (List.mem_of_getElem? ht)
  obtain ⟨x, z, u, hline, hlexeme, hoffset, -⟩ := Lexer.marker_of_mem_lexFrom hmem hd
  have hbegin : t.offset = x.length := by simpa using hoffset
  refine ⟨x, z, u, hline, hbegin, ?_⟩
  show t.offset + t.lexeme.length = (x ++ (z ++ m.text)).length
  rw [hlexeme, hbegin]
  exact List.length_append.symm

theorem markerEnd_le {line : Text} {l : ValueLine} (hl : classifyLine line = some l) : l.markerEnd ≤ line.length := by
  obtain ⟨x, z, u, hline, -, hend⟩ := exists_marker hl
  rw [hend, hline]
  simp only [List.length_append]
  omega

end Classify

namespace ValueLine

/-- What stands behind a value: the unit and the comments. -/
def behind (l : ValueLine) : Text := ([l.unit, l.trailing].filter (!·.isEmpty)).flatMap (' ' :: ·)

theorem ends_behind (l : ValueLine) : Ends l.behind := by
  unfold behind
  cases hunit : l.unit <;> cases htrailing : l.trailing <;> simp [Byte.isBlank]

theorem write_nil (l : ValueLine) (line : Text) : l.write line [] = line.take l.markerEnd ++ l.behind := rfl

theorem write_of_ne_nil (l : ValueLine) (line : Text) {v : Text} (hv : v ≠ []) :
    l.write line v = line.take l.markerEnd ++ ' ' :: (v ++ l.behind) := by
  have hne : (!v.isEmpty) = true := by simpa using hv
  unfold write behind
  congr 1
  exact congrArg (List.flatMap (' ' :: ·)) (List.filter_cons_of_pos (p := fun t : Text => !t.isEmpty) hne)

end ValueLine

/-- A text that may be written as a value. -/
structure OutputText.Word (v : Text) : Prop where
  isWordPart : ∀ c ∈ v, Lexer.isWordPart c = true
  ne_nil : v ≠ []

/-- A text that is written as a value and read back as one. -/
structure OutputText.Legible (v : Text) : Prop extends OutputText.Word v where
  valueLength : ∀ r, Ends r → valueLength (v ++ r) = v.length

theorem OutputText.Word.isBlank_of_mem {v : Text} (h : OutputText.Word v) {c : Char} (hc : c ∈ v) :
    Byte.isBlank c = false := by
  have hpart := h.isWordPart c hc
  simp only [Lexer.isWordPart, Bool.and_eq_true, Bool.not_eq_true'] at hpart
  exact hpart.1.1.1.1.1

theorem OutputText.word_render {w : Written} (hw : w.Proper) : OutputText.Word w.render :=
  ⟨fun _ hc => Written.isWordPart_of_mem_render hw hc, Written.render_ne_nil hw⟩

theorem OutputText.legible_render {w : Written} (hw : w.Proper) (hl : w.legible = true) : OutputText.Legible w.render :=
  ⟨OutputText.word_render hw, fun _ hr => Written.valueLength_of_legible hw hl hr⟩

/-- An output line that shows no value: nothing but the unit and the comments stand behind its marker. -/
structure ValueLine.IsOpen (l : ValueLine) (line : Text) : Prop where
  isOutput : l.isOutput = true
  valueText : l.valueText = []
  write : l.write line [] = line

/-- A line of text that is an output line without a value. -/
structure Blank (line : Text) (l : ValueLine) : Prop extends l.IsOpen line where
  classify : classifyLine line = some l

section Blank
variable {line v : Text} {l : ValueLine}

/-- The line up to its marker, and what stands behind that. -/
theorem Blank.classifyLine_take (h : Blank line l) : l.markerEnd = (line.take l.markerEnd).length ∧
    classifyLine (line.take l.markerEnd ++ l.behind) = some l := by
  constructor
  · rw [List.length_take]
    exact (Nat.min_eq_left (Classify.markerEnd_le h.classify)).symm
  · rw [← l.write_nil, h.write]
    exact h.classify

theorem Blank.valueBehind_eq (h : Blank line l) (payload : Text) :
    Classify.valueBehind l.marker payload = OutputText.split payload := if_pos h.isOutput

/-- The value that is written is found again, and nothing else changes. -/
theorem Blank.classifyLine_write (h : Blank line l) (hv : OutputText.Legible v) :
    ∃ quoted, classifyLine (l.write line v) = some { l with valueText := v, quoted } := by
  obtain ⟨hend, hl⟩ := h.classifyLine_take
  -- Without a value all that stands behind the marker is the unit.
  have hunit : l.unit = trim (Classify.blankComments l.behind) := by
    have hpayload := (Classify.classifyLine_payload hl hend).1
    rw [h.valueText, h.valueBehind_eq] at hpayload
    unfold OutputText.split at hpayload
    dsimp only at hpayload
    rw [trim_trim] at hpayload
    split at hpayload
    · exact (Prod.mk.inj hpayload).2
    · rename_i hlength
      obtain ⟨hnil, hunit⟩ := Prod.mk.inj hpayload
      have hempty : trim (Classify.blankComments l.behind) = [] :=
        (List.take_eq_nil_iff.mp hnil.symm).resolve_left hlength
      rw [hunit, hempty, List.drop_nil]
      rfl
  obtain ⟨quoted, hquoted⟩ :=
    Classify.classifyLine_insert hl hend hv.isWordPart hv.ne_nil l.ends_behind
  rw [h.valueBehind_eq, OutputText.split_word (fun _ => hv.isBlank_of_mem) hv.ne_nil
    (Classify.ends_blankComments l.ends_behind) hv.valueLength,
    ← hunit] at hquoted
  exact ⟨quoted, by rw [l.write_of_ne_nil line hv.ne_nil, hquoted]⟩

end Blank

end Worksheet
