import Worksheet.Proofs.Document.Found
import Worksheet.Proofs.Document.Reference

/-! Clearing the computed values of a document, line by line: no line is broken, and none becomes the header of a
    reference section. -/

namespace Worksheet
open Text

/-- A line that begins with the header does so with and without a value in its output. -/
theorem Stands.header_prefix_of_write {line v : Text} {l : ValueLine} (h : Stands line l) (houtput : l.isOutput = true)
    (hheader : Reference.header <+: l.write line v) : Reference.header <+: line := by
  have harrow : ∃ x, l.marker.text = x ++ ['>'] := by
    cases hm : l.marker with
    | rightArrow => exact ⟨['-'], rfl⟩
    | fullArrow => exact ⟨['-', '>'], rfl⟩
    | colon => simp [ValueLine.isOutput, hm, Marker.isOutput] at houtput
    | doubleColon => simp [ValueLine.isOutput, hm, Marker.isOutput] at houtput
    | leftArrow => simp [ValueLine.isOutput, hm, Marker.isOutput] at houtput
  obtain ⟨x, hx⟩ := harrow
  obtain ⟨y, hy⟩ := h.marker_suffix
  rw [hx, ← List.append_assoc] at hy
  unfold ValueLine.write at hheader
  rw [← hy, List.append_assoc] at hheader
  have hinit := Reference.header_prefix_of_append_cons (by decide) hheader
  exact (hinit.trans (hy ▸ List.prefix_append _ _)).trans (List.take_prefix _ _)

/-- Lines of a text without a reference section. -/
structure Lines.Proper (ls : List Text) : Prop where
  newline_not_mem : ∀ l ∈ ls, '\n' ∉ l
  isPrefixOf_header : ∀ l ∈ ls, Reference.header.isPrefixOf l = false

namespace Lines
variable {ls : List Text}

theorem Proper.of_before? {t : Text} (h : Reference.before? true t = none) : Proper (lines t) where
  newline_not_mem _ hl := newline_not_mem_of_mem_lines hl
  isPrefixOf_header := by
    rw [← unlines_lines t] at h
    exact (Reference.before?_unlines_eq_none_iff fun _ hl => newline_not_mem_of_mem_lines hl).mp h

theorem Proper.remove_unlines (h : Proper ls) : Reference.remove (unlines ls) = unlines ls :=
  Reference.remove_of_before? ((Reference.before?_unlines_eq_none_iff h.newline_not_mem).mpr h.isPrefixOf_header)

/-- A line is proper with other text behind its output marker. -/
theorem Proper.write (h : Proper ls) {line v : Text} {l : ValueLine} (hmem : (line, some l) ∈ ls.zip (classify ls))
    (houtput : l.isOutput = true) (hv : '\n' ∉ v) :
    '\n' ∉ l.write line v ∧ Reference.header.isPrefixOf (l.write line v) = false := by
  have hline := (List.of_mem_zip hmem).1
  have hstands : Stands line l := stands_of_mem h.newline_not_mem (fun n found h => by cases h) hmem
  refine ⟨hstands.newline_not_mem_write (h.newline_not_mem line hline) hv, ?_⟩
  have hnot := h.isPrefixOf_header line hline
  rw [Bool.eq_false_iff, ne_eq, List.isPrefixOf_iff_prefix] at hnot ⊢
  exact mt (hstands.header_prefix_of_write houtput) hnot

theorem Proper.clearLine (h : Proper ls) {line : Text} {found : Option ValueLine}
    (hmem : (line, found) ∈ ls.zip (classify ls)) : '\n' ∉ Clearing.output.clearLine line found ∧
      Reference.header.isPrefixOf (Clearing.output.clearLine line found) = false := by
  have hline := (List.of_mem_zip hmem).1
  have hkept := And.intro (h.newline_not_mem line hline) (h.isPrefixOf_header line hline)
  cases found with
  | none => exact hkept
  | some l =>
    unfold Clearing.clearLine
    dsimp only
    split
    · rename_i htakes
      exact h.write hmem (Bool.and_eq_true_iff.mp htakes).2 List.not_mem_nil
    · exact hkept

theorem Proper.clearLines (h : Proper ls) : Proper (Clearing.output.clearLines ls) := by
  have hline : ∀ line' ∈ Clearing.output.clearLines ls, '\n' ∉ line' ∧ Reference.header.isPrefixOf line' = false := by
    intro line' hmem
    unfold Clearing.clearLines at hmem
    rw [← List.map_uncurry_zip_eq_zipWith] at hmem
    obtain ⟨⟨line, found⟩, hzip, rfl⟩ := List.mem_map.mp hmem
    exact h.clearLine hzip
  exact ⟨fun l hl => (hline l hl).1, fun l hl => (hline l hl).2⟩

end Lines

namespace Clearing

/-- Clearing breaks no line. -/
theorem newline_not_mem_clearLines (c : Clearing) {ls : List Text} (hls : ∀ l ∈ ls, '\n' ∉ l) :
    ∀ line' ∈ c.clearLines ls, '\n' ∉ line' := by
  intro line' hmem
  unfold clearLines at hmem
  rw [← List.map_uncurry_zip_eq_zipWith] at hmem
  obtain ⟨⟨line, found⟩, hzip, rfl⟩ := List.mem_map.mp hmem
  have hline := hls line (List.of_mem_zip hzip).1
  cases found with
  | none => exact hline
  | some l =>
    have hstands : Stands line l := Lines.stands_of_mem hls (fun n found h => by cases h) hzip
    show '\n' ∉ c.clearLine line (some l)
    unfold clearLine
    dsimp only
    split
    · exact hstands.newline_not_mem_write hline List.not_mem_nil
    · exact hline

/-- The lines of a cleared text are its lines, cleared. -/
theorem lines_clear (c : Clearing) (t : Text) : lines (c.clear t) = c.clearLines (lines t) := by
  refine lines_unlines (fun hnil => ?_) (c.newline_not_mem_clearLines fun _ hl => newline_not_mem_of_mem_lines hl)
  have hlength := congrArg List.length hnil
  unfold clearLines Lines.classify at hlength
  rw [List.length_zipWith, Lines.length_classifyFrom, Nat.min_self] at hlength
  exact lines_ne_nil t (List.length_eq_zero_iff.mp hlength)

end Clearing
end Worksheet
