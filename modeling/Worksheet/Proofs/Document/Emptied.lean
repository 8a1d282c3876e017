import Worksheet.Proofs.Document.Found
import Worksheet.Proofs.Line.Kept

/-! Taking the value out of a line. Then the unit stands right behind the marker, where its head is read for a value
    if it looks like one, and where an opening brace makes the line open a block. Any other unit stays what it is,
    and the line is the same value line without a value. -/

namespace Worksheet
open Text Lexer

namespace Classify
open Token

/-! ### The first token -/

section Brace
variable {t b : Text} {cs : List Text}

/-- A token that is neither a comment nor a line end is one the rules look at; it opens a block if it is a brace. -/
theorem scan_brace {c : Char} (hnote : note? c t = none) (hc : c ≠ '\n') (before : Before) (x : Text) (p : Position) :
    (scan before c t).kind.isSilent = false ∧
      isOpenBrace ⟨(scan before c t).kind, x, p.line, p.col, p.offset⟩ = (c == '{') := by
  obtain ⟨hquote, hslash⟩ := note?_eq_none.mp hnote
  cases hs : isStructural c with
  | true =>
    simp only [isStructural, List.contains_eq_mem, List.mem_cons, List.not_mem_nil, or_false, decide_eq_true_eq] at hs
    rcases hs with rfl | rfl | rfl | rfl | rfl | rfl
    · exact absurd rfl hc
    · exact absurd rfl hquote
    all_goals exact ⟨rfl, rfl⟩
  | false =>
    have hne : (c == '{') = false := by
      rw [beq_eq_false_iff_ne]
      rintro rfl
      cases hs
    rw [hne]
    rcases scan_kind hs hslash before with hordinary | ⟨-, m, d, -, -, -, hkind, -⟩
    · unfold isOpenBrace
      generalize (scan before c t).kind = k at hordinary ⊢
      cases k <;> first | exact ⟨rfl, rfl⟩ | cases hordinary
    · unfold isOpenBrace
      rw [hkind]
      exact ⟨rfl, rfl⟩

/-- The first token that is no comment is an opening brace if the text without comments begins with one. -/
theorem Commented.opensBlock (h : Commented t b cs) (ht : '\n' ∉ t) (before : Before) (p : Position) :
    (significant (lexFrom 0 before p t)).head?.any isOpenBrace = (trimLeft b).head?.any (· == '{') := by
  have hsilent {t : Token} {ts : List Token} (hk : t.kind.isSilent = true) : significant (t :: ts) = significant ts := by
    simp [significant, hk]
  have hblanks (n : Nat) (b : Text) : trimLeft (blanks n ++ b) = trimLeft b := by
    induction n with
    | zero => rfl
    | succ n ih => simpa [blanks, List.replicate_succ, trimLeft, Byte.isBlank] using ih
  induction h generalizing before p with
  | nil =>
    rw [lexFrom_nil]
    rfl
  | @char c t b cs hnote h ih =>
    have ht' : '\n' ∉ t := fun hmem => ht (List.mem_cons_of_mem c hmem)
    cases hc : Byte.isBlank c with
    | true =>
      have hleft : trimLeft (c :: b) = trimLeft b := by simp [trimLeft, hc]
      rw [lexFrom_blank hc, hleft]
      exact ih ht' _ _
    | false =>
      have hne : c ≠ '\n' := by
        rintro rfl
        exact ht List.mem_cons_self
      have hleft : trimLeft (c :: b) = c :: b := by simp [trimLeft, hc]
      obtain ⟨hloud, hbrace⟩ := scan_brace hnote hne before (c :: t.take (scan before c t).more) p
      have hkeep (ts : List Token) : significant (⟨(scan before c t).kind, c :: t.take (scan before c t).more, p.line,
          p.col, p.offset⟩ :: ts) = _ :: significant ts := List.filter_cons_of_pos (by simp [hloud])
      rw [lexFrom_token hc, hleft, hkeep]
      exact hbrace
  | @comment c x t b cs hx h ih =>
    have hc : Byte.isBlank c = false := by
      rcases eq_of_note? (hx []) with rfl | rfl <;> rfl
    have ht' : '\n' ∉ t := fun hmem => ht (List.mem_cons_of_mem c (List.mem_append_right x hmem))
    rw [lexFrom_token hc, scan_note (hx t), hsilent rfl, lexFrom_skip, hblanks]
    exact ih ht' _ _
  | @last c x hx =>
    have hc : Byte.isBlank c = false := by
      rcases eq_of_note? hx with rfl | rfl <;> rfl
    have hrest := hblanks (x.length + 1) []
    have hskip := lexFrom_skip (.ofKind .comment) (p.after c) x []
    rw [List.append_nil] at hrest hskip
    rw [lexFrom_token hc, scan_note hx, hsilent rfl, hskip, lexFrom_nil, hrest]
    rfl

end Brace
end Classify

/-! ### The line without its value -/

namespace ValueLine

/-- Nothing in the unit of the line is read for a value or for a block. -/
structure Rests (l : ValueLine) : Prop where
  valueLength : OutputText.valueLength l.unit = 0
  brace : l.unit.head? ≠ some '{'

instance (l : ValueLine) : Decidable l.Rests :=
  decidable_of_iff (OutputText.valueLength l.unit = 0 ∧ l.unit.head? ≠ some '{') ⟨fun h => ⟨h.1, h.2⟩, fun h => ⟨h.1, h.2⟩⟩

end ValueLine

namespace OutputText

/-- A unit has no value before it exactly if its head is read for none. -/
theorem split_eq_nil_iff {u : Text} (hu : trim u = u) : (split u).1 = [] ↔ valueLength u = 0 := by
  unfold split
  dsimp only
  rw [hu]
  split
  · rename_i hzero
    exact ⟨fun _ => hzero, fun _ => rfl⟩
  · rename_i hne
    refine ⟨fun hnil => ?_, fun hzero => absurd hzero hne⟩
    obtain rfl := (List.take_eq_nil_iff.mp hnil).resolve_left hne
    decide

theorem split_of_valueLength {u : Text} (hu : trim u = u) (h : valueLength u = 0) : split u = ([], u) := by
  unfold split
  dsimp only
  rw [hu, if_pos h]

theorem trim_split (t : Text) : trim (split t).2 = (split t).2 := by
  unfold split
  dsimp only
  split <;> exact trim_trim _

end OutputText

namespace Classify
open Token
variable {line : Text} {l l' : ValueLine}

/-- The unit has no blanks at its ends, and there is none behind an input marker. -/
theorem trim_unit (hl : classifyLine line = some l) : trim l.unit = l.unit ∧ (l.isOutput = false → l.unit = []) := by
  have hend : l.markerEnd = (line.take l.markerEnd).length := by
    rw [List.length_take]
    exact (Nat.min_eq_left (markerEnd_le hl)).symm
  have hsplit : line.take l.markerEnd ++ line.drop l.markerEnd = line := List.take_append_drop _ _
  rw [← hsplit] at hl
  have hunit : l.unit = _ := congrArg Prod.snd (classifyLine_payload hl hend).1
  unfold valueBehind at hunit
  cases hout : l.marker.isOutput with
  | true =>
    rw [if_pos hout] at hunit
    refine ⟨?_, fun hinput => nomatch hout.symm.trans hinput⟩
    rw [hunit]
    exact OutputText.trim_split _
  | false =>
    rw [if_neg (by simp [hout])] at hunit
    exact ⟨by rw [hunit]; rfl, fun _ => hunit⟩

/-- What stands behind the marker without the value: no other marker than before, and the unit with the comments. -/
theorem exists_behind (hline : '\n' ∉ line) (hl : classifyLine line = some l) :
    ∃ h u cs n, line = h ++ u ∧ l.markerEnd = h.length ∧ l.write line [] = h ++ l.behind ∧
      Commented l.behind (pad l.unit ++ blanks n) cs ∧ l.trailing = joinBlank cs ∧
      ∀ depth, marks depth (signs (tokenize l.behind)) ⊆ marks depth (signs (tokenize u)) := by
  have hend : l.markerEnd = (line.take l.markerEnd).length := by
    rw [List.length_take]
    exact (Nat.min_eq_left (markerEnd_le hl)).symm
  have hsplit : line.take l.markerEnd ++ line.drop l.markerEnd = line := List.take_append_drop _ _
  have hdrop : '\n' ∉ line.drop l.markerEnd := fun hmem => hline (List.mem_of_mem_drop hmem)
  obtain ⟨b, cs, hu⟩ := exists_commented (line.drop l.markerEnd) hdrop
  rw [← hsplit] at hl
  obtain ⟨hpayload, htrailing⟩ := classifyLine_payload hl hend
  rw [hu.blankComments_eq] at hpayload
  rw [hu.comments_eq] at htrailing
  obtain ⟨hbare, hmarks⟩ := marks_unit hu hpayload
  obtain ⟨n, hbehind⟩ := hu.behind hbare htrailing
  refine ⟨_, _, cs, n, hsplit.symm, hend, l.write_nil line, hbehind, htrailing, fun depth => ?_⟩
  rw [hbehind.marks_eq, marks_behind hbare]
  exact hmarks depth

theorem newline_not_mem_behind (hline : '\n' ∉ line) (hl : classifyLine line = some l) : '\n' ∉ l.behind := fun hmem =>
  (mem_behind hl hmem).elim hline fun h => nomatch h

/-- The unit with blanks behind it. -/
theorem trim_pad {u : Text} (hu : trim u = u) (n : Nat) : trim (pad u ++ blanks n) = u := by
  have hblanks : trim (blanks n) = [] := by
    rw [← trim_trimRight, trimRight_blanks]
    rfl
  cases u with
  | nil => exact hblanks
  | cons c u =>
    have hstops := (trim_eq_self_iff.mp hu).1
    show trim (' ' :: ((c :: u) ++ blanks n)) = c :: u
    rw [trim_blank_cons rfl]
    unfold trim
    rw [trimLeft_eq_self_iff.mpr (by simpa using hstops)]
    have hright : trimRight (c :: u) = c :: u := trimRight_eq_self_iff.mpr (trim_eq_self_iff.mp hu).2
    unfold trimRight at hright ⊢
    have hrun : ∀ d ∈ (blanks n).reverse, Byte.isBlank d = true := by
      intro d hd
      rw [List.eq_of_mem_replicate (List.mem_reverse.mp hd)]
      rfl
    rw [List.reverse_append, List.dropWhile_append_of_pos hrun]
    exact hright

theorem head?_pad {u : Text} (hu : trim u = u) (n : Nat) :
    (trimLeft (pad u ++ blanks n)).head?.any (· == '{') = u.head?.any (· == '{') := by
  have htrim := trim_pad hu n
  cases u with
  | nil =>
    have hnil : trimLeft (blanks n) = [] := by
      simp [trimLeft, blanks, Byte.isBlank]
    exact congrArg (fun t : Text => t.head?.any (· == '{')) hnil
  | cons c u =>
    have hc : Byte.isBlank c = false := by simpa using (trim_eq_self_iff.mp hu).1
    have hleft : trimLeft (pad (c :: u) ++ blanks n) = c :: (u ++ blanks n) := by
      show (' ' :: c :: (u ++ blanks n)).dropWhile Byte.isBlank = _
      rw [List.dropWhile_cons_of_pos rfl, List.dropWhile_cons_of_neg (by simp [hc])]
    rw [hleft]
    rfl

section Write

/-- Without its value the line is the same value line; the value is what the head of the unit is read for. -/
theorem classifyLine_write_nil (hline : '\n' ∉ line) (hl : classifyLine line = some l)
    (hbrace : l.unit.head? ≠ some '{') :
    ∃ quoted, classifyLine (l.write line []) = some { l with
      valueText := (OutputText.split l.unit).1
      unit := (OutputText.split l.unit).2
      quoted } := by
  obtain ⟨htrim, hinput⟩ := trim_unit hl
  obtain ⟨h, u, cs, n, hsplit, hend, hwrite, hbehind, htrailing, hmarks⟩ := exists_behind hline hl
  have hnewline := newline_not_mem_behind hline hl
  have hblock (p : Position) : (significant (lexFrom 0 {} p l.behind)).head?.any isOpenBrace = false := by
    rw [hbehind.opensBlock hnewline, head?_pad htrim]
    cases hhead : l.unit.head? with
    | none => rfl
    | some c => simpa [hhead] using hbrace
  obtain ⟨quoted, hquoted⟩ :=
    classifyLine_behind (hsplit ▸ hl) hend (walled_of_ends l.ends_behind _) hmarks hblock
  rw [hbehind.blankComments_eq, hbehind.comments_eq, ← htrailing, trim_pad htrim] at hquoted
  refine ⟨quoted, ?_⟩
  rw [hwrite, hquoted]
  -- Behind an input marker there is neither a unit nor a value.
  cases hout : l.isOutput with
  | true =>
    have hbehind : valueBehind l.marker l.unit = OutputText.split l.unit := if_pos hout
    rw [hbehind]
  | false =>
    rw [hinput hout]
    have hbehind : valueBehind l.marker [] = OutputText.split [] := by
      cases l.marker <;> rfl
    rw [hbehind]

/-- A line whose unit begins with a brace is no value line without its value. -/
theorem classifyLine_write_nil_of_brace (hline : '\n' ∉ line) (hl : classifyLine line = some l)
    (hbrace : l.unit.head? = some '{') : classifyLine (l.write line []) = none := by
  obtain ⟨htrim, -⟩ := trim_unit hl
  obtain ⟨h, u, cs, n, hsplit, hend, hwrite, hbehind, -, hmarks⟩ := exists_behind hline hl
  have hnewline := newline_not_mem_behind hline hl
  rw [hwrite]
  refine classifyLine_block (hsplit ▸ hl) hend (walled_of_ends l.ends_behind _) hmarks fun p => ?_
  rw [hbehind.opensBlock hnewline, head?_pad htrim, hbrace]
  rfl

/-- A line that has lost its value is the same value line without one if its unit rests, and only then has it no
    value. -/
theorem classifyLine_emptied (hline : '\n' ∉ line) (hl : classifyLine line = some l) :
    (l.Rests → ∃ quoted, classifyLine (l.write line []) = some { l with valueText := [], quoted }) ∧
      ∀ l', classifyLine (l.write line []) = some l' → l'.valueText = [] → l.Rests := by
  obtain ⟨htrim, -⟩ := trim_unit hl
  constructor
  · rintro ⟨hlength, hbrace⟩
    obtain ⟨quoted, hquoted⟩ := classifyLine_write_nil hline hl hbrace
    rw [OutputText.split_of_valueLength htrim hlength] at hquoted
    exact ⟨quoted, hquoted⟩
  · intro l' hl' hvalue
    by_cases hbrace : l.unit.head? = some '{'
    · cases hl'.symm.trans (classifyLine_write_nil_of_brace hline hl hbrace)
    · obtain ⟨quoted, hquoted⟩ := classifyLine_write_nil hline hl hbrace
      obtain rfl := Option.some.inj (hl'.symm.trans hquoted)
      exact ⟨(OutputText.split_eq_nil_iff htrim).mp hvalue, hbrace⟩

end Write
end Classify
end Worksheet
