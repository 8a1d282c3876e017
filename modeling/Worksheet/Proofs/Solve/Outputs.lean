import Worksheet.Proofs.Document.Fill
import Worksheet.Proofs.Solve.Keeps

/-! The values that a solve writes. Where a document is settled but for its outputs, every line of the solved text is
    the line that it was or the same one with a value behind its output marker. -/

namespace Worksheet

/-! ### Settled lines -/

/-- A given value stands in the line, or a computed one can be put into it: nothing but a unit and comments, each
    behind a single blank, stand behind the marker. -/
def ValueLine.isReady (l : ValueLine) (line : Text) : Bool :=
  if l.isOutput then l.valueText.isEmpty && l.write line [] == line else !l.valueText.isEmpty

/-- Lines into which a solve writes nothing but computed values. -/
structure Lines.Settled (ls : List Text) : Prop where
  /-- There are no inline expressions. -/
  inline : ls.all (fun l => (Inline.find l).isEmpty) = true
  /-- Every value line has its value, or a place for it. -/
  ready : (ls.zip (Lines.classify ls)).all (fun x => x.2.all (·.isReady x.1)) = true
  /-- No equation waits for its right side. -/
  equation : (Equation.find ls).all Equation.isComplete = true
  /-- No bracket is left open. -/
  closed : Lines.closed 0 ls = true

theorem Lines.Settled.find_eq_nil {ls : List Text} (h : Lines.Settled ls) : ∀ l ∈ ls, Inline.find l = [] := by
  intro l hl
  have hempty := List.all_eq_true.mp h.inline l hl
  simpa using hempty

/-- The text shows some value as a value line asks for it. -/
def Settings.Shows (settings : Settings) (l : ValueLine) (v : Text) : Prop :=
  ∃ x, v = settings.writeValue x l.decoration.style l.isFull l.decoration.base

theorem Settings.Shows.word {settings : Settings} {l : ValueLine} {v : Text} (h : settings.Shows l v) :
    OutputText.Word v := by
  obtain ⟨x, rfl⟩ := h
  exact OutputText.word_render (Written.proper_value x _ _ _ settings)

namespace SolveState

/-! ### Writing values -/

/-- Writing the value of a line changes at most this line, by a value behind its marker. -/
theorem lines_writeLine (s : SolveState) (reported : NameSet) (found : Option ValueLine) (line : Nat) :
    (writeLine (s, reported) (found, line)).1.settings = s.settings ∧
      ((writeLine (s, reported) (found, line)).1.lines = s.lines ∨
        ∃ l v, found = some l ∧ (l.isOutput = true ∨ l.valueText = []) ∧ s.settings.Shows l v ∧
          (writeLine (s, reported) (found, line)).1.lines = s.lines.set line (l.write (s.lineAt line) v)) := by
  unfold writeLine
  cases found with
  | none => exact ⟨rfl, .inl rfl⟩
  | some l =>
    dsimp only
    split
    · rename_i source hsource
      unfold writeExpression
      split
      · exact ⟨rfl, .inl rfl⟩
      · rename_i hstays
        have hkeeps := s.keeps_evaluateText line source
        split
        · rename_i p s₁ heq
          have hreport := (hkeeps.of_eq heq).trans (s₁.keeps_report line p)
          exact ⟨hreport.settings, .inl hreport.lines⟩
        · rename_i v s₁ heq
          have hsame := hkeeps.of_eq heq
          refine ⟨hsame.settings, .inr ⟨l, _, rfl, ?_, ⟨v, rfl⟩, ?_⟩⟩
          · cases houtput : l.isOutput with
            | true => exact .inl rfl
            | false => exact .inr (by simpa [houtput] using hstays)
          · unfold writeValue setLine lineAt
            rw [hsame.lines, hsame.settings]
    · rename_i name limits hname
      unfold writeDeclaration
      split
      · exact ⟨rfl, .inl rfl⟩
      · rename_i hvalue
        dsimp only
        split
        · rename_i v hlooked
          exact ⟨rfl, .inr ⟨l, _, rfl, .inr (by simpa using hvalue), ⟨v, rfl⟩, rfl⟩⟩
        · split
          · exact ⟨rfl, .inl rfl⟩
          · dsimp only
            unfold reportMissing
            split
            · exact ⟨rfl, .inl rfl⟩
            · split
              · exact ⟨rfl, .inl rfl⟩
              · exact ⟨rfl, .inl rfl⟩

end SolveState
end Worksheet
