import Worksheet.Text

/-! Expressions inside running text, between two backslashes outside quotes. -/

namespace Worksheet

/-- An expression in a line: the offset of its first backslash, the offset behind its second one, and the
    text between them without blanks at its ends. -/
structure Inline where
  first : Nat
  last : Nat
  source : Text

namespace Inline

/-- The expressions of a line whose part from offset `i` on is the last argument. `opened` is the offset of a
    backslash that waits for a second one; an empty expression makes the second one wait in its turn. -/
def scan (line : Text) (i : Nat) (quoted : Bool) (opened : Option Nat) : Text → List Inline
  | [] => []
  | c :: t =>
    let quoted := if c = '"' then !quoted else quoted
    if quoted || c ≠ '\\' then scan line (i + 1) quoted opened t
    else match opened with
      | none => scan line (i + 1) quoted (some i) t
      | some o =>
        let source := Text.trim (Text.slice line (o + 1) i)
        if source.isEmpty then scan line (i + 1) quoted (some i) t
        else ⟨o, i + 1, source⟩ :: scan line (i + 1) quoted none t

/-- The expressions of a line, from the left. -/
def find (line : Text) : List Inline := scan line 0 false none line

/-- The line with another text in place of an expression and its backslashes. -/
def replace (e : Inline) (line text : Text) : Text := line.take e.first ++ text ++ line.drop e.last

/-- The characters of an expression with its backslashes. -/
def written (e : Inline) (line : Text) : Text := Text.slice line e.first e.last

/-- Every expression put into parentheses instead of backslashes. -/
def toParens (line : Text) : Text :=
  (find line).foldr (fun e line => e.replace line ('(' :: e.source ++ [')'])) line

end Inline
end Worksheet
