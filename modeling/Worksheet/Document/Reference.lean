import Worksheet.Text

/-! The section behind a document that lists what it uses of the shared constants and functions. -/

namespace Worksheet.Reference

/-- The line that begins the section. -/
def header : Text := "\"--- Reference Constants and Functions ---\"".toList

/-- What stands before the first line that begins with the header; `lineStart` says that a line begins at
    the head of the text. -/
def before? (lineStart : Bool) : Text → Option Text
  | [] => none
  | c :: t =>
    if lineStart && header.isPrefixOf (c :: t) then some []
    else (before? (c = '\n') t).map (c :: ·)

/-- Without the blanks and line ends at its end. -/
def trimEnd (t : Text) : Text := (t.reverse.dropWhile fun c => c == '\n' || Byte.isBlank c).reverse

/-- The document without its reference section. -/
def remove (t : Text) : Text :=
  match before? true t with
  | some t => trimEnd t
  | none => t

end Worksheet.Reference
