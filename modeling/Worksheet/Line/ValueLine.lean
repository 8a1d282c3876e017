import Worksheet.Token.Basic

/-! Lines that hold a value. Such a line declares a name or shows the value of an expression; a marker
    separates the two, and the value, a unit and comments stand behind it. -/

namespace Worksheet

/-- The two limits of a declaration as they are written. -/
structure LimitsText where
  low : Text
  high : Text

/-- What a line gives a value for. -/
inductive Subject where
  | declaration (name : Text) (limits : Option LimitsText)
  | expression (source : Text)

structure ValueLine where
  subject : Subject
  marker : Marker
  /-- How the value is to be shown. -/
  decoration : Decoration
  /-- The offset of the marker, of its decoration if it has one. -/
  markerBegin : Nat
  /-- The offset behind the marker. -/
  markerEnd : Nat
  /-- The offset of the subject; a label may stand before it. -/
  labelEnd : Nat
  valueText : Text
  /-- What stands behind an output value without quotes. -/
  unit : Text
  /-- The comments behind the marker as they are written, with a blank between each two. -/
  trailing : Text
  /-- The body of the last quoted comment behind all other tokens. -/
  quoted : Option Text

namespace ValueLine

/-- The quoted comment, or else the unit. -/
def comment (l : ValueLine) : Text := l.quoted.getD l.unit

/-- The comment is a unit. -/
def commentUnquoted (l : ValueLine) : Bool := l.quoted.isNone && !l.unit.isEmpty

/-- The value is computed, not given. -/
def isOutput (l : ValueLine) : Bool := l.marker.isOutput

/-- The value is shown with all its places. -/
def isFull (l : ValueLine) : Bool := l.marker.isFull

def name? (l : ValueLine) : Option Text :=
  match l.subject with
  | .declaration name _ => some name
  | .expression _ => none

def limits? (l : ValueLine) : Option LimitsText :=
  match l.subject with
  | .declaration _ limits => limits
  | .expression _ => none

/-- The offsets counted from `n` characters later; a subject before that counts as the start. -/
def shift (n : Nat) (l : ValueLine) : ValueLine :=
  { l with markerBegin := l.markerBegin - n, markerEnd := l.markerEnd - n, labelEnd := l.labelEnd - n }

/-- The line with another value: everything up to the marker, the value, the unit and the comments, with a
    blank before each one that is there. -/
def write (l : ValueLine) (line value : Text) : Text :=
  line.take l.markerEnd ++ ([value, l.unit, l.trailing].filter (!·.isEmpty)).flatMap (' ' :: ·)

end ValueLine
end Worksheet
