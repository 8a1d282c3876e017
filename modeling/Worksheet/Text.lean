/-! Text as a list of bytes. A worksheet is read byte by byte: every character stands for one byte, and
    only ASCII letters and digits are letters and digits. Blanks inside a line are space, tab and
    carriage return; `lines` and `unlines` are inverse to each other. -/

namespace Worksheet

/-- A text, one character below 256 for each byte. -/
abbrev Text := List Char

/-! ### Characters -/

namespace Byte

/-- Space, tab and carriage return: what may stand between two tokens of a line. -/
def isBlank (c : Char) : Bool := c == ' ' || c == '\t' || c == '\r'

/-- A blank, or one of the characters that move to another line. -/
def isSpace (c : Char) : Bool := isBlank c || c == '\n' || c == '\x0b' || c == '\x0c'

def isDigit (c : Char) : Bool := '0' ≤ c && c ≤ '9'

def isLetter (c : Char) : Bool := ('a' ≤ c && c ≤ 'z') || ('A' ≤ c && c ≤ 'Z')

def isAlphanumeric (c : Char) : Bool := isLetter c || isDigit c

/-- What a name may begin with. -/
def isNameStart (c : Char) : Bool := isLetter c || c == '_'

/-- What a name may go on with. -/
def isNamePart (c : Char) : Bool := isAlphanumeric c || c == '_'

/-- The small letter of a capital one; every other character is kept. -/
def lower (c : Char) : Char := if 'A' ≤ c && c ≤ 'Z' then Char.ofNat (c.toNat + 32) else c

/-- The value of a digit in bases up to 36, where letters of either case go on after 9. -/
def digitValue? (c : Char) : Option Nat :=
  if isDigit c then some (c.toNat - '0'.toNat)
  else if 'a' ≤ c && c ≤ 'z' then some (c.toNat - 'a'.toNat + 10)
  else if 'A' ≤ c && c ≤ 'Z' then some (c.toNat - 'A'.toNat + 10)
  else none

/-- The value of `c` as a digit of `base`, if it is one. -/
def digitOf? (base : Nat) (c : Char) : Option Nat := (digitValue? c).filter (· < base)

/-- The digit written for a value below 36, capital letters after 9. -/
def ofDigit (n : Nat) : Char := if n < 10 then Char.ofNat (n + 48) else Char.ofNat (n + 55)

theorem isNamePart_of_isNameStart {c : Char} (h : isNameStart c = true) : isNamePart c = true := by
  unfold isNameStart at h
  unfold isNamePart isAlphanumeric
  revert h
  cases isLetter c <;> cases isDigit c <;> simp

end Byte

/-! ### Order -/

namespace Text

/-- Texts are ordered by their first different byte, and one that goes on comes after one that ends. -/
theorem lt_of_not_lt {t u : Text} (h : ¬t < u) (hne : u ≠ t) : u < t :=
  Decidable.byContradiction fun hn => hne (List.le_antisymm (List.not_lt.mp h) (List.not_lt.mp hn))

/-! ### Trimming -/

def trimLeft (t : Text) : Text := t.dropWhile Byte.isBlank

def trimRight (t : Text) : Text := (t.reverse.dropWhile Byte.isBlank).reverse

/-- The text without the blanks at its two ends. -/
def trim (t : Text) : Text := trimRight (trimLeft t)

def lower (t : Text) : Text := t.map Byte.lower

/-- `n` blanks. -/
def blanks (n : Nat) : Text := List.replicate n ' '

/-- Nothing but blanks. -/
def isBlank (t : Text) : Bool := t.all Byte.isBlank

/-- The part of `t` from offset `first` up to offset `last`. -/
def slice (t : Text) (first last : Nat) : Text := (t.drop first).take (last - first)

/-- The number of leading characters that satisfy `p`. -/
def span (p : Char → Bool) (t : Text) : Nat := (t.takeWhile p).length

/-! ### Lines -/

/-- The lines of a text: what stands between its newlines. There is always at least one. -/
def lines : Text → List Text
  | [] => [[]]
  | c :: t =>
    if c = '\n' then [] :: lines t
    else match lines t with
      | [] => [[c]]
      | l :: ls => (c :: l) :: ls

/-- Lines put together again, with a newline between each two. -/
def unlines : List Text → Text
  | [] => []
  | [l] => l
  | l :: ls => l ++ '\n' :: unlines ls

theorem lines_ne_nil (t : Text) : lines t ≠ [] := by
  cases t with
  | nil => simp [lines]
  | cons c t =>
    unfold lines
    split
    · simp
    · split <;> simp

theorem unlines_cons {l : Text} {ls : List Text} (h : ls ≠ []) : unlines (l :: ls) = l ++ '\n' :: unlines ls := by
  cases ls with
  | nil => exact absurd rfl h
  | cons m ms => rfl

theorem unlines_lines (t : Text) : unlines (lines t) = t := by
  induction t with
  | nil => rfl
  | cons c t ih =>
    unfold lines
    split
    · rename_i hc
      rw [unlines_cons (lines_ne_nil t), ih, hc]
      rfl
    · split
      · rename_i h
        exact absurd h (lines_ne_nil t)
      · rename_i l ls h
        rw [h] at ih
        cases ls with
        | nil => simpa [unlines] using ih
        | cons m ms => simpa [unlines] using ih

/-! ### Numerals -/

/-- The decimal digits of a natural number. -/
def ofNat (n : Nat) : Text := Nat.toDigits 10 n

/-- The decimal digits of an integer, after its sign if it is negative. -/
def ofInt : Int → Text
  | .ofNat n => ofNat n
  | .negSucc n => '-' :: ofNat (n + 1)

/-- The number that a run of decimal digits denotes; other characters count as nothing. -/
def toNat (t : Text) : Nat := t.foldl (fun n c => 10 * n + (c.toNat - '0'.toNat)) 0

/-- The text up to its first NUL. A message is handed on as a NUL-terminated string. -/
def untilNul (t : Text) : Text := t.takeWhile (· ≠ '\x00')

end Text
end Worksheet
