import Mathlib.Algebra.Ring.Int.Defs
import Worksheet.Document.Lines
import Worksheet.Proofs.Token.Signs

/-! The brackets of a line are the same with and without a value behind its marker, also where the line is read by
    itself but the marker is found only together with the lines before it. -/

namespace Worksheet

namespace Sign

/-- What a sign adds to the balance of the brackets. -/
def weight : Sign → Int
  | opening => 1
  | closing => -1
  | _ => 0

/-- The balance of the brackets among some signs. -/
def balance (ss : List Sign) : Int := (ss.map weight).sum

theorem balance_append (ss us : List Sign) : balance (ss ++ us) = balance ss + balance us := by
  simp [balance]

end Sign

namespace Lexer
open Token

/-- The end of a text whose last characters are a marker. -/
def EndsInMarker (x : Text) : Prop := ∃ m : Marker, m.text <:+ x ∨ x <:+ m.text

theorem EndsInMarker.tail {c : Char} {x : Text} (h : EndsInMarker (c :: x)) : EndsInMarker x := by
  obtain ⟨m, h | h⟩ := h
  · refine ⟨m, ?_⟩
    rcases List.suffix_cons_iff.mp h with heq | h
    · exact .inr (heq ▸ List.suffix_cons c x)
    · exact .inl h
  · exact ⟨m, .inr ((List.suffix_cons c x).trans h)⟩

/-- What a marker ends with behind its first character. -/
theorem tail_of_text {m : Marker} {a c : Char} {y x : Text} (h : a :: y ++ c :: x = m.text) :
    c :: x = [':'] ∨ c :: x = ['-'] ∨ c :: x = ['>'] ∨ c :: x = ['>', '>'] := by
  have hdrop : c :: x = m.text.drop (y.length + 1) := by
    rw [← h]
    simp
  have hlt : y.length + 1 < m.text.length := by
    rw [← h]
    simp
  rw [hdrop]
  cases m with
  | colon =>
    change y.length + 1 < 1 at hlt
    omega
  | doubleColon | leftArrow | rightArrow =>
    change y.length + 1 < 2 at hlt
    have hy : y.length = 0 := by omega
    rw [hy]
    decide
  | fullArrow =>
    change y.length + 1 < 3 at hlt
    have hy : y.length = 0 ∨ y.length = 1 := by omega
    rcases hy with hy | hy <;> rw [hy] <;> decide

/-- What is found in a text that ends in a marker, apart from comments, does not depend on the text behind. -/
theorem EndsInMarker.scan_eq {before : Before} {c : Char} {x u u' : Text} (h : EndsInMarker (c :: x)) (hu : Text.Ends u)
    (hu' : Text.Ends u') (hquote : c ≠ '"') (hslash : ¬(c = '/' ∧ (x ++ u).head? = some '/')) :
    scan before c (x ++ u) = scan before c (x ++ u') := by
  have hmarker (m : Marker) (y : Text) (hy : y ++ m.text = c :: x) : scan before c (x ++ u) = scan before c (x ++ u') := by
    have hagree : Agree (y ++ m.text ++ u) (y ++ m.text ++ u') := .append (walled_of_ends hu m) (walled_of_ends hu' m)
    rw [hy] at hagree
    exact hagree.scan_eq hquote hslash before
  obtain ⟨m, ⟨y, hy⟩ | ⟨y, hy⟩⟩ := h
  · exact hmarker m y hy
  · have hdash (u : Text) (hu : Text.Ends u) : scan before '-' u = ⟨.operator, 0⟩ :=
      Text.Ends.elim (P := fun u => scan before '-' u = _) hu rfl fun _ => ⟨rfl, rfl, rfl⟩
    have hgreater (u : Text) (hu : Text.Ends u) : scan before '>' u = ⟨.operator, 0⟩ :=
      Text.Ends.elim (P := fun u => scan before '>' u = _) hu rfl fun _ => ⟨rfl, rfl, rfl⟩
    cases y with
    | nil => exact hmarker m [] hy.symm
    | cons a y =>
      rcases tail_of_text hy with htail | htail | htail | htail <;> obtain ⟨rfl, rfl⟩ := List.cons.inj htail
      · exact hmarker .colon [] rfl
      · exact (hdash u hu).trans (hdash u' hu').symm
      · exact (hgreater u hu).trans (hgreater u' hu').symm
      · rfl

section Insert
variable {x v u : Text}

end Insert
end Lexer

namespace Lines
open Token

theorem bracketBalance_eq (line : Text) : bracketBalance line = Sign.balance (signs (tokenize line)) := by
  have hfold {f : Int → Token → Int} (hf : ∀ n t, f n t = n + Sign.balance (sign? t).toList) (ts : List Token) (n : Int) :
      ts.foldl f n = n + Sign.balance (signs ts) := by
    induction ts generalizing n with
    | nil => simp [Sign.balance, signs]
    | cons t ts ih => rw [List.foldl_cons, ih, hf, signs_cons, Sign.balance_append, Int.add_assoc]
  unfold bracketBalance
  rw [hfold, Int.zero_add]
  intro n t
  unfold sign? Sign.balance
  cases t.kind <;> simp [Sign.weight, Int.sub_eq_add_neg]

end Lines
end Worksheet
