import Worksheet.Proofs.Token.Signs

/-! The signs of a text without its tokens. What a text means for the structure of its line is seen from the
    characters: a comment, a bracket or a marker is what it is wherever it begins, but for a marker behind the
    first half of `<<`. So the structure of a text is that of its parts, and quiet characters at its head add
    nothing to it. -/

namespace Worksheet
namespace Lexer
open Token

/-- The number of characters behind the first one of a comment that begins with `c`. -/
def note? (c : Char) (t : Text) : Option Nat :=
  if c = '"' then some (scanQuoted t).more
  else if c = '/' ∧ t.head? = some '/' then some (Text.span (· != '\n') t)
  else none

/-- The bracket or marker that begins with `c`, and the number of characters behind `c` that belong to it. -/
def glance (c : Char) (t : Text) : Option Sign × Nat :=
  if c = '[' then (some .opening, 0)
  else if c = ']' then (some .closing, 0)
  else match Marker.ofText? (c :: t) with
    | some m => (some (.marker m), m.text.length - 1)
    | none => (none, if c = '<' ∧ t.head? = some '<' then 1 else 0)

/-- The signs of a text that stands at `offset` and whose first `skip` characters belong to the sign before it. -/
def outline (skip offset : Nat) : Text → List Sign
  | [] => []
  | c :: t =>
    match skip with
    | skip + 1 => outline skip (offset + 1) t
    | 0 =>
      match note? c t with
      | some n => .comment (c :: t.take n) offset :: outline n (offset + 1) t
      | none => (glance c t).1.toList ++ outline (glance c t).2 (offset + 1) t

section Outline
variable {c : Char} {t : Text} {n offset : Nat}

@[simp] theorem outline_nil (skip offset : Nat) : outline skip offset [] = [] := by
  unfold outline
  rfl

@[simp] theorem outline_succ (skip offset : Nat) : outline (skip + 1) offset (c :: t) = outline skip (offset + 1) t := by
  rw [outline]

theorem outline_note (h : note? c t = some n) :
    outline 0 offset (c :: t) = .comment (c :: t.take n) offset :: outline n (offset + 1) t := by
  rw [outline]
  simp [h]

theorem outline_glance (h : note? c t = none) :
    outline 0 offset (c :: t) = (glance c t).1.toList ++ outline (glance c t).2 (offset + 1) t := by
  rw [outline]
  simp [h]

/-- Characters that belong to the sign before them are passed over. -/
theorem outline_append (x t : Text) (n offset : Nat) :
    outline (x.length + n) offset (x ++ t) = outline n (offset + x.length) t := by
  induction x generalizing offset with
  | nil => simp
  | cons c x ih =>
    rw [List.length_cons, Nat.add_right_comm, List.cons_append, outline_succ, ih, Nat.add_assoc, Nat.add_comm 1]

theorem outline_drop (h : n ≤ t.length) : outline n offset t = outline 0 (offset + n) (t.drop n) := by
  have hlength : (t.take n).length = n := by
    rw [List.length_take]
    exact Nat.min_eq_left h
  have happend := outline_append (t.take n) (t.drop n) 0 offset
  rwa [hlength, List.take_append_drop, Nat.add_zero] at happend

/-! ### Characters without meaning -/

/-- No sign begins with `c`. -/
theorem outline_of_glance (hn : note? c t = none) (hg : glance c t = (none, n)) :
    outline 0 offset (c :: t) = outline n (offset + 1) t := by
  rw [outline_glance hn, hg]
  rfl

theorem outline_char (h : Marker.isFirst c = false) (hquote : c ≠ '"') (hslash : ¬(c = '/' ∧ t.head? = some '/'))
    (hopening : c ≠ '[') (hclosing : c ≠ ']') : outline 0 offset (c :: t) = outline 0 (offset + 1) t := by
  simp only [Marker.isFirst, Bool.or_eq_false_iff, beq_eq_false_iff_ne] at h
  obtain ⟨⟨hcolon, hleft⟩, hminus⟩ := h
  refine outline_of_glance ?_ ?_
  · rw [note?, if_neg hquote, if_neg hslash]
  · rw [glance, if_neg hopening, if_neg hclosing, Marker.ofText?_cons, if_neg hcolon, if_neg hleft, if_neg hminus]
    simp [hleft]

theorem outline_quiet (hc : isQuiet c = true) : outline 0 offset (c :: t) = outline 0 (offset + 1) t := by
  simp only [isQuiet, loud, List.contains_eq_mem, List.mem_cons, Bool.not_eq_true', decide_eq_false_iff_not, not_or] at hc
  refine outline_char ?_ ?_ ?_ ?_ ?_ <;> simp [Marker.isFirst, hc]

theorem outline_blank (hc : Byte.isBlank c = true) : outline 0 offset (c :: t) = outline 0 (offset + 1) t := by
  simp only [Byte.isBlank, Bool.or_eq_true, beq_iff_eq] at hc
  rcases hc with (rfl | rfl) | rfl <;> exact outline_char rfl (by decide) (by simp) (by decide) (by decide)

theorem outline_blanks (n offset : Nat) (t : Text) :
    outline 0 offset (Text.blanks n ++ t) = outline 0 (offset + n) t := by
  induction n generalizing offset with
  | zero => rfl
  | succ n ih =>
    rw [Text.blanks, List.replicate_succ, List.cons_append, outline_blank rfl, Nat.add_comm n, ← Nat.add_assoc]
    exact ih (offset + 1)

theorem outline_minus (ht : t.head? ≠ some '>') : outline 0 offset ('-' :: t) = outline 0 (offset + 1) t := by
  refine outline_of_glance rfl ?_
  have hnone : Marker.ofText? ('-' :: t) = none := by simp [Marker.ofText?_cons, ht]
  simp [glance, hnone]

/-- Quiet characters at the head of a text make no difference to its signs. -/
theorem Quiet.outline (h : Quiet n t) (offset : Nat) : outline 0 offset t = outline n offset t := by
  induction h generalizing offset with
  | zero t => rfl
  | char hc h ih => rw [outline_quiet hc, outline_succ, ih]
  | minus ht h ih => rw [outline_minus ht, outline_succ, ih]

/-- A marker behind quiet characters. -/
theorem outline_marker {z u : Text} {m : Marker} (hz : ∀ c ∈ z, isQuiet c = true) (hu : m.Walled u) :
    Lexer.outline 0 offset (z ++ m.text ++ u) = .marker m :: Lexer.outline 0 (offset + (z ++ m.text).length) u := by
  have hquiet : Quiet z.length (z ++ (m.text ++ u)) := quiet_of_eq_append rfl hz
  obtain ⟨c, r, hcr, hc⟩ := m.text_eq_cons
  have hglance : note? c (r ++ u) = none ∧ glance c (r ++ u) = (some (.marker m), r.length) := by
    have hof : Marker.ofText? (c :: (r ++ u)) = some m := by
      rw [← List.cons_append, ← hcr]
      exact hu
    simp only [Marker.isFirst, Bool.or_eq_true, beq_iff_eq] at hc
    rcases hc with (rfl | rfl) | rfl <;> refine ⟨rfl, ?_⟩ <;> simp [glance, hof, hcr]
  have hskip := outline_append z (m.text ++ u) 0 offset
  have hrest := outline_append r u 0 (offset + z.length + 1)
  rw [Nat.add_zero] at hskip hrest
  have hlength : offset + (z ++ m.text).length = offset + z.length + 1 + r.length := by
    rw [List.length_append, hcr, List.length_cons]
    omega
  rw [List.append_assoc, hquiet.outline, hskip, hcr, List.cons_append, outline_glance hglance.1, hglance.2, hrest, ← hcr,
    hlength]
  rfl

/-- Markers and brackets are told by at most two characters behind the first one. -/
theorem glance_congr {t b : Text} (hhead : ∀ d ∈ [':', '-', '<', '>'], t.head? = some d ↔ b.head? = some d)
    (htail : t.head? = some '>' → (t.tail.head? = some '>' ↔ b.tail.head? = some '>')) : glance c t = glance c b := by
  have hcolon := hhead ':' (by simp)
  have hminus := hhead '-' (by simp)
  have hless := hhead '<' (by simp)
  have hgreater := hhead '>' (by simp)
  unfold glance
  rw [Marker.ofText?_cons, Marker.ofText?_cons]
  simp only [hcolon, hminus, hless]
  by_cases ht : t.head? = some '>'
  · simp only [ht, hgreater.mp ht, htail ht]
  · simp only [ht, mt hgreater.mpr ht, if_false]

/-- What belongs to a bracket or a marker begins no comment. -/
theorem glance_more (c : Char) (t : Text) :
    (glance c t).2 ≤ t.length ∧ ∀ d ∈ t.take (glance c t).2, d ≠ '"' ∧ d ≠ '/' := by
  unfold glance
  split
  · simp
  · split
    · simp
    · split
      · rename_i m hm
        obtain ⟨u, hu, -⟩ := Marker.ofText?_eq_some hm
        cases m <;> obtain ⟨rfl, rfl⟩ := List.cons.inj hu <;> simp [Marker.text]
      · split
        · rename_i hless
          obtain ⟨u, rfl⟩ := List.head?_eq_some_iff.mp hless.2
          simp
        · simp

theorem glance_ne_comment (c : Char) (t lexeme : Text) (offset : Nat) : (glance c t).1 ≠ some (.comment lexeme offset) := by
  unfold glance
  split
  · simp
  · split
    · simp
    · split <;> simp

/-! ### The tokens of a text have its signs -/

/-- No marker is read as an ordinary operator. -/
theorem ofText?_of_isOrdinary {t : Text} (h : isOrdinary (scanOperator t).kind = true) : Marker.ofText? t = none := by
  cases hm : Marker.ofText? t with
  | none => rfl
  | some m =>
    rw [scanOperator, hm] at h
    cases h

theorem outline_scanOperator (hstructural : isStructural c = false) (hslash : ¬(c = '/' ∧ t.head? = some '/'))
    (hplain : isOrdinary (scanOperator (c :: t)).kind = true) :
    Lexer.outline 0 offset (c :: t) = Lexer.outline (scanOperator (c :: t)).more (offset + 1) t := by
  simp only [isStructural, List.contains_eq_mem, List.mem_cons, List.not_mem_nil, or_false, decide_eq_false_iff_not,
    not_or] at hstructural
  obtain ⟨-, hquote, hopening, hclosing, -⟩ := hstructural
  have hnote : note? c t = none := by rw [note?, if_neg hquote, if_neg hslash]
  have hnone := ofText?_of_isOrdinary hplain
  have hglance : glance c t = (none, if c = '<' ∧ t.head? = some '<' then 1 else 0) := by
    rw [glance, if_neg hopening, if_neg hclosing, hnone]
  have hone : Lexer.outline 0 offset (c :: t) =
      Lexer.outline (if c = '<' ∧ t.head? = some '<' then 1 else 0) (offset + 1) t := outline_of_glance hnote hglance
  rw [hone]
  unfold scanOperator
  rw [hnone]
  dsimp only
  by_cases htwo : doubleOperators.contains ((c :: t).take 2) = true
  · rw [if_pos htwo]
    have hmem : (c :: t).take 2 ∈ doubleOperators := List.contains_iff_mem.mp htwo
    -- The second half of an operator is read by itself, but for that of `<<`.
    cases t with
    | nil => simp [doubleOperators] at hmem
    | cons d t =>
      simp only [doubleOperators, List.take_succ_cons, List.take_zero, List.mem_cons, List.cons.injEq, and_true,
        List.not_mem_nil, or_false] at hmem
      rcases hmem with ⟨rfl, rfl⟩ | ⟨rfl, rfl⟩ | ⟨rfl, rfl⟩ | ⟨rfl, rfl⟩ | ⟨rfl, rfl⟩ | ⟨rfl, rfl⟩ | ⟨rfl, rfl⟩ | ⟨rfl, rfl⟩ |
        ⟨rfl, rfl⟩ | ⟨rfl, rfl⟩ <;> rfl
  · rw [if_neg htwo, if_neg]
    · split <;> rfl
    · rintro ⟨rfl, ht⟩
      obtain ⟨u, rfl⟩ := List.head?_eq_some_iff.mp ht
      exact htwo rfl

/-- A token that is no comment has the sign that begins where the token begins. -/
theorem outline_scan (hquote : c ≠ '"') (hslash : ¬(c = '/' ∧ t.head? = some '/')) (before : Before) (tok : Token)
    (hkind : tok.kind = (scan before c t).kind) :
    tok.sign?.toList ++ Lexer.outline (scan before c t).more (offset + 1) t = Lexer.outline 0 offset (c :: t) := by
  have hordinary (h : isOrdinary (scan before c t).kind = true) : tok.sign? = none :=
    sign?_of_isOrdinary (hkind ▸ h)
  have hmarker (h : EndsWithMarker (scan before c t) (c :: t)) :
      tok.sign?.toList ++ Lexer.outline (scan before c t).more (offset + 1) t = Lexer.outline 0 offset (c :: t) := by
    obtain ⟨z, m, d, u, ht, hmore, hm, hu, hz⟩ := h
    have hsign : tok.sign? = some (.marker m) := by rw [sign?, hkind, hm]
    have hrest := outline_append (z ++ m.text) u 0 offset
    rw [Nat.add_zero, ← hmore, ← ht, outline_succ] at hrest
    rw [hsign, hrest, hmore, ht, outline_marker hz hu]
    rfl
  cases hs : isStructural c with
  | true =>
    simp only [isStructural, List.contains_eq_mem, List.mem_cons, List.not_mem_nil, or_false, decide_eq_true_eq] at hs
    unfold sign?
    rw [hkind]
    rcases hs with rfl | rfl | rfl | rfl | rfl | rfl
    · exact (outline_char rfl (by decide) (by simp) (by decide) (by decide)).symm
    · exact absurd rfl hquote
    · rfl
    · rfl
    · exact (outline_quiet rfl).symm
    · exact (outline_quiet rfl).symm
  | false =>
    rcases scan_cases hs hslash before with hplain | hends | hoperator
    · rw [hordinary hplain.isOrdinary, hplain.quiet.outline, outline_succ]
      rfl
    · exact hmarker hends
    · rcases scanOperator_kind (c :: t) with hplain | hends
      · rw [outline_scanOperator hs hslash hplain, ← hoperator, hordinary (hoperator ▸ hplain)]
        rfl
      · exact hmarker (hoperator ▸ hends)

/-- A comment is a token. -/
theorem scan_note {n : Nat} (h : note? c t = some n) (before : Before) : scan before c t = ⟨.comment, n⟩ := by
  unfold note? at h
  split at h
  · rename_i hquote
    subst hquote
    obtain rfl := Option.some.inj h
    rfl
  · split at h
    · rename_i hslash
      obtain ⟨rfl, ht⟩ := hslash
      obtain rfl := Option.some.inj h
      simp [scan, ht]
    · cases h

/-- The signs of a text do not depend on what stands before it. -/
theorem signs_lexFrom (skip : Nat) (before : Before) (p : Position) (t : Text) :
    signs (lexFrom skip before p t) = outline skip p.offset t := by
  induction t generalizing skip before p with
  | nil =>
    rw [lexFrom_nil, outline_nil]
    rfl
  | cons c t ih =>
    cases skip with
    | succ skip => rw [lexFrom_skip_cons, outline_succ, ih, Position.after_offset]
    | zero =>
      cases hc : Byte.isBlank c with
      | true => rw [lexFrom_blank hc, outline_blank hc, ih, Position.after_offset]
      | false =>
        rw [lexFrom_token hc, signs_cons, ih, Position.after_offset]
        cases hnote : note? c t with
        | some n =>
          rw [outline_note hnote, scan_note hnote]
          rfl
        | none =>
          have hquote : c ≠ '"' := by
            rintro rfl
            cases hnote
          have hslash : ¬(c = '/' ∧ t.head? = some '/') := by
            rintro ⟨rfl, ht⟩
            simp [note?, ht] at hnote
          exact outline_scan hquote hslash before _ rfl

theorem signs_tokenize (t : Text) : signs (tokenize t) = outline 0 0 t := signs_lexFrom 0 {} {} t

end Outline
end Lexer
end Worksheet
