import Mathlib.Data.List.Forall2
import Worksheet.Proofs.Line.Commented

/-! The equals signs of a text. An operator `=` is seen from the characters: it is an equals sign outside comments that
    belongs neither to a marker nor to a comparison. So blanks in place of comments make no difference to these
    operators, and neither do characters without meaning in place of other such characters. -/

namespace Worksheet
namespace Lexer
open Token

/-- The operators of two characters that an equals sign can be part of, or from which it can be cut off. -/
def couples : List Text := [['=', '='], ['!', '='], ['<', '='], ['>', '='], ['<', '<'], ['>', '>']]

/-- The number of characters behind `c` that belong to the marker or the comparison that begins with `c`. -/
def coupled (c : Char) (t : Text) : Nat :=
  match Marker.ofText? (c :: t) with
  | some m => m.text.length - 1
  | none => if couples.contains (c :: t.take 1) then 1 else 0

/-- The texts behind the operators `=` of a text whose first `skip` characters belong to the token before it. -/
def equals (skip : Nat) : Text → List Text
  | [] => []
  | c :: t =>
    match skip with
    | skip + 1 => equals skip t
    | 0 =>
      match note? c t with
      | some n => equals n t
      | none => (if c = '=' ∧ coupled c t = 0 then [t] else []) ++ equals (coupled c t) t

section Equals
variable {c : Char} {t : Text} {n : Nat}

@[simp] theorem equals_nil (skip : Nat) : equals skip [] = [] := by
  unfold equals
  rfl

@[simp] theorem equals_succ (skip : Nat) : equals (skip + 1) (c :: t) = equals skip t := by
  rw [equals]

theorem equals_note (h : note? c t = some n) : equals 0 (c :: t) = equals n t := by
  rw [equals]
  simp [h]

theorem equals_char (h : note? c t = none) :
    equals 0 (c :: t) = (if c = '=' ∧ coupled c t = 0 then [t] else []) ++ equals (coupled c t) t := by
  rw [equals]
  simp [h]

/-- Characters that belong to the token before them are passed over. -/
theorem equals_append (x t : Text) (n : Nat) : equals (x.length + n) (x ++ t) = equals n t := by
  induction x with
  | nil => simp
  | cons c x ih => rw [List.length_cons, Nat.add_right_comm, List.cons_append, equals_succ, ih]

theorem eq_append_of_mem_equals {skip : Nat} {s : Text} (h : s ∈ equals skip t) : ∃ x, t = x ++ '=' :: s := by
  induction t generalizing skip with
  | nil => simp at h
  | cons c t ih =>
    have hnext {skip : Nat} (h : s ∈ equals skip t) : ∃ x, c :: t = x ++ '=' :: s := by
      obtain ⟨x, hx⟩ := ih h
      exact ⟨c :: x, congrArg (List.cons c) hx⟩
    cases skip with
    | succ skip =>
      rw [equals_succ] at h
      exact hnext h
    | zero =>
      cases hnote : note? c t with
      | some n =>
        rw [equals_note hnote] at h
        exact hnext h
      | none =>
        rw [equals_char hnote] at h
        rcases List.mem_append.mp h with h | h
        · split at h
          · rename_i hc
            obtain rfl := List.mem_singleton.mp h
            exact ⟨[], congrArg (List.cons · s) hc.1⟩
          · cases h
        · exact hnext h

/-! ### Characters without meaning -/

/-- Neither an operator `=` nor a marker nor a comparison begins with `c`. -/
theorem equals_of_coupled (hnote : note? c t = none) (hc : c ≠ '=') (h : coupled c t = 0) :
    equals 0 (c :: t) = equals 0 t := by
  rw [equals_char hnote, if_neg (fun h => hc h.1), h]
  rfl

theorem coupled_eq_zero (hcolon : c ≠ ':') (hminus : ¬(c = '-' ∧ t.head? = some '>'))
    (hcouple : c ∉ ['=', '!', '<', '>']) : coupled c t = 0 := by
  simp only [List.mem_cons, List.not_mem_nil, or_false, not_or] at hcouple
  have hnone : Marker.ofText? (c :: t) = none := by
    rw [Marker.ofText?_cons, if_neg hcolon, if_neg hcouple.2.2.1]
    by_cases hc : c = '-'
    · simp [hc, show t.head? ≠ some '>' from fun h => hminus ⟨hc, h⟩]
    · simp [hc]
  have hmem : couples.contains (c :: t.take 1) = false := by
    simp [couples, hcouple]
  rw [coupled, hnone, hmem]
  rfl

theorem equals_quiet (hc : isQuiet c = true) : equals 0 (c :: t) = equals 0 t := by
  simp only [isQuiet, loud, List.contains_eq_mem, List.mem_cons, Bool.not_eq_true', decide_eq_false_iff_not, not_or] at hc
  refine equals_of_coupled (Classify.note?_eq_none.mpr ?_) ?_ (coupled_eq_zero ?_ ?_ ?_) <;> simp [hc]

theorem equals_blank (hc : Byte.isBlank c = true) : equals 0 (c :: t) = equals 0 t := by
  simp only [Byte.isBlank, Bool.or_eq_true, beq_iff_eq] at hc
  rcases hc with (rfl | rfl) | rfl <;>
    exact equals_of_coupled (Classify.note?_eq_none.mpr (by simp)) (by decide) (coupled_eq_zero (by decide) (by simp) (by decide))

theorem equals_minus (ht : t.head? ≠ some '>') : equals 0 ('-' :: t) = equals 0 t :=
  equals_of_coupled rfl (by decide) (coupled_eq_zero (by decide) (fun h => ht h.2) (by decide))

/-- Quiet characters at the head of a text make no difference to its equals signs. -/
theorem Quiet.equals (h : Quiet n t) : Lexer.equals 0 t = Lexer.equals n t := by
  induction h with
  | zero t => rfl
  | char hc h ih => rw [equals_quiet hc, equals_succ, ih]
  | minus ht h ih => rw [equals_minus ht, equals_succ, ih]

theorem equals_marker {z u : Text} {m : Marker} (hz : ∀ c ∈ z, isQuiet c = true) (hu : m.Walled u) :
    Lexer.equals 0 (z ++ m.text ++ u) = Lexer.equals 0 u := by
  have hquiet : Quiet z.length (z ++ (m.text ++ u)) := quiet_of_eq_append rfl hz
  obtain ⟨c, r, hcr, hc⟩ := m.text_eq_cons
  have hhead : note? c (r ++ u) = none ∧ c ≠ '=' ∧ coupled c (r ++ u) = r.length := by
    have hof : Marker.ofText? (c :: (r ++ u)) = some m := by
      rw [← List.cons_append, ← hcr]
      exact hu
    simp only [Marker.isFirst, Bool.or_eq_true, beq_iff_eq] at hc
    rcases hc with (rfl | rfl) | rfl <;> exact ⟨rfl, by decide, by simp [coupled, hof, hcr]⟩
  obtain ⟨hnote, hne, hcoupled⟩ := hhead
  have hskip := equals_append z (m.text ++ u) 0
  have hrest := equals_append r u 0
  rw [Nat.add_zero] at hskip hrest
  rw [List.append_assoc, hquiet.equals, hskip, hcr, List.cons_append, equals_char hnote, if_neg (fun h => hne h.1),
    hcoupled, hrest]
  rfl

/-! ### The operators among the tokens -/

theorem equals_scanOperator (hslash : ¬(c = '/' ∧ t.head? = some '/')) (hquote : c ≠ '"')
    (hplain : isOrdinary (scanOperator (c :: t)).kind = true) :
    Lexer.equals 0 (c :: t) =
      (if (scanOperator (c :: t)).kind.isOperator = true ∧ c :: t.take (scanOperator (c :: t)).more = ['='] then [t] else []) ++
        Lexer.equals (scanOperator (c :: t)).more t := by
  have hnote : note? c t = none := Classify.note?_eq_none.mpr ⟨hquote, hslash⟩
  have hnone := ofText?_of_isOrdinary hplain
  rw [equals_char hnote]
  unfold scanOperator coupled
  rw [hnone]
  dsimp only
  by_cases htwo : doubleOperators.contains ((c :: t).take 2) = true
  · rw [if_pos htwo]
    have hmem : (c :: t).take 2 ∈ doubleOperators := List.contains_iff_mem.mp htwo
    -- The halves of `**`, `&&`, `||` and `^^` are read by themselves.
    cases t with
    | nil => simp [doubleOperators] at hmem
    | cons d t =>
      simp only [doubleOperators, List.take_succ_cons, List.take_zero, List.mem_cons, List.cons.injEq, and_true,
        List.not_mem_nil, or_false] at hmem
      rcases hmem with ⟨rfl, rfl⟩ | ⟨rfl, rfl⟩ | ⟨rfl, rfl⟩ | ⟨rfl, rfl⟩ | ⟨rfl, rfl⟩ | ⟨rfl, rfl⟩ | ⟨rfl, rfl⟩ | ⟨rfl, rfl⟩ |
        ⟨rfl, rfl⟩ | ⟨rfl, rfl⟩ <;> rfl
  · have hcouple : couples.contains (c :: t.take 1) = false := by
      cases hcouple : couples.contains (c :: t.take 1) with
      | false => rfl
      | true =>
        refine absurd ?_ htwo
        have hmem := List.contains_iff_mem.mp hcouple
        have hsub : ∀ x ∈ couples, x ∈ doubleOperators := by decide
        exact List.contains_iff_mem.mpr (hsub _ hmem)
    rw [if_neg htwo, hcouple, if_neg Bool.false_ne_true]
    by_cases hsingle : (c :: t).head?.any singleOperators.contains = true
    · rw [if_pos hsingle]
      simp [Kind.isOperator]
    · have hc : c ≠ '=' := by
        rintro rfl
        exact hsingle rfl
      rw [if_neg hsingle]
      simp [Kind.isOperator, hc]

/-- A token that is no comment is the operator `=` just where an equals sign stands by itself. -/
theorem equals_scan (hquote : c ≠ '"') (hslash : ¬(c = '/' ∧ t.head? = some '/')) (before : Before) :
    Lexer.equals 0 (c :: t) =
      (if (scan before c t).kind.isOperator = true ∧ c :: t.take (scan before c t).more = ['='] then [t] else []) ++
        Lexer.equals (scan before c t).more t := by
  cases hs : isStructural c with
  | true =>
    simp only [isStructural, List.contains_eq_mem, List.mem_cons, List.not_mem_nil, or_false, decide_eq_true_eq] at hs
    rcases hs with rfl | rfl | rfl | rfl | rfl | rfl
    · exact equals_of_coupled rfl (by decide) (coupled_eq_zero (by decide) (by simp) (by decide))
    · exact absurd rfl hquote
    · exact equals_of_coupled rfl (by decide) (coupled_eq_zero (by decide) (by simp) (by decide))
    · exact equals_of_coupled rfl (by decide) (coupled_eq_zero (by decide) (by simp) (by decide))
    · exact equals_quiet rfl
    · exact equals_quiet rfl
  | false =>
    have hmarker (h : EndsWithMarker (scan before c t) (c :: t)) :
        Lexer.equals 0 (c :: t) =
          (if (scan before c t).kind.isOperator = true ∧ c :: t.take (scan before c t).more = ['='] then [t] else []) ++
            Lexer.equals (scan before c t).more t := by
      obtain ⟨z, m, d, u, ht, hmore, hm, hu, hz⟩ := h
      have hrest := equals_append (z ++ m.text) u 0
      rw [Nat.add_zero, ← hmore, ← ht, equals_succ] at hrest
      rw [hrest, hm, ht, equals_marker hz hu, if_neg (fun h => Bool.false_ne_true h.1)]
      rfl
    rcases scan_cases hs hslash before with hplain | hends | hoperator
    · have hc : c ≠ '=' := by
        rintro rfl
        cases hplain.quiet with
        | char hc h => cases hc
      rw [hplain.quiet.equals, equals_succ, if_neg (fun h => hc (List.cons.inj h.2).1)]
      rfl
    · exact hmarker hends
    · rcases scanOperator_kind (c :: t) with hplain | hends
      · rw [hoperator]
        exact equals_scanOperator hslash hquote hplain
      · exact hmarker (hoperator ▸ hends)

/-- The token at the head of a text is the operator `=`, and the others stand behind it. -/
theorem equals_token (before : Before) (p : Position) :
    equals 0 (c :: t) =
      (if isOperator ⟨(scan before c t).kind, c :: t.take (scan before c t).more, p.line, p.col, p.offset⟩ ['='] = true
        then [t] else []) ++ equals (scan before c t).more t := by
  cases hnote : note? c t with
  | some n =>
    rw [equals_note hnote, scan_note hnote]
    rfl
  | none =>
    obtain ⟨hquote, hslash⟩ := Classify.note?_eq_none.mp hnote
    rw [equals_scan hquote hslash before]
    simp only [isOperator, Bool.and_eq_true, beq_iff_eq]

/-- A text without an operator `=` among its tokens. -/
theorem equals_eq_nil {skip : Nat} {before : Before} {p : Position}
    (h : ∀ tok ∈ lexFrom skip before p t, tok.isOperator ['='] = false) : equals skip t = [] := by
  induction t generalizing skip before p with
  | nil => exact equals_nil skip
  | cons c t ih =>
    cases skip with
    | succ skip =>
      rw [lexFrom_skip_cons] at h
      rw [equals_succ, ih h]
    | zero =>
      cases hc : Byte.isBlank c with
      | true =>
        rw [lexFrom_blank hc] at h
        rw [equals_blank hc, ih h]
      | false =>
        rw [lexFrom_token hc, List.forall_mem_cons] at h
        rw [equals_token before p, h.1, ih h.2]
        rfl

/-- Behind the first operator `=` among its tokens a text is read by itself. -/
theorem equals_lexFrom {skip : Nat} {before : Before} {p : Position} {pre post : List Token} {tok : Token}
    (h : lexFrom skip before p t = pre ++ tok :: post) (hpre : ∀ x ∈ pre, x.isOperator ['='] = false)
    (htok : tok.isOperator ['='] = true) :
    ∃ s before' q, equals skip t = s :: equals 0 s ∧ tok.endOffset + s.length = p.offset + t.length ∧
      post = lexFrom 0 before' q s := by
  induction t generalizing skip before p pre with
  | nil =>
    rw [lexFrom_nil] at h
    have hmem : tok ∈ pre ++ tok :: post := by simp
    rw [← h, List.mem_singleton] at hmem
    rw [hmem] at htok
    cases htok
  | cons c t ih =>
    have hnext {skip : Nat} {before : Before} {pre : List Token} (h : lexFrom skip before (p.after c) t = pre ++ tok :: post)
        (hpre : ∀ x ∈ pre, x.isOperator ['='] = false) :
        ∃ s before' q, equals skip t = s :: equals 0 s ∧ tok.endOffset + s.length = p.offset + (c :: t).length ∧
          post = lexFrom 0 before' q s := by
      obtain ⟨s, before', q, hequals, hoffset, hpost⟩ := ih h hpre
      rw [Position.after_offset, Nat.add_assoc, Nat.add_comm 1] at hoffset
      exact ⟨s, before', q, hequals, hoffset, hpost⟩
    cases skip with
    | succ skip =>
      rw [lexFrom_skip_cons] at h
      rw [equals_succ]
      exact hnext h hpre
    | zero =>
      cases hc : Byte.isBlank c with
      | true =>
        rw [lexFrom_blank hc] at h
        rw [equals_blank hc]
        exact hnext h hpre
      | false =>
        rw [lexFrom_token hc] at h
        rw [equals_token before p]
        cases pre with
        | cons x pre =>
          obtain ⟨rfl, hrest⟩ := List.cons.inj h
          obtain ⟨hx, hpre⟩ := List.forall_mem_cons.mp hpre
          rw [hx]
          exact hnext hrest hpre
        | nil =>
          obtain ⟨rfl, rfl⟩ := List.cons.inj h
          have hone : c :: t.take (scan before c t).more = ['='] := by
            simp only [isOperator, Bool.and_eq_true, beq_iff_eq] at htok
            exact htok.2
          have hmore : (scan before c t).more = 0 ∨ t = [] := by simpa using (List.cons.inj hone).2
          rw [if_pos htok]
          refine ⟨t, .ofKind (scan before c t).kind, p.after c, ?_, ?_, ?_⟩
          · rcases hmore with hmore | rfl
            · rw [hmore]
              rfl
            · rw [equals_nil, equals_nil]
              rfl
          · simp only [endOffset, Token.length, hone, List.length_cons, List.length_nil]
            omega
          · rcases hmore with hmore | rfl
            · rw [hmore]
            · rw [lexFrom_nil, lexFrom_nil]

end Equals

/-! ### Comments -/

section Couples
variable {c : Char} {t b : Text} {cs : List Text} {skip : Nat}

/-- A marker is told by at most two characters behind the first one. -/
theorem ofText?_congr (hhead : ∀ d ∈ [':', '-', '<', '>', '='], t.head? = some d ↔ b.head? = some d)
    (htail : t.head? = some '>' → (t.tail.head? = some '>' ↔ b.tail.head? = some '>')) :
    Marker.ofText? (c :: t) = Marker.ofText? (c :: b) := by
  rw [Marker.ofText?_cons, Marker.ofText?_cons]
  simp only [hhead ':' (by simp), hhead '-' (by simp)]
  by_cases ht : t.head? = some '>'
  · simp only [ht, (hhead '>' (by simp)).mp ht, htail ht]
  · simp only [ht, mt (hhead '>' (by simp)).mpr ht, if_false]

/-- Markers and comparisons are told by at most two characters behind the first one. -/
theorem coupled_congr (hhead : ∀ d ∈ [':', '-', '<', '>', '='], t.head? = some d ↔ b.head? = some d)
    (htail : t.head? = some '>' → (t.tail.head? = some '>' ↔ b.tail.head? = some '>')) : coupled c t = coupled c b := by
  have htake (u : Text) : couples.contains (c :: u.take 1) = true ↔
      (c = '=' ∨ c = '!' ∨ c = '<' ∨ c = '>') ∧ u.head? = some '=' ∨ c = '<' ∧ u.head? = some '<' ∨
        c = '>' ∧ u.head? = some '>' := by
    cases u <;> simp [couples]
    grind
  have hcouple : couples.contains (c :: t.take 1) = couples.contains (c :: b.take 1) := by
    rw [Bool.eq_iff_iff, htake, htake, hhead '=' (by simp), hhead '<' (by simp), hhead '>' (by simp)]
  unfold coupled
  rw [ofText?_congr hhead htail, hcouple]

/-- What belongs to a marker or a comparison has in it the characters of such only. -/
theorem coupled_mem (c : Char) (t : Text) : ∀ d ∈ t.take (coupled c t), d ∈ [':', '-', '<', '>', '='] := by
  unfold coupled
  split
  · rename_i m hm
    obtain ⟨u, hu, -⟩ := Marker.ofText?_eq_some hm
    cases m <;> obtain ⟨rfl, rfl⟩ := List.cons.inj hu <;> simp [Marker.text]
  · split
    · rename_i hcouple
      cases t with
      | nil => simp
      | cons d t =>
        have hmem := List.contains_iff_mem.mp hcouple
        simp only [couples, List.take_succ_cons, List.take_zero, List.mem_cons, List.cons.injEq, and_true,
          List.not_mem_nil, or_false] at hmem
        rcases hmem with ⟨-, rfl⟩ | ⟨-, rfl⟩ | ⟨-, rfl⟩ | ⟨-, rfl⟩ | ⟨-, rfl⟩ | ⟨-, rfl⟩ <;> simp
    · simp

section Heads
variable (h : Classify.Commented t b cs)
include h

/-- The characters of markers and comparisons are found in the two texts at the same places. -/
theorem Commented.heads : ∀ d ∈ [':', '-', '<', '>', '='], t.head? = some d ↔ b.head? = some d := by
  intro d hd
  simp only [List.mem_cons, List.not_mem_nil, or_false] at hd
  rcases hd with rfl | rfl | rfl | rfl | rfl <;> exact h.head?_iff (by decide) (by decide)

theorem Commented.second_head (ht : t.head? = some '>') : t.tail.head? = some '>' ↔ b.tail.head? = some '>' := by
  cases h with
  | nil => rfl
  | char hc h => exact h.head?_iff (by decide) (by decide)
  | comment hx h => exact absurd (Classify.eq_of_note? (hx [])) (by simp_all)
  | last hx => exact absurd (Classify.eq_of_note? hx) (by simp_all)

end Heads

/-- Blanks in place of comments leave the operators `=` where they are. -/
theorem Commented.equals (h : Classify.Commented t b cs) (hskip : Classify.Free skip t) :
    List.Forall₂ (fun s s' => ∃ cs, Classify.Commented s s' cs) (Lexer.equals skip t) (Lexer.equals skip b) := by
  induction h generalizing skip with
  | nil =>
    rw [equals_nil]
    exact .nil
  | @char c t b cs hc h ih =>
    cases skip with
    | succ skip =>
      rw [equals_succ, equals_succ]
      exact ih hskip.tail
    | zero =>
      obtain ⟨hquote, hslash⟩ := Classify.note?_eq_none.mp hc
      have hb : note? c b = none := Classify.note?_eq_none.mpr ⟨hquote, fun hb => hslash ⟨hb.1, h.head?_slash hb.2⟩⟩
      have hfree : Classify.Free (coupled c t) t := by
        intro d hd
        have hmem := coupled_mem c t d hd
        simp only [List.mem_cons, List.not_mem_nil, or_false] at hmem
        rcases hmem with rfl | rfl | rfl | rfl | rfl <;> decide
      rw [equals_char hc, equals_char hb, ← coupled_congr (Commented.heads h) (Commented.second_head h)]
      refine List.rel_append ?_ (ih hfree)
      split
      · exact .cons ⟨cs, h⟩ .nil
      · exact .nil
  | @comment c x t b cs hx h ih =>
    cases skip with
    | succ skip => exact (hskip.not_note (hx _)).elim
    | zero =>
      have hrest := equals_append x t 0
      rw [Nat.add_zero] at hrest
      have hblanks : Lexer.equals 0 (Text.blanks (x.length + 1) ++ b) = Lexer.equals 0 b := by
        generalize x.length + 1 = n
        induction n with
        | zero => rfl
        | succ n ih => exact (equals_blank rfl).trans ih
      rw [equals_note (hx t), hrest, hblanks]
      exact ih (Classify.free_zero t)
  | @last c x hx =>
    cases skip with
    | succ skip => exact (hskip.not_note hx).elim
    | zero =>
      have hrest := equals_append x [] 0
      rw [Nat.add_zero, List.append_nil, equals_nil] at hrest
      have hblanks (n : Nat) : Lexer.equals 0 (Text.blanks n) = [] := by
        induction n with
        | zero => rfl
        | succ n ih => exact (equals_blank rfl).trans ih
      rw [equals_note hx, hrest, hblanks]
      exact .nil

end Couples

/-! ### Characters without meaning -/

/-- The character is no line end, is in no marker and no comparison, and begins no comment. -/
def isIdle (c : Char) : Bool := !(['\n', '"', '/', ':', '-', '<', '>', '=', '!'].contains c)

/-- The second text has other runs of idle characters where the first one has such runs, and blanks where it has
    nothing but blanks. -/
inductive Respaced : Text → Text → Prop
  | blank {x y : Text} (hx : Text.isBlank x = true) (hy : Text.isBlank y = true) : Respaced x y
  | char {c : Char} {t u : Text} (h : Respaced t u) : Respaced (c :: t) (c :: u)
  | gap {x y t u : Text} (hx : x ≠ []) (hy : y ≠ []) (hidle : ∀ c ∈ x ++ y, isIdle c = true)
      (hblank : Text.isBlank x = Text.isBlank y) (h : Respaced t u) : Respaced (x ++ t) (y ++ u)

theorem isIdle_of_isBlank {c : Char} (h : Byte.isBlank c = true) : isIdle c = true := by
  simp only [Byte.isBlank, Bool.or_eq_true, beq_iff_eq] at h
  rcases h with (rfl | rfl) | rfl <;> rfl

section Respaced
variable {t u : Text}

theorem Respaced.refl (t : Text) : Respaced t t := by
  induction t with
  | nil => exact .blank rfl rfl
  | cons c t ih => exact ih.char

theorem Respaced.append (x : Text) (h : Respaced t u) : Respaced (x ++ t) (x ++ u) := by
  induction x with
  | nil => exact h
  | cons c x ih => exact ih.char

/-- Nothing but idle characters is added. -/
theorem Respaced.mem (h : Respaced t u) {d : Char} (hd : isIdle d = false) (hmem : d ∈ u) : d ∈ t := by
  induction h with
  | blank hx hy =>
    rw [isIdle_of_isBlank (List.all_eq_true.mp hy d hmem)] at hd
    cases hd
  | char h ih =>
    rcases List.mem_cons.mp hmem with rfl | hmem
    · exact List.mem_cons_self
    · exact List.mem_cons_of_mem _ (ih hmem)
  | gap hx hy hidle hblank h ih =>
    rcases List.mem_append.mp hmem with hmem | hmem
    · rw [hidle d (List.mem_append_right _ hmem)] at hd
      cases hd
    · exact List.mem_append_right _ (ih hmem)

end Respaced

/-- For each operator `=` whether nothing but blanks stands behind it. -/
def isLastEquals (skip : Nat) (t : Text) : List Bool := (equals skip t).map Text.isBlank

section Respaced
variable {t u : Text} {c : Char}

theorem Respaced.isBlank_eq (h : Respaced t u) : Text.isBlank t = Text.isBlank u := by
  induction h with
  | blank hx hy => rw [hx, hy]
  | char h ih => exact congrArg (_ && ·) ih
  | gap hx hy hidle hblank h ih => simp only [Text.isBlank, List.all_append] at hblank ih ⊢; rw [hblank, ih]

/-- Where one text goes on with a character that is not idle, so does the other. -/
theorem Respaced.head?_iff (h : Respaced t u) {d : Char} (hd : isIdle d = false) :
    t.head? = some d ↔ u.head? = some d := by
  have hrun {x : Text} (hx : x ≠ []) (hidle : ∀ c ∈ x, isIdle c = true) (v : Text) : (x ++ v).head? ≠ some d := by
    obtain ⟨c, x, rfl⟩ := List.exists_cons_of_ne_nil hx
    rintro hc
    obtain rfl := Option.some.inj hc
    rw [hidle c List.mem_cons_self] at hd
    cases hd
  cases h with
  | blank hx hy =>
    have hnone {x : Text} (hx : Text.isBlank x = true) : x.head? ≠ some d := by
      intro hhead
      obtain ⟨y, rfl⟩ := List.head?_eq_some_iff.mp hhead
      rw [isIdle_of_isBlank (List.all_eq_true.mp hx d List.mem_cons_self)] at hd
      cases hd
    exact iff_of_false (hnone hx) (hnone hy)
  | char h => rfl
  | gap hx hy hidle hblank h =>
    exact iff_of_false (hrun hx (fun c hc => hidle c (List.mem_append_left _ hc)) _)
      (hrun hy (fun c hc => hidle c (List.mem_append_right _ hc)) _)

theorem Respaced.note?_eq_none (h : Respaced t u) (hc : note? c t = none) : note? c u = none := by
  obtain ⟨hquote, hslash⟩ := Classify.note?_eq_none.mp hc
  exact Classify.note?_eq_none.mpr ⟨hquote, fun hu => hslash ⟨hu.1, (h.head?_iff rfl).mpr hu.2⟩⟩

theorem isIdle_of_mem {d : Char} (hd : d ∈ [':', '-', '<', '>', '=']) : isIdle d = false := by
  simp only [List.mem_cons, List.not_mem_nil, or_false] at hd
  rcases hd with rfl | rfl | rfl | rfl | rfl <;> rfl

theorem Respaced.coupled_eq (h : Respaced t u) : coupled c t = coupled c u := by
  refine coupled_congr (fun d hd => h.head?_iff (isIdle_of_mem hd)) fun ht => ?_
  have hlast {x v : Text} (hx : x ≠ []) (hidle : ∀ c ∈ x, isIdle c = true) (hv : (x ++ v).head? = some '>') : False := by
    obtain ⟨c, x, rfl⟩ := List.exists_cons_of_ne_nil hx
    obtain rfl := Option.some.inj hv
    exact absurd (hidle '>' List.mem_cons_self) (by decide)
  cases h with
  | blank hx hy =>
    obtain ⟨x, rfl⟩ := List.head?_eq_some_iff.mp ht
    exact absurd (List.all_eq_true.mp hx '>' List.mem_cons_self) (by decide)
  | char h => exact h.head?_iff rfl
  | gap hx hy hidle hblank h => exact (hlast hx (fun c hc => hidle c (List.mem_append_left _ hc)) ht).elim

theorem bare_idle_append {x : Text} (hx : ∀ c ∈ x, isIdle c = true) (h : Classify.Bare t) : Classify.Bare (x ++ t) := by
  induction x with
  | nil => exact h
  | cons c x ih =>
    have hc := hx c List.mem_cons_self
    simp only [isIdle, List.contains_eq_mem, List.mem_cons, List.not_mem_nil, or_false, Bool.not_eq_true',
      decide_eq_false_iff_not, not_or] at hc
    exact Classify.bare_cons.mpr ⟨by simp [hc], by simp [hc], ih fun d hd => hx d (List.mem_cons_of_mem c hd)⟩

/-- No comment comes about. -/
theorem Respaced.bare (h : Respaced t u) (ht : Classify.Bare t) : Classify.Bare u := by
  induction h with
  | @blank x y hx hy =>
    have hidle : ∀ c ∈ y, isIdle c = true := fun c hc => isIdle_of_isBlank (List.all_eq_true.mp hy c hc)
    simpa using bare_idle_append hidle Classify.bare_nil
  | char h ih =>
    obtain ⟨hquote, hslash, ht⟩ := Classify.bare_cons.mp ht
    exact Classify.bare_cons.mpr ⟨hquote, fun hu => hslash ⟨hu.1, (h.head?_iff rfl).mpr hu.2⟩, ih ht⟩
  | @gap x y t u hx hy hidle hblank h ih =>
    exact bare_idle_append (fun c hc => hidle c (List.mem_append_right _ hc)) (ih (ht.mono (List.suffix_append x t).isInfix))

theorem equals_idle (hc : isIdle c = true) (t : Text) : equals 0 (c :: t) = equals 0 t := by
  simp only [isIdle, List.contains_eq_mem, List.mem_cons, List.not_mem_nil, or_false, Bool.not_eq_true',
    decide_eq_false_iff_not, not_or] at hc
  refine equals_of_coupled (Classify.note?_eq_none.mpr ?_) ?_ (coupled_eq_zero ?_ ?_ ?_) <;> simp [hc]

theorem equals_idle_append {x : Text} (hx : ∀ c ∈ x, isIdle c = true) (t : Text) : equals 0 (x ++ t) = equals 0 t := by
  induction x with
  | nil => rfl
  | cons c x ih =>
    rw [List.cons_append, equals_idle (hx c List.mem_cons_self), ih fun d hd => hx d (List.mem_cons_of_mem c hd)]

theorem equals_isBlank {x : Text} (hx : Text.isBlank x = true) (skip : Nat) : equals skip x = [] := by
  induction x generalizing skip with
  | nil => exact equals_nil skip
  | cons c x ih =>
    obtain ⟨hc, hx⟩ := Bool.and_eq_true_iff.mp hx
    cases skip with
    | zero => rw [equals_blank hc, ih hx]
    | succ skip => rw [equals_succ, ih hx]

/-- In a text without comments other runs of idle characters make no difference to the operators `=`. -/
theorem Respaced.isLastEquals_eq (h : Respaced t u) (hbare : Classify.Bare t) {skip : Nat}
    (hskip : ∀ d ∈ t.take skip, isIdle d = false) : isLastEquals skip t = isLastEquals skip u := by
  induction h generalizing skip with
  | blank hx hy => rw [isLastEquals, isLastEquals, equals_isBlank hx, equals_isBlank hy]
  | @char c t u h ih =>
    cases skip with
    | succ skip =>
      have hrest : isLastEquals skip t = isLastEquals skip u := ih hbare.tail fun d hd => hskip d (by simp [hd])
      rw [isLastEquals, isLastEquals, equals_succ, equals_succ]
      exact hrest
    | zero =>
      obtain ⟨hquote, hslash, hbare⟩ := Classify.bare_cons.mp hbare
      have hnote : note? c t = none := Classify.note?_eq_none.mpr ⟨hquote, hslash⟩
      have hrest : isLastEquals (coupled c t) t = isLastEquals (coupled c t) u :=
        ih hbare fun d hd => isIdle_of_mem (coupled_mem c t d hd)
      rw [isLastEquals, isLastEquals, equals_char hnote, equals_char (h.note?_eq_none hnote), ← h.coupled_eq,
        List.map_append, List.map_append]
      refine congrArg₂ _ ?_ hrest
      split
      · exact congrArg ([·]) h.isBlank_eq
      · rfl
  | @gap x y t u hx hy hidle hblank h ih =>
    obtain ⟨hidle, hidle'⟩ := List.forall_mem_append.mp hidle
    cases skip with
    | succ skip =>
      obtain ⟨c, x, rfl⟩ := List.exists_cons_of_ne_nil hx
      have hc := hskip c (by simp)
      rw [hidle c List.mem_cons_self] at hc
      cases hc
    | zero =>
      rw [isLastEquals, isLastEquals, equals_idle_append hidle, equals_idle_append hidle']
      exact ih (hbare.mono (List.suffix_append x t).isInfix) (by simp)

end Respaced
end Lexer
end Worksheet
