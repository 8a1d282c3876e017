import Worksheet.Proofs.Line.Insert
import Worksheet.Proofs.Token.Outline

/-! The comments of a line. A line is a text without comments in which comments stand in place of blanks; the
    rules for markers and brackets read the two alike, and the comments put one behind the other are read as the
    same comments again. -/

namespace Worksheet
namespace Classify
open Token Lexer

/-! ### Where comments stand -/

/-- The text `t` is `b` with the comments `cs` in place of blanks. A comment ends by itself, but for the last one
    of a line. -/
inductive Commented : Text → Text → List Text → Prop
  | nil : Commented [] [] []
  | char {c : Char} {t b : Text} {cs : List Text} (hc : note? c t = none) (h : Commented t b cs) :
      Commented (c :: t) (c :: b) cs
  | comment {c : Char} {x t b : Text} {cs : List Text} (hx : ∀ u, note? c (x ++ u) = some x.length)
      (h : Commented t b cs) : Commented (c :: (x ++ t)) (Text.blanks (x.length + 1) ++ b) ((c :: x) :: cs)
  | last {c : Char} {x : Text} (hx : note? c x = some x.length) :
      Commented (c :: x) (Text.blanks (x.length + 1)) [c :: x]

section Note
variable {c : Char} {t u : Text} {n : Nat}

theorem note?_eq_none : note? c t = none ↔ c ≠ '"' ∧ ¬(c = '/' ∧ t.head? = some '/') := by
  unfold note?
  split
  · simp_all
  · split <;> simp_all

theorem eq_of_note? (h : note? c t = some n) : c = '"' ∨ c = '/' := by
  unfold note? at h
  split at h
  · exact .inl ‹_›
  · split at h
    · exact .inr (‹_ ∧ _›).1
    · cases h

/-- A comment goes to the end of the line, or it ends by itself. -/
theorem note?_cases (ht : '\n' ∉ t) (h : note? c t = some n) :
    n = t.length ∨ ∃ x u, t = x ++ u ∧ n = x.length ∧ ∀ u', note? c (x ++ u') = some n := by
  have hsplit (p : Char → Bool) : t = t.takeWhile p ++ t.dropWhile p := List.takeWhile_append_dropWhile.symm
  unfold note? at h
  split at h
  · rename_i hquote
    subst hquote
    obtain rfl := Option.some.inj h
    unfold scanQuoted Text.span
    dsimp only
    rw [drop_length_takeWhile]
    have hrun : ∀ d ∈ t.takeWhile (fun c => c != '"' && c != '\n'), (d != '"' && d != '\n') = true :=
      fun d hd => List.mem_takeWhile_imp (p := fun c => c != '"' && c != '\n') hd
    have ht' := hsplit fun c => c != '"' && c != '\n'
    have hhead := List.head?_dropWhile_not (fun c => c != '"' && c != '\n') t
    generalize t.takeWhile (fun c => c != '"' && c != '\n') = run at hrun ht' ⊢
    generalize t.dropWhile (fun c => c != '"' && c != '\n') = rest at ht' hhead ⊢
    cases rest with
    | nil => exact .inl (by simp [ht'])
    | cons e rest =>
      have hne : e ≠ '\n' := by
        rintro rfl
        exact ht (ht' ▸ List.mem_append_right run List.mem_cons_self)
      obtain rfl : e = '"' := by simpa [hne] using hhead
      refine .inr ⟨run ++ ['"'], rest, by simp [ht'], by simp, fun u' => ?_⟩
      have hstops : Text.Stops (fun c => c != '"' && c != '\n') ('"' :: u') := by simp
      simp only [note?, scanQuoted, if_true, List.append_assoc, List.singleton_append, Text.span_run hrun hstops,
        List.drop_left, List.head?_cons]
  · split at h
    · obtain rfl := Option.some.inj h
      refine .inl ?_
      have hall : ∀ d ∈ t, (d != '\n') = true := by
        intro d hd
        rw [bne_iff_ne]
        rintro rfl
        exact ht hd
      rw [Text.span, List.takeWhile_eq_self_iff.mpr hall]
    · cases h

end Note

/-- Every line is read so. -/
theorem exists_commented : ∀ t : Text, '\n' ∉ t → ∃ b cs, Commented t b cs
  | [], _ => ⟨[], [], .nil⟩
  | c :: t, h => by
    have ht : '\n' ∉ t := fun hmem => h (List.mem_cons_of_mem c hmem)
    cases hnote : note? c t with
    | none =>
      obtain ⟨b, cs, hb⟩ := exists_commented t ht
      exact ⟨c :: b, cs, .char hnote hb⟩
    | some n =>
      rcases note?_cases ht hnote with rfl | ⟨x, u, rfl, rfl, hx⟩
      · exact ⟨_, _, .last hnote⟩
      · have hlt : u.length < (c :: (x ++ u)).length := by
          rw [List.length_cons, List.length_append]
          omega
        obtain ⟨b, cs, hb⟩ := exists_commented u fun hmem => ht (List.mem_append_right x hmem)
        exact ⟨_, _, .comment hx hb⟩
  termination_by t => t.length

section Commented
variable {t b : Text} {cs : List Text}

/-- The comments of a line, one behind the other, are read as the same comments. -/
theorem Commented.joinBlank (h : Commented t b cs) :
    Commented (joinBlank cs) (Text.blanks (joinBlank cs).length) cs := by
  induction h with
  | nil => exact .nil
  | char hc h ih => exact ih
  | @comment c x t b cs hx h ih =>
    cases cs with
    | nil => simpa [Classify.joinBlank, Text.blanks] using Commented.comment hx .nil
    | cons d cs =>
      have hjoin : Classify.joinBlank ((c :: x) :: d :: cs) = c :: (x ++ ' ' :: Classify.joinBlank (d :: cs)) := by
        simp [Classify.joinBlank, List.intercalate, List.intersperse]
      have hnext := Commented.comment hx (.char (c := ' ') (note?_eq_none.mpr ⟨by decide, by simp⟩) ih)
      have hblanks : Text.blanks (c :: (x ++ ' ' :: Classify.joinBlank (d :: cs))).length =
          Text.blanks (x.length + 1) ++ ' ' :: Text.blanks (Classify.joinBlank (d :: cs)).length := by
        have hlength : (c :: (x ++ ' ' :: Classify.joinBlank (d :: cs))).length =
            (x.length + 1) + ((Classify.joinBlank (d :: cs)).length + 1) := by
          simp only [List.length_cons, List.length_append]
          omega
        rw [hlength, Text.blanks, List.replicate_add, List.replicate_succ]
        rfl
      rw [hjoin, hblanks]
      exact hnext
  | last hx => simpa [Classify.joinBlank] using Commented.last hx

/-! ### What the rules read -/

/-- A character that is neither a blank nor the beginning of a comment stands in both texts. -/
theorem Commented.head?_iff (h : Commented t b cs) {d : Char} (hblank : d ≠ ' ') (hd : d ≠ '"' ∧ d ≠ '/') :
    t.head? = some d ↔ b.head? = some d := by
  have hcomment {c : Char} {x : Text} {n : Nat} (hnote : note? c x = some n) : c ≠ d := by
    rintro rfl
    exact (eq_of_note? hnote).elim hd.1 hd.2
  cases h with
  | nil => rfl
  | char hc h => rfl
  | comment hx h => simp [Text.blanks, List.replicate_succ, hcomment (hx []), Ne.symm hblank]
  | last hx => simp [Text.blanks, List.replicate_succ, hcomment hx, Ne.symm hblank]

theorem Commented.head?_slash (h : Commented t b cs) (hb : b.head? = some '/') : t.head? = some '/' := by
  cases h with
  | nil => exact hb
  | char hc h => exact hb
  | comment hx h => simp [Text.blanks, List.replicate_succ] at hb
  | last hx => simp [Text.blanks, List.replicate_succ] at hb

/-- Markers and brackets are found in the two texts at the same places. -/
theorem Commented.glance_eq {c : Char} (h : Commented t b cs) : glance c t = glance c b := by
  refine glance_congr ?_ ?_
  · intro d hd
    refine h.head?_iff ?_ ?_
    · rintro rfl
      simp at hd
    · constructor <;> rintro rfl <;> simp at hd
  · intro ht
    cases h with
    | nil => rfl
    | char hc h => exact h.head?_iff (by decide) (by decide)
    | comment hx h => exact absurd (eq_of_note? (hx [])) (by simp_all)
    | last hx => exact absurd (eq_of_note? hx) (by simp_all)

/-- The sign is a bracket or a marker. -/
def isStructure : Sign → Bool
  | .comment _ _ => false
  | _ => true

theorem marks_filter (depth : Nat) (ss : List Sign) : marks depth (ss.filter isStructure) = marks depth ss := by
  induction ss generalizing depth with
  | nil => rfl
  | cons s ss ih => cases s <;> simp [List.filter_cons, isStructure, marks, ih]

theorem outline_comment {c : Char} {x : Text} (hx : ∀ u, note? c (x ++ u) = some x.length) (offset : Nat) (t : Text) :
    outline 0 offset (c :: (x ++ t)) = .comment (c :: x) offset :: outline 0 (offset + (x.length + 1)) t := by
  have hrest := outline_append x t 0 (offset + 1)
  rw [Nat.add_zero] at hrest
  rw [outline_note (hx t), List.take_left, hrest, Nat.add_assoc, Nat.add_comm 1]

theorem outline_last {c : Char} {x : Text} (hx : note? c x = some x.length) (offset : Nat) :
    outline 0 offset (c :: x) = [.comment (c :: x) offset] := by
  have hrest := outline_append x [] 0 (offset + 1)
  rw [Nat.add_zero, List.append_nil] at hrest
  rw [outline_note hx, List.take_length, hrest, outline_nil]

/-- The characters that are passed over begin no comment. -/
def Free (skip : Nat) (t : Text) : Prop := ∀ d ∈ t.take skip, d ≠ '"' ∧ d ≠ '/'

theorem free_zero (t : Text) : Free 0 t := by simp [Free]

theorem Free.tail {skip : Nat} {c : Char} (h : Free (skip + 1) (c :: t)) : Free skip t := fun d hd => h d (by simp [hd])

theorem Free.not_note {skip n : Nat} {c : Char} {x : Text} (h : Free (skip + 1) (c :: x)) (hx : note? c x = some n) :
    False := (eq_of_note? hx).elim (h c (by simp)).1 (h c (by simp)).2

/-- Blanks in place of comments make no difference to the signs but for the comments. -/
theorem Commented.structure_outline (h : Commented t b cs) {skip : Nat} (hskip : Free skip t) (offset offset' : Nat) :
    (outline skip offset t).filter isStructure = (outline skip offset' b).filter isStructure := by
  induction h generalizing skip offset offset' with
  | nil => rw [outline_nil, outline_nil]
  | @char c t b cs hc h ih =>
    cases skip with
    | succ skip =>
      rw [outline_succ, outline_succ]
      exact ih hskip.tail _ _
    | zero =>
      obtain ⟨hquote, hslash⟩ := note?_eq_none.mp hc
      have hb : note? c b = none := note?_eq_none.mpr ⟨hquote, fun hb => hslash ⟨hb.1, h.head?_slash hb.2⟩⟩
      rw [outline_glance hc, outline_glance hb, ← h.glance_eq, List.filter_append, List.filter_append,
        ih (glance_more c t).2]
  | comment hx h ih =>
    cases skip with
    | succ skip => exact (hskip.not_note (hx _)).elim
    | zero =>
      rw [outline_comment hx, outline_blanks]
      exact ih (free_zero _) _ _
  | @last c x hx =>
    cases skip with
    | succ skip => exact (hskip.not_note hx).elim
    | zero =>
      have hblanks := outline_blanks (x.length + 1) offset' []
      rw [List.append_nil, outline_nil] at hblanks
      rw [outline_last hx, hblanks]
      rfl

/-- They make no difference to the markers outside brackets. -/
theorem Commented.marks_outline (h : Commented t b cs) {skip : Nat} (hskip : Free skip t) (offset offset' depth : Nat) :
    marks depth (outline skip offset t) = marks depth (outline skip offset' b) := by
  rw [← marks_filter, h.structure_outline hskip offset offset', marks_filter]

/-- The comments of a line, and what is left with blanks in place of them. -/
theorem Commented.comments_outline (h : Commented t b cs) {skip : Nat} (hskip : Free skip t) (x : Text) :
    (commentsOf (outline skip x.length t)).map (·.1) = cs ∧
      blankAll (commentsOf (outline skip x.length t)) (x ++ t) = x ++ b := by
  induction h generalizing skip x with
  | nil =>
    rw [outline_nil]
    exact ⟨rfl, rfl⟩
  | @char c t b cs hc h ih =>
    have hnext {skip : Nat} (hskip : Free skip t) :
        (commentsOf (outline skip (x.length + 1) t)).map (·.1) = cs ∧
          blankAll (commentsOf (outline skip (x.length + 1) t)) (x ++ c :: t) = x ++ c :: b := by
      simpa using ih hskip (x ++ [c])
    cases skip with
    | succ skip =>
      rw [outline_succ]
      exact hnext hskip.tail
    | zero =>
      have hnone : commentsOf (glance c t).1.toList = [] := by
        cases hs : (glance c t).1 with
        | none => rfl
        | some s => cases s <;> first | rfl | exact absurd hs (glance_ne_comment c t _ _)
      rw [outline_glance hc, commentsOf_append, hnone]
      exact hnext (glance_more c t).2
  | @comment c y t b cs hx h ih =>
    cases skip with
    | succ skip => exact (hskip.not_note (hx _)).elim
    | zero =>
      have hblank : blankOut (x ++ c :: (y ++ t)) x.length (y.length + 1) = x ++ Text.blanks (y.length + 1) ++ t := by
        unfold blankOut
        rw [List.take_left, List.drop_length_add_append, List.drop_succ_cons, List.drop_left]
      have hrest := ih (free_zero t) (x ++ Text.blanks (y.length + 1))
      have hlength : (x ++ Text.blanks (y.length + 1)).length = x.length + (y.length + 1) := by simp [Text.blanks]
      rw [hlength] at hrest
      rw [outline_comment hx]
      refine ⟨congrArg (List.cons _) hrest.1, ?_⟩
      rw [← List.append_assoc, ← hrest.2, ← hblank]
      rfl
  | @last c y hx =>
    cases skip with
    | succ skip => exact (hskip.not_note hx).elim
    | zero =>
      rw [outline_last hx]
      refine ⟨rfl, ?_⟩
      show blankOut (x ++ c :: y) x.length (y.length + 1) = x ++ Text.blanks (y.length + 1)
      unfold blankOut
      rw [List.take_left, List.drop_length_add_append, List.drop_succ_cons, List.drop_length, List.append_nil]

theorem Commented.comments_eq (h : Commented t b cs) : (commentsOf (signs (tokenize t))).map (·.1) = cs := by
  rw [signs_tokenize]
  exact (h.comments_outline (free_zero t) []).1

theorem Commented.blankComments_eq (h : Commented t b cs) : blankComments t = b := by
  rw [Classify.blankComments_eq, signs_tokenize]
  exact (h.comments_outline (free_zero t) []).2

theorem Commented.marks_eq (h : Commented t b cs) (depth : Nat) :
    marks depth (signs (tokenize t)) = marks depth (outline 0 0 b) := by
  rw [signs_tokenize]
  exact h.marks_outline (free_zero t) 0 0 depth

end Commented

/-! ### Texts without comments -/

/-- No comment begins in the text. -/
def Bare (x : Text) : Prop := '"' ∉ x ∧ ¬['/', '/'] <:+: x

theorem bare_nil : Bare [] := ⟨by simp, by simp⟩

section Bare
variable {x u b : Text} {cs : List Text}

theorem Bare.mono {y : Text} (h : Bare x) (hy : y <:+: x) : Bare y :=
  ⟨fun hmem => h.1 (hy.subset hmem), fun hslash => h.2 (hslash.trans hy)⟩

theorem Bare.tail {c : Char} (h : Bare (c :: x)) : Bare x := h.mono (List.suffix_cons c x).isInfix

theorem bare_cons {c : Char} : Bare (c :: x) ↔ c ≠ '"' ∧ ¬(c = '/' ∧ x.head? = some '/') ∧ Bare x := by
  constructor
  · intro h
    refine ⟨fun hc => h.1 (hc ▸ List.mem_cons_self), ?_, h.tail⟩
    rintro ⟨rfl, hx⟩
    obtain ⟨y, rfl⟩ := List.head?_eq_some_iff.mp hx
    exact h.2 (List.prefix_append ['/', '/'] y).isInfix
  · rintro ⟨hquote, hslash, h⟩
    refine ⟨by simp [Ne.symm hquote, h.1], ?_⟩
    rw [List.infix_cons_iff, not_or]
    refine ⟨?_, h.2⟩
    rw [List.prefix_cons_iff]
    rintro (hnil | ⟨y, hy, hprefix⟩)
    · cases hnil
    · obtain ⟨rfl, rfl⟩ := List.cons.inj hy
      obtain ⟨z, rfl⟩ := hprefix
      exact hslash ⟨rfl, rfl⟩

/-- On a line without comments the rules look at every token. -/
theorem Bare.loud {skip : Nat} {before : Lexer.Before} {p : Position} {t : Token} (h : Bare x) (hline : '\n' ∉ x)
    (ht : t ∈ Lexer.lexFrom skip before p x) (hfinish : t.kind.isFinish = false) : t.kind.isSilent = false := by
  induction x generalizing skip before p with
  | nil =>
    rw [Lexer.lexFrom_nil, List.mem_singleton] at ht
    rw [ht] at hfinish
    cases hfinish
  | cons c x ih =>
    have hline' : '\n' ∉ x := fun hmem => hline (List.mem_cons_of_mem c hmem)
    cases skip with
    | succ skip =>
      rw [Lexer.lexFrom_skip_cons] at ht
      exact ih h.tail hline' ht
    | zero =>
      cases hc : Byte.isBlank c with
      | true =>
        rw [Lexer.lexFrom_blank hc] at ht
        exact ih h.tail hline' ht
      | false =>
        rw [Lexer.lexFrom_token hc] at ht
        rcases List.mem_cons.mp ht with rfl | ht
        · obtain ⟨hquote, hslash, -⟩ := bare_cons.mp h
          exact Lexer.isSilent_scan hquote hslash (fun hc => hline (hc ▸ List.mem_cons_self)) before
        · exact ih h.tail hline' ht

/-- Behind a text without comments nothing but a blank or the end leaves it so. -/
theorem Bare.note?_eq_none {c : Char} (h : Bare (c :: x)) (hu : Text.Ends u) : note? c (x ++ u) = none := by
  obtain ⟨hquote, hslash, -⟩ := bare_cons.mp h
  refine Classify.note?_eq_none.mpr ⟨hquote, ?_⟩
  rintro ⟨hc, hhead⟩
  cases x with
  | nil => exact absurd (hu '/' hhead) (by decide)
  | cons d x => exact hslash ⟨hc, hhead⟩

theorem bare_blanks_append (n : Nat) (h : Bare b) : Bare (Text.blanks n ++ b) := by
  induction n with
  | zero => exact h
  | succ n ih => exact bare_cons.mpr ⟨by decide, by simp, ih⟩

/-- With blanks in place of them, the comments of a line are gone. -/
theorem Commented.bare {t : Text} (h : Commented t b cs) : Bare b := by
  induction h with
  | nil => exact bare_nil
  | char hc h ih =>
    obtain ⟨hquote, hslash⟩ := Classify.note?_eq_none.mp hc
    exact bare_cons.mpr ⟨hquote, fun hb => hslash ⟨hb.1, h.head?_slash hb.2⟩, ih⟩
  | comment hx h ih => exact bare_blanks_append _ ih
  | last hx => simpa using bare_blanks_append _ bare_nil

theorem Bare.commented_append (hx : Bare x) (hu : Text.Ends u) (h : Commented u b cs) :
    Commented (x ++ u) (x ++ b) cs := by
  induction x with
  | nil => exact h
  | cons c x ih => exact .char (hx.note?_eq_none hu) (ih hx.tail)

/-- The signs of a text without comments are those of its parts before and behind a blank. -/
theorem Bare.outline_append (hx : Bare x) (hu : Text.Ends u) {skip : Nat} (hskip : skip ≤ x.length) (offset : Nat) :
    outline skip offset (x ++ u) = outline skip offset x ++ outline 0 (offset + x.length) u := by
  induction x generalizing skip offset with
  | nil =>
    obtain rfl : skip = 0 := by simpa using hskip
    rw [outline_nil]
    rfl
  | cons c x ih =>
    have hoffset : offset + (c :: x).length = offset + 1 + x.length := by
      rw [List.length_cons]
      omega
    rw [hoffset]
    cases skip with
    | succ skip =>
      rw [List.cons_append, outline_succ, outline_succ]
      exact ih hx.tail (Nat.le_of_succ_le_succ hskip) _
    | zero =>
      have hhead (d : Char) (hd : Byte.isBlank d = false) (y : Text) : (y ++ u).head? = some d ↔ y.head? = some d := by
        cases y with
        | nil =>
          refine ⟨fun hy => ?_, fun hy => nomatch hy⟩
          rw [hu d hy] at hd
          cases hd
        | cons e y => rfl
      have hglance : glance c (x ++ u) = glance c x := by
        refine glance_congr (fun d hd => hhead d ?_ x) fun hx' => ?_
        · simp only [List.mem_cons, List.not_mem_nil, or_false] at hd
          rcases hd with rfl | rfl | rfl | rfl <;> rfl
        · cases x with
          | nil => exact absurd (hu '>' hx') (by decide)
          | cons d x => exact hhead '>' rfl x
      have hx' : note? c x = none := by simpa using hx.note?_eq_none Text.ends_nil
      rw [List.cons_append, outline_glance (hx.note?_eq_none hu), outline_glance hx', hglance, List.append_assoc,
        ih hx.tail (glance_more c x).1]

end Bare
end Classify
end Worksheet
