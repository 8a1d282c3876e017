import Mathlib.Data.List.Pairwise
import Worksheet.Proofs.Document.Emptied
import Worksheet.Proofs.Document.Offsets
import Worksheet.Proofs.Line.Kept
import Worksheet.Proofs.Token.Blanked

/-! A line read with blanks in place of its comments. Comments behind the marker are of no matter. If no token before it
    is read in another way, the subject is the same too; only limits and expressions are cut out of the line itself, so
    they keep the comments that stand in them. -/

namespace Worksheet
open Token Text Lexer

namespace Classify

/-! ### The characters outside comments -/

section Characters
variable {line t : Text} {tok c : Token} {i p q : Nat}

theorem length_blankOut {offset n : Nat} (h : offset + n ≤ t.length) : (blankOut t offset n).length = t.length := by
  simp only [blankOut, blanks, List.length_append, List.length_take, List.length_replicate, List.length_drop]
  omega

theorem getElem?_blankOut {offset n : Nat} (h : offset + n ≤ t.length) (hi : i < offset ∨ offset + n ≤ i) :
    (blankOut t offset n)[i]? = t[i]? := by
  unfold blankOut
  have htake : (t.take offset).length = offset := List.length_take_of_le (by omega)
  have hfront : (t.take offset ++ blanks n).length = offset + n := by
    rw [List.length_append, htake, blanks, List.length_replicate]
  rcases hi with hi | hi
  · rw [List.append_assoc, List.getElem?_append_left (by omega), List.getElem?_take_of_lt hi]
  · rw [List.getElem?_append_right (by omega), hfront, List.getElem?_drop, Nat.add_sub_cancel' hi]

/-- A token stands in the text at its offset. -/
theorem exists_append (h : tok ∈ tokenize line) : ∃ x u, line = x ++ (tok.lexeme ++ u) ∧ x.length = tok.offset := by
  obtain ⟨x, u, hline, hplace⟩ := placed_of_mem_lexFrom h
  rw [Position.advance_start] at hplace
  exact ⟨x, u, hline, (Position.mk.inj hplace).2.2.symm⟩

theorem endOffset_le_length (h : tok ∈ tokenize line) : tok.endOffset ≤ line.length := by
  obtain ⟨x, u, hline, hoffset⟩ := exists_append h
  rw [hline, List.length_append, List.length_append, endOffset, Token.length]
  omega

/-- Blanks in place of comments leave the length as it is, and the characters outside the comments. -/
theorem foldl_blankOut {cs : List Token} (h : ∀ c ∈ cs, c.endOffset ≤ t.length) :
    (cs.foldl (fun t c => blankOut t c.offset c.length) t).length = t.length ∧
      ∀ i, (∀ c ∈ cs, ¬c.Covers i) → (cs.foldl (fun t c => blankOut t c.offset c.length) t)[i]? = t[i]? := by
  induction cs generalizing t with
  | nil => exact ⟨rfl, fun i _ => rfl⟩
  | cons c cs ih =>
    obtain ⟨hend, hcs⟩ := List.forall_mem_cons.mp h
    have hlength : (blankOut t c.offset c.length).length = t.length := length_blankOut hend
    obtain ⟨hrest, hchars⟩ := ih fun d hd => hlength ▸ hcs d hd
    refine ⟨hrest.trans hlength, fun i hi => ?_⟩
    obtain ⟨hcovers, hi⟩ := List.forall_mem_cons.mp hi
    refine (hchars i hi).trans (getElem?_blankOut hend ?_)
    simp only [Covers, endOffset] at hcovers
    omega

theorem endOffset_comment_le (h : c ∈ comments (tokenize line)) : c.endOffset ≤ line.length :=
  endOffset_le_length (List.mem_of_mem_filter h)

theorem length_blankComments (line : Text) : (blankComments line).length = line.length :=
  (foldl_blankOut fun _ => endOffset_comment_le).1

theorem getElem?_blankComments (h : ∀ c ∈ comments (tokenize t), ¬c.Covers i) : (blankComments t)[i]? = t[i]? :=
  (foldl_blankOut fun _ => endOffset_comment_le).2 i h

instance : DecidablePred Bare := fun x => inferInstanceAs (Decidable ('"' ∉ x ∧ ¬['/', '/'] <:+: x))

theorem newline_not_mem_blankComments (h : '\n' ∉ line) : '\n' ∉ blankComments line := fun hmem =>
  (mem_blankComments hmem).elim h fun heq => nomatch heq

theorem bare_blankComments (h : '\n' ∉ line) : Bare (blankComments line) := by
  obtain ⟨b, cs, hb⟩ := exists_commented line h
  rw [hb.blankComments_eq]
  exact hb.bare

theorem Bare.blankComments_eq (h : Bare t) : blankComments t = t := by
  have hcommented := h.commented_append ends_nil .nil
  rw [List.append_nil] at hcommented
  exact hcommented.blankComments_eq

/-- A comment is none of the texts without comments. -/
theorem Commented.not_bare {b y : Text} {cs : List Text} (h : Commented t b cs) (hy : y ∈ cs) : ¬Bare y := by
  have hnote {c : Char} {x : Text} {n : Nat} (hx : note? c x = some n) : ¬Bare (c :: x) := by
    intro hbare
    obtain ⟨hquote, hslash, -⟩ := bare_cons.mp hbare
    cases hx.symm.trans (note?_eq_none.mpr ⟨hquote, hslash⟩)
  induction h with
  | nil => cases hy
  | char hc h ih => exact ih hy
  | @comment c x t b cs hx h ih =>
    rcases List.mem_cons.mp hy with rfl | hy
    · have hself := hx []
      rw [List.append_nil] at hself
      exact hnote hself
    · exact ih hy
  | last hx =>
    obtain rfl := List.mem_singleton.mp hy
    exact hnote hx

theorem not_bare_lexeme (h : '\n' ∉ line) (hc : c ∈ comments (tokenize line)) : ¬Bare c.lexeme := by
  obtain ⟨b, cs, hb⟩ := exists_commented line h
  refine hb.not_bare ?_
  rw [← hb.comments_eq, commentsOf_signs, List.map_map]
  exact List.mem_map.mpr ⟨c, hc, rfl⟩

/-! ### Parts of a line -/

/-- The offset is not inside of a comment of the line. -/
def Outside (line : Text) (i : Nat) : Prop := ∀ c ∈ comments (tokenize line), c.endOffset ≤ i ∨ i ≤ c.offset

theorem outside_token (h : tok ∈ significant (tokenize line)) : Outside line tok.offset ∧ Outside line tok.endOffset := by
  have hle : tok.offset ≤ tok.endOffset := Nat.le_add_right _ _
  have hapart {c : Token} (hc : c ∈ comments (tokenize line)) : c.endOffset ≤ tok.offset ∨ tok.endOffset ≤ c.offset := by
    have hsymm : Std.Symm fun a b : Token => a.endOffset ≤ b.offset ∨ b.endOffset ≤ a.offset := ⟨fun _ _ => Or.symm⟩
    have hordered : (tokenize line).Pairwise fun a b => a.endOffset ≤ b.offset ∨ b.endOffset ≤ a.offset :=
      (pairwise_lexFrom 0 {} {} line).imp .inl
    obtain ⟨htok, hloud⟩ := List.mem_filter.mp h
    obtain ⟨hc, hcomment⟩ := List.mem_filter.mp hc
    refine hordered.forall hc htok ?_
    rintro rfl
    cases hk : c.kind <;> simp_all [Kind.isComment, Kind.isSilent]
  exact ⟨fun c hc => (hapart hc).imp_right hle.trans, fun c hc => (hapart hc).imp_left (·.trans hle)⟩

theorem isInfix_slice {x y u : Text} (hp : p ≤ x.length) (hq : x.length + y.length ≤ q) :
    y <:+: slice (x ++ (y ++ u)) p q := by
  have hpre : x.drop p ++ y <+: slice (x ++ (y ++ u)) p q := by
    unfold slice
    rw [List.drop_append_of_le_length hp, List.prefix_take_iff, ← List.append_assoc, List.length_append, List.length_drop]
    exact ⟨List.prefix_append _ u, by omega⟩
  exact (List.suffix_append _ y).isInfix.trans hpre.isInfix

/-- A part of the line without comments in it stays what it is. -/
theorem slice_blankComments (h : '\n' ∉ line) (hp : Outside line p) (hq : Outside line q) (hbare : Bare (line.slice p q)) :
    (blankComments line).slice p q = line.slice p q := by
  refine List.ext_getElem? fun j => ?_
  unfold slice
  rw [List.getElem?_take, List.getElem?_take]
  split
  · rename_i hj
    rw [List.getElem?_drop, List.getElem?_drop]
    refine getElem?_blankComments fun c hc ⟨hbegin, hend⟩ => ?_
    -- a comment around this character would be part of the slice
    have hfirst : p ≤ c.offset := (hp c hc).resolve_left (by omega)
    have hlast : c.endOffset ≤ q := (hq c hc).resolve_right (by omega)
    obtain ⟨x, u, hline, hoffset⟩ := exists_append (List.mem_of_mem_filter hc)
    refine not_bare_lexeme h hc (hbare.mono ?_)
    rw [hline]
    exact isInfix_slice (hoffset ▸ hfirst) (hoffset ▸ hlast)
  · rfl

/-- Trimming takes no comment away. -/
theorem bare_of_trim (h : Bare (trim t)) : Bare t := by
  have hright {x r : Text} (hx : Bare x) (hr : ∀ c ∈ r, Byte.isBlank c = true) : Bare (x ++ r) := by
    induction x with
    | nil => simpa using bare_idle_append (fun c hc => isIdle_of_isBlank (hr c hc)) bare_nil
    | cons c x ih =>
      obtain ⟨hquote, hslash, hx⟩ := bare_cons.mp hx
      refine bare_cons.mpr ⟨hquote, fun ⟨hc, hhead⟩ => ?_, ih hx⟩
      cases x with
      | nil => cases hr '/' (List.mem_of_head? hhead)
      | cons d x => exact hslash ⟨hc, hhead⟩
  obtain ⟨r, hr, hblank⟩ := exists_trimRight (trimLeft t)
  have hleft : Bare (trimLeft t) := by
    rw [hr]
    exact hright h hblank
  rw [← List.takeWhile_append_dropWhile (p := Byte.isBlank) (l := t)]
  exact bare_idle_append (fun c hc => isIdle_of_isBlank (List.mem_takeWhile_imp hc)) hleft

end Characters

end Classify

/-! ### Subjects -/

/-- What a text becomes with blanks in place of the comments around: it has none, and it is the same if it had none. -/
structure Text.Uncovers (x x' : Text) : Prop where
  bare : Classify.Bare x'
  eq : Classify.Bare x → x' = x

structure LimitsText.Uncovers (l l' : LimitsText) : Prop where
  low : l.low.Uncovers l'.low
  high : l.high.Uncovers l'.high

namespace Subject

inductive Uncovers : Subject → Subject → Prop
  | declaration (name : Text) {limits limits' : Option LimitsText} (h : Option.Rel LimitsText.Uncovers limits limits') :
      Uncovers (.declaration name limits) (.declaration name limits')
  | expression {x x' : Text} (h : x.Uncovers x') : Uncovers (.expression x) (.expression x')

/-- No comment stands in the limits or in the expression. -/
def IsBare : Subject → Prop
  | declaration _ limits => ∀ l ∈ limits, Classify.Bare l.low ∧ Classify.Bare l.high
  | expression source => Classify.Bare source

instance : DecidablePred IsBare
  | declaration _ limits => inferInstanceAs (Decidable (∀ l ∈ limits, Classify.Bare l.low ∧ Classify.Bare l.high))
  | expression source => inferInstanceAs (Decidable (Classify.Bare source))

variable {s s' : Subject}

theorem Uncovers.eq_iff (h : s.Uncovers s') : s' = s ↔ s.IsBare := by
  cases h with
  | expression hx =>
    refine ⟨fun heq => ?_, fun hbare => congrArg Subject.expression (hx.eq hbare)⟩
    exact Subject.expression.inj heq ▸ hx.bare
  | @declaration name limits limits' hlimits =>
    cases hlimits with
    | none => exact ⟨fun _ => (fun l hl => nomatch hl), fun _ => rfl⟩
    | @some l l' hl =>
      constructor
      · intro heq
        obtain rfl := Option.some.inj (Subject.declaration.inj heq).2
        rintro _ ⟨⟩
        exact ⟨hl.low.bare, hl.high.bare⟩
      · intro hbare
        obtain ⟨hlow, hhigh⟩ := hbare l rfl
        obtain ⟨low, high⟩ := l
        obtain ⟨low', high'⟩ := l'
        obtain rfl : low' = low := hl.low.eq hlow
        obtain rfl : high' = high := hl.high.eq hhigh
        rfl

end Subject

namespace Classify

/-- The same finding but for the comments in its subject. -/
structure Finding.Uncovers (f f' : Finding) : Prop where
  subject : f.subject.Uncovers f'.subject
  labelEnd : f'.labelEnd = f.labelEnd
  decoration : f'.decoration = f.decoration

section Subject
variable {line : Text} {before : List Token} {p q : Nat} {m : Marker} {d : Decoration} (hline : '\n' ∉ line)
include hline

theorem uncovers_slice (hp : Outside line p) (hq : Outside line q) :
    (trim (line.slice p q)).Uncovers (trim ((blankComments line).slice p q)) where
  bare := by
    have hslice : (blankComments line).slice p q <:+: blankComments line :=
      (List.take_prefix _ _).isInfix.trans (List.drop_suffix _ _).isInfix
    exact (bare_blankComments hline).mono ((isInfix_trim _).trans hslice)
  eq hbare := congrArg trim (slice_blankComments hline hp hq (bare_of_trim hbare))

variable (hbefore : ∀ t ∈ before, Outside line t.offset ∧ Outside line t.endOffset)
include hbefore

theorem readHead_blankComments (d : Decoration) :
    (readHead (blankComments line) d before).decoration = (readHead line d before).decoration ∧
      (readHead (blankComments line) d before).rest = (readHead line d before).rest ∧
      Option.Rel LimitsText.Uncovers (readHead line d before).limits (readHead (blankComments line) d before).limits := by
  have hsubset := (takeSuffixes_suffix d before).subset
  unfold readHead
  generalize takeSuffixes d before = passed at hsubset ⊢
  obtain ⟨e, rest⟩ := passed
  dsimp only at hsubset ⊢
  cases rest with
  | nil => exact ⟨rfl, rfl, .none⟩
  | cons closing rest =>
    dsimp only
    split
    · rename_i colon opening rest' hclosing hopen
      refine ⟨rfl, rfl, ?_⟩
      have hall : ∀ t ∈ closing :: rest, Outside line t.offset ∧ Outside line t.endOffset := fun t ht => hbefore t (hsubset ht)
      have hcolon := findOpen_colon (P := fun t => Outside line t.offset ∧ Outside line t.endOffset) (by simp) hall hopen
      have hopening := hall opening ((findOpen_suffix hopen).subset List.mem_cons_self)
      cases colon with
      | none => exact .none
      | some colon =>
        obtain ⟨hleft, hright⟩ := hcolon colon rfl
        exact .some ⟨uncovers_slice hline hopening.2 hleft, uncovers_slice hline hright (hall closing List.mem_cons_self).1⟩
    · exact ⟨rfl, rfl, .none⟩

theorem expressionBefore_blankComments (d : Decoration) :
    Option.Rel Finding.Uncovers (expressionBefore line d before) (expressionBefore (blankComments line) d before) := by
  have hsubset := (expressionStart_suffix before).subset
  unfold expressionBefore
  split
  · rename_i last rest first more hstart
    have hfirst := hbefore first (hsubset (hstart ▸ List.mem_cons_self))
    have hlast := hbefore last List.mem_cons_self
    exact .some ⟨.expression (uncovers_slice hline hfirst.1 hlast.2), rfl, rfl⟩
  · exact .none

/-- Blanks in place of the comments of a line make no difference to the subject but in its texts. -/
theorem subjectBefore_blankComments (m : Marker) (d : Decoration) :
    Option.Rel Finding.Uncovers (subjectBefore line m d before) (subjectBefore (blankComments line) m d before) := by
  have hexpression := expressionBefore_blankComments hline hbefore d
  obtain ⟨hdecoration, hrest, hlimits⟩ := readHead_blankComments hline hbefore d
  unfold subjectBefore
  dsimp only
  rw [hrest, hdecoration]
  split
  · split
    · split
      · exact .some ⟨.declaration _ hlimits, rfl, rfl⟩
      · exact hexpression
    · split
      · exact .none
      · exact hexpression
  · split
    · exact .none
    · exact hexpression

end Subject
end Classify

/-! ### Value lines -/

namespace ValueLine

/-- The value line without its comments. -/
def withoutComments (l : ValueLine) : ValueLine := { l with trailing := [], quoted := none }

/-- The same value line but for its comments and those in its subject. -/
structure Uncovers (l l' : ValueLine) : Prop where
  subject : l.subject.Uncovers l'.subject
  rest : l' = { l.withoutComments with subject := l'.subject }

variable {l l' : ValueLine}

theorem Uncovers.eq_iff (h : l.Uncovers l') : l'.withoutComments = l.withoutComments ↔ l.subject.IsBare := by
  rw [← h.subject.eq_iff]
  constructor
  · intro heq
    have hsubject := congrArg ValueLine.subject heq
    exact hsubject
  · intro heq
    rw [h.rest, heq]
    rfl

theorem Uncovers.of_withoutComments {l₁ : ValueLine} (h : l₁.Uncovers l') (heq : l₁.withoutComments = l.withoutComments) :
    l.Uncovers l' where
  subject := by
    have hsubject : l.withoutComments.subject = l₁.withoutComments.subject := by rw [heq]
    exact (show l.subject = l₁.subject from hsubject) ▸ h.subject
  rest := heq ▸ h.rest

theorem Uncovers.shift (h : l.Uncovers l') (n : Nat) : (l.shift n).Uncovers (l'.shift n) where
  subject := h.subject
  rest := congrArg (ValueLine.shift n) h.rest

theorem Uncovers.markerBegin_eq (h : l.Uncovers l') : l'.markerBegin = l.markerBegin := by
  rw [h.rest]
  rfl

end ValueLine

namespace Classify
variable {line h u b : Text} {cs : List Text} {pre ts us : List Token} {t : Token} {m : Marker} {d : Decoration} {index : Nat}

/-- The value line of a line, by its marker. -/
theorem classifyLine_of_choose (hchoose : choose (candidates 0 0 (significant (tokenize line))) = some (index, m))
    (ht : (significant (tokenize line))[index]? = some t) : classifyLine line =
      if index = 0 || opensBlock (significant (tokenize line)) index then none
      else (subjectBefore line m ⟨t.kind.style, t.kind.base⟩ ((significant (tokenize line)).take index).reverse).map
        (lineAt line (tokenize line) m t) := by
  unfold classifyLine ofTokens
  dsimp only
  rw [hchoose, Option.bind_eq_bind, Option.bind_some]
  dsimp only
  rw [ht, Option.bind_eq_bind, Option.bind_some]
  cases subjectBefore line m ⟨t.kind.style, t.kind.base⟩ ((significant (tokenize line)).take index).reverse <;> rfl

theorem choose_eq_none_iff {xs : List (Nat × Marker)} : choose xs = none ↔ xs = [] := by
  unfold choose
  cases xs with
  | nil => simp
  | cons x xs => split <;> simp

theorem classifyLine_of_choose_none (hchoose : choose (candidates 0 0 (significant (tokenize line))) = none) :
    classifyLine line = none := by
  unfold classifyLine ofTokens
  dsimp only
  rw [hchoose]
  rfl

/-- A line of which no token is read in another way is the same value line with blanks in place of its comments, but for
    the comments. -/
theorem classifyLine_of_steady (hline : '\n' ∉ line) (hsteady : steady (blankComments line) false (tokenize line) = true) :
    Option.Rel ValueLine.Uncovers (classifyLine line) (classifyLine (blankComments line)) := by
  have htokens := tokenize_blankComments hline hsteady
  have hcomments : comments (tokenize (blankComments line)) = [] := by
    rw [htokens, comments, List.filter_filter]
    simp
  have hsignificant : significant (tokenize (blankComments line)) = significant (tokenize line) := by
    rw [htokens, significant, List.filter_filter]
    refine List.filter_congr fun t _ => ?_
    cases hk : t.kind <;> simp [Kind.isSilent, Kind.isComment]
  have hagain := (bare_blankComments hline).blankComments_eq
  cases hchoose : choose (candidates 0 0 (significant (tokenize line))) with
  | none =>
    rw [classifyLine_of_choose_none hchoose, classifyLine_of_choose_none (by rwa [hsignificant])]
    exact .none
  | some x =>
    obtain ⟨index, m⟩ := x
    obtain ⟨-, t, ht, -⟩ := candidates_spec (choose_mem hchoose)
    rw [Nat.sub_zero] at ht
    have hbefore : ∀ t ∈ ((significant (tokenize line)).take index).reverse, Outside line t.offset ∧ Outside line t.endOffset :=
      fun t ht => outside_token (List.mem_of_mem_take (List.mem_reverse.mp ht))
    have hsubject := subjectBefore_blankComments hline hbefore m ⟨t.kind.style, t.kind.base⟩
    rw [classifyLine_of_choose hchoose ht, classifyLine_of_choose (t := t) (by rw [hsignificant, hchoose]) (by rw [hsignificant, ht]),
      hsignificant]
    generalize subjectBefore line m _ _ = found at hsubject ⊢
    generalize subjectBefore (blankComments line) m _ _ = found' at hsubject ⊢
    split
    · exact .none
    · cases hsubject with
      | none => exact .none
      | some h =>
        refine .some ⟨h.subject, ?_⟩
        simp [lineAt, lastQuoted, ValueLine.withoutComments, hagain, hcomments, h.labelEnd, h.decoration, joinBlank]

/-! ### Comments behind the marker -/

/-- The marker that counts. -/
def chosen? (line : Text) : Option Token :=
  (choose (candidates 0 0 (significant (tokenize line)))).bind fun x => (significant (tokenize line))[x.1]?

/-- The tokens before the marker that counts. -/
def leading (line : Text) : List Token :=
  match chosen? line with
  | some t => (tokenize line).takeWhile fun a => decide (a.endOffset ≤ t.offset)
  | none => []

section Behind

theorem ReadsUpTo.takeWhile_eq (hr : ReadsUpTo h pre t m) (hu : m.Walled u) :
    ((tokenize (h ++ u)).takeWhile fun a => decide (a.endOffset ≤ t.offset)) = pre := by
  have hpos : 0 < t.lexeme.length := List.length_pos_iff.mpr hr.lexeme_ne_nil
  have hlt : t.offset < t.endOffset := Nat.lt_add_of_pos_right hpos
  have hstop : ¬decide (t.endOffset ≤ t.offset) = true := fun hle => Nat.not_le.mpr hlt (of_decide_eq_true hle)
  rw [hr.tokens u hu, List.takeWhile_append_of_pos fun a ha => by simpa using hr.before a ha]
  simp [hstop]

/-- A marker is not read in another way. -/
theorem turns_marker (ht : t ∈ tokenize line) (hkind : t.kind = .marker m d) (due : Bool) (rest : Text) :
    turns due t.kind t.lexeme rest = false := by
  obtain ⟨z, hz, hlexeme⟩ := decorated_of_mem_lexFrom ht hkind
  have hstart : t.lexeme.head?.any Byte.isNameStart = false := by
    rw [hlexeme]
    cases hz <;> cases m <;> rfl
  rw [turns, hkind, hstart]
  rfl

/-- What comes behind a marker is read as behind the beginning of a line. -/
theorem steady_marker {clean : Text} (hkind : t.kind = .marker m d) (hturns : ∀ due rest, turns due t.kind t.lexeme rest = false)
    (due : Bool) : steady clean due (ts ++ t :: us) = (steady clean due ts && steady clean false us) := by
  induction ts generalizing due with
  | nil =>
    rw [List.nil_append, steady_cons (by rw [hkind]; rfl), hturns, hkind]
    rfl
  | cons a ts ih =>
    rw [List.cons_append]
    cases hcomment : a.kind.isComment with
    | true => rw [steady_comment hcomment, steady_comment hcomment, ih]
    | false => rw [steady_cons hcomment, steady_cons hcomment, ih, Bool.and_assoc]

/-- Without comments no token is read in another way. -/
theorem Bare.steady {clean : Text} {p : Position} (hu : Bare u) (hline : '\n' ∉ u) (hclean : clean.drop p.offset = u) :
    Classify.steady clean false (lexFrom 0 {} p u) = true := by
  have hcommented := hu.commented_append ends_nil .nil
  rw [List.append_nil] at hcommented
  have hreads : ReadsOn clean 0 {} {} p u u := hcommented.readsOn (free_zero u) hline rfl hclean
  unfold ReadsOn at hreads
  split at hreads
  · assumption
  · exact absurd rfl hreads

theorem Commented.append_left {x : Text} (hx : ∀ c ∈ x, c ≠ '"' ∧ c ≠ '/') (hu : Commented u b cs) :
    Commented (x ++ u) (x ++ b) cs := by
  induction x with
  | nil => exact hu
  | cons c x ih =>
    obtain ⟨⟨hquote, hslash⟩, hx⟩ := List.forall_mem_cons.mp hx
    exact (ih hx).char (note?_eq_none.mpr ⟨hquote, fun h => hslash h.1⟩)

theorem Commented.walled (hu : Commented u b cs) (hwalled : m.Walled u) : m.Walled b :=
  (hu.append_left fun _ => ne_of_mem_text).ofText?_eq.symm.trans hwalled

variable (hr : ReadsUpTo h pre t m) (hwalled : m.Walled u) (hnewline : '\n' ∉ h ++ u)
include hr hwalled hnewline

/-- Comments behind the marker that counts are of no matter to the value line, itself aside. -/
theorem ReadsUpTo.classifyLine_commented (hloud : t.kind.isSilent = false)
    (hchoose : choose (candidates 0 0 (significant (tokenize (h ++ u)))) = some ((significant pre).length, m)) : Option.Rel (fun l l' => l'.withoutComments = l.withoutComments)
    (classifyLine (h ++ u)) (classifyLine (h ++ blankComments u)) := by
  have hline : '\n' ∉ u := fun hmem => hnewline (List.mem_append_right h hmem)
  have hblank : '\n' ∉ blankComments u := newline_not_mem_blankComments hline
  obtain ⟨b, cs, hu⟩ := exists_commented u hline
  rw [hu.blankComments_eq] at hblank ⊢
  have hwalled' := hu.walled hwalled
  have hself := hu.bare.commented_append ends_nil .nil
  rw [List.append_nil] at hself
  have hmarks (depth : Nat) : marks depth (signs (tokenize b)) = marks depth (signs (tokenize u)) := by
    rw [hu.marks_eq, Lexer.signs_tokenize]
  have hchoose' := hr.choose_eq hwalled hwalled' hloud (fun depth => hmarks depth ▸ List.Subset.refl _) hchoose
  have hopens : opensBlock (significant (tokenize (h ++ b))) (significant pre).length =
      opensBlock (significant (tokenize (h ++ u))) (significant pre).length := by
    rw [hr.opensBlock_eq hwalled' hloud, hr.opensBlock_eq hwalled hloud, hu.opensBlock hline, hself.opensBlock hblank]
  have hpayload : (blankComments (h ++ b)).drop t.endOffset = (blankComments (h ++ u)).drop t.endOffset := by
    rw [hr.endOffset, hr.blankComments_drop hwalled', hr.blankComments_drop hwalled, hu.blankComments_eq, hu.bare.blankComments_eq]
  rw [classifyLine_of_choose hchoose (hr.getElem?_significant hwalled hloud),
    classifyLine_of_choose hchoose' (hr.getElem?_significant hwalled' hloud), hopens, hr.subjectBefore_eq hwalled hloud,
    hr.subjectBefore_eq hwalled' hloud]
  split
  · exact .none
  · cases subjectBefore h m ⟨t.kind.style, t.kind.base⟩ (significant pre).reverse with
    | none => exact .none
    | some found => exact .some (by simp [lineAt, ValueLine.withoutComments, hpayload])

/-- A line is steady without the comments behind the marker that counts if the tokens before the marker are. -/
theorem ReadsUpTo.steady_commented (hsteady : steady (blankComments (h ++ u)) false pre = true) :
    steady (blankComments (h ++ blankComments u)) false (tokenize (h ++ blankComments u)) = true ∧
      blankComments (h ++ blankComments u) = blankComments (h ++ u) := by
  have hline : '\n' ∉ u := fun hmem => hnewline (List.mem_append_right h hmem)
  have hblank : '\n' ∉ blankComments u := newline_not_mem_blankComments hline
  have hbare := bare_blankComments hline
  obtain ⟨b, cs, hu⟩ := exists_commented u hline
  rw [hu.blankComments_eq] at hblank hbare ⊢
  have hwalled' := hu.walled hwalled
  obtain ⟨y, hy, hall⟩ := hr.exists_blankComments
  have hclean : blankComments (h ++ b) = y ++ b := by rw [hall b hwalled', hbare.blankComments_eq]
  have hclean' : blankComments (h ++ u) = y ++ b := by rw [hall u hwalled, hu.blankComments_eq]
  rw [hclean'] at hsteady
  rw [hclean, hclean', hr.tokens b hwalled']
  obtain ⟨d, hkind⟩ : ∃ d, t.kind = .marker m d := by
    have hmarker := hr.kind
    cases hk : t.kind <;> simp_all [Kind.marker?]
  have hmem : t ∈ tokenize (h ++ b) := by
    rw [hr.tokens b hwalled']
    exact List.mem_append_right pre List.mem_cons_self
  have hbehind : (y ++ b).drop (Position.advance {} h).offset = b := by
    rw [Position.advance_offset, Nat.zero_add, ← hy, List.drop_left]
  rw [steady_marker hkind (turns_marker hmem hkind), hsteady, hbare.steady hblank hbehind]
  exact ⟨rfl, rfl⟩

end Behind
/-- A line of which no token before the marker is read in another way is the same value line with blanks in place of its
    comments, but for the comments. -/
theorem classifyLine_blankComments (hline : '\n' ∉ line) (hsteady : steady (blankComments line) false (leading line) = true) :
    Option.Rel ValueLine.Uncovers (classifyLine line) (classifyLine (blankComments line)) := by
  cases hchoose : choose (candidates 0 0 (significant (tokenize line))) with
  | none =>
    have hchoose' : choose (candidates 0 0 (significant (tokenize (blankComments line)))) = none := by
      obtain ⟨b, cs, hb⟩ := exists_commented line hline
      rw [choose_eq_none_iff, ← List.map_eq_nil_iff, map_snd_candidates] at hchoose ⊢
      rw [hb.blankComments_eq, Lexer.signs_tokenize, ← hb.marks_eq, hchoose]
    rw [classifyLine_of_choose_none hchoose, classifyLine_of_choose_none hchoose']
    exact .none
  | some x =>
    obtain ⟨index, m⟩ := x
    obtain ⟨-, t, ht, hkind⟩ := candidates_spec (choose_mem hchoose)
    rw [Nat.sub_zero] at ht
    obtain ⟨x, u, hsplit, hoffset⟩ := exists_append (List.mem_of_mem_filter (List.mem_of_getElem? ht))
    have hend : t.endOffset = (x ++ t.lexeme).length := by rw [List.length_append, hoffset, endOffset, Token.length]
    have hleading : leading line = (tokenize line).takeWhile fun a => decide (a.endOffset ≤ t.offset) := by
      rw [leading, chosen?, hchoose, Option.bind_some, ht]
    rw [← List.append_assoc] at hsplit
    generalize x ++ t.lexeme = h at hsplit hend
    subst hsplit
    obtain ⟨pre, hr, hwalled, hloud, rfl⟩ := readsUpTo_of_significant ht hend hkind
    rw [hleading, hr.takeWhile_eq hwalled] at hsteady
    obtain ⟨hsteady, hsame⟩ := hr.steady_commented hwalled hline hsteady
    have hnewline : '\n' ∉ h ++ blankComments u := by
      rw [List.mem_append, not_or] at hline ⊢
      exact ⟨hline.1, newline_not_mem_blankComments hline.2⟩
    have hbehind := hr.classifyLine_commented hwalled hline hloud hchoose
    have hrel := classifyLine_of_steady hnewline hsteady
    rw [hsame] at hrel
    generalize classifyLine (h ++ u) = found at hbehind ⊢
    generalize classifyLine (h ++ blankComments u) = found₁ at hbehind hrel
    generalize classifyLine (blankComments (h ++ u)) = found₂ at hrel ⊢
    cases hbehind with
    | none =>
      cases hrel
      exact .none
    | some hcomments =>
      cases hrel with
      | some hrel => exact .some (hrel.of_withoutComments hcomments)

end Classify
end Worksheet
