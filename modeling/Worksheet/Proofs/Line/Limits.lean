import Worksheet.Proofs.Line.BeforeColon

/-! The limits of a name as they are written. The high limit is the text between the colon and the closing bracket. The
    low limit loses what decorates the colon: a suffix, the `%` of a percentage or the base of a literal that ends right
    before it. -/

namespace Worksheet
namespace Classify
open Token Text Lexer Worksheet.Parser

section Tokens
variable {line : Text} {name opening colon closing arrow : Token} {ts us vs : List Token} {d : Decoration}

/-- The tokens of a name with limits. -/
def withLimits (name opening : Token) (ts : List Token) (colon : Token) (us : List Token) (closing : Token) :
    List Token :=
  name :: opening :: (ts ++ colon :: (us ++ [closing]))

theorem findOpen_of_isPart (h : ∀ t ∈ ts, isPart t.kind = true) (depth : Nat) (colon : Option Token) :
    findOpen depth colon (ts ++ vs) = findOpen depth colon vs := by
  induction ts with
  | nil => rfl
  | cons t ts ih =>
    obtain ⟨ht, hts⟩ := List.forall_mem_cons.mp h
    rw [List.cons_append, findOpen]
    split <;> first | exact ih hts | (rename_i hk; rw [hk] at ht; cases ht)

variable (hname : name.kind = .name) (hopening : opening.kind = .openBracket) (hcolon : colon.kind = .marker .colon d)
  (hclosing : closing.kind = .closeBracket)
  (hts : ∀ t ∈ ts, isPart t.kind = true) (hus : ∀ t ∈ us, isPart t.kind = true)

include hname hopening hcolon hclosing hts hus

/-- The colon between the limits is no candidate, because it stands in brackets. -/
theorem candidates_limits (harrow : arrow.kind = .marker .rightArrow {}) :
    candidates 0 0 (withLimits name opening ts colon us closing ++ [arrow]) =
      [((withLimits name opening ts colon us closing).length, .rightArrow)] := by
  simp only [withLimits, List.cons_append, List.append_assoc, List.nil_append, candidates, hname, hopening,
    Kind.marker?]
  rw [candidates_of_isPart hts]
  simp only [candidates, hcolon, Kind.marker?]
  rw [if_neg Nat.one_ne_zero, candidates_of_isPart hus]
  simp only [candidates, hclosing, harrow, Kind.marker?]
  simp
  omega

theorem isSilent_limits : ∀ t ∈ withLimits name opening ts colon us closing, t.kind.isSilent = false := by
  have hpart {t : Token} (ht : isPart t.kind = true) : t.kind.isSilent = false := by
    cases hk : t.kind <;> simp_all [isPart, Kind.isSilent]
  have hlast : ∀ t ∈ us ++ [closing], t.kind.isSilent = false := List.forall_mem_append.mpr
    ⟨fun t ht => hpart (hus t ht), List.forall_mem_singleton.mpr (by rw [hclosing]; rfl)⟩
  refine List.forall_mem_cons.mpr ⟨by rw [hname]; rfl, List.forall_mem_cons.mpr ⟨by rw [hopening]; rfl, ?_⟩⟩
  refine List.forall_mem_append.mpr ⟨fun t ht => hpart (hts t ht), ?_⟩
  exact List.forall_mem_cons.mpr ⟨by rw [hcolon]; rfl, hlast⟩

/-- Before an arrow the limits are found by the colon and the brackets, and the name before them. -/
theorem subjectBefore_limits (line : Text) (e : Decoration) :
    subjectBefore line .rightArrow e (withLimits name opening ts colon us closing).reverse =
      some ⟨.declaration name.lexeme (some (limitsBetween line opening colon closing)), name.offset, e⟩ := by
  have hreverse : (withLimits name opening ts colon us closing).reverse =
      closing :: (us.reverse ++ colon :: (ts.reverse ++ [opening, name])) := by simp [withLimits]
  have hopen : findOpen 0 none (closing :: (us.reverse ++ colon :: (ts.reverse ++ [opening, name]))) =
      some (some colon, opening, [name]) := by
    rw [findOpen, hclosing]
    dsimp only
    rw [findOpen_of_isPart fun t ht => hus t (List.mem_reverse.mp ht), findOpen, hcolon]
    dsimp only
    rw [findOpen_of_isPart fun t ht => hts t (List.mem_reverse.mp ht), findOpen, hopening]
    rfl
  have hhead : readHead line e (closing :: (us.reverse ++ colon :: (ts.reverse ++ [opening, name]))) =
      ⟨e, some (limitsBetween line opening colon closing), [name]⟩ := by
    unfold readHead
    rw [takeSuffixes_of_ne (by rw [hclosing]; rfl)]
    dsimp only
    rw [hclosing, hopen]
    dsimp only
    rw [takeSuffixes_of_ne (by rw [hname]; rfl)]
    rfl
  rw [hreverse]
  unfold subjectBefore
  dsimp only
  rw [hhead]
  dsimp only
  rw [hname]
  rfl

theorem classifyLine_withLimits {finish : Token} (harrow : arrow.kind = .marker .rightArrow {})
    (hfinish : finish.kind = .finish)
    (htokens : tokenize line = withLimits name opening ts colon us closing ++ [arrow, finish]) :
    classifyLine line = some (lineAt line (tokenize line) .rightArrow arrow
      ⟨.declaration name.lexeme (some (limitsBetween line opening colon closing)), name.offset, {}⟩) := by
  have hloud := isSilent_limits hname hopening hcolon hclosing hts hus
  have hchoose := candidates_limits hname hopening hcolon hclosing hts hus harrow
  have hsubject := subjectBefore_limits hname hopening hcolon hclosing hts hus line {}
  have hpos : (withLimits name opening ts colon us closing).length ≠ 0 := by simp [withLimits]
  generalize withLimits name opening ts colon us closing = before at htokens hloud hchoose hsubject hpos
  have hsignificant : significant (tokenize line) = before ++ [arrow] := by
    rw [htokens, significant, List.filter_append, List.filter_eq_self.mpr fun t ht => by rw [hloud t ht]; rfl]
    simp [harrow, hfinish, Kind.isSilent]
  refine ofTokens_eq_some_iff.mpr ⟨before.length, .rightArrow, arrow, _, ?_, ?_, hpos, ?_, ?_, rfl⟩
  · rw [hsignificant, hchoose]
    rfl
  · simp [hsignificant]
  · simp [hsignificant, opensBlock]
  · rw [hsignificant, List.take_left, harrow]
    exact hsubject

end Tokens

/-! ### The line of a name with limits -/

section Line
variable {n lo hi : Text}

/-- A name that stands for no number. -/
structure IsName (n : Text) : Prop where
  start : n.head?.any Byte.isNameStart = true
  parts : ∀ c ∈ n, Byte.isNamePart c = true
  plain : n ∉ specialNames

theorem lexFrom_name (h : IsName n) (r : Text) : ∃ name opening : Token, name.kind = .name ∧ name.lexeme = n ∧
    opening.kind = .openBracket ∧ opening.endOffset = n.length + 1 ∧ tokenize (n ++ '[' :: r) =
      name :: opening :: lexFrom 0 {} (Position.advance {} (n ++ ['['])) r := by
  obtain ⟨c, t, rfl⟩ : ∃ c t, n = c :: t := by
    cases n with
    | nil => exact absurd h.start (by simp)
    | cons c t => exact ⟨c, t, rfl⟩
  have hc : Byte.isNameStart c = true := by simpa using h.start
  have hsolid := isSolid_of_isQuiet (isQuiet_of_isNamePart (Byte.isNamePart_of_isNameStart hc))
  have hblank : Byte.isBlank c = false := by
    rw [Byte.isSolid, Bool.and_eq_true, Bool.not_eq_true'] at hsolid
    exact hsolid.1
  have hspan : nameSpan (c :: t ++ '[' :: r) = c :: t := takeWhile_run h.parts (stops_cons.mpr rfl)
  have hscan : scan {} c (t ++ '[' :: r) = ⟨.name, t.length⟩ := by
    rw [scan_of_isNameStart hc, ← List.cons_append, scanName_eq (by rw [hspan]; exact h.plain), hspan, List.drop_left]
    rfl
  refine ⟨⟨.name, c :: t, 1, 1, 0⟩, ⟨.openBracket, ['['], (Position.advance {} (c :: t)).line,
    (Position.advance {} (c :: t)).col, (Position.advance {} (c :: t)).offset⟩, rfl, rfl, rfl, ?_, ?_⟩
  · show (Position.advance {} (c :: t)).offset + 1 = _
    rw [Position.advance_offset, Nat.zero_add]
  · rw [tokenize, List.cons_append, lexFrom_found hblank hscan, Position.advance_append]
    rfl

/-- The offsets of the signs cut out what stands between them. -/
theorem limitsBetween_eq (n y z hi r : Text) (d : Decoration) {opening : Token} {p q : Position}
    (hopening : opening.endOffset = n.length + 1) (hp : p.offset = n.length + 1)
    (hq : q.offset = n.length + 1 + (y ++ z).length + 1) :
    limitsBetween (n ++ '[' :: (y ++ z ++ ':' :: (hi ++ r))) opening (colonAt z d (p.advance y))
      (closeAt (q.advance hi)) = ⟨Text.trim y, Text.trim hi⟩ := by
  have hlow : slice (n ++ '[' :: (y ++ z ++ ':' :: (hi ++ r))) opening.endOffset (p.advance y).offset = y := by
    have h := slice_between (n ++ ['[']) y (z ++ ':' :: (hi ++ r))
    rw [Position.advance_offset, hopening, hp]
    simpa using h
  have hhigh : slice (n ++ '[' :: (y ++ z ++ ':' :: (hi ++ r))) ((p.advance y).offset + (z ++ [':']).length)
      (q.advance hi).offset = hi := by
    have h := slice_between (n ++ '[' :: (y ++ z ++ [':'])) hi r
    have hlength : (n ++ '[' :: (y ++ z ++ [':'])).length = n.length + 1 + (y ++ z).length + 1 := by
      simp only [List.length_append, List.length_cons, List.length_nil]
      omega
    rw [hlength] at h
    have hend : (p.advance y).offset + (z ++ [':']).length = n.length + 1 + (y ++ z).length + 1 := by
      rw [Position.advance_offset, hp]
      simp only [List.length_append, List.length_cons, List.length_nil]
      omega
    rw [hend, Position.advance_offset, hq]
    simpa using h
  rw [limitsBetween]
  simp only [Token.endOffset, Token.length] at hlow hhigh ⊢
  exact congrArg₂ LimitsText.mk (congrArg Text.trim hlow) (congrArg Text.trim hhigh)

theorem lexFrom_arrow (p : Position) : ∃ arrow finish : Token, arrow.kind = .marker .rightArrow {} ∧
    finish.kind = .finish ∧ lexFrom 0 {} p ['-', '>'] = [arrow, finish] :=
  ⟨tokenAt (.marker .rightArrow {}) ['-', '>'] p, tokenAt .finish [] (p.advance ['-', '>']), rfl, rfl, rfl⟩

/-- The limits are read as they are written, unless the low one ends with something that the colon takes. -/
theorem classifyLine_limits (hn : IsName n) (hlo : LimitText lo) (hhi : LimitText hi) : ∃ l low,
    classifyLine (n ++ '[' :: (lo ++ ':' :: (hi ++ [']', '-', '>']))) = some l ∧
      l.subject = .declaration n (some ⟨low, Text.trim hi⟩) ∧ (low = Text.trim lo ↔ cedes lo = false) := by
  obtain ⟨y, z, rfl, hsolid, hcedes, hlow⟩ := hlo.lexFrom_colon
  obtain ⟨name, opening, hname, rfl, hopening, hinside, htokens⟩ :=
    lexFrom_name hn (y ++ z ++ ':' :: (hi ++ [']', '-', '>']))
  have hhead : (hi ++ [']', '-', '>']).head? ≠ some ':' := by
    cases hi with
    | nil => simp
    | cons c hi =>
      intro h
      obtain rfl := Option.some.inj h
      exact hhi.colon List.mem_cons_self
  generalize hp : Position.advance {} (name.lexeme ++ ['[']) = p at htokens
  obtain ⟨ts, d, hts, hlex⟩ := hlow p (hi ++ [']', '-', '>']) hhead
  generalize hq : p.advance (y ++ z ++ [':']) = q at hlex
  obtain ⟨us, hus, hlex'⟩ := hhi.lexFrom_close q ['-', '>']
  obtain ⟨arrow, finish, harrow, hfinish, hlex''⟩ := lexFrom_arrow (q.advance (hi ++ [']']))
  rw [hlex, hlex', hlex''] at htokens
  have hoffset : p.offset = name.lexeme.length + 1 := by
    rw [← hp, Position.advance_offset, List.length_append]
    exact Nat.zero_add _
  have hoffset' : q.offset = name.lexeme.length + 1 + (y ++ z).length + 1 := by
    rw [← hq, Position.advance_offset, hoffset, List.length_append]
    rfl
  have hcolon : (colonAt z d (p.advance y)).kind = .marker .colon d := rfl
  have hclosing : (closeAt (q.advance hi)).kind = .closeBracket := rfl
  have hline := classifyLine_withLimits hname hopening hcolon hclosing hts hus harrow hfinish
    (htokens.trans (by simp [withLimits]))
  rw [limitsBetween_eq name.lexeme y z hi [']', '-', '>'] d hinside hoffset hoffset'] at hline
  exact ⟨_, _, hline, rfl, (trim_append_eq_iff hsolid).trans hcedes⟩

/-- With a blank before the colon a percentage is kept. -/
theorem classifyLine_limits_blank : ∃ l low,
    classifyLine (['r', 'a', 't', 'e'] ++ '[' :: (['5', '%', ' '] ++ ':' :: (['1', '0', '%'] ++ [']', '-', '>']))) =
        some l ∧
      l.subject = .declaration ['r', 'a', 't', 'e'] (some ⟨low, ['1', '0', '%']⟩) ∧ low = ['5', '%'] := by
  have hn : IsName ['r', 'a', 't', 'e'] := ⟨rfl, List.all_eq_true.mp rfl, by decide⟩
  have hlo : LimitText ['5', '%', ' '] := ⟨by decide, ⟨by decide, by decide⟩, by decide, _, by rfl⟩
  have hhi : LimitText ['1', '0', '%'] := ⟨by decide, ⟨by decide, by decide⟩, by decide, _, by rfl⟩
  have hkept : cedes ['5', '%', ' '] = false := by rfl
  obtain ⟨l, low, hline, hsubject, hlow⟩ := classifyLine_limits hn hlo hhi
  exact ⟨l, low, hline, hsubject, hlow.mpr hkept⟩

/-- Right before the colon it becomes a number, and the other limit stays a percentage. -/
theorem not_limits_as_written : ∃ n lo hi, IsName n ∧ LimitText lo ∧ LimitText hi ∧
    ¬∃ l, classifyLine (n ++ '[' :: (lo ++ ':' :: (hi ++ [']', '-', '>']))) = some l ∧
      l.subject = .declaration n (some ⟨Text.trim lo, Text.trim hi⟩) := by
  refine ⟨['r', 'a', 't', 'e'], ['5', '%'], ['1', '0', '%'], ⟨rfl, List.all_eq_true.mp rfl, by decide⟩,
    ⟨by decide, ⟨by decide, by decide⟩, by decide, _, by rfl⟩,
    ⟨by decide, ⟨by decide, by decide⟩, by decide, _, by rfl⟩, ?_⟩
  rintro ⟨l, hline, hsubject⟩
  have hread : (classifyLine ['r', 'a', 't', 'e', '[', '5', '%', ':', '1', '0', '%', ']', '-', '>']).map (·.subject) =
      some (.declaration ['r', 'a', 't', 'e'] (some ⟨['5'], ['1', '0', '%']⟩)) := by rfl
  rw [show classifyLine ['r', 'a', 't', 'e', '[', '5', '%', ':', '1', '0', '%', ']', '-', '>'] = some l from hline,
    Option.map_some, hsubject] at hread
  have hlow : Text.trim ['5', '%'] = ['5'] :=
    congrArg LimitsText.low (Option.some.inj (Subject.declaration.inj (Option.some.inj hread)).2)
  exact absurd hlow (by decide)

end Line

end Classify
end Worksheet
