import Worksheet.Proofs.Line.WholeExpression
import Worksheet.Proofs.Token.Colon

/-! An expression before a colon or a closing bracket. But for the last token it is read as by itself, and before a
    closing bracket that one is too. A colon takes what may decorate it from the last token. -/

namespace Worksheet
namespace Lexer
open Token Text Worksheet.Parser

/-! ### The last token before a colon -/

section Last
variable {before : Before} {p : Position} {c : Char} {t z r : Text}

/-- The token at the head of `c :: t` as it is found when nothing stands behind the text. -/
def aloneAt (before : Before) (c : Char) (t : Text) (p : Position) : Token :=
  tokenAt (scan before c t).kind (c :: t.take (scan before c t).more) p

/-- A token that is found as by itself ends where it ends by itself. -/
theorem lexFrom_alone (hc : Byte.isBlank c = false) (h : scan before c (t ++ z) = scan before c t) :
    lexFrom 0 before p (c :: (t ++ z)) = aloneAt before c t p ::
      lexFrom 0 (.ofKind (scan before c t).kind) (p.advance (c :: t.take (scan before c t).more))
        (t.drop (scan before c t).more ++ z) := by
  have hlength : (t.take (scan before c t).more).length = (scan before c t).more :=
    List.length_take_of_le (more_scan_le before c t)
  have hsplit : t.take (scan before c t).more ++ (t.drop (scan before c t).more ++ z) = t ++ z := by
    rw [← List.append_assoc, List.take_append_drop]
  have hfound := lexFrom_found (p := p) (a := t.take (scan before c t).more)
    (w := t.drop (scan before c t).more ++ z) hc
    (k := (scan before c t).kind) (by rw [hsplit, h, hlength])
  rwa [hsplit] at hfound

theorem advance_take_drop (p : Position) (c : Char) (t u : Text) (n : Nat) :
    (p.advance (c :: t.take n)).advance (t.drop n ++ u) = p.advance (c :: t ++ u) := by
  rw [← Position.advance_append, List.cons_append, ← List.append_assoc, List.take_append_drop, List.cons_append]

theorem advance_take_drop_self (p : Position) (c : Char) (t : Text) (n : Nat) :
    (p.advance (c :: t.take n)).advance (t.drop n) = p.advance (c :: t) := by
  simpa using advance_take_drop p c t [] n

/-- What a token before a colon is read as: parts of an expression, and a colon with the decoration `z`. -/
structure MeetsColon (before : Before) (c : Char) (t y z : Text) : Prop where
  text : c :: t = y ++ z
  solid : Stops Byte.isBlank z
  cedes : z = [] ↔ ¬Cedes before c t
  tokens : ∀ p r, r.head? ≠ some ':' → ∃ ts d, (∀ tok ∈ ts, isPart tok.kind = true) ∧
    lexFrom 0 before p (c :: (t ++ ':' :: r)) =
      ts ++ colonAt z d (p.advance y) :: lexFrom 0 {} (p.advance (c :: t ++ [':'])) r

theorem meetsColon_of_not_yields (hc : Byte.isBlank c = false) (hcedes : ¬Cedes before c t)
    (hsame : ∀ r, scan before c (t ++ ':' :: r) = scan before c t) (hpart : isPart (scan before c t).kind = true)
    (hrest : ∀ d ∈ t.drop (scan before c t).more, Byte.isBlank d = true) : MeetsColon before c t (c :: t) [] where
  text := (List.append_nil _).symm
  solid := stops_nil
  cedes := iff_of_true rfl hcedes
  tokens p r hr := by
    refine ⟨[aloneAt before c t p], {}, List.forall_mem_singleton.mpr hpart, ?_⟩
    rw [lexFrom_alone hc (hsame r), lexFrom_plain_colon hrest hr, advance_take_drop_self, advance_take_drop]
    rfl

theorem meetsColon_of_decoration (hc : Byte.isBlank c = false) (h : IsDecoration c t)
    (hoperator : (scan before c t).kind ≠ .operator) : MeetsColon before c t [] (c :: t) where
  text := rfl
  solid := stops_cons.mpr hc
  cedes := by
    obtain ⟨hmore, hkind⟩ := scan_decoration_alone h before
    have hdressed : isDressed (scan before c t).kind = true := by simp [isDressed, hkind.resolve_right hoperator]
    exact iff_of_false (List.cons_ne_nil c t) (not_not_intro ⟨hmore, .inl hdressed⟩)
  tokens p r hr := by
    obtain ⟨d, hd⟩ := scan_decoration h before hr
    exact ⟨[], d, nofun, lexFrom_decorated hc hd⟩

theorem meetsColon_of_percentage {y : Text} (hc : Byte.isBlank c = false) (h : IsPercentage before c y) :
    MeetsColon before c (y ++ ['%']) (c :: y) ['%'] where
  text := rfl
  solid := stops_cons.mpr rfl
  cedes := by
    obtain ⟨⟨v, hv⟩, -⟩ := h
    refine iff_of_false (List.cons_ne_nil _ _) (not_not_intro ⟨?_, .inl ?_⟩)
    · rw [hv, List.length_append]
      rfl
    · rw [hv]
      rfl
  tokens p r hr := by
    obtain ⟨v, s, hv⟩ := h.2 r
    obtain ⟨d, hd⟩ := scan_decoration (.inl ⟨.inr rfl, rfl⟩) (.ofKind (.number v 10 s)) hr
    refine ⟨[tokenAt (.number v 10 s) (c :: y) p], d, List.forall_mem_singleton.mpr rfl, ?_⟩
    have hmarker := lexFrom_decorated (p := p.advance (c :: y)) rfl hd
    rw [List.nil_append, ← Position.advance_append] at hmarker
    rw [List.append_assoc, List.singleton_append, lexFrom_found hc hv, hmarker]
    simp

section Based
variable {v ds : Text} {e : Char} {g : Text}

theorem meetsColon_of_based (hc : Byte.isNameStart c = true) (hblank : Byte.isBlank c = false)
    (hdue : before.operandDue = false) (h : IsBased before c v ds []) :
    MeetsColon before c (v ++ '#' :: ds) (c :: v) ('#' :: ds) where
  text := rfl
  solid := stops_cons.mpr rfl
  cedes := by
    have halone := h.alone
    rw [List.append_nil] at halone
    refine iff_of_false (List.cons_ne_nil _ _) (not_not_intro ⟨?_, .inr ⟨hdue, hc, by simp⟩⟩)
    rw [halone, List.length_append, List.length_cons]
    omega
  tokens p r hr := by
    obtain ⟨d, hd⟩ := scan_decoration (.inr ⟨rfl, h.digits⟩) (.ofKind .name) hr
    have hname := h.name r
    rw [List.nil_append] at hname
    refine ⟨[tokenAt .name (c :: v) p], d, List.forall_mem_singleton.mpr rfl, ?_⟩
    rw [List.append_assoc, List.cons_append, lexFrom_found hblank hname, lexFrom_decorated rfl hd,
      ← Position.advance_append]
    simp

/-- Behind a blank the base is a suffix, and it belongs to the name before it. -/
theorem meetsColon_of_based_gap (hblank : Byte.isBlank c = false) (h : IsBased before c v ds (e :: g)) :
    MeetsColon before c (v ++ '#' :: (ds ++ e :: g)) (c :: (v ++ '#' :: (ds ++ e :: g))) [] where
  text := (List.append_nil _).symm
  solid := stops_nil
  cedes := by
    refine iff_of_true rfl fun hcedes => ?_
    have hmore := hcedes.1
    rw [h.alone, List.length_append, List.length_cons, List.length_append, List.length_cons] at hmore
    omega
  tokens p r hr := by
    have he : e = ' ' ∨ e = '\t' := by
      have hgap := h.gaps e List.mem_cons_self
      rwa [isGap, Bool.or_eq_true, beq_iff_eq, beq_iff_eq] at hgap
    have hstops : Stops Byte.isDigit (e :: g ++ ':' :: r) := by
      rcases he with rfl | rfl <;> exact stops_cons.mpr rfl
    have hnone : Marker.ofText? (e :: g ++ ':' :: r) = none := by
      rcases he with rfl | rfl <;> rfl
    have hsuffix : scan (.ofKind .name) '#' (ds ++ (e :: g ++ ':' :: r)) =
        ⟨.suffix ⟨.plain, baseOf ds⟩, ds.length⟩ := by
      show scanHash _ = _
      unfold scanHash
      dsimp only
      rw [takeWhile_run h.digits.2 hstops, List.drop_left, hnone, if_neg (by simpa using h.digits.1)]
    refine ⟨[tokenAt .name (c :: v) p, tokenAt (.suffix ⟨.plain, baseOf ds⟩) ('#' :: ds) (p.advance (c :: v))], {},
      List.forall_mem_cons.mpr ⟨rfl, List.forall_mem_singleton.mpr rfl⟩, ?_⟩
    rw [List.append_assoc, List.cons_append, List.append_assoc, lexFrom_found hblank (h.name r),
      lexFrom_found rfl hsuffix, lexFrom_plain_colon (fun d hd => isBlank_of_isGap (h.gaps d hd)) hr]
    simp [Position.advance_append, Position.advance_cons]

end Based

/-- Whatever the last token of a text is, a colon behind the text is a marker. -/
theorem exists_meetsColon (hblank : Byte.isBlank c = false) (hquote : c ≠ '"')
    (hslash : ¬(c = '/' ∧ t.head? = some '/')) (hcolon : ':' ∉ c :: t)
    (hpart : isPart (scan before c t).kind = true) (hoperator : (scan before c t).kind ≠ .operator)
    (hrest : ∀ d ∈ t.drop (scan before c t).more, Byte.isBlank d = true) : ∃ y z, MeetsColon before c t y z := by
  by_cases hyields : Yields before c t
  · cases hyields with
    | decoration h => exact ⟨[], c :: t, meetsColon_of_decoration hblank h hoperator⟩
    | amount hc hnumber ht =>
      subst hc
      obtain ⟨y, rfl, hy⟩ := isPercentage_amount before hnumber ht
      exact ⟨_, _, meetsColon_of_percentage hblank hy⟩
    | percentage hnumber hdecimal ht =>
      obtain ⟨y, rfl, hy⟩ := isPercentage_number before hnumber hdecimal ht
      exact ⟨_, _, meetsColon_of_percentage hblank hy⟩
    | based hc ht =>
      obtain ⟨v, ds, g, rfl, hbased⟩ := isBased_of_endsBased hc ht
      cases g with
      | nil =>
        rw [List.append_nil]
        exact ⟨_, _, meetsColon_of_based hc hblank ht.due hbased⟩
      | cons e g => exact ⟨_, _, meetsColon_of_based_gap hblank hbased⟩
  · have hcedes : ¬Cedes before c t := by
      rintro ⟨hmore, hdressed | ⟨hdue, hc, hhash⟩⟩
      · refine hyields (yields_of_dressed ?_ hdressed hmore)
        cases hk : (scan before c t).kind <;> simp_all [isPart, Kind.isMarker, Kind.marker?]
      · exact hyields (yields_of_based hc hdue hhash hmore)
    refine ⟨_, _, meetsColon_of_not_yields hblank hcedes (fun r => ?_) hpart hrest⟩
    exact scan_fenced (fenced_colon r) hquote hslash hcolon (.inl hyields)

theorem Yields.rest (h : Yields before c t) : ∀ d ∈ t.drop (scan before c t).more, Byte.isBlank d = true := by
  have hnone {n : Nat} (hn : n = t.length) : ∀ d ∈ t.drop n, Byte.isBlank d = true := by
    rw [hn, List.drop_length]
    exact nofun
  cases h with
  | decoration h => exact hnone (scan_decoration_alone h before).1
  | amount hc hnumber ht =>
    subst hc
    obtain ⟨y, rfl, ⟨v, hv⟩, -⟩ := isPercentage_amount before hnumber ht
    exact hnone (by rw [hv, List.length_append]; rfl)
  | percentage hnumber hdecimal ht =>
    obtain ⟨y, rfl, ⟨v, hv⟩, -⟩ := isPercentage_number before hnumber hdecimal ht
    exact hnone (by rw [hv, List.length_append]; rfl)
  | based hc ht =>
    obtain ⟨v, ds, g, rfl, hbased⟩ := isBased_of_endsBased hc ht
    have hlength : v.length + 1 + ds.length = (v ++ '#' :: ds).length := by
      rw [List.length_append, List.length_cons]
      omega
    rw [hbased.alone, hlength, ← List.cons_append, ← List.append_assoc, List.drop_left]
    exact fun d hd => isBlank_of_isGap (hbased.gaps d hd)

/-- The last token of the text `x` is `c :: t`, with blanks behind it perhaps; it stands behind `y`, which is read as
    tokens of the kinds `ks` whatever fence is put behind the text. -/
structure LastAt (before : Before) (x y : Text) (before' : Before) (c : Char) (t : Text) (ks : List Kind) : Prop where
  text : x = y ++ c :: t
  solid : Byte.isBlank c = false
  rest : ∀ d ∈ t.drop (scan before' c t).more, Byte.isBlank d = true
  due : before'.operandDue = (ks.getLast?.map fun k => (Before.ofKind k).operandDue).getD before.operandDue
  tokens : ∀ p z, Fenced z → ∃ ts, ts.map Token.kind = ks ∧
    lexFrom 0 before p (x ++ z) = ts ++ lexFrom 0 before' (p.advance y) (c :: (t ++ z))

section LastAt
variable {x y t' : Text} {before' : Before} {c' : Char} {ks : List Kind}

theorem LastAt.single (hc : Byte.isBlank c = false)
    (hrest : ∀ d ∈ t.drop (scan before c t).more, Byte.isBlank d = true) :
    LastAt before (c :: t) [] before c t [] where
  text := rfl
  solid := hc
  rest := hrest
  due := rfl
  tokens _ _ _ := ⟨[], rfl, rfl⟩

theorem LastAt.blank (hc : Byte.isBlank c = true)
    (h : LastAt { before with touchesName := false } x y before' c' t' ks) :
    LastAt before (c :: x) (c :: y) before' c' t' ks where
  text := by rw [h.text, List.cons_append]
  solid := h.solid
  rest := h.rest
  due := h.due
  tokens p z hz := by
    obtain ⟨ts, hts, hlex⟩ := h.tokens (p.after c) z hz
    exact ⟨ts, hts, by rw [List.cons_append, lexFrom_blank hc, hlex, Position.advance_cons]⟩

theorem LastAt.token (hc : Byte.isBlank c = false)
    (hsame : ∀ z, Fenced z → scan before c (t ++ z) = scan before c t)
    (h : LastAt (.ofKind (scan before c t).kind) (t.drop (scan before c t).more) y before' c' t' ks) :
    LastAt before (c :: t) (c :: t.take (scan before c t).more ++ y) before' c' t' ((scan before c t).kind :: ks) where
  text := by rw [List.append_assoc, ← h.text, List.cons_append, List.take_append_drop]
  solid := h.solid
  rest := h.rest
  due := by
    rw [h.due]
    cases ks with
    | nil => rfl
    | cons k ks =>
      rw [List.getLast?_cons_cons, List.getLast?_eq_some_getLast (List.cons_ne_nil k ks)]
      rfl
  tokens p z hz := by
    obtain ⟨ts, hts, hlex⟩ := h.tokens (p.advance (c :: t.take (scan before c t).more)) z hz
    refine ⟨aloneAt before c t p :: ts, by rw [List.map_cons, hts]; rfl, ?_⟩
    rw [List.cons_append, lexFrom_alone hc (hsame z hz), hlex, Position.advance_append]
    rfl

end LastAt

/-- A text that is not blank has a last token. -/
theorem exists_lastAt : ∀ (before : Before) (x : Text), Classify.Bare x → ':' ∉ x →
    (∃ d ∈ x, Byte.isBlank d = false) → ∃ y before' c t ks, LastAt before x y before' c t ks
  | before, [], _, _, h => by
    obtain ⟨d, hd, -⟩ := h
    cases hd
  | before, c :: t, hbare, hcolon, hx => by
    cases hc : Byte.isBlank c with
    | true =>
      have hx' : ∃ d ∈ t, Byte.isBlank d = false := by
        obtain ⟨d, hd, hsolid⟩ := hx
        rcases List.mem_cons.mp hd with rfl | hd
        · rw [hc] at hsolid
          cases hsolid
        · exact ⟨d, hd, hsolid⟩
      obtain ⟨y, before', c', t', ks, h⟩ := exists_lastAt { before with touchesName := false } t hbare.tail
        (fun hmem => hcolon (List.mem_cons_of_mem c hmem)) hx'
      exact ⟨_, _, _, _, _, h.blank hc⟩
    | false =>
      by_cases hrest : ∀ d ∈ t.drop (scan before c t).more, Byte.isBlank d = true
      · exact ⟨_, _, _, _, _, .single hc hrest⟩
      · have hsub : t.drop (scan before c t).more <:+: c :: t :=
          ((List.drop_suffix _ t).trans (List.suffix_cons c t)).isInfix
        have hsame (z : Text) (hz : Fenced z) : scan before c (t ++ z) = scan before c t := by
          obtain ⟨hquote, hslash, -⟩ := Classify.bare_cons.mp hbare
          exact scan_fenced hz hquote hslash hcolon (.inl fun hyields => hrest hyields.rest)
        obtain ⟨y, before', c', t', ks, h⟩ :=
          exists_lastAt (.ofKind (scan before c t).kind) (t.drop (scan before c t).more) (hbare.mono hsub)
            (fun hmem => hcolon (hsub.subset hmem)) (by simpa using hrest)
        exact ⟨_, _, _, _, _, h.token hc hsame⟩
  termination_by _ x => x.length
  decreasing_by
    all_goals simp only [List.length_cons, List.length_drop]
    all_goals omega

end Last
end Lexer

namespace Classify
open Token Text Lexer Worksheet.Parser

/-! ### An expression between brackets -/

/-- A text that may stand for a limit: an expression on one line, without comments and colons. -/
structure LimitText (e : Text) : Prop where
  line : '\n' ∉ e
  bare : Bare e
  colon : ':' ∉ e
  parses : ∃ x, parseExpr e = .ok x

/-- The last token ends the text, and it is a suffix, a percentage, or all there is: digits of a base that begin with a
    letter. -/
def cedes (e : Text) : Bool :=
  match (body e).reverse with
  | [] => false
  | t :: ts => t.endOffset == e.length &&
    (isDressed t.kind || ts.isEmpty && t.lexeme.head?.any Byte.isNameStart && t.lexeme.contains '#')

section LimitText
variable {e : Text}

theorem body_isBlank (h : ∀ c ∈ e, Byte.isBlank c = true) : body e = [] := by
  obtain ⟨before, -, htokens⟩ := lexFrom_blanks h {} {} []
  rw [List.append_nil] at htokens
  rw [body, tokenize, htokens, lexFrom_nil]
  rfl

theorem LimitText.spine (h : LimitText e) : Spine 0 false (body e).reverse := by
  obtain ⟨x, hx⟩ := h.parses
  exact (spine_of_parseExpr h.bare h.line hx).1

theorem LimitText.exists_solid (h : LimitText e) : ∃ d ∈ e, Byte.isBlank d = false := by
  by_contra hnone
  have hspine := h.spine
  rw [body_isBlank (by simpa using hnone)] at hspine
  cases hspine

section Last
variable {y t : Text} {before : Before} {c : Char} {ks : List Kind} {ts : List Token}

theorem body_of_lastAt (h : LastAt {} e y before c t ks) : ∃ ts : List Token, ts.map Token.kind = ks ∧
    body e = ts ++ [aloneAt before c t (Position.advance {} y)] := by
  obtain ⟨ts, hts, htokens⟩ := h.tokens {} [] fenced_nil
  have hsame : scan before c (t ++ []) = scan before c t := by rw [List.append_nil]
  obtain ⟨before', -, hrest⟩ := lexFrom_blanks h.rest (.ofKind (scan before c t).kind)
    ((Position.advance {} y).advance (c :: t.take (scan before c t).more)) []
  rw [List.append_nil, lexFrom_alone h.solid hsame, hrest, lexFrom_nil] at htokens
  refine ⟨ts, hts, ?_⟩
  rw [body, tokenize, htokens, List.dropLast_append_of_ne_nil (List.cons_ne_nil _ _)]
  rfl

/-- Before a word of an expression an operand is due; so where the lexer knows of none, nothing stands before it. -/
theorem operandDue_iff (h : LastAt {} e y before c t (ts.map Token.kind)) (hts : Spine 0 true ts.reverse) :
    before.operandDue = false ↔ ts = [] := by
  have hdue := h.due
  rcases List.eq_nil_or_concat ts with rfl | ⟨us, u, rfl⟩
  · exact iff_of_true hdue rfl
  · rw [List.concat_eq_append, List.reverse_append, List.reverse_singleton, List.singleton_append] at hts
    rw [List.concat_eq_append, List.map_append, List.map_singleton, List.getLast?_concat] at hdue
    refine iff_of_false (fun hnot => ?_) (by simp)
    rw [hdue] at hnot
    exact Bool.noConfusion (hts.due_eq.trans hnot)

/-- What the tokens of the text tell is what the lexer finds at the last one. -/
theorem cedes_iff (h : LastAt {} e y before c t (ts.map Token.kind))
    (hbody : body e = ts ++ [aloneAt before c t (Position.advance {} y)])
    (hword : Lexer.isWord (scan before c t).kind = true → Spine 0 true ts.reverse) :
    Cedes before c t ↔ cedes e = true := by
  have hends : (aloneAt before c t (Position.advance {} y)).endOffset = e.length ↔
      (scan before c t).more = t.length := by
    have hlength : (c :: t.take (scan before c t).more).length = (scan before c t).more + 1 :=
      congrArg (· + 1) (List.length_take_of_le (more_scan_le before c t))
    have hoffset : (Position.advance {} y).offset = y.length := by rw [Position.advance_offset, Nat.zero_add]
    show (Position.advance {} y).offset + (c :: t.take (scan before c t).more).length = e.length ↔ _
    rw [hlength, hoffset, h.text, List.length_append, List.length_cons]
    omega
  unfold Cedes Classify.cedes
  rw [hbody, List.reverse_append, List.reverse_singleton, List.singleton_append]
  dsimp only
  rw [Bool.and_eq_true, beq_iff_eq, hends]
  refine and_congr_right fun hall => ?_
  have hlexeme : (aloneAt before c t (Position.advance {} y)).lexeme = c :: t := by
    show c :: t.take (scan before c t).more = c :: t
    rw [hall, List.take_length]
  rw [Bool.or_eq_true, hlexeme]
  refine or_congr_right ?_
  have hfirst (hc : Byte.isNameStart c = true) : before.operandDue = false ↔ ts = [] :=
    operandDue_iff h (hword (isWord_scan before (Byte.isNamePart_of_isNameStart hc) t))
  have hhash (hc : Byte.isNameStart c = true) : (c :: t).contains '#' = true ↔ '#' ∈ t := by
    rw [List.contains_iff_mem, List.mem_cons, or_iff_right]
    rintro rfl
    cases hc
  simp only [List.head?_cons, Option.any_some, Bool.and_eq_true, List.isEmpty_reverse, List.isEmpty_iff]
  constructor
  · rintro ⟨hdue, hc, hmem⟩
    exact ⟨⟨(hfirst hc).mp hdue, hc⟩, (hhash hc).mpr hmem⟩
  · rintro ⟨⟨hts, hc⟩, hmem⟩
    exact ⟨(hfirst hc).mpr hts, hc, (hhash hc).mp hmem⟩

end Last

/-- The last token of a limit, which stands behind parts of the expression and is no operator. -/
structure EndsWith (e y : Text) (before : Before) (c : Char) (t : Text) (ks : List Kind) : Prop where
  last : LastAt {} e y before c t ks
  within : c :: t <:+: e
  parts : ∀ k ∈ ks, isPart k = true
  part : isPart (scan before c t).kind = true
  operand : (scan before c t).kind ≠ .operator
  cedes : Cedes before c t ↔ Classify.cedes e = true

theorem LimitText.endsWith (h : LimitText e) : ∃ y before c t ks, EndsWith e y before c t ks := by
  obtain ⟨y, before, c, t, ks, hlast⟩ := exists_lastAt {} e h.bare h.colon h.exists_solid
  obtain ⟨ts, rfl, hbody⟩ := body_of_lastAt hlast
  have hspine := h.spine
  rw [hbody, List.reverse_append, List.reverse_singleton, List.singleton_append] at hspine
  obtain ⟨hpart, hparts⟩ := List.forall_mem_cons.mp hspine.isPart
  refine ⟨y, before, c, t, _, hlast, ?_, ?_, hpart, ?_, ?_⟩
  · rw [hlast.text]
    exact (List.suffix_append y _).isInfix
  · intro k hk
    obtain ⟨tok, htok, rfl⟩ := List.mem_map.mp hk
    exact hparts tok (List.mem_reverse.mpr htok)
  · intro hoperator
    have hdue : false = (Before.ofKind (scan before c t).kind).operandDue := hspine.due_eq
    rw [hoperator] at hdue
    cases hdue
  · exact cedes_iff hlast hbody fun hword => (hspine.of_word hword).2

/-- The closing bracket at `p`. -/
def closeAt (p : Position) : Token := tokenAt .closeBracket [']'] p

theorem lexFrom_close {g r : Text} (hg : ∀ d ∈ g, Byte.isBlank d = true) (before : Before) (p : Position) :
    lexFrom 0 before p (g ++ ']' :: r) = closeAt (p.advance g) :: lexFrom 0 {} (p.advance (g ++ [']'])) r := by
  obtain ⟨before', -, htokens⟩ := lexFrom_blanks hg before p (']' :: r)
  rw [htokens, Position.advance_append]
  exact lexFrom_token rfl

/-- Before a colon a limit is read as parts of an expression, and the colon takes the rest `z` of it. -/
theorem LimitText.lexFrom_colon (h : LimitText e) : ∃ y z, e = y ++ z ∧ Stops Byte.isBlank z ∧
    (z = [] ↔ cedes e = false) ∧ ∀ p r, r.head? ≠ some ':' → ∃ ts d, (∀ t ∈ ts, isPart t.kind = true) ∧
      lexFrom 0 {} p (e ++ ':' :: r) =
        ts ++ colonAt z d (p.advance y) :: lexFrom 0 {} (p.advance (e ++ [':'])) r := by
  obtain ⟨x, before, c, t, ks, hlast, hsub, hparts, hpart, hoperator, hcedes⟩ := h.endsWith
  obtain ⟨hquote, hslash, -⟩ := bare_cons.mp (h.bare.mono hsub)
  obtain ⟨y, z, htext, hsolid, hnone, htokens⟩ := exists_meetsColon hlast.solid hquote hslash
    (fun hmem => h.colon (hsub.subset hmem)) hpart hoperator hlast.rest
  refine ⟨x ++ y, z, by rw [List.append_assoc, ← htext, hlast.text], hsolid, ?_, fun p r hr => ?_⟩
  · rw [hnone, hcedes, Bool.not_eq_true]
  · obtain ⟨ts, rfl, hlex⟩ := hlast.tokens p (':' :: r) (fenced_colon r)
    obtain ⟨us, d, hus, hlex'⟩ := htokens (p.advance x) r hr
    refine ⟨ts ++ us, d, List.forall_mem_append.mpr ⟨fun t ht => hparts _ (List.mem_map_of_mem ht), hus⟩, ?_⟩
    rw [hlex, hlex', hlast.text, List.append_assoc ts, List.append_assoc x, Position.advance_append p x y,
      Position.advance_append p x (c :: t ++ [':'])]

/-- Before a closing bracket it is read as by itself. -/
theorem LimitText.lexFrom_close (h : LimitText e) (p : Position) (r : Text) : ∃ ts,
    (∀ t ∈ ts, isPart t.kind = true) ∧
      lexFrom 0 {} p (e ++ ']' :: r) = ts ++ closeAt (p.advance e) :: lexFrom 0 {} (p.advance (e ++ [']'])) r := by
  obtain ⟨x, before, c, t, ks, hlast, hsub, hparts, hpart, -, -⟩ := h.endsWith
  obtain ⟨hquote, hslash, -⟩ := bare_cons.mp (h.bare.mono hsub)
  have hsame : scan before c (t ++ ']' :: r) = scan before c t :=
    scan_fenced (fenced_close r) hquote hslash (fun hmem => h.colon (hsub.subset hmem)) (.inr (by simp))
  obtain ⟨ts, rfl, hlex⟩ := hlast.tokens p (']' :: r) (fenced_close r)
  refine ⟨ts ++ [aloneAt before c t (p.advance x)], List.forall_mem_append.mpr
    ⟨fun t ht => hparts _ (List.mem_map_of_mem ht), List.forall_mem_singleton.mpr hpart⟩, ?_⟩
  rw [hlex, lexFrom_alone hlast.solid hsame, Classify.lexFrom_close hlast.rest, advance_take_drop_self,
    advance_take_drop, hlast.text, List.append_assoc ts, List.append_assoc x, Position.advance_append p x (c :: t),
    Position.advance_append p x (c :: t ++ [']'])]
  rfl

end LimitText

end Classify
end Worksheet
