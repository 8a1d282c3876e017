import Worksheet.Proofs.Document.Found
import Worksheet.Proofs.Token.Equals
import Worksheet.Proofs.Token.Tiling
import Worksheet.Solve.Equations

/-! Completed lines. A line is read as an incomplete equation when its only `=` stands at its end, before nothing but
    blanks and comments; there its value is written, and with the value it is no incomplete equation any more. -/

namespace Worksheet
open Text Lexer Classify

/-! ### The text of an equation -/

/-- Trimming takes blanks away at the two ends. -/
theorem Text.exists_trim (t : Text) : ∃ x y, isBlank x = true ∧ isBlank y = true ∧ t = x ++ (trim t ++ y) := by
  have hrun (u : Text) : isBlank (u.takeWhile Byte.isBlank) = true :=
    List.all_eq_true.mpr fun c hc => List.mem_takeWhile_imp hc
  have hright (u : Text) : ∃ y, isBlank y = true ∧ u = trimRight u ++ y := by
    refine ⟨(u.reverse.takeWhile Byte.isBlank).reverse, ?_, ?_⟩
    · rw [isBlank, List.all_reverse]
      exact hrun u.reverse
    · rw [trimRight, ← List.reverse_append, List.takeWhile_append_dropWhile, List.reverse_reverse]
  obtain ⟨y, hy, ht⟩ := hright (trimLeft t)
  refine ⟨t.takeWhile Byte.isBlank, y, hrun t, hy, ?_⟩
  show t = _ ++ (trimRight (trimLeft t) ++ y)
  rw [← ht]
  exact List.takeWhile_append_dropWhile.symm

theorem isLastEquals_trim {t : Text} (h : Bare t) : isLastEquals 0 (trim t) = isLastEquals 0 t := by
  obtain ⟨x, y, hx, hy, ht⟩ := exists_trim t
  have hidle : ∀ c ∈ x, isIdle c = true := fun c hc => isIdle_of_isBlank (List.all_eq_true.mp hx c hc)
  have hinner : Respaced (trim t ++ y) (trim t) := by
    simpa using (Respaced.blank hy (y := []) rfl).append (trim t)
  have hbare : Bare (trim t ++ y) := h.mono ⟨x, [], by rw [List.append_nil]; exact ht.symm⟩
  rw [← hinner.isLastEquals_eq hbare (by simp)]
  conv => rhs; rw [ht]
  rw [isLastEquals, isLastEquals, equals_idle_append hidle]

namespace Inline

/-- Parentheses in place of the backslashes of one expression, whose blanks at the ends are left out. -/
theorem respaced_inline (mid : Text) {t u : Text} (h : Respaced t u) :
    Respaced ('\\' :: (mid ++ '\\' :: t)) ('(' :: (trim mid ++ ')' :: u)) := by
  obtain ⟨x, y, hx, hy, hmid⟩ := exists_trim mid
  have hidle {x : Text} (hx : isBlank x = true) : ∀ c ∈ x, isIdle c = true :=
    fun c hc => isIdle_of_isBlank (List.all_eq_true.mp hx c hc)
  have hclosing : Respaced (y ++ ['\\'] ++ t) ([')'] ++ u) := by
    refine .gap (by simp) (by simp) ?_ ?_ h
    · simp only [List.forall_mem_append, List.forall_mem_singleton]
      exact ⟨⟨hidle hy, rfl⟩, rfl⟩
    · simp [isBlank, Byte.isBlank]
  have hopening : Respaced ('\\' :: x ++ (trim mid ++ (y ++ ['\\'] ++ t))) (['('] ++ (trim mid ++ ([')'] ++ u))) := by
    refine .gap (by simp) (by simp) ?_ ?_ (hclosing.append (trim mid))
    · simp only [List.forall_mem_append, List.forall_mem_cons]
      exact ⟨⟨rfl, hidle hx⟩, rfl, by simp⟩
    · simp [isBlank, Byte.isBlank]
  conv => arg 1; rw [hmid]
  simpa using hopening

/-- Without backslashes there are no inline expressions. -/
theorem scan_eq_nil {line r : Text} {i : Nat} {quoted : Bool} {opened : Option Nat} (h : '\\' ∉ r) :
    scan line i quoted opened r = [] := by
  induction r generalizing i quoted with
  | nil => rfl
  | cons c r ih =>
    have hc : c ≠ '\\' := fun hc => h (hc ▸ List.mem_cons_self)
    unfold scan
    simpa [hc] using ih fun hmem => h (List.mem_cons_of_mem c hmem)

/-- A character that is neither a quote nor a backslash changes nothing for what is scanned behind it. -/
theorem scan_char {c : Char} (hquote : c ≠ '"') (hback : c ≠ '\\') (line : Text) (i : Nat) (opened : Option Nat)
    (r : Text) : scan line i false opened (c :: r) = scan line (i + 1) false opened r := by
  conv_lhs => unfold scan
  simp [hquote, hback]

/-- The second backslash ends an inline expression, and begins one if only blanks stand between the two. -/
theorem scan_close {line pre mid r : Text} (hline : line = pre ++ '\\' :: (mid ++ '\\' :: r)) :
    scan line (pre.length + 1 + mid.length) false (some pre.length) ('\\' :: r) =
      if (trim mid).isEmpty then
        scan line (pre.length + 1 + mid.length + 1) false (some (pre.length + 1 + mid.length)) r
      else ⟨pre.length, pre.length + 1 + mid.length + 1, trim mid⟩ ::
        scan line (pre.length + 1 + mid.length + 1) false none r := by
  have hslice : slice line (pre.length + 1) (pre.length + 1 + mid.length) = mid := by
    have hsplit : line = (pre ++ ['\\']) ++ (mid ++ '\\' :: r) := by simp [hline]
    have hlength : pre.length + 1 = (pre ++ ['\\']).length := by simp
    rw [slice, Nat.add_sub_cancel_left, hlength, hsplit, List.drop_left, List.take_left]
  conv_lhs => unfold scan
  simp [hslice]

/-- What the inline expressions behind `pre` make of the text behind it, whatever stands behind the last one; before a
    backslash that waits for a second one stands nothing else. -/
theorem respaced_scan (t : Text) (hquote : '"' ∉ t) :
    (∃ u, Respaced t u ∧ ∀ pre r line, '\\' ∉ r → line = pre ++ (t ++ r) →
      (scan line pre.length false none (t ++ r)).foldr (fun e line => e.replace line ('(' :: e.source ++ [')'])) line =
        pre ++ (u ++ r)) ∧
    ∀ mid, ∃ u, Respaced ('\\' :: (mid ++ t)) u ∧ ∀ pre r line, '\\' ∉ r → line = pre ++ '\\' :: (mid ++ (t ++ r)) →
      (scan line (pre.length + 1 + mid.length) false (some pre.length) (t ++ r)).foldr
        (fun e line => e.replace line ('(' :: e.source ++ [')'])) line = pre ++ (u ++ r) := by
  induction t with
  | nil =>
    refine ⟨⟨[], .refl [], fun pre r line hr hline => ?_⟩, fun mid => ⟨_, .refl _, fun pre r line hr hline => ?_⟩⟩
    · rw [List.nil_append, scan_eq_nil hr]
      exact hline
    · rw [List.nil_append, scan_eq_nil hr]
      simpa using hline
  | cons c t ih =>
    have hc : c ≠ '"' := fun h => hquote (h ▸ List.mem_cons_self)
    obtain ⟨ihnone, ihsome⟩ := ih fun h => hquote (List.mem_cons_of_mem c h)
    by_cases hback : c = '\\'
    · subst hback
      constructor
      · obtain ⟨u, hu, hfold⟩ := ihsome []
        exact ⟨u, hu, hfold⟩
      · intro mid
        by_cases hempty : (trim mid).isEmpty = true
        · obtain ⟨u, hu, hfold⟩ := ihsome []
          refine ⟨'\\' :: (mid ++ u), (hu.append mid).char, fun pre r line hr hline => ?_⟩
          have hfold := hfold (pre ++ '\\' :: mid) r line hr (by simp [hline])
          have hlength : (pre ++ '\\' :: mid).length = pre.length + 1 + mid.length := by simp; omega
          rw [hlength] at hfold
          rw [List.cons_append] at hline ⊢
          rw [scan_close hline, if_pos hempty]
          simpa using hfold
        · obtain ⟨u, hu, hfold⟩ := ihnone
          refine ⟨'(' :: (trim mid ++ ')' :: u), respaced_inline mid hu, fun pre r line hr hline => ?_⟩
          have hfold := hfold (pre ++ '\\' :: (mid ++ ['\\'])) r line hr (by simp [hline])
          have hlength : (pre ++ '\\' :: (mid ++ ['\\'])).length = pre.length + 1 + mid.length + 1 := by simp; omega
          rw [hlength] at hfold
          rw [List.cons_append] at hline ⊢
          rw [scan_close hline, if_neg hempty]
          have hbefore : ((pre ++ '\\' :: (mid ++ ['\\'])) ++ (u ++ r)).take pre.length = pre := by
            rw [List.append_assoc, List.take_left]
          rw [List.foldr_cons, hfold]
          unfold replace
          dsimp only
          rw [hbefore, ← hlength, List.drop_left]
          simp
    · constructor
      · obtain ⟨u, hu, hfold⟩ := ihnone
        refine ⟨c :: u, hu.char, fun pre r line hr hline => ?_⟩
        have hfold := hfold (pre ++ [c]) r line hr (by simp [hline])
        rw [List.cons_append, scan_char hc hback]
        simpa using hfold
      · intro mid
        obtain ⟨u, hu, hfold⟩ := ihsome (mid ++ [c])
        refine ⟨u, by simpa using hu, fun pre r line hr hline => ?_⟩
        have hfold := hfold pre r line hr (by simp [hline])
        rw [List.cons_append, scan_char hc hback, ← hfold]
        simp [Nat.add_assoc]

/-- The text of an equation has its operators `=` where the line without comments has them, and without a backslash on its
    right side that side is as it is. -/
theorem respaced_toParens {t : Text} (h : '"' ∉ t) :
    ∃ u, Respaced t u ∧ ∀ r, '\\' ∉ r → toParens (t ++ r) = u ++ r := by
  obtain ⟨u, hu, hfold⟩ := (respaced_scan t h).1
  exact ⟨u, hu, fun r hr => hfold [] r (t ++ r) hr rfl⟩

end Inline

/-! ### Incomplete equations -/

/-- An expression has no operator `=`. -/
theorem isOperator_of_parseTokens {ts : List Token} {e : Expr} (h : parseTokens ts = .ok e)
    (hfinish : ∀ t ∈ ts, t.kind.isFinish = false) : ∀ t ∈ ts, t.isOperator ['='] = false := by
  have hstep {s s' : Parser.State} {t : Token} (hs : Parser.step s t = .ok s') : t.isOperator ['='] = false := by
    cases hop : t.isOperator ['='] with
    | false => rfl
    | true =>
      obtain ⟨hkind, hlexeme⟩ := Bool.and_eq_true_iff.mp hop
      have hkind : t.kind = .operator := by cases hk : t.kind <;> simp_all [Token.Kind.isOperator]
      rw [beq_iff_eq] at hlexeme
      have hprefix : PrefixOp.ofSymbol? ['='] = none := rfl
      have hbinary : BinaryOp.ofSymbol? ['='] = none := rfl
      simp only [Parser.step, hkind, Parser.read, Parser.operate, hlexeme, hprefix, hbinary, Parser.fail] at hs
      split at hs <;> cases hs
  have hfold (ts : List Token) : ∀ s s', ts.foldlM Parser.step s = .ok s' → ∀ t ∈ ts, t.isOperator ['='] = false := by
    induction ts with
    | nil => exact fun _ _ _ _ ht => absurd ht List.not_mem_nil
    | cons t ts ih =>
      intro s s' hs
      rw [List.foldlM_cons] at hs
      cases hone : Parser.step s t with
      | error e =>
        rw [hone] at hs
        cases hs
      | ok s₁ =>
        rw [hone] at hs
        exact List.forall_mem_cons.mpr ⟨hstep hone, ih s₁ s' hs⟩
  have hall : ts.takeWhile (!·.kind.isFinish) = ts :=
    List.takeWhile_eq_self_iff.mpr fun t ht => by rw [hfinish t ht]; rfl
  unfold parseTokens at h
  rw [hall] at h
  split at h
  · rename_i s hs
    exact hfold ts _ s hs
  · cases h

/-- A text without comments and line ends, whose tokens are all silent, is blank. -/
theorem isBlank_of_isSilent {before : Before} {p : Position} {t : Text} (hbare : Bare t) (hline : '\n' ∉ t)
    (h : (lexFrom 0 before p t).all (·.kind.isSilent) = true) : isBlank t = true := by
  induction t generalizing before p with
  | nil => rfl
  | cons c t ih =>
    cases hc : Byte.isBlank c with
    | true =>
      rw [lexFrom_blank hc] at h
      have hrest := ih hbare.tail (fun hmem => hline (List.mem_cons_of_mem c hmem)) h
      exact Bool.and_eq_true_iff.mpr ⟨hc, hrest⟩
    | false =>
      exfalso
      obtain ⟨hquote, hslash, -⟩ := bare_cons.mp hbare
      have hne : c ≠ '\n' := fun hc => hline (hc ▸ List.mem_cons_self)
      rw [lexFrom_token hc, List.all_cons, Bool.and_eq_true_iff, isSilent_scan hquote hslash hne] at h
      exact Bool.false_ne_true h.1

namespace Equation

theorem splitSides_eq_some {depth : Int} {ts left right : List Token} (h : splitSides depth ts = some (left, right)) :
    ∃ tok, ts = left ++ tok :: right ∧ tok.isOperator ['='] = true := by
  induction ts generalizing depth left with
  | nil => cases h
  | cons t ts ih =>
    have hnext (depth : Int) (h : (if depth = 0 ∧ t.isOperator ['='] then some ([], ts)
        else (splitSides depth ts).map fun p => (t :: p.1, p.2)) = some (left, right)) :
        ∃ tok, t :: ts = left ++ tok :: right ∧ tok.isOperator ['='] = true := by
      split at h
      · rename_i hequals
        obtain ⟨rfl, rfl⟩ := Prod.mk.inj (Option.some.inj h)
        exact ⟨t, rfl, hequals.2⟩
      · obtain ⟨⟨l, r⟩, hrest, heq⟩ := Option.map_eq_some_iff.mp h
        obtain ⟨rfl, rfl⟩ := Prod.mk.inj heq
        obtain ⟨tok, rfl, htok⟩ := ih hrest
        exact ⟨tok, rfl, htok⟩
    exact hnext _ h

/-- The text of an incomplete equation has one operator `=`, and nothing but blanks behind it. -/
theorem isLastEquals_of_parseSides {text : Text} {left : Expr} (h : parseSides text = .ok ⟨left, none⟩)
    (hbare : Bare text) (hline : '\n' ∉ text) : isLastEquals 0 text = [true] := by
  unfold parseSides at h
  split at h
  · cases h
  · rename_i ls rs hsplit
    obtain ⟨tok, htokens, htok⟩ := splitSides_eq_some hsplit
    cases hleft : parseTokens ls with
    | error e =>
      rw [hleft] at h
      cases h
    | ok l =>
      rw [hleft] at h
      have hsilent : rs.all (·.kind.isSilent) = true := by
        cases hsilent : rs.all (·.kind.isSilent) with
        | true => rfl
        | false =>
          simp only [hsilent] at h
          cases hright : parseTokens rs <;> rw [hright] at h <;> cases h
      have hfinish : ∀ t ∈ ls, t.kind.isFinish = false := by
        obtain ⟨body, last, heq, -, -, -, hbody⟩ := (tokenize_tiles text).finish
        have hdrop : body = ls ++ (tok :: rs).dropLast := by
          rw [← List.dropLast_append_of_ne_nil (List.cons_ne_nil tok rs), ← htokens, heq, List.dropLast_concat]
        exact fun t ht => (hbody t (hdrop ▸ List.mem_append_left _ ht)).1
      obtain ⟨s, before', q, hequals, -, hrest⟩ := equals_lexFrom htokens (isOperator_of_parseTokens hleft hfinish) htok
      have hnone : equals 0 s = [] := by
        refine @equals_eq_nil s 0 before' q fun t ht => ?_
        have hkind := List.all_eq_true.mp hsilent t (hrest ▸ ht)
        cases hk : t.kind <;> simp_all [Token.Kind.isSilent, Token.isOperator, Token.Kind.isOperator]
      rw [hnone] at hequals
      obtain ⟨x, hx⟩ := eq_append_of_mem_equals (hequals ▸ List.mem_singleton_self s)
      have hsuffix : s <:+ text := ⟨x ++ ['='], by simp [hx]⟩
      rw [isLastEquals, hequals]
      refine congrArg ([·]) (isBlank_of_isSilent (hbare.mono hsuffix.isInfix) ?_ (hrest ▸ hsilent))
      exact fun hmem => hline (hsuffix.subset hmem)

end Equation

/-! ### Writing behind the equals sign -/

namespace Classify

theorem Commented.length_eq {t b : Text} {cs : List Text} (h : Commented t b cs) : t.length = b.length := by
  induction h with
  | nil => rfl
  | char hc h ih => exact congrArg (· + 1) ih
  | comment hx h ih =>
    simp only [List.length_cons, List.length_append, blanks, List.length_replicate, ih]
    omega
  | last hx => simp [blanks]

/-- A line may be cut behind a character that is in no comment, and something else put there. -/
theorem Commented.cut {x y t b : Text} {cs : List Text} {d : Char} (h : Commented (x ++ d :: t) (y ++ d :: b) cs)
    (hlength : x.length = y.length) (hd : d ≠ ' ') : (∃ cs, Commented t b cs) ∧
      ∀ t' b' cs', note? d t' = none → Commented t' b' cs' → ∃ cs, Commented (x ++ d :: t') (y ++ d :: b') cs := by
  generalize hx : x ++ d :: t = line at h
  generalize hy : y ++ d :: b = clean at h
  induction h generalizing x y with
  | nil => simp at hx
  | @char c u v cs hc h ih =>
    match x, y with
    | [], [] =>
      obtain ⟨rfl, rfl⟩ := List.cons.inj hx
      obtain ⟨-, rfl⟩ := List.cons.inj hy
      exact ⟨⟨cs, h⟩, fun t' b' cs' hnote h' => ⟨cs', .char hnote h'⟩⟩
    | e :: x, e' :: y =>
      obtain ⟨rfl, rfl⟩ := List.cons.inj hx
      obtain ⟨rfl, rfl⟩ := List.cons.inj hy
      obtain ⟨hrest, hwhole⟩ := ih (Nat.succ.inj hlength) rfl rfl
      refine ⟨hrest, fun t' b' cs' hnote h' => ?_⟩
      obtain ⟨cs, hcs⟩ := hwhole t' b' cs' hnote h'
      refine ⟨cs, .char ?_ hcs⟩
      obtain ⟨hquote, hslash⟩ := Classify.note?_eq_none.mp hc
      refine Classify.note?_eq_none.mpr ⟨hquote, fun h => hslash ⟨h.1, ?_⟩⟩
      cases x <;> exact h.2
  | @comment c z u v cs hz h ih =>
    -- the character stands behind the comment, as a blank stands for every character of that
    obtain ⟨y', rfl, hy'⟩ : ∃ y', y = blanks (z.length + 1) ++ y' ∧ v = y' ++ d :: b := by
      rcases List.append_eq_append_iff.mp hy with ⟨a, ha, hb⟩ | h
      · cases a with
        | nil => exact ⟨[], by simpa using ha.symm, by simpa using hb.symm⟩
        | cons e a =>
          obtain ⟨rfl, -⟩ := List.cons.inj hb
          have hmem : d ∈ blanks (z.length + 1) := ha ▸ List.mem_append_right y List.mem_cons_self
          exact absurd (List.eq_of_mem_replicate hmem) hd
      · exact h
    obtain ⟨x', rfl, hx'⟩ : ∃ x', x = c :: (z ++ x') ∧ u = x' ++ d :: t := by
      have hle : (c :: z).length ≤ x.length := by
        rw [hlength]
        simp [blanks]
      rcases List.append_eq_append_iff.mp (show x ++ d :: t = (c :: z) ++ u from hx) with ⟨a, ha, hb⟩ | ⟨a, ha, hb⟩
      · obtain rfl : a = [] := by
          have hsum := congrArg List.length ha
          rw [List.length_append] at hsum
          exact List.eq_nil_of_length_eq_zero (by omega)
        exact ⟨[], by simpa using ha.symm, by simpa using hb.symm⟩
      · exact ⟨a, ha, hb⟩
    have hlength' : x'.length = y'.length := by
      simp only [List.length_cons, List.length_append, blanks, List.length_replicate] at hlength
      omega
    obtain ⟨hrest, hwhole⟩ := ih hlength' hx'.symm hy'.symm
    refine ⟨hrest, fun t' b' cs' hnote h' => ?_⟩
    obtain ⟨cs, hcs⟩ := hwhole t' b' cs' hnote h'
    have hcomment := Commented.comment hz hcs
    exact ⟨(c :: z) :: cs, by simpa [List.append_assoc] using hcomment⟩
  | @last c z hz =>
    have hmem : d ∈ blanks (z.length + 1) := hy ▸ List.mem_append_right y List.mem_cons_self
    exact absurd (List.eq_of_mem_replicate hmem) hd

/-- Behind a comment, or before it, a line may lose blanks. -/
theorem Commented.dropWhile {t b : Text} {cs : List Text} (h : Commented t b cs) (hb : isBlank b = true) :
    ∃ b' cs', Commented (t.dropWhile isGap) b' cs' ∧ isBlank b' = true := by
  induction h with
  | nil => exact ⟨[], [], .nil, rfl⟩
  | @char c t b cs hc h ih =>
    cases hgap : isGap c with
    | true =>
      rw [List.dropWhile_cons_of_pos hgap]
      exact ih (Bool.and_eq_true_iff.mp hb).2
    | false =>
      rw [List.dropWhile_cons_of_neg (by simp [hgap])]
      exact ⟨c :: b, cs, .char hc h, hb⟩
  | @comment c x t b cs hx h ih =>
    have hgap : ¬isGap c = true := by
      rcases eq_of_note? (hx []) with rfl | rfl <;> decide
    rw [List.dropWhile_cons_of_neg hgap]
    exact ⟨_, _, .comment hx h, hb⟩
  | @last c x hx =>
    have hgap : ¬isGap c = true := by
      rcases eq_of_note? hx with rfl | rfl <;> decide
    rw [List.dropWhile_cons_of_neg hgap]
    exact ⟨_, _, .last hx, hb⟩

end Classify

theorem Text.last_eq {x y u v : Text} {c d : Char} (h : x ++ c :: u = y ++ d :: v) (hu : isBlank u = true)
    (hv : isBlank v = true) (hc : Byte.isBlank c = false) (hd : Byte.isBlank d = false) : c = d := by
  have hlast {x u : Text} {c : Char} (hu : isBlank u = true) (hc : Byte.isBlank c = false) :
      ((x ++ c :: u).reverse.dropWhile Byte.isBlank).head? = some c := by
    have hrun : ∀ e ∈ u.reverse, Byte.isBlank e = true := fun e he => List.all_eq_true.mp hu e (List.mem_reverse.mp he)
    rw [List.reverse_append, List.reverse_cons, List.append_assoc, List.dropWhile_append_of_pos hrun,
      List.singleton_append, List.dropWhile_cons_of_neg (by simp [hc])]
    rfl
  have hsame := hlast (x := x) hu hc
  rw [h, hlast hv hd] at hsame
  exact (Option.some.inj hsame).symm

theorem Classify.bare_of_isWordPart {v : Text} (hv : OutputText.Word v) : Bare (' ' :: v) := by
  have hpart {c : Char} (hc : c ∈ v) : c ≠ '"' ∧ c ≠ '/' := by
    have h := hv.isWordPart c hc
    constructor <;> rintro rfl <;> cases h
  refine ⟨?_, fun h => ?_⟩
  · simpa using fun hmem : '"' ∈ v => (hpart hmem).1 rfl
  · have hmem : '/' ∈ ' ' :: v := h.subset List.mem_cons_self
    simp only [List.mem_cons, Char.reduceEq, false_or] at hmem
    exact (hpart hmem).2 rfl

/-- The first equals sign of a text is the first operator `=` among its tokens. -/
theorem Lexer.exists_token_of_equals {t s : Text} {rest : List Text} (h : equals 0 t = s :: rest) :
    ∃ pre tok post, tokenize t = pre ++ tok :: post ∧ (∀ t ∈ pre, t.isOperator ['='] = false) ∧
      tok.isOperator ['='] = true ∧ tok.endOffset + s.length = t.length := by
  cases hfind : (tokenize t).find? (·.isOperator ['=']) with
  | none =>
    have hnone : equals 0 t = [] := equals_eq_nil fun tok htok => by
      simpa using List.find?_eq_none.mp hfind tok htok
    rw [hnone] at h
    cases h
  | some tok =>
    obtain ⟨htok, pre, post, htokens, hpre⟩ := List.find?_eq_some_iff_append.mp hfind
    have hpre : ∀ t ∈ pre, t.isOperator ['='] = false := fun t ht => by simpa using hpre t ht
    obtain ⟨s₁, before', q, hequals, hend, -⟩ := equals_lexFrom htokens hpre htok
    obtain ⟨rfl, -⟩ := List.cons.inj (h.symm.trans hequals)
    exact ⟨pre, tok, post, htokens, hpre, htok, hend.trans (Nat.zero_add _)⟩

/-- The line says so: it has the text of an incomplete equation. -/
def Equation.Incomplete (line : Text) : Prop :=
  ∃ left, Equation.parseSides (Inline.toParens (trim (blankComments line))) = .ok ⟨left, none⟩

section Incomplete
variable {line line' v : Text}

/-- The text of an equation on a line is the line without comments but for blanks and parentheses. -/
theorem Equation.respaced_text (hline : '\n' ∉ line) : Bare (blankComments line) ∧ Bare (trim (blankComments line)) ∧
    Respaced (trim (blankComments line)) (Inline.toParens (trim (blankComments line))) ∧
      '\n' ∉ Inline.toParens (trim (blankComments line)) := by
  obtain ⟨b, cs, hb⟩ := exists_commented line hline
  have hnone : '\n' ∉ b := fun hmem => (mem_blankComments (hb.blankComments_eq ▸ hmem)).elim hline (by decide)
  rw [hb.blankComments_eq]
  obtain ⟨x, y, -, -, ht⟩ := exists_trim b
  have hpart : trim b <:+: b := ⟨x, y, by rw [List.append_assoc]; exact ht.symm⟩
  have htrimmed := hb.bare.mono hpart
  obtain ⟨u, hparens, hfold⟩ := Inline.respaced_toParens htrimmed.1
  have htext : Inline.toParens (trim b) = u := by simpa using hfold [] (by simp)
  rw [htext]
  exact ⟨hb.bare, htrimmed, hparens, fun hmem => hnone (hpart.subset (hparens.mem rfl hmem))⟩

/-- An incomplete equation has one operator `=` outside comments, and nothing but blanks behind it. -/
theorem Equation.Incomplete.isLastEquals_eq (h : Equation.Incomplete line) (hline : '\n' ∉ line) :
    isLastEquals 0 (blankComments line) = [true] := by
  obtain ⟨left, hsides⟩ := h
  obtain ⟨hbare, htrimmed, hparens, hnone⟩ := Equation.respaced_text hline
  rw [← isLastEquals_trim hbare, hparens.isLastEquals_eq htrimmed (by simp)]
  exact Equation.isLastEquals_of_parseSides hsides (hparens.bare htrimmed) hnone

theorem newline_not_mem_fill (hline : '\n' ∉ line) (hv : OutputText.Word v)
    (hfill : SolveState.fillAfterEquals line v = some line') : '\n' ∉ line' := by
  have hnone : '\n' ∉ v := fun hmem => absurd (hv.isWordPart _ hmem) (by decide)
  obtain ⟨tok, -, rfl⟩ := Option.map_eq_some_iff.mp hfill
  have htake : '\n' ∉ line.take tok.endOffset := fun hmem => hline (List.mem_of_mem_take hmem)
  have hdrop : '\n' ∉ (line.drop tok.endOffset).dropWhile isGap :=
    fun hmem => hline (List.mem_of_mem_drop ((List.dropWhile_suffix _).subset hmem))
  dsimp only
  split <;> simp [htake, hdrop, hnone]

/-- A word can be put behind the only equals sign of an incomplete equation. There it stands by itself, with nothing but
    blanks and comments behind it. -/
theorem Equation.Incomplete.fill (h : Equation.Incomplete line) (hline : '\n' ∉ line) (hv : OutputText.Word v) :
    ∃ y s w line', blankComments line = y ++ '=' :: s ∧ isBlank s = true ∧ equals 0 (blankComments line) = [s] ∧
      SolveState.fillAfterEquals line v = some line' ∧ blankComments line' = y ++ '=' :: (' ' :: v ++ w) ∧
      isBlank w = true := by
  obtain ⟨b, cs, hb⟩ := exists_commented line hline
  have hlast := h.isLastEquals_eq hline
  rw [hb.blankComments_eq] at hlast
  -- The only equals sign of the line, and what stands behind it.
  obtain ⟨s', hs', hblank⟩ : ∃ s', equals 0 b = [s'] ∧ isBlank s' = true := by
    obtain ⟨s', hs', hblank⟩ := List.map_eq_singleton_iff.mp hlast
    exact ⟨s', hs', hblank⟩
  obtain ⟨s, hs, cs', hcommented⟩ : ∃ s, equals 0 line = [s] ∧ ∃ cs, Commented s s' cs := by
    have hrel := Commented.equals hb (free_zero line)
    rw [hs'] at hrel
    obtain ⟨s, rest, hcommented, hrest, hs⟩ := List.forall₂_cons_right_iff.mp hrel
    rw [List.forall₂_nil_right_iff.mp hrest] at hs
    exact ⟨s, hs, hcommented⟩
  obtain ⟨x, rfl⟩ := eq_append_of_mem_equals (hs ▸ List.mem_singleton_self s)
  obtain ⟨y, rfl⟩ := eq_append_of_mem_equals (hs' ▸ List.mem_singleton_self s')
  have hlength : x.length = y.length := by
    have hwhole := hb.length_eq
    have hbehind := hcommented.length_eq
    simp only [List.length_append, List.length_cons] at hwhole
    omega
  obtain ⟨-, hput⟩ := hb.cut hlength (by decide)
  -- The value is put there.
  obtain ⟨pre, tok, post, htokens, hpre, htok, hend⟩ := exists_token_of_equals hs
  have hfind : (tokenize (x ++ '=' :: s)).find? (·.isOperator ['=']) = some tok :=
    List.find?_eq_some_iff_append.mpr ⟨htok, pre, post, htokens, fun t ht => by simp [hpre t ht]⟩
  have hend : tok.endOffset = (x ++ ['=']).length := by
    simp only [List.length_append, List.length_cons, List.length_nil] at hend ⊢
    omega
  have hsplit : x ++ '=' :: s = (x ++ ['=']) ++ s := by simp
  obtain ⟨w, w', csw, hw, hw', hends, hrest⟩ : ∃ w w' cs, Commented w w' cs ∧ isBlank w' = true ∧ Ends w ∧
      (if (s.dropWhile isGap).isEmpty then [] else ' ' :: s.dropWhile isGap) = w := by
    obtain ⟨r', csr, hr, hr'⟩ := hcommented.dropWhile hblank
    split
    · exact ⟨[], [], [], .nil, rfl, ends_nil, rfl⟩
    · exact ⟨_, ' ' :: r', csr, .char (note?_eq_none.mpr (by simp)) hr, hr', by simp [Byte.isBlank], rfl⟩
  have hfill : SolveState.fillAfterEquals (x ++ '=' :: s) v = some (x ++ '=' :: ((' ' :: v) ++ w)) := by
    unfold SolveState.fillAfterEquals
    rw [hfind, Option.map_some, hend, hsplit, List.take_left, List.drop_left]
    dsimp only
    rw [hrest]
    simp
  have hbare : Bare (' ' :: v) := bare_of_isWordPart hv
  obtain ⟨cs₁, hb'⟩ := hput _ _ _ rfl (hbare.commented_append hends hw)
  refine ⟨y, s', w', _, hb.blankComments_eq, hblank, ?_, hfill, hb'.blankComments_eq, hw'⟩
  rw [hb.blankComments_eq]
  exact hs'

/-- With a value behind its equals sign an incomplete equation is one no more. -/
theorem Equation.Incomplete.not_fill (h : Equation.Incomplete line) (hline : '\n' ∉ line) (hv : OutputText.Word v)
    (hequals : '=' ∉ v) (hfill : SolveState.fillAfterEquals line v = some line') :
    ¬Equation.Incomplete line' := by
  obtain ⟨y, s, w, line₁, -, -, -, hfill₁, hb', hw⟩ := h.fill hline hv
  obtain rfl := Option.some.inj (hfill.symm.trans hfill₁)
  intro h'
  have hlast' := h'.isLastEquals_eq (newline_not_mem_fill hline hv hfill)
  rw [hb'] at hlast'
  obtain ⟨s₂, hs₂, hblank₂⟩ := List.map_eq_singleton_iff.mp hlast'
  obtain ⟨x₂, hx₂⟩ := eq_append_of_mem_equals (hs₂ ▸ List.mem_singleton_self s₂)
  -- The last character that is no blank belongs to the value.
  obtain ⟨v', c, rfl⟩ : ∃ v' c, v = v' ++ [c] := by
    rcases List.eq_nil_or_concat v with rfl | ⟨v', c, rfl⟩
    · exact absurd rfl hv.ne_nil
    · exact ⟨v', c, List.concat_eq_append⟩
  have hsame : (y ++ '=' :: ' ' :: v') ++ c :: w = x₂ ++ '=' :: s₂ := by
    rw [← hx₂]
    simp
  have hc := last_eq hsame hw hblank₂ (hv.isBlank_of_mem (by simp)) rfl
  exact hequals (by simp [hc])

end Incomplete
end Worksheet
