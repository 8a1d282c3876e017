import Worksheet.Proofs.Document.Clear
import Worksheet.Proofs.Document.Unmarked
import Worksheet.Proofs.Solve.Framed

/-! Lines around a document. Prose ahead of a document moves it down: the same values are written, and every line number
    in the issues grows by the number of lines. A line behind it whose equation cannot be read adds one issue and changes
    nothing else. -/

namespace Worksheet
open Text Classify

/-! ### Prose -/

namespace FunctionSource

theorem readParams_subset {ts us : List Token} {ps : List Text} (h : readParams ts = some (ps, us)) : us ⊆ ts := by
  induction ts using readParams.induct generalizing ps with
  | case1 => cases h
  | case2 t => cases h
  | case3 t sep ts hname hkind =>
    rw [readParams, if_pos hname, hkind] at h
    obtain ⟨-, rfl⟩ := Prod.mk.inj (Option.some.inj h)
    exact fun x hx => List.mem_cons_of_mem t (List.mem_cons_of_mem sep hx)
  | case4 t sep ts hname hkind ih =>
    rw [readParams, if_pos hname, hkind] at h
    obtain ⟨⟨ps', us'⟩, hrest, h⟩ := Option.map_eq_some_iff.mp h
    obtain ⟨-, rfl⟩ := Prod.mk.inj h
    exact fun x hx => List.mem_cons_of_mem t (List.mem_cons_of_mem sep (ih hrest hx))
  | case5 t sep ts hname hkind ih =>
    rw [readParams, if_pos hname, hkind] at h
    obtain ⟨⟨ps', us'⟩, hrest, h⟩ := Option.map_eq_some_iff.mp h
    obtain ⟨-, rfl⟩ := Prod.mk.inj h
    exact fun x hx => List.mem_cons_of_mem t (List.mem_cons_of_mem sep (ih hrest hx))
  | case6 t sep ts hname hclose hsemicolon hcomma =>
    rw [readParams, if_pos hname] at h
    split at h <;> simp_all
  | case7 t sep ts hname =>
    rw [readParams, if_neg hname] at h
    cases h

/-- The header of a function has an operator `=`. -/
theorem exists_equals_of_header? {line : Text} {header : Header} (h : header? line = some header) :
    ∃ tok ∈ tokenize line, tok.isOperator ['='] = true := by
  unfold header? at h
  split at h
  · rename_i name paren ts hts
    split at h
    · split at h
      · cases h
      · split at h
        · rename_i params eq rest hparams
          split at h
          · rename_i hequals
            have hmem : eq ∈ ts := by
              unfold paramList at hparams
              split at hparams
              · rename_i t rest'
                split at hparams
                · obtain ⟨-, rfl⟩ := Prod.mk.inj (Option.some.inj hparams)
                  exact List.mem_cons_of_mem t List.mem_cons_self
                · exact readParams_subset hparams List.mem_cons_self
              · cases hparams
            have hsignificant : eq ∈ Lines.significantTokens line := by
              rw [hts]
              exact List.mem_cons_of_mem name (List.mem_cons_of_mem paren hmem)
            exact ⟨eq, List.mem_of_mem_filter hsignificant, hequals⟩
          · cases h
        · cases h
    · cases h
  · cases h

end FunctionSource

/-- An operator `=` is a character of the text. -/
theorem equals_mem_of_isOperator {t : Text} (h : ∃ tok ∈ tokenize t, tok.isOperator ['='] = true) : '=' ∈ t := by
  obtain ⟨tok, htok, hequals⟩ := h
  rw [Token.isOperator, Bool.and_eq_true, beq_iff_eq] at hequals
  refine Lexer.mem_of_mem_lexeme htok ?_
  rw [hequals.2]
  exact List.mem_cons_self

theorem not_mem_of_letters {l : Text} {c : Char} (h : ∀ c ∈ l, Byte.isLetter c = true ∨ c = ' ')
    (hletter : Byte.isLetter c = false) (hblank : c ≠ ' ') : c ∉ l := by
  intro hmem
  rcases h c hmem with hc | hc
  · rw [hletter] at hc
    cases hc
  · exact hblank hc

/-- Letters and spaces make a line of prose. -/
theorem prose_of_letters {l : Text} (h : ∀ c ∈ l, Byte.isLetter c = true ∨ c = ' ') : Prose l := by
  have hunmarked : Unmarked l := by
    intro c hc
    have hall : ∀ c ∈ marking, Byte.isLetter c = false ∧ c ≠ ' ' := by simp [marking, Byte.isLetter]
    exact not_mem_of_letters h (hall c hc).1 (hall c hc).2
  have hclean : '=' ∉ blankComments l := fun hmem => by
    rcases mem_blankComments hmem with hmem | hmem
    · exact not_mem_of_letters h (by decide) (by decide) hmem
    · cases hmem
  have hfunction : FunctionSource.find [l] = [] := by
    have hnone : FunctionSource.at? 0 l [] = none := by
      rw [FunctionSource.at?_eq]
      cases hheader : FunctionSource.header? (blankComments l) with
      | none => rfl
      | some header =>
        exact absurd (equals_mem_of_isOperator (FunctionSource.exists_equals_of_header? hheader)) hclean
    unfold FunctionSource.find FunctionSource.findFrom
    dsimp only
    rw [hnone]
    rfl
  have hequation : Equation.isPlain (blankComments l) = false := by
    refine Bool.eq_false_iff.mpr fun hplain => hclean ?_
    exact equals_mem_of_isOperator (hunmarked.blankComments.isPlain_iff.mp hplain)
  exact { hunmarked.inert hfunction (fun hplain => by rw [hequation] at hplain; cases hplain) with noEquation := hequation }

/-! ### The start of a solve -/

/-- Lines of a text none of which begins with the header. -/
theorem Lines.proper_lines {text : Text} (h : ∀ l ∈ Text.lines text, ¬Reference.header <+: l) :
    Lines.Proper (Text.lines text) where
  newline_not_mem _ hl := newline_not_mem_of_mem_lines hl
  isPrefixOf_header l hl := by
    rw [Bool.eq_false_iff, ne_eq, List.isPrefixOf_iff_prefix]
    exact h l hl

theorem Lines.proper_singleton {l : Text} (hline : '\n' ∉ l) (hheader : ¬Reference.header <+: l) :
    Lines.Proper [l] := by
  have hlines : Text.lines l = [l] := lines_of_not_mem hline
  rw [← hlines]
  exact Lines.proper_lines (hlines.symm ▸ List.forall_mem_singleton.mpr hheader)

namespace SolveState
variable {A B : List Text} {text : Text}

theorem shownIn_framed (hA : ∀ l ∈ A, Inert l) (hB : ∀ l ∈ B, Inert l) (ls : List Text) :
    shownIn (A ++ (ls ++ B)) = shownIn ls := by
  have hpassed {f : Table ValueLine → Option ValueLine → Table ValueLine} (hf : ∀ table, f table none = table) (n : Nat)
      (table : Table ValueLine) : (List.replicate n none).foldl f table = table :=
    foldl_of_fixed fun l hl => by rw [(List.mem_replicate.mp hl).2, hf]
  unfold shownIn
  rw [Lines.classify_framed hA hB, List.foldl_append, List.foldl_append, hpassed fun _ => rfl, hpassed fun _ => rfl]

/-- What a solve of a text without a reference section starts from. -/
theorem start_of_proper (h : Lines.Proper (Text.lines text)) (c : Context) (settings : Settings) :
    start text c settings =
      { settings, context := { c.setDegrees settings.degrees with shadowed := ∅ },
        lines := Clearing.output.clearLines (Text.lines text), shown := shownIn (Text.lines text) } := by
  have hremove := h.remove_unlines
  rw [unlines_lines] at hremove
  unfold start
  dsimp only
  rw [hremove, Clearing.lines_clear]

theorem length_start (h : Lines.Proper (Text.lines text)) (c : Context) (settings : Settings) :
    (start text c settings).lines.length = (Text.lines text).length := by
  rw [start_of_proper h]
  show (List.zipWith _ _ (Lines.classify (Text.lines text))).length = _
  rw [List.length_zipWith, Lines.length_classify, Nat.min_self]

/-- A solve of a document between other lines starts from the same state, with those lines around it. -/
theorem start_framed (htext : Lines.Proper (Text.lines text)) (hA : ∀ l ∈ A, Inert l) (hB : ∀ l ∈ B, Inert l)
    (hproperA : Lines.Proper A) (hproperB : Lines.Proper B) (c : Context) (settings : Settings) :
    start (unlines (A ++ (Text.lines text ++ B))) c settings = framed A B (start text c settings) := by
  have hproper : Lines.Proper (A ++ (Text.lines text ++ B)) := by
    constructor <;> simp only [List.forall_mem_append]
    · exact ⟨hproperA.newline_not_mem, htext.newline_not_mem, hproperB.newline_not_mem⟩
    · exact ⟨hproperA.isPrefixOf_header, htext.isPrefixOf_header, hproperB.isPrefixOf_header⟩
  have hlines : Text.lines (unlines (A ++ (Text.lines text ++ B))) = A ++ (Text.lines text ++ B) :=
    lines_unlines (by simp [lines_ne_nil]) hproper.newline_not_mem
  rw [start_of_proper (hlines.symm ▸ hproper), start_of_proper htext, hlines, shownIn_framed hA hB,
    Clearing.clearLines_framed _ hA hB]
  rfl

/-! ### The end of a solve -/

/-- A solve of a document between other lines is the solve of the document, with the equations behind it checked at the
    end. -/
theorem run_start_framed {settings : Settings} (htext : Lines.Proper (Text.lines text)) (hA : ∀ l ∈ A, Prose l)
    (hB : ∀ l ∈ B, Inert l) (hproperA : Lines.Proper A) (hproperB : Lines.Proper B)
    (hoff : settings.appendReferences = false) (c : Context) :
    (start text c settings).run.lines.length = (Text.lines text).length ∧
      ∃ functions : List FunctionSource, (∀ f ∈ functions, f.lastLine < (Text.lines text).length + A.length) ∧
        (start (unlines (A ++ (Text.lines text ++ B))) c settings).run =
          (Equation.findFrom functions 0 ((Text.lines text).length + A.length) B).foldl checkEquation
            (framed A B (start text c settings).run) := by
  have hlength := length_start htext c settings
  have hsettings : (start text c settings).settings = settings := rfl
  rw [start_framed htext (fun l hl => (hA l hl).toInert) hB hproperA hproperB, ← hlength]
  obtain ⟨hspans, hrun⟩ := run_framed (s := start text c settings) hA hB (hsettings ▸ hoff)
  exact ⟨hspans.length, hrun⟩

/-- A line whose equation cannot be read is found by itself, and the check reports it. -/
theorem foldl_checkEquation_unreadable {l : Text} {e : ParseError} {functions : List FunctionSource} {index : Nat}
    (hbrace : '{' ∉ blankComments l) (hplain : Equation.isPlain (blankComments l) = true)
    (hunreadable : Equation.parseSides (Inline.toParens (trim (blankComments l))) = .error e)
    (hfunctions : ∀ f ∈ functions, f.lastLine < index) (s : SolveState) :
    (Equation.findFrom functions 0 index [l]).foldl checkEquation s = s.report index (.parse e.cause) := by
  have hcovers : functions.any (·.covers index) = false := by
    rw [List.any_eq_false]
    intro f hf
    have hlast := hfunctions f hf
    simp [FunctionSource.covers, Nat.not_le.mpr hlast]
  have hat : Equation.at? index l [] =
      (some ⟨Inline.toParens (trim (blankComments l)), false, index, index⟩, 0) := by
    unfold Equation.at?
    dsimp only
    rw [if_neg (by simpa using hbrace), if_pos hplain]
  rw [Equation.findFrom, hcovers, if_neg Bool.false_ne_true, hat]
  show checkEquation s _ = _
  unfold checkEquation
  rw [hunreadable]

end SolveState

section Solve
variable {text : Text} {settings : Settings}
open SolveState

theorem proper_nil : Lines.Proper [] := ⟨fun _ h => (List.not_mem_nil h).elim, fun _ h => (List.not_mem_nil h).elim⟩

/-- The lines of a solved document. -/
theorem lines_run_ne_nil {s : SolveState} (h : s.lines.length = (Text.lines text).length) : s.lines ≠ [] := by
  intro hnil
  rw [hnil] at h
  exact lines_ne_nil text (List.length_eq_zero_iff.mp h.symm)

theorem solve_eq (text : Text) (c : Context) (settings : Settings) : solve text c settings =
    ⟨unlines (start text c settings).run.lines, (start text c settings).run.solved, (start text c settings).run.issues⟩ := rfl

/-- A line of letters and spaces ahead of a document moves it down by one line: the solved text has the same line ahead
    of it, the same number of values is found, and every line number in the issues is greater by one. -/
theorem solve_prose_append {p : Text} (hp : ∀ c ∈ p, Byte.isLetter c = true ∨ c = ' ')
    (htext : ∀ l ∈ Text.lines text, ¬Reference.header <+: l) (hoff : settings.appendReferences = false) (c : Context) :
    solve (p ++ '\n' :: text) c settings =
      ⟨p ++ '\n' :: (solve text c settings).text, (solve text c settings).solved,
        (solve text c settings).issues.map (Issue.down 1)⟩ := by
  have hquote : '"' ∉ p := not_mem_of_letters hp (by decide) (by decide)
  have hnewline : '\n' ∉ p := not_mem_of_letters hp (by decide) (by decide)
  have hheader : ¬Reference.header <+: p := fun h => hquote (h.subset List.mem_cons_self)
  have hwhole : unlines ([p] ++ (Text.lines text ++ [])) = p ++ '\n' :: text := by
    rw [List.append_nil, List.singleton_append, unlines_cons (lines_ne_nil text), unlines_lines]
  obtain ⟨hlength, functions, -, hrun⟩ := run_start_framed (A := [p]) (B := []) (Lines.proper_lines htext)
    (List.forall_mem_singleton.mpr (prose_of_letters hp)) (fun _ h => (List.not_mem_nil h).elim)
    (Lines.proper_singleton hnewline hheader) proper_nil hoff c
  rw [hwhole] at hrun
  rw [solve_eq, solve_eq text, hrun]
  generalize (start text c settings).run = s at hlength ⊢
  show (⟨unlines ([p] ++ (s.lines ++ [])), s.solved, s.issues.map (Issue.down 1)⟩ : Solution) = _
  rw [List.append_nil, List.singleton_append, unlines_cons (lines_run_ne_nil hlength)]

/-- Both line numbers of a duplicate declaration are those of the moved document. -/
theorem solve_prose_append_duplicate :
    (solve ("Two values".toList ++ '\n' :: "a: 1\na: 2".toList) {} {}).issues.map Issue.text =
      ["Line 3: Duplicate declaration of \"a\" (first declared on line 2)".toList] := by
  rw [solve_prose_append (by simp [Byte.isLetter]) (by decide) rfl]
  decide +kernel

theorem Issue.down_zero (i : Issue) : i.down 0 = i := by
  obtain ⟨line, problem⟩ := i
  cases problem <;> rfl

/-- A line with an operator `=` whose sides cannot be read adds one issue to those of the document ahead of it, and
    nothing else. -/
theorem solve_append_unreadable {l : Text} {e : ParseError} (htext : ∀ l ∈ Text.lines text, ¬Reference.header <+: l)
    (hoff : settings.appendReferences = false) (hmarking : ∀ c ∈ marking, c ∉ l) (hheader : ¬Reference.header <+: l)
    (hequals : ∃ tok ∈ tokenize l, tok.isOperator ['='] = true) (hfunction : FunctionSource.find [l] = [])
    (hunreadable : Equation.parseSides (Inline.toParens (trim (blankComments l))) = .error e) (c : Context) :
    solve (text ++ '\n' :: l) c settings =
      ⟨(solve text c settings).text ++ '\n' :: l, (solve text c settings).solved,
        (solve text c settings).issues ++ [⟨(Text.lines text).length, .parse e.cause⟩]⟩ := by
  have hunmarked : Unmarked l := hmarking
  have hplain : Equation.isPlain (blankComments l) = true :=
    hunmarked.blankComments.isPlain_iff.mpr (exists_equals_blankComments hunmarked.newline_not_mem hequals)
  have hconcat {ls : List Text} (hne : ls ≠ []) : unlines (ls ++ [l]) = unlines ls ++ '\n' :: l := by
    rcases List.eq_nil_or_concat ls with rfl | ⟨init, last, rfl⟩
    · exact absurd rfl hne
    · rw [List.concat_eq_append, unlines_concat, unlines_concat]
      simp
  have hwhole : unlines ([] ++ (Text.lines text ++ [l])) = text ++ '\n' :: l := by
    rw [List.nil_append, hconcat (lines_ne_nil text), unlines_lines]
  obtain ⟨hlength, functions, hfunctions, hrun⟩ := run_start_framed (A := []) (B := [l]) (Lines.proper_lines htext)
    (fun _ h => (List.not_mem_nil h).elim)
    (List.forall_mem_singleton.mpr (hunmarked.inert hfunction fun _ => ⟨e, hunreadable⟩)) proper_nil
    (Lines.proper_singleton hunmarked.newline_not_mem hheader) hoff c
  rw [hwhole, foldl_checkEquation_unreadable (hunmarked.blankComments '{' (by decide)) hplain hunreadable hfunctions] at hrun
  rw [solve_eq, solve_eq text, hrun]
  generalize (start text c settings).run = s at hlength ⊢
  show (⟨unlines (s.lines ++ [l]), s.solved, s.issues.map (Issue.down 0) ++ [_]⟩ : Solution) = _
  rw [hconcat (lines_run_ne_nil hlength), List.map_congr_left fun i _ => i.down_zero, List.map_id']
  rfl

/-- The line that cannot be read is reported behind a value that is still written. -/
theorem solve_append_unreadable_mismatched :
    let solution := solve ("a: 1\na->".toList ++ '\n' :: "x = )".toList) {} {}
    solution.text = "a: 1\na-> 1\nx = )".toList ∧ solution.issues.map Issue.text = ["Line 3: Mismatched ')'".toList] := by
  rw [solve_append_unreadable (e := ⟨.unmatchedClose, 1, 5⟩) (by decide) rfl (show Unmarked _ by decide)
    (by decide) (by decide +kernel) (by rfl) (by rfl)]
  decide +kernel

/-- A line that begins with the header of the reference section is taken out of the document, so the hypothesis that it
    does not is needed. -/
theorem not_solve_append_unreadable : ¬ ∀ (text l : Text) (e : ParseError) (settings : Settings) (c : Context),
    (∀ l ∈ Text.lines text, ¬Reference.header <+: l) → settings.appendReferences = false → (∀ c ∈ marking, c ∉ l) →
    (∃ tok ∈ tokenize l, tok.isOperator ['='] = true) → FunctionSource.find [l] = [] →
    Equation.parseSides (Inline.toParens (trim (blankComments l))) = .error e →
    solve (text ++ '\n' :: l) c settings =
      ⟨(solve text c settings).text ++ '\n' :: l, (solve text c settings).solved,
        (solve text c settings).issues ++ [⟨(Text.lines text).length, .parse e.cause⟩]⟩ := by
  intro h
  have hheader := h "a: 1".toList (Reference.header ++ " = )".toList) ⟨.emptyExpression, 1, 1⟩ {} {} (by decide) rfl
    (show Unmarked _ by decide) (by decide +kernel) (by rfl) (by rfl)
  have htext : (solve ("a: 1".toList ++ '\n' :: (Reference.header ++ " = )".toList)) {} {}).text = "a: 1".toList := by
    decide +kernel
  rw [hheader] at htext
  exact absurd (congrArg List.length htext) (by decide +kernel)

end Solve
end Worksheet
