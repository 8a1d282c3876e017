import Worksheet.Proofs.Document.Lead
import Worksheet.Proofs.Solve.Outputs
import Worksheet.Proofs.Solve.Rounds

/-! What a solve leaves of every line. Each pass writes behind opening characters only, in the line that it is about, so
    the solved document has the same lines, and each of them begins as before. -/

namespace Worksheet
open Text

namespace Lines

/-- Every line continues the one at its place. -/
structure Continue (ls ls' : List Text) : Prop where
  length : ls'.length = ls.length
  line : ∀ i : Nat, Continues ((ls[i]?).getD []) ((ls'[i]?).getD [])

section Continue
variable {ls ls' ls'' : List Text}

theorem Continue.refl (ls : List Text) : Continue ls ls := ⟨rfl, fun _ => .refl _⟩

theorem Continue.trans (h : Continue ls ls') (h' : Continue ls' ls'') : Continue ls ls'' :=
  ⟨h'.length.trans h.length, fun i => (h.line i).trans (h'.line i)⟩

theorem continue_set {i : Nat} {t : Text} (h : Continues ((ls[i]?).getD []) t) : Continue ls (ls.set i t) := by
  refine ⟨List.length_set, fun j => ?_⟩
  by_cases hij : i = j
  · subst hij
    by_cases hi : i < ls.length
    · rwa [List.getElem?_set_self hi]
    · rw [List.set_eq_of_length_le (Nat.le_of_not_lt hi)]
      exact .refl _
  · rw [List.getElem?_set_ne hij]
    exact .refl _

/-- Lines of a document that go on as before have no header of a reference section either. -/
theorem Proper.of_continue (h : Proper ls) (hcontinue : Continue ls ls') (hbreak : ∀ l ∈ ls', '\n' ∉ l) : Proper ls' := by
  refine ⟨hbreak, fun l' hl' => ?_⟩
  obtain ⟨i, hi⟩ := List.getElem?_of_mem hl'
  have hlt : i < ls.length := hcontinue.length ▸ (List.getElem?_eq_some_iff.mp hi).1
  have hline := hcontinue.line i
  rw [hi, List.getElem?_eq_getElem hlt, Option.getD_some, Option.getD_some] at hline
  have hnot := h.isPrefixOf_header _ (List.getElem_mem hlt)
  rw [Bool.eq_false_iff, ne_eq, List.isPrefixOf_iff_prefix] at hnot ⊢
  have hopening : Reference.header.any isOpening = false := rfl
  refine fun hheader => hnot (hline.prefix_of (fun c hc => ?_) hheader)
  exact Bool.eq_false_iff.mpr (List.any_eq_false.mp hopening c hc)

/-- The value line at a place stands in the line at this place. -/
theorem stands_of_getElem? (h : ∀ l ∈ ls, '\n' ∉ l) {i : Nat} {l : ValueLine} (hfound : (classify ls)[i]? = some (some l)) :
    Stands ((ls[i]?).getD []) l := by
  have hlt : i < ls.length := length_classifyFrom none ls ▸ (List.getElem?_eq_some_iff.mp hfound).1
  have hline := List.getElem?_eq_getElem hlt
  have hzip : (ls.zip (classify ls))[i]? = some (ls[i], some l) := List.getElem?_zip_eq_some.mpr ⟨hline, hfound⟩
  rw [hline, Option.getD_some]
  exact stands_of_mem h (fun n found h => by cases h) (List.mem_of_getElem? hzip)

/-- Taking out values leaves what stands in front of their markers. -/
theorem continue_clearLines (h : ∀ l ∈ ls, '\n' ∉ l) (c : Clearing) : Continue ls (c.clearLines ls) := by
  unfold Clearing.clearLines
  have hlength : (classify ls).length = ls.length := length_classifyFrom none ls
  refine ⟨by rw [List.length_zipWith, hlength, Nat.min_self], fun i => ?_⟩
  rw [List.getElem?_zipWith]
  cases hline : ls[i]? with
  | none => exact .refl _
  | some line =>
    have hlt : i < (classify ls).length := hlength ▸ (List.getElem?_eq_some_iff.mp hline).1
    cases hfound : (classify ls)[i]? with
    | none => exact absurd (List.getElem?_eq_none_iff.mp hfound) (Nat.not_le_of_lt hlt)
    | some found =>
      dsimp only [Option.getD_some]
      cases found with
      | none => exact .refl _
      | some l =>
        have hstands := stands_of_getElem? h hfound
        rw [hline, Option.getD_some] at hstands
        unfold Clearing.clearLine
        dsimp only
        split
        · exact hstands.continues []
        · exact .refl _

end Continue
end Lines

namespace SolveState
variable {s t u : SolveState}

/-- With the same settings, every line of the second state continues the one of the first state; no line is broken. -/
structure Goes (s t : SolveState) : Prop where
  settings : t.settings = s.settings
  lines : Lines.Continue s.lines t.lines
  unbroken : t.Unbroken

theorem Goes.refl (h : s.Unbroken) : Goes s s := ⟨rfl, .refl _, h⟩

theorem Goes.trans (h : Goes s t) (h' : Goes t u) : Goes s u :=
  ⟨h'.settings.trans h.settings, h.lines.trans h'.lines, h'.unbroken⟩

theorem Keeps.goes (h : Keeps s t) (hs : s.Unbroken) : Goes s t := ⟨h.settings, h.lines ▸ .refl _, h.unbroken hs⟩

theorem goes_setLine (h : s.Unbroken) {line : Nat} {t : Text} (hline : Continues (s.lineAt line) t) (ht : '\n' ∉ t) :
    Goes s (s.setLine line t) := ⟨rfl, Lines.continue_set hline, h.setLine line ht⟩

/-- A fold over states with something beside them. -/
theorem Goes.foldl {α β : Type} {f : SolveState × β → α → SolveState × β}
    (hf : ∀ x a, x.1.Unbroken → Goes x.1 (f x a).1) (xs : List α) (x : SolveState × β) (hx : x.1.Unbroken) :
    Goes x.1 (xs.foldl f x).1 := by
  induction xs generalizing x with
  | nil => exact .refl hx
  | cons a xs ih =>
    have hone := hf x a hx
    exact hone.trans (ih _ hone.unbroken)

/-! ### Inline expressions -/

/-- An inline expression that does not begin ahead of a backslash is replaced behind it. -/
theorem goes_spliceOne (h : s.Unbroken) {p : Text} {line : Nat} {e : Inline} (hp : p ++ ['\\'] <+: s.lineAt line)
    (hle : p.length ≤ e.first) (reporting : Bool) :
    Goes s (spliceOne line reporting s e) ∧ p ++ ['\\'] <+: (spliceOne line reporting s e).lineAt line := by
  have hunbroken := h.spliceOne line reporting e
  have hkeeps := s.keeps_evaluateText line e.source
  unfold SolveState.spliceOne at hunbroken ⊢
  generalize s.evaluateText line e.source = r at hkeeps hunbroken
  obtain ⟨result, t⟩ := r
  obtain ⟨hlines, hsettings⟩ := hkeeps
  dsimp only at hlines hsettings hunbroken ⊢
  have hat : t.lineAt line = s.lineAt line := congrArg (fun ls : List Text => (ls[line]?).getD []) hlines
  cases result with
  | error problem =>
    have hkept : Keeps s (if reporting then t.report line problem else t) := by
      split <;> exact ⟨hlines, hsettings⟩
    refine ⟨hkept.goes h, ?_⟩
    rwa [SolveState.lineAt, hkept.lines]
  | ok v =>
    have hreplaced := Inline.prefix_replace hp hle (writeNumber v inlinePlaces ++ ['\\'])
    have hlt : line < t.lines.length := by
      refine Nat.lt_of_not_le fun hle => ?_
      rw [← hat, SolveState.lineAt, List.getElem?_eq_none hle, Option.getD_none, List.prefix_nil] at hp
      simp at hp
    have hcontinues := continues_of_prefix hp hreplaced (by simp) (by decide : isOpening '\\' = true)
    rw [← hat] at hcontinues hreplaced
    refine ⟨⟨hsettings, hlines ▸ Lines.continue_set hcontinues, hunbroken⟩, ?_⟩
    unfold SolveState.setLine SolveState.lineAt
    rw [List.getElem?_set_self hlt]
    exact hreplaced

theorem goes_spliceLine (h : s.Unbroken) (reporting : Bool) (line : Nat) : Goes s (spliceLine reporting s line) := by
  -- All expressions of the line stand behind its first backslash, which stays.
  have hfold (es : List Inline) (p : Text) (hle : ∀ e ∈ es, p.length ≤ e.first) {t : SolveState} (ht : t.Unbroken)
      (hp : p ++ ['\\'] <+: t.lineAt line) : Goes t (es.foldl (spliceOne line reporting) t) := by
    induction es generalizing t with
    | nil => exact .refl ht
    | cons e es ih =>
      obtain ⟨hone, hp'⟩ := goes_spliceOne ht hp (hle e List.mem_cons_self) reporting
      exact hone.trans (ih (fun e he => hle e (List.mem_cons_of_mem _ he)) hone.unbroken hp')
  unfold SolveState.spliceLine
  cases hfind : Inline.find (s.lineAt line) with
  | nil => exact .refl h
  | cons e es =>
    obtain ⟨p, hp, hle⟩ := Inline.exists_first (hfind ▸ List.mem_cons_self : e ∈ Inline.find (s.lineAt line))
    rw [hfind] at hle
    exact hfold _ p (fun e he => hle e (List.mem_reverse.mp he)) h hp

theorem goes_discoverLine (h : s.Unbroken) (found : List (Option ValueLine)) (line : Nat) :
    Goes s (discoverLine (s, found) line).1 := by
  have hspliced := goes_spliceLine h false line
  unfold SolveState.discoverLine
  dsimp only
  split
  · split
    · exact hspliced.trans ((keeps_declare _ line _ _).goes hspliced.unbroken)
    · exact hspliced
  · exact hspliced

theorem goes_discover (h : s.Unbroken) : Goes s s.discover :=
  Goes.foldl (fun x line hx => goes_discoverLine hx x.2 line) _ (s, Lines.classify s.lines) h

/-! ### Equations -/

theorem goes_solveRound (h : s.Unbroken) : Goes s s.solveRound := by
  have hadds := adds_solveRound s
  refine ⟨hadds.settings, ⟨hadds.length, fun i => ?_⟩, (later_solveRound h).unbroken⟩
  rcases hadds.lines i with hsame | ⟨-, v, hfill⟩
  · exact .inl hsame
  · exact continues_fill hfill

theorem goes_solveRounds (h : s.Unbroken) (n : Nat) : Goes s (solveRounds n s) := by
  induction n generalizing s with
  | zero => exact .refl h
  | succ n ih =>
    have hround := goes_solveRound h
    unfold solveRounds
    dsimp only
    split
    · exact hround.trans (ih hround.unbroken)
    · exact hround

/-! ### Values -/

theorem goes_writeLine (h : s.Unbroken) (reported : NameSet) {found : Option ValueLine} {line : Nat}
    (hstands : ∀ l, found = some l → Stands (s.lineAt line) l) : Goes s (writeLine (s, reported) (found, line)).1 := by
  obtain ⟨hsettings, hsame | ⟨l, v, rfl, -, hshows, hset⟩⟩ := s.lines_writeLine reported found line
  · exact Keeps.goes ⟨hsame, hsettings⟩ h
  · have hword : '\n' ∉ v := fun hmem => absurd (hshows.word.isWordPart _ hmem) (by decide)
    have hwritten := goes_setLine h ((hstands l rfl).continues v)
      ((hstands l rfl).newline_not_mem_write (h.lineAt line) hword)
    have hkeeps : Keeps (s.setLine line (l.write (s.lineAt line) v)) (writeLine (s, reported) (some l, line)).1 :=
      ⟨hset, hsettings⟩
    exact hwritten.trans (hkeeps.goes hwritten.unbroken)

/-- Value lines that stand in their lines are written one after the other. -/
theorem goes_foldl_writeLine {fs : List (Option ValueLine)} {n : Nat} (h : s.Unbroken) (reported : NameSet)
    (hstands : ∀ i l, fs[i]? = some (some l) → Stands (s.lineAt (n + i)) l) :
    Goes s ((fs.zipIdx n).foldl writeLine (s, reported)).1 := by
  induction fs generalizing s n reported with
  | nil => exact .refl h
  | cons found fs ih =>
    have hone : Goes s (writeLine (s, reported) (found, n)).1 :=
      goes_writeLine h reported fun l hl => hstands 0 l (congrArg some hl)
    -- Writing line `n` leaves the lines behind it as they are.
    have hrest (i : Nat) : (writeLine (s, reported) (found, n)).1.lineAt (n + 1 + i) = s.lineAt (n + (i + 1)) := by
      obtain ⟨-, hsame | ⟨l, v, -, -, -, hset⟩⟩ := s.lines_writeLine reported found n
      · rw [lineAt, hsame, Nat.add_right_comm, Nat.add_assoc]
        rfl
      · rw [lineAt, hset, List.getElem?_set_ne (by omega), Nat.add_right_comm, Nat.add_assoc]
        rfl
    rw [List.zipIdx_cons, List.foldl_cons]
    exact hone.trans (ih hone.unbroken _ fun i l hl => hrest i ▸ hstands (i + 1) l hl)

theorem goes_writeOutputs (h : s.Unbroken) : Goes s s.writeOutputs := by
  have hspliced (lines : List Nat) {t : SolveState} (ht : t.Unbroken) : Goes t (lines.foldl (spliceLine true) t) := by
    induction lines generalizing t with
    | nil => exact .refl ht
    | cons line lines ih =>
      have hone := goes_spliceLine ht true line
      exact hone.trans (ih hone.unbroken)
  have hall := hspliced (List.range s.lines.length) h
  unfold writeOutputs
  dsimp only
  refine hall.trans (goes_foldl_writeLine hall.unbroken ∅ fun i l hl => ?_)
  rw [Nat.zero_add]
  exact Lines.stands_of_getElem? hall.unbroken hl

/-! ### The document -/

/-- Every pass but the last one, which lists the references. -/
def checked (s : SolveState) : SolveState := s.loadFunctions.discover.solveEquations.writeOutputs.checkBalance

theorem goes_checked (h : s.Unbroken) : Goes s s.checked := by
  have hloaded := s.keeps_loadFunctions.goes h
  have hdiscovered := hloaded.trans (goes_discover hloaded.unbroken)
  have hsolved : Goes s s.loadFunctions.discover.solveEquations :=
    hdiscovered.trans (goes_solveRounds hdiscovered.unbroken maxRounds)
  have hwritten := hsolved.trans (goes_writeOutputs hsolved.unbroken)
  exact hwritten.trans ((keeps_checkBalance _).goes hwritten.unbroken)

section Written
variable (text : Text) (c : Context) (settings : Settings)

/-- The solved text: the lines that are written, with the references behind them. -/
theorem text_solve : (solve text c settings).text = Text.unlines (start text c settings).checked.appendReferences.lines := by
  unfold solve
  dsimp only
  rw [run, checked]

theorem goes_start : Goes (start text c settings) (start text c settings).checked :=
  goes_checked fun _ hl => newline_not_mem_of_mem_lines hl

theorem settings_checked : (start text c settings).checked.settings = settings := (goes_start text c settings).settings

/-- The lines of a document without its reference section go on in the lines that are written. -/
theorem continue_checked : Lines.Continue (Text.lines (Reference.remove text)) (start text c settings).checked.lines := by
  have hsource := Lines.Proper.of_before? (Reference.before?_remove text)
  have hcleared := Lines.continue_clearLines hsource.newline_not_mem .output
  rw [← Clearing.lines_clear] at hcleared
  exact hcleared.trans (goes_start text c settings).lines

/-- Nothing that is written makes a line the header of a reference section. -/
theorem proper_checked : Lines.Proper (start text c settings).checked.lines :=
  (Lines.Proper.of_before? (Reference.before?_remove text)).of_continue (continue_checked text c settings)
    (goes_start text c settings).unbroken

/-- Without a list of references the lines of the solved text are those that are written. -/
theorem lines_solve_of_off (hoff : settings.appendReferences = false) :
    Text.lines (solve text c settings).text = (start text c settings).checked.lines := by
  have happend : (start text c settings).checked.settings.appendReferences = false := by rw [settings_checked, hoff]
  have hlength := (continue_checked text c settings).length
  have hproper := proper_checked text c settings
  rw [text_solve, appendReferences_of_off happend]
  generalize (start text c settings).checked.lines = ls at hlength hproper
  refine Text.lines_unlines (fun hnil => ?_) hproper.newline_not_mem
  rw [hnil] at hlength
  exact Text.lines_ne_nil _ (List.length_eq_zero_iff.mp hlength.symm)

end Written
end SolveState

/-- A solve that lists no references has the lines of the document without its reference section. Each line begins as
    before, up to the first character that can belong to a marker, an equals sign or an inline expression, and a line
    without such a character is not touched at all. -/
theorem lead_prefix_solve (text : Text) (c : Context) (settings : Settings) (hoff : settings.appendReferences = false) :
    (lines (solve text c settings).text).length = (lines (Reference.remove text)).length ∧
      ∀ (i : Nat) (line : Text), (lines (Reference.remove text))[i]? = some line →
        ∃ line', (lines (solve text c settings).text)[i]? = some line' ∧ lead line <+: line' ∧
          (lead line = line → line' = line) := by
  have hcontinue := SolveState.continue_checked text c settings
  rw [SolveState.lines_solve_of_off text c settings hoff]
  generalize (SolveState.start text c settings).checked.lines = solved at hcontinue
  refine ⟨hcontinue.length, fun i line hi => ?_⟩
  have hlt : i < solved.length := hcontinue.length ▸ (List.getElem?_eq_some_iff.mp hi).1
  have hline := hcontinue.line i
  rw [hi, List.getElem?_eq_getElem hlt, Option.getD_some, Option.getD_some] at hline
  exact ⟨_, List.getElem?_eq_getElem hlt, hline.lead⟩

/-- A heading stays as it is, and so does the label in front of an output. -/
theorem lead_prefix_solve_heading : ({} : Settings).appendReferences = false ∧
    (lines (solve "Rent\nby week -> 7".toList {} {}).text).length = 2 ∧
      (lines (solve "Rent\nby week -> 7".toList {} {}).text)[0]? = some "Rent".toList ∧
      ∃ line', (lines (solve "Rent\nby week -> 7".toList {} {}).text)[1]? = some line' ∧ "by week -".toList <+: line' := by
  obtain ⟨hlength, hlines⟩ := lead_prefix_solve "Rent\nby week -> 7".toList {} {} rfl
  obtain ⟨heading, hheading, -, hsame⟩ := hlines 0 "Rent".toList (by decide)
  obtain ⟨line', hline', hlead, -⟩ := hlines 1 "by week -> 7".toList (by decide)
  rw [hsame (by decide)] at hheading
  exact ⟨rfl, hlength.trans (by decide), hheading, line', hline', hlead⟩

end Worksheet
