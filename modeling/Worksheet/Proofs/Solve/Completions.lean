import Worksheet.Proofs.Document.Standing
import Worksheet.Proofs.Solve.Lead

/-! Whether a completed equation is an equation still. What is written behind its equals sign depends on how values are
    displayed, and is read by the rules for expressions; what stands before it may begin like the definition of a
    function, which it was not as long as nothing stood behind it. -/

namespace Worksheet

/-! ### Lines -/

namespace Equation
variable {ls ls' ls'' : List Text} {eq : Equation} {i : Nat}

/-- Incomplete equations have been completed, one after the other. -/
inductive Completions (ls : List Text) : List Text → Prop
  | refl : Completions ls ls
  | fill {ls' : List Text} (h : Completions ls ls') {eq : Equation} (heq : eq ∈ find ls') (hopen : eq.isComplete = false)
    {line v line' : Text} (hl : ls'[eq.firstLine]? = some line) (hv : OutputText.Word v)
    (hfill : SolveState.fillAfterEquals line v = some line') :
    Completions ls (ls'.set eq.firstLine line')

theorem Completions.trans (h : Completions ls ls') (h' : Completions ls' ls'') : Completions ls ls'' := by
  induction h' with
  | refl => exact h
  | fill _ heq hopen hl hv hfill ih => exact ih.fill heq hopen hl hv hfill

theorem Completions.unbroken (h : Completions ls ls') (hunbroken : ∀ l ∈ ls, '\n' ∉ l) : ∀ l ∈ ls', '\n' ∉ l := by
  induction h with
  | refl => exact hunbroken
  | fill _ heq hopen hl hv hfill ih =>
    intro l hl'
    rcases List.mem_or_eq_of_mem_set hl' with hl' | rfl
    · exact ih l hl'
    · exact newline_not_mem_fill (ih _ (List.mem_of_getElem? hl)) hv hfill

/-- A line without an incomplete equation is left alone, and holds the same equations as before. -/
theorem Completions.mem_find_iff (h : Completions ls ls') (hunbroken : ∀ l ∈ ls, '\n' ∉ l)
    (hclosed : ∀ e ∈ find ls, e.firstLine = i → e.isComplete = true) :
    ls'[i]? = ls[i]? ∧ ∀ e : Equation, e.firstLine = i → (e ∈ find ls' ↔ e ∈ find ls) := by
  induction h with
  | refl => exact ⟨rfl, fun _ _ => Iff.rfl⟩
  | @fill ls' h eq heq hopen line v line' hl hv hfill ih =>
    obtain ⟨hline, hsame⟩ := ih
    have hne : eq.firstLine ≠ i := by
      intro hi
      rw [hclosed eq ((hsame eq hi).mp heq) hi] at hopen
      cases hopen
    refine ⟨(List.getElem?_set_ne hne).trans hline, fun e he => ?_⟩
    rw [mem_find_fill heq hopen (h.unbroken hunbroken) hl hv hfill e, ← hsame e he]
    constructor
    · rintro (⟨-, he'⟩ | ⟨-, rfl⟩)
      · exact he'
      · exact absurd he hne
    · exact fun he' => .inl ⟨fun hi => hne (hi ▸ he), he'⟩

/-- An equation that is not completed is found as before. -/
theorem mem_find_fill_of_ne {line v line' : Text} (heq : eq ∈ find ls) (hopen : eq.isComplete = false)
    (hunbroken : ∀ l ∈ ls, '\n' ∉ l) (hl : ls[eq.firstLine]? = some line) (hv : OutputText.Word v)
    (hfill : SolveState.fillAfterEquals line v = some line') {e : Equation} (he : e ∈ find ls)
    (hne : e.firstLine ≠ eq.firstLine) : e ∈ find (ls.set eq.firstLine line') :=
  (mem_find_fill heq hopen hunbroken hl hv hfill e).mpr (.inl ⟨hne, he⟩)

end Equation

/-! ### A completed equation -/

namespace Equation
variable {ls : List Text} {eq : Equation} {left : Expr} {line line' : Text} {n : Numeral}

/-- On the line `i` stands an equation with the left side `left` and a right side with the value that `t` denotes. -/
def StandsAt (ls : List Text) (i : Nat) (left : Expr) (t : Text) : Prop :=
  ∃ eq ∈ find ls, eq.firstLine = i ∧ eq.braced = false ∧ ∃ right w, parseSides eq.text = .ok ⟨left, some right⟩ ∧
    Literal.read? t = some w ∧ ∀ c, (right.eval c).result = .ok w

/-- An incomplete equation that is completed with a numeral is an equation, exactly if it does not begin like the
    definition of a function, the numeral denotes a number and its thousands are not grouped. -/
theorem standsAt_fill_iff (heq : eq ∈ find ls) (hbraced : eq.braced = false)
    (hsides : parseSides eq.text = .ok ⟨left, none⟩) (hunbroken : ∀ l ∈ ls, '\n' ∉ l) (hl : ls[eq.firstLine]? = some line)
    (hn : n.Proper) (hbare : n.IsBare)
    (hfill : SolveState.fillAfterEquals line n.render = some line') :
    StandsAt (ls.set eq.firstLine line') eq.firstLine left n.render ↔
      FunctionSource.header? (Classify.blankComments line) = none ∧ ',' ∉ n.render ∧
        (Literal.read? n.render).isSome = true := by
  have hopen : eq.isComplete = false := by
    unfold isComplete
    rw [hbraced, hsides]
    rfl
  have hword : OutputText.Word n.render := OutputText.word_render (w := .decimal n) hn
  have hback : '\\' ∉ n.render := fun hmem => by
    cases hn.isShown_of_mem_render hmem
  obtain ⟨k, line₁, hk, hline, htext⟩ := of_mem_findFrom heq
  rw [Nat.zero_add] at hk
  obtain rfl : line₁ = line := by
    rw [← hk, hl] at hline
    exact (Option.some.inj hline).symm
  rw [htext hbraced] at hsides
  obtain ⟨p, hfilled⟩ := parseSides_fill (hunbroken _ (List.mem_of_getElem? hl)) hsides hword hback hfill
  have hmem (e : Equation) := mem_find_fill heq hopen hunbroken hl hword hfill e
  rw [← hn.parse_iff hbare.1 hbare.2 p]
  constructor
  · rintro ⟨e, he, hfirst, -, right, w, hparse, hread, hvalue⟩
    obtain ⟨hnone, rfl⟩ := ((hmem e).mp he).resolve_left fun h => h.1 hfirst
    rw [hfilled] at hparse
    cases hright : parseTokens (Lexer.lexFrom 0 ⟨true, false⟩ p (' ' :: n.render)) with
    | error e =>
      rw [hright] at hparse
      cases hparse
    | ok e =>
      rw [hright] at hparse
      cases hparse
      exact ⟨hnone, _, w, rfl, hread, hvalue⟩
  · rintro ⟨hnone, right, w, hparse, hread, hvalue⟩
    refine ⟨_, (hmem _).mpr (.inr ⟨hnone, rfl⟩), rfl, rfl, right, w, ?_, hread, hvalue⟩
    rw [hfilled, hparse]
    rfl

end Equation

namespace SolveState
open Equation
variable {s s₀ r : SolveState} {m : Eliminations} {eq : Equation} {es before after : List Equation} {i n : Nat}

/-- One equation fills its own line, if that. -/
theorem lines_solveEquation (m : Eliminations) (s : SolveState) (eq : Equation) :
    (solveEquation m s eq).lines = s.lines ∨ eq.isComplete = false ∧ ∃ v line',
      fillAfterEquals (s.lineAt eq.firstLine) (s.settings.write v) = some line' ∧
        (solveEquation m s eq).lines = s.lines.set eq.firstLine line' := by
  have hadds := adds_solveEquation m s eq
  generalize solveEquation m s eq = s' at hadds ⊢
  have hext {ls : List Text} (hlength : s'.lines.length = ls.length)
      (hall : ∀ i, s'.lineAt i = (ls[i]?).getD []) : s'.lines = ls := by
    refine List.ext_getElem hlength fun i hi hi' => ?_
    have hat := hall i
    rwa [lineAt, List.getElem?_eq_getElem hi, List.getElem?_eq_getElem hi'] at hat
  by_cases hsame : s'.lineAt eq.firstLine = s.lineAt eq.firstLine
  · refine .inl (hext hadds.length fun i => ?_)
    rcases hadds.lines i with h | ⟨⟨a, ha, rfl, -⟩, -⟩
    · exact h
    · rw [List.mem_singleton.mp ha]
      exact hsame
  · obtain ⟨⟨a, ha, -, hopen⟩, v, hfill⟩ := (hadds.lines eq.firstLine).resolve_left hsame
    rw [List.mem_singleton.mp ha] at hopen
    refine .inr ⟨hopen, v, _, hfill, hext (by rw [List.length_set]; exact hadds.length) fun i => ?_⟩
    by_cases hi : eq.firstLine = i
    · subst hi
      have hlt : eq.firstLine < s.lines.length := by
        refine Nat.lt_of_not_le fun hle => hsame ?_
        rw [lineAt, lineAt, List.getElem?_eq_none hle, List.getElem?_eq_none (hadds.length ▸ hle)]
      rw [List.getElem?_set_self hlt]
      rfl
    · rw [List.getElem?_set_ne hi]
      rcases hadds.lines i with h | ⟨⟨b, hb, hbi, -⟩, -⟩
      · exact h
      · rw [List.mem_singleton.mp hb] at hbi
        exact absurd hbi hi

/-- When the turn comes to an equation that is found, only its line is filled, and the equations on the other lines are
    found as before. -/
theorem completions_solveEquation (hs : s.Unbroken) (heq : eq ∈ find s.lines) :
    Completions s.lines (solveEquation m s eq).lines ∧
      ∀ e ∈ find s.lines, e.firstLine ≠ eq.firstLine → e ∈ find (solveEquation m s eq).lines := by
  rcases lines_solveEquation m s eq with hlines | ⟨hopen, v, line', hfill, hlines⟩
  · rw [hlines]
    exact ⟨.refl, fun e he _ => he⟩
  · obtain ⟨line, hline, -⟩ := incomplete_of_mem_find heq hopen
    rw [lineAt, hline] at hfill
    have hword := (word_write s.settings v).1
    rw [hlines]
    exact ⟨.fill .refl heq hopen hline hword hfill,
      fun e he hne => mem_find_fill_of_ne heq hopen hs hline hword hfill he hne⟩

theorem Unbroken.completions (hs : s.Unbroken) {s' : SolveState} (h : Completions s.lines s'.lines) : s'.Unbroken := h.unbroken hs

/-- When the turn comes to equations that are found, one after the other, those behind them are found still. -/
theorem completions_foldl (m : Eliminations) (hs : s.Unbroken) (hfound : ∀ e ∈ es, e ∈ find s.lines)
    (hpairwise : es.Pairwise fun a b => a.firstLine < b.firstLine) :
    Completions s.lines (es.foldl (solveEquation m) s).lines ∧
      ∀ e ∈ find s.lines, (∀ a ∈ es, e.firstLine ≠ a.firstLine) → e ∈ find (es.foldl (solveEquation m) s).lines := by
  induction es generalizing s with
  | nil => exact ⟨.refl, fun e he _ => he⟩
  | cons eq es ih =>
    obtain ⟨hfirst, hrest⟩ := List.pairwise_cons.mp hpairwise
    obtain ⟨hcompletions, hother⟩ := completions_solveEquation (m := m) hs (hfound eq List.mem_cons_self)
    have hfound' : ∀ e ∈ es, e ∈ find (solveEquation m s eq).lines := fun e he =>
      hother e (hfound e (List.mem_cons_of_mem _ he)) (Nat.ne_of_gt (hfirst e he))
    obtain ⟨hcompletions', hother'⟩ := ih (hs.completions hcompletions) hfound' hrest
    refine ⟨hcompletions.trans hcompletions', fun e he hne => ?_⟩
    exact hother' e (hother e he (hne eq List.mem_cons_self)) fun a ha => hne a (List.mem_cons_of_mem _ ha)

theorem completions_solveRound (hs : s.Unbroken) : Completions s.lines s.solveRound.lines :=
  (completions_foldl _ (s := { s with changed := false }) hs (fun _ he => he) (pairwise_findFrom _ _ _ _)).1

theorem completions_solveRounds (hs : s.Unbroken) (n : Nat) : Completions s.lines (solveRounds n s).lines := by
  induction n generalizing s with
  | zero => exact .refl
  | succ n ih =>
    have hround := completions_solveRound hs
    unfold solveRounds
    dsimp only
    split
    · exact hround.trans (ih (hs.completions hround))
    · exact hround

theorem Round.goes (h : Round s₀ n r) (hs : s₀.Unbroken) : Goes s₀ r := by
  induction h with
  | first => exact .refl hs
  | next h hn hchanged ih => exact ih.trans (goes_solveRound ih.unbroken)

/-- The turn comes to all equations of a document. When it comes to one of them, this one is found still, and afterwards
    only other equations are completed. -/
theorem completions_turn (m : Eliminations) (hs : s.Unbroken) (hfind : find s.lines = before ++ eq :: after) :
    (before.foldl (solveEquation m) s).settings = s.settings ∧ (before.foldl (solveEquation m) s).Unbroken ∧
      eq ∈ find (before.foldl (solveEquation m) s).lines ∧
      Completions (solveEquation m (before.foldl (solveEquation m) s) eq).lines
        ((find s.lines).foldl (solveEquation m) s).lines := by
  have hpairwise : (find s.lines).Pairwise fun a b => a.firstLine < b.firstLine := pairwise_findFrom _ _ _ _
  rw [hfind] at hpairwise
  obtain ⟨hbefore, hafter, hcross⟩ := List.pairwise_append.mp hpairwise
  obtain ⟨hfirst, hrest⟩ := List.pairwise_cons.mp hafter
  have hmem {e : Equation} (he : e ∈ before ++ eq :: after) : e ∈ find s.lines := hfind ▸ he
  obtain ⟨hstart, hother⟩ := completions_foldl m hs (fun e he => hmem (List.mem_append_left _ he)) hbefore
  have hfound : ∀ e ∈ eq :: after, e ∈ find (before.foldl (solveEquation m) s).lines :=
    fun e he => hother e (hmem (List.mem_append_right _ he)) fun a ha => Nat.ne_of_gt (hcross a ha e he)
  rw [hfind, List.foldl_append, List.foldl_cons]
  have hunbroken := hs.completions hstart
  obtain ⟨hone, hother'⟩ := completions_solveEquation (m := m) hunbroken (hfound eq List.mem_cons_self)
  have hlater : ∀ e ∈ after, e ∈ find (solveEquation m (before.foldl (solveEquation m) s) eq).lines := fun e he =>
    hother' e (hfound e (List.mem_cons_of_mem _ he)) (Nat.ne_of_gt (hfirst e he))
  exact ⟨(adds_foldl m s hbefore).settings, hunbroken, hfound eq List.mem_cons_self,
    (completions_foldl m (hunbroken.completions hone) hlater hrest).1⟩

/-- When the second pass comes to an equation, it is found in the lines as they are. Afterwards only other equations
    are completed. -/
theorem Turn.found (h : Turn s₀ m eq s) (hs : s₀.Unbroken) : s.settings = s₀.settings ∧ s.Unbroken ∧ eq ∈ find s.lines ∧
    Completions (solveEquation m s eq).lines s₀.solveEquations.lines := by
  obtain ⟨n, r, before, after, hround, hfind, rfl, rfl⟩ := h
  have hr := hround.goes hs
  obtain ⟨hsettings, hunbroken, hfound, hrest⟩ :=
    @completions_turn { r with changed := false } eq before after (r.eliminations (find r.lines)) hr.unbroken hfind
  refine ⟨hsettings.trans hr.settings, hunbroken, hfound, ?_⟩
  have hround' : Completions _ r.solveRound.lines := hrest
  obtain ⟨k, -, heq⟩ := hround.solveEquations_eq
  rw [heq]
  unfold solveRounds
  dsimp only
  split
  · exact hround'.trans (completions_solveRounds (hr.unbroken.completions (completions_solveRound hr.unbroken)) k)
  · exact hround'

/-- An incomplete equation with a value has it written behind its equals sign. -/
theorem lines_complete {left : Expr} {v : Float} (hs : s.Unbroken) (heq : eq ∈ find s.lines) (hbraced : eq.braced = false)
    (hsides : parseSides eq.text = .ok ⟨left, none⟩)
    (hvalue : (s.evaluate eq.firstLine (m.eliminate eq.firstLine left)).1 = .ok v) :
    ∃ line line', s.lines[eq.firstLine]? = some line ∧ fillAfterEquals line (s.settings.write v) = some line' ∧
      (solveEquation m s eq).lines = s.lines.set eq.firstLine line' := by
  have hopen : eq.isComplete = false := by
    unfold isComplete
    rw [hbraced, hsides]
    rfl
  obtain ⟨line, hline, hincomplete⟩ := incomplete_of_mem_find heq hopen
  obtain ⟨-, -, -, line', -, -, -, hfill, -⟩ :=
    hincomplete.fill (hs line (List.mem_of_getElem? hline)) (word_write s.settings v).1
  refine ⟨line, line', hline, hfill, ?_⟩
  unfold solveEquation complete
  rw [hsides]
  dsimp only
  rw [hbraced, if_neg Bool.false_ne_true]
  have hkeeps := s.keeps_evaluate eq.firstLine (m.eliminate eq.firstLine left)
  generalize s.evaluate eq.firstLine (m.eliminate eq.firstLine left) = x at hvalue hkeeps
  obtain ⟨result, t⟩ := x
  obtain rfl : result = .ok v := hvalue
  obtain ⟨hlines, hsettings⟩ := hkeeps
  dsimp only at hlines hsettings ⊢
  have hat : t.lineAt eq.firstLine = line := by
    rw [lineAt, hlines, hline]
    rfl
  rw [hat, hsettings, hfill]
  exact congrArg (List.set · eq.firstLine line') hlines

variable {text : Text} {c : Context} {settings : Settings} {left : Expr} {v : Float}

theorem settings_discovered (text : Text) (c : Context) (settings : Settings) :
    (discovered text c settings).settings = settings := by
  have hstart : (start text c settings).Unbroken := fun l hl => Text.newline_not_mem_of_mem_lines hl
  have hloaded := keeps_loadFunctions (start text c settings)
  exact (goes_discover (hloaded.unbroken hstart)).settings.trans hloaded.settings

/-- The second pass leaves the line of an equation that it has completed as it is, and finds on it what is found when
    the value has just been written. -/
theorem Turn.completed (h : Turn (discovered text c settings) m eq s) (hbraced : eq.braced = false)
    (hsides : parseSides eq.text = .ok ⟨left, none⟩)
    (hvalue : (s.evaluate eq.firstLine (m.eliminate eq.firstLine left)).1 = .ok v) :
    ∃ line line', s.Unbroken ∧ eq ∈ find s.lines ∧ s.lines[eq.firstLine]? = some line ∧
      fillAfterEquals line (settings.write v) = some line' ∧
      (discovered text c settings).solveEquations.lines[eq.firstLine]? = some line' ∧
      ∀ e : Equation, e.firstLine = eq.firstLine →
        (e ∈ find (discovered text c settings).solveEquations.lines ↔ e ∈ find (s.lines.set eq.firstLine line')) := by
  obtain ⟨hsame, hs, heq, hlater⟩ := h.found (unbroken_discovered text c settings)
  obtain ⟨line, line', hline, hfill, hlines⟩ := lines_complete hs heq hbraced hsides hvalue
  rw [hsame, settings_discovered] at hfill
  rw [hlines] at hlater
  have hopen : eq.isComplete = false := by
    unfold isComplete
    rw [hbraced, hsides]
    rfl
  obtain ⟨hword, hequals⟩ := word_write settings v
  have hincomplete : Incomplete line := by
    obtain ⟨line₁, hline₁, h⟩ := incomplete_of_mem_find heq hopen
    obtain rfl := Option.some.inj (hline₁.symm.trans hline)
    exact h
  have hbroken := hs line (List.mem_of_getElem? hline)
  have hlt : eq.firstLine < s.lines.length := (List.getElem?_eq_some_iff.mp hline).1
  have hat : (s.lines.set eq.firstLine line')[eq.firstLine]? = some line' := List.getElem?_set_self hlt
  -- The completed equation is not completed again.
  have hclosed : ∀ e ∈ find (s.lines.set eq.firstLine line'), e.firstLine = eq.firstLine → e.isComplete = true := by
    intro e he hfirst
    refine (Bool.eq_false_or_eq_true _).resolve_right fun hagain => ?_
    obtain ⟨line₁, hline₁, h⟩ := incomplete_of_mem_find he hagain
    rw [hfirst, hat] at hline₁
    obtain rfl := Option.some.inj hline₁
    exact hincomplete.not_fill hbroken hword hequals hfill h
  have hset : ∀ l ∈ s.lines.set eq.firstLine line', '\n' ∉ l := fun l hl => by
    rcases List.mem_or_eq_of_mem_set hl with hl | rfl
    · exact hs l hl
    · exact newline_not_mem_fill hbroken hword hfill
  obtain ⟨hstays, hfound⟩ := hlater.mem_find_iff hset hclosed
  exact ⟨line, line', hs, heq, hline, hfill, hstays.trans hat, hfound⟩

/-- An incomplete equation that the second pass completes with a finite value is an equation from then on to the end of
    the pass, with the left side that it had and with the number that is written as the value of its right side, exactly
    if it does not begin like the definition of a function, what is written denotes a number and its thousands are not
    grouped. -/
theorem Turn.standsAt_iff (h : Turn (discovered text c settings) m eq s) (hbraced : eq.braced = false)
    (hsides : parseSides eq.text = .ok ⟨left, none⟩)
    (hvalue : (s.evaluate eq.firstLine (m.eliminate eq.firstLine left)).1 = .ok v) (hfinite : v.isFinite = true) :
    fillAfterEquals (s.lineAt eq.firstLine) (settings.write v) =
        some ((discovered text c settings).solveEquations.lineAt eq.firstLine) ∧
      (StandsAt (discovered text c settings).solveEquations.lines eq.firstLine left (settings.write v) ↔
        FunctionSource.header? (Classify.blankComments (s.lineAt eq.firstLine)) = none ∧ ',' ∉ settings.write v ∧
          (Literal.read? (settings.write v)).isSome = true) := by
  obtain ⟨line, line', hs, heq, hline, hfill, hfinal, hfound⟩ := h.completed hbraced hsides hvalue
  have hline₀ : s.lineAt eq.firstLine = line := congrArg (Option.getD · []) hline
  have hline₁ : (discovered text c settings).solveEquations.lineAt eq.firstLine = line' :=
    congrArg (Option.getD · []) hfinal
  rw [hline₀, hline₁]
  refine ⟨hfill, ?_⟩
  rw [Settings.write_of_isFinite settings hfinite] at hfill ⊢
  have hproper := Written.proper_numeral v settings.places settings.stripZeros settings.notated settings.groupDigits
  rw [← standsAt_fill_iff heq hbraced hsides hs hline hproper (Written.isBare_numeral _ _ _ _ _) hfill]
  exact exists_congr fun e => and_congr_left fun ⟨hfirst, _⟩ => hfound e hfirst

/-- The equation `a * a =` is completed and stays an equation. -/
theorem standsAt_square :
    ∃ m eq s v, Turn (discovered "a: 2\na * a =".toList {} {}) m eq s ∧ eq.text = "a * a =".toList ∧
      (s.evaluate eq.firstLine (m.eliminate eq.firstLine (.binary .multiply (.var ['a']) (.var ['a'])))).1 = .ok v ∧
      (discovered "a: 2\na * a =".toList {} {}).solveEquations.lineAt 1 = "a * a = 4".toList ∧
      StandsAt (discovered "a: 2\na * a =".toList {} {}).solveEquations.lines 1
        (.binary .multiply (.var ['a']) (.var ['a'])) ['4'] := by
  have hfind : find (discovered "a: 2\na * a =".toList {} {}).lines = [⟨"a * a =".toList, false, 1, 1⟩] := by rfl
  have hsides : parseSides "a * a =".toList = .ok ⟨.binary .multiply (.var ['a']) (.var ['a']), none⟩ := by rfl
  generalize hleft : Expr.binary .multiply (.var ['a']) (.var ['a']) = left at hsides ⊢
  obtain ⟨m, s, hturn, hok, hfinite, hwrite, hheader⟩ : ∃ m s,
      Turn (discovered "a: 2\na * a =".toList {} {}) m ⟨"a * a =".toList, false, 1, 1⟩ s ∧
      ((m.eliminate 1 left).eval (s.contextAt 1)).result.isOk = true ∧
      (valueOrNan ((m.eliminate 1 left).eval (s.contextAt 1))).isFinite = true ∧
      ({} : Settings).write (valueOrNan ((m.eliminate 1 left).eval (s.contextAt 1))) = ['4'] ∧
      (FunctionSource.header? (Classify.blankComments (s.lineAt 1))).isNone = true := by
    subst hleft
    exact ⟨_, _, turn_first hfind, by decide +kernel, by decide +kernel, by decide +kernel, by decide +kernel⟩
  have hvalue := result_of_isOk hok
  obtain ⟨-, hstands⟩ := hturn.standsAt_iff rfl hsides hvalue hfinite
  rw [hwrite] at hstands
  have hread : (Literal.read? ['4']).isSome = true := by decide +kernel
  exact ⟨m, _, s, _, hturn, rfl, hvalue, by decide +kernel,
    hstands.mpr ⟨Option.isNone_iff_eq_none.mp hheader, by decide, hread⟩⟩

/-- With grouped thousands the completed line `a * a = 1,600` is no equation. The completed line `f(a) = 9` defines a
    function anew. -/
theorem not_standsAt :
    (∃ m eq s left v, Turn (discovered "a: 40\na * a =".toList {} { groupDigits := true }) m eq s ∧ eq.braced = false ∧
      parseSides eq.text = .ok ⟨left, none⟩ ∧ (s.evaluate eq.firstLine (m.eliminate eq.firstLine left)).1 = .ok v ∧
      v.isFinite = true ∧ ∀ t, ¬StandsAt (discovered "a: 40\na * a =".toList {} { groupDigits := true }).solveEquations.lines
        eq.firstLine left t) ∧
    ∃ m eq s left v, Turn (discovered "f(x) = x * x\na: 3\nf(a) =".toList {} {}) m eq s ∧ eq.braced = false ∧
      parseSides eq.text = .ok ⟨left, none⟩ ∧ (s.evaluate eq.firstLine (m.eliminate eq.firstLine left)).1 = .ok v ∧
      v.isFinite = true ∧ ∀ t, ¬StandsAt (discovered "f(x) = x * x\na: 3\nf(a) =".toList {} {}).solveEquations.lines
        eq.firstLine left t := by
  constructor
  · have hfind : find (discovered "a: 40\na * a =".toList {} { groupDigits := true }).lines =
        [⟨"a * a =".toList, false, 1, 1⟩] := by rfl
    have hsides : parseSides "a * a =".toList = .ok ⟨.binary .multiply (.var ['a']) (.var ['a']), none⟩ := by rfl
    have hlines : (discovered "a: 40\na * a =".toList {} { groupDigits := true }).solveEquations.lines =
        ["a: 40".toList, "a * a = 1,600".toList] := by decide +kernel
    have hlater : find ["a: 40".toList, "a * a = 1,600".toList] = [⟨"a * a = 1,600".toList, false, 1, 1⟩] := by rfl
    have hwrong : (parseSides "a * a = 1,600".toList).isOk = false := by decide +kernel
    obtain ⟨m, s, hturn, hok, hfinite⟩ : ∃ m s, Turn (discovered "a: 40\na * a =".toList {} { groupDigits := true }) m
          ⟨"a * a =".toList, false, 1, 1⟩ s ∧
        ((m.eliminate 1 (.binary .multiply (.var ['a']) (.var ['a']))).eval (s.contextAt 1)).result.isOk = true ∧
        (valueOrNan ((m.eliminate 1 (.binary .multiply (.var ['a']) (.var ['a']))).eval (s.contextAt 1))).isFinite = true :=
      ⟨_, _, turn_first hfind, by decide +kernel, by decide +kernel⟩
    refine ⟨m, _, s, _, _, hturn, rfl, hsides, result_of_isOk hok, hfinite, ?_⟩
    rintro t ⟨eq, heq, -, -, right, w, hparse, -⟩
    rw [hlines, hlater] at heq
    rw [List.mem_singleton.mp heq] at hparse
    rw [hparse] at hwrong
    cases hwrong
  · have hfind : find (discovered "f(x) = x * x\na: 3\nf(a) =".toList {} {}).lines =
        [⟨"f(a) =".toList, false, 2, 2⟩] := by rfl
    have hsides : parseSides "f(a) =".toList = .ok ⟨.call ['f'] [.var ['a']], none⟩ := by rfl
    have hlines : (discovered "f(x) = x * x\na: 3\nf(a) =".toList {} {}).solveEquations.lines =
        ["f(x) = x * x".toList, "a: 3".toList, "f(a) = 9".toList] := by decide +kernel
    have hlater : find ["f(x) = x * x".toList, "a: 3".toList, "f(a) = 9".toList] = [] := by rfl
    obtain ⟨m, s, hturn, hok, hfinite⟩ : ∃ m s, Turn (discovered "f(x) = x * x\na: 3\nf(a) =".toList {} {}) m
          ⟨"f(a) =".toList, false, 2, 2⟩ s ∧
        ((m.eliminate 2 (.call ['f'] [.var ['a']])).eval (s.contextAt 2)).result.isOk = true ∧
        (valueOrNan ((m.eliminate 2 (.call ['f'] [.var ['a']])).eval (s.contextAt 2))).isFinite = true :=
      ⟨_, _, turn_first hfind, by decide +kernel, by decide +kernel⟩
    refine ⟨m, _, s, _, _, hturn, rfl, hsides, result_of_isOk hok, hfinite, ?_⟩
    rintro t ⟨eq, heq, -⟩
    rw [hlines, hlater] at heq
    cases heq

end SolveState
end Worksheet
