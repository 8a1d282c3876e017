import Mathlib.Data.List.Perm.Subperm
import Worksheet.Proofs.Document.Completed
import Worksheet.Proofs.Solve.Keeps
import Worksheet.Proofs.Solve.SecondPass

/-! The number of rounds. Every round that is followed by another one gives a value to a name that had none, or
    completes a line that was an incomplete equation. A name keeps its value and a completed line is not read as an
    incomplete equation again, so there are no more rounds than names and lines, and one. -/

namespace Worksheet

/-! ### The lines of equations -/

namespace Equation

theorem braced_of_block? {index more : Nat} {clean : Text} {rest : List Text} {found : Option Equation} {eq : Equation}
    (h : block? index clean rest = some (found, more)) (heq : eq ∈ found.toList) :
    eq.firstLine = index ∧ eq.braced = true := by
  obtain ⟨⟨body, n⟩, -, h⟩ := Option.bind_eq_some_iff.mp h
  obtain ⟨rfl, -⟩ := Prod.mk.inj (Option.some.inj h)
  split at heq
  · cases heq
  · obtain rfl := List.mem_singleton.mp heq
    exact ⟨rfl, rfl⟩

/-- An equation begins on the line where it is looked for; without braces it is the text of that line. -/
theorem of_mem_at? {index : Nat} {line : Text} {rest : List Text} {eq : Equation} (h : eq ∈ (at? index line rest).1.toList) :
    eq.firstLine = index ∧ (eq.braced = false → eq.text = Inline.toParens (Text.trim (Classify.blankComments line))) := by
  unfold at? at h
  dsimp only at h
  split at h
  · cases hblock : block? index (Classify.blankComments line) rest with
    | none =>
      rw [hblock] at h
      cases h
    | some x =>
      rw [hblock] at h
      obtain ⟨hfirst, hbraced⟩ := braced_of_block? hblock h
      exact ⟨hfirst, fun hno => by rw [hbraced] at hno; cases hno⟩
  · split at h
    · obtain rfl := List.mem_singleton.mp h
      exact ⟨rfl, fun _ => rfl⟩
    · cases h

theorem of_mem_findFrom {functions : List FunctionSource} {skip index : Nat} {ls : List Text} {eq : Equation}
    (h : eq ∈ findFrom functions skip index ls) :
    ∃ k line, eq.firstLine = index + k ∧ ls[k]? = some line ∧
      (eq.braced = false → eq.text = Inline.toParens (Text.trim (Classify.blankComments line))) := by
  induction ls generalizing skip index with
  | nil => cases h
  | cons l ls ih =>
    have hnext {skip : Nat} (h : eq ∈ findFrom functions skip (index + 1) ls) :
        ∃ k line, eq.firstLine = index + k ∧ (l :: ls)[k]? = some line ∧
          (eq.braced = false → eq.text = Inline.toParens (Text.trim (Classify.blankComments line))) := by
      obtain ⟨k, line, hfirst, hline, htext⟩ := ih h
      exact ⟨k + 1, line, by omega, hline, htext⟩
    unfold findFrom at h
    split at h
    · exact hnext h
    · split at h
      · exact hnext h
      · rcases List.mem_append.mp h with h | h
        · obtain ⟨hfirst, htext⟩ := of_mem_at? h
          exact ⟨0, l, hfirst, rfl, htext⟩
        · exact hnext h

/-- Every equation begins on a line behind the one before it. -/
theorem pairwise_findFrom (functions : List FunctionSource) (skip index : Nat) (ls : List Text) :
    (findFrom functions skip index ls).Pairwise fun a b => a.firstLine < b.firstLine := by
  have hone (found : Option Equation) : found.toList.Pairwise fun a b => a.firstLine < b.firstLine := by
    cases found with
    | none => exact List.Pairwise.nil
    | some eq => exact List.pairwise_singleton _ _
  induction ls generalizing skip index with
  | nil => exact List.Pairwise.nil
  | cons l ls ih =>
    unfold findFrom
    split
    · exact ih _ _
    · split
      · exact ih _ _
      · refine List.pairwise_append.mpr ⟨hone _, ih _ _, ?_⟩
        intro a ha b hb
        obtain ⟨hfirst, -⟩ := of_mem_at? ha
        obtain ⟨k, -, hk, -⟩ := of_mem_findFrom hb
        omega

/-- An equation that waits for its right side stands on a line that says so. -/
theorem incomplete_of_mem_find {ls : List Text} {eq : Equation} (h : eq ∈ find ls) (hincomplete : eq.isComplete = false) :
    ∃ line, ls[eq.firstLine]? = some line ∧ Incomplete line := by
  obtain ⟨k, line, hfirst, hline, htext⟩ := of_mem_findFrom h
  rw [Nat.zero_add] at hfirst
  unfold isComplete at hincomplete
  rw [Bool.or_eq_false_iff] at hincomplete
  refine ⟨line, hfirst ▸ hline, ?_⟩
  unfold Incomplete
  rw [← htext hincomplete.1]
  split at hincomplete
  · rename_i left hsides
    exact ⟨left, hsides⟩
  · cases hincomplete.2

end Equation

namespace SolveState

/-! ### What one equation adds -/

theorem hasVariable_of_learns {c c' : Context} (h : c.Learns c') {x : Text} (hx : c.hasVariable x = true) :
    c'.hasVariable x = true := by
  obtain ⟨v, hv⟩ := Option.isSome_iff_exists.mp hx
  exact Option.isSome_iff_exists.mpr ⟨v, h.values x v hv⟩

/-- The line `i` of `s` has a value behind its equals sign in `s'`. -/
def Fills (s s' : SolveState) (i : Nat) : Prop :=
  ∃ v, fillAfterEquals (s.lineAt i) (s.settings.write v) = some (s'.lineAt i)

/-- The name has no value in `s` and has one in `s'`. -/
def Learnt (s s' : SolveState) (x : Text) : Prop := s.context.hasVariable x = false ∧ s'.context.hasVariable x = true

/-- The equations `es` lead from `s` to `s'`: lines are filled where an incomplete equation stands, and something new
    is put on record only with a new value or a filled line. -/
structure Adds (es : List Equation) (s s' : SolveState) : Prop where
  settings : s'.settings = s.settings
  learns : s.context.Learns s'.context
  length : s'.lines.length = s.lines.length
  lines : ∀ i, s'.lineAt i = s.lineAt i ∨ (∃ eq ∈ es, eq.firstLine = i ∧ eq.isComplete = false) ∧ Fills s s' i
  changed : s'.changed = true → s.changed = true ∨ (∃ x, Learnt s s' x) ∨
    ∃ i, (∃ eq ∈ es, eq.firstLine = i ∧ eq.isComplete = false) ∧ Fills s s' i
  still : s'.changed = false → s.changed = false ∧ s'.context = s.context ∧ s'.lines = s.lines

section Adds
variable {s s' s'' : SolveState} {m : Eliminations} {eq : Equation} {es : List Equation}

theorem Adds.of_eq (hsettings : s'.settings = s.settings) (hcontext : s'.context = s.context) (hlines : s'.lines = s.lines)
    (hchanged : s'.changed = s.changed) : Adds es s s' where
  settings := hsettings
  learns := hcontext ▸ .refl _
  length := congrArg List.length hlines
  lines i := .inl (by rw [lineAt, hlines]; rfl)
  changed h := .inl (hchanged ▸ h)
  still h := ⟨hchanged ▸ h, hcontext, hlines⟩

/-- Two runs of equations one after the other, where the second run has no equation on the lines of the first. -/
theorem Adds.trans {es' : List Equation} (h : Adds es s s') (h' : Adds es' s' s'')
    (hapart : ∀ a ∈ es, ∀ b ∈ es', a.firstLine ≠ b.firstLine) : Adds (es ++ es') s s'' := by
  -- A line that one of the runs fills is left as it is by the other one.
  have hfills {i : Nat} (hi : (∃ eq ∈ es, eq.firstLine = i ∧ eq.isComplete = false) ∧ Fills s s' i) :
      (∃ eq ∈ es ++ es', eq.firstLine = i ∧ eq.isComplete = false) ∧ Fills s s'' i := by
    obtain ⟨⟨a, ha, hai, hopen⟩, hfill⟩ := hi
    refine ⟨⟨a, List.mem_append_left _ ha, hai, hopen⟩, ?_⟩
    rcases h'.lines i with hsame | ⟨⟨b, hb, hbi, -⟩, -⟩
    · rwa [Fills, hsame]
    · exact absurd (hai.trans hbi.symm) (hapart a ha b hb)
  have hfills' {i : Nat} (hi : (∃ eq ∈ es', eq.firstLine = i ∧ eq.isComplete = false) ∧ Fills s' s'' i) :
      (∃ eq ∈ es ++ es', eq.firstLine = i ∧ eq.isComplete = false) ∧ Fills s s'' i := by
    obtain ⟨⟨b, hb, hbi, hopen⟩, hfill⟩ := hi
    refine ⟨⟨b, List.mem_append_right _ hb, hbi, hopen⟩, ?_⟩
    rcases h.lines i with hsame | ⟨⟨a, ha, hai, -⟩, -⟩
    · rwa [Fills, hsame, h.settings] at hfill
    · exact absurd (hai.trans hbi.symm) (hapart a ha b hb)
  constructor
  case settings => exact h'.settings.trans h.settings
  case learns => exact h.learns.trans h'.learns
  case length => exact h'.length.trans h.length
  case lines =>
    intro i
    rcases h.lines i with hsame | hi
    · rcases h'.lines i with hsame' | hi
      · exact .inl (hsame'.trans hsame)
      · exact .inr (hfills' hi)
    · exact .inr (hfills hi)
  case changed =>
    intro hchanged
    rcases h'.changed hchanged with hbefore | ⟨x, hx, hx'⟩ | ⟨i, hi⟩
    · rcases h.changed hbefore with hbefore | ⟨x, hx, hx'⟩ | ⟨i, hi⟩
      · exact .inl hbefore
      · exact .inr (.inl ⟨x, hx, hasVariable_of_learns h'.learns hx'⟩)
      · exact .inr (.inr ⟨i, hfills hi⟩)
    · refine .inr (.inl ⟨x, ?_, hx'⟩)
      cases hvalue : s.context.hasVariable x with
      | false => rfl
      | true => rw [hasVariable_of_learns h.learns hvalue] at hx; cases hx
    · exact .inr (.inr ⟨i, hfills' hi⟩)
  case still =>
    intro hstill
    obtain ⟨hmiddle, hcontext', hlines'⟩ := h'.still hstill
    obtain ⟨hbefore, hcontext, hlines⟩ := h.still hmiddle
    exact ⟨hbefore, hcontext'.trans hcontext, hlines'.trans hlines⟩

theorem adds_decides {x : Text} {line : Nat} (hx : (s.contextAt line).isKnown x = false) (h : Decides line x s s') :
    Adds es s s' := by
  obtain ⟨t, ⟨u, rfl⟩, ⟨v, rfl⟩ | ⟨cause, rfl⟩⟩ := h
  · have hnone : s.context.hasVariable x = false := (Bool.or_eq_false_iff.mp hx).1
    constructor
    case settings => rfl
    case learns => exact Context.learns_setVariable hx
    case length => rfl
    case lines => exact fun i => .inl rfl
    case changed => exact fun _ => .inr (.inl ⟨x, hnone, hasVariable_assign _ x v⟩)
    case still => exact fun h => nomatch h
  · exact .of_eq rfl rfl rfl rfl

/-- A completed equation has a value behind its equals sign. -/
theorem adds_complete {left : Expr} (hbraced : eq.braced = false) (hsides : Equation.parseSides eq.text = .ok ⟨left, none⟩) :
    Adds [eq] s (s.complete eq left m) := by
  have hopen : eq.isComplete = false := by
    unfold Equation.isComplete
    rw [hbraced, hsides]
    rfl
  unfold complete
  rw [hbraced, if_neg Bool.false_ne_true, evaluate_eq]
  cases ((m.eliminate eq.firstLine left).eval (s.contextAt eq.firstLine)).result with
  | error e => exact .of_eq rfl rfl rfl rfl
  | ok v =>
    dsimp only
    generalize hu : ((m.eliminate eq.firstLine left).eval (s.contextAt eq.firstLine)).used = u
    have hat : (s.use u).lineAt eq.firstLine = s.lineAt eq.firstLine := rfl
    split
    · exact .of_eq rfl rfl rfl rfl
    · rename_i line hfill
      rw [hat] at hfill
      have hlt : eq.firstLine < s.lines.length := by
        refine Nat.lt_of_not_le fun hle => ?_
        rw [lineAt, List.getElem?_eq_none hle] at hfill
        cases hfill
      have hwritten : Fills s { (s.use u).setLine eq.firstLine line with solved := s.solved + 1, changed := true } eq.firstLine := by
        refine ⟨v, hfill.trans (congrArg some ?_)⟩
        show line = ((s.lines.set eq.firstLine line)[eq.firstLine]?).getD []
        rw [List.getElem?_set_self hlt]
        rfl
      have hat : ∃ a ∈ [eq], a.firstLine = eq.firstLine ∧ a.isComplete = false := ⟨eq, List.mem_singleton_self eq, rfl, hopen⟩
      constructor
      case settings => rfl
      case learns => exact .refl _
      case length => exact List.length_set
      case lines =>
        intro i
        by_cases hi : eq.firstLine = i
        · subst hi
          exact .inr ⟨hat, hwritten⟩
        · refine .inl ?_
          show ((s.lines.set eq.firstLine line)[i]?).getD [] = _
          rw [List.getElem?_set_ne hi]
          rfl
      case changed => exact fun _ => .inr (.inr ⟨eq.firstLine, hat, hwritten⟩)
      case still => exact fun h => nomatch h

theorem adds_solveEquation (m : Eliminations) (s : SolveState) (eq : Equation) : Adds [eq] s (solveEquation m s eq) := by
  unfold solveEquation
  split
  · exact .of_eq rfl rfl rfl rfl
  · rename_i sides hsides
    obtain ⟨left, right⟩ := sides
    cases right with
    | some right =>
      rcases s.solveBoth_cases eq.firstLine ⟨left, some right⟩ right m with h | ⟨x, hx, h⟩
      · dsimp only
        rw [h]
        exact .of_eq rfl rfl rfl rfl
      · exact adds_decides hx h
    | none =>
      cases hbraced : eq.braced with
      | false => exact adds_complete hbraced hsides
      | true =>
        dsimp only
        unfold complete
        rw [if_pos hbraced]
        exact .of_eq rfl rfl rfl rfl

theorem adds_foldl (m : Eliminations) (s : SolveState) (hpairwise : es.Pairwise fun a b => a.firstLine < b.firstLine) :
    Adds es s (es.foldl (solveEquation m) s) := by
  induction es generalizing s with
  | nil => exact .of_eq rfl rfl rfl rfl
  | cons eq es ih =>
    obtain ⟨hfirst, hrest⟩ := List.pairwise_cons.mp hpairwise
    refine (adds_solveEquation m s eq).trans (ih _ hrest) ?_
    intro a ha b hb
    rw [List.mem_singleton.mp ha]
    exact Nat.ne_of_lt (hfirst b hb)

theorem adds_solveRound (s : SolveState) : Adds (Equation.find s.lines) { s with changed := false } s.solveRound :=
  adds_foldl _ _ (Equation.pairwise_findFrom _ _ _ _)

end Adds

/-! ### Rounds -/

theorem word_write (settings : Settings) (v : Float) : OutputText.Word (settings.write v) ∧ '=' ∉ settings.write v := by
  have hproper := Written.proper_number v settings.places settings.stripZeros settings.notated 10 settings.groupDigits
  refine ⟨OutputText.word_render hproper, fun hmem => ?_⟩
  rcases Written.mem_render hproper hmem with h | h | h <;> cases h

/-- No line holds a line end. -/
def Unbroken (s : SolveState) : Prop := ∀ l ∈ s.lines, '\n' ∉ l

theorem Unbroken.lineAt {s : SolveState} (h : s.Unbroken) (i : Nat) : '\n' ∉ s.lineAt i := by
  unfold SolveState.lineAt
  cases hline : s.lines[i]? with
  | none => simp
  | some l => exact h l (List.mem_of_getElem? hline)

/-- In the round that begins with `r` the incomplete equation on line `i` gets its value. -/
def Completes (r : SolveState) (i : Nat) : Prop :=
  (∃ eq ∈ Equation.find r.lines, eq.firstLine = i ∧ eq.isComplete = false) ∧ Fills r r.solveRound i

/-- One state comes later than another one: names keep their values, and a line that is not the same has been an
    incomplete equation and is one no more. -/
structure Later (s s' : SolveState) : Prop where
  learns : s.context.Learns s'.context
  length : s'.lines.length = s.lines.length
  lines : ∀ i, s'.lineAt i = s.lineAt i ∨ Equation.Incomplete (s.lineAt i) ∧ ¬Equation.Incomplete (s'.lineAt i)
  unbroken : s'.Unbroken

section Later
variable {s s' s'' s₀ r r' : SolveState} {n m i : Nat} {x : Text}

theorem Later.refl (h : s.Unbroken) : Later s s := ⟨.refl _, rfl, fun _ => .inl rfl, h⟩

theorem Later.trans (h : Later s s') (h' : Later s' s'') : Later s s'' where
  learns := h.learns.trans h'.learns
  length := h'.length.trans h.length
  lines i := by
    rcases h.lines i with hsame | ⟨hopen, hclosed⟩
    · rw [← hsame]
      exact h'.lines i
    · rcases h'.lines i with hsame | ⟨hopen', -⟩
      · exact .inr ⟨hopen, hsame ▸ hclosed⟩
      · exact absurd hopen' hclosed
  unbroken := h'.unbroken

theorem Completes.incomplete (h : Completes r i) : i < r.lines.length ∧ Equation.Incomplete (r.lineAt i) := by
  obtain ⟨⟨eq, heq, rfl, hopen⟩, -⟩ := h
  obtain ⟨line, hline, hincomplete⟩ := Equation.incomplete_of_mem_find heq hopen
  refine ⟨(List.getElem?_eq_some_iff.mp hline).1, ?_⟩
  unfold lineAt
  rwa [hline]

/-- A completed line is not read as an incomplete equation again. -/
theorem Completes.not_incomplete (h : Completes r i) (hr : r.Unbroken) : ¬Equation.Incomplete (r.solveRound.lineAt i) := by
  obtain ⟨v, hfill⟩ := h.2
  exact h.incomplete.2.not_fill (hr.lineAt i) (word_write _ v).1 (word_write _ v).2 hfill

theorem later_solveRound (hr : r.Unbroken) : Later r r.solveRound := by
  have hadds := adds_solveRound r
  have hlines (i : Nat) : r.solveRound.lineAt i = r.lineAt i ∨ Completes r i := hadds.lines i
  refine ⟨hadds.learns, hadds.length, fun i => ?_, fun l hl => ?_⟩
  · exact (hlines i).imp_right fun h => ⟨h.incomplete.2, h.not_incomplete hr⟩
  · obtain ⟨i, hi⟩ := List.getElem?_of_mem hl
    have hat : r.solveRound.lineAt i = l := by rw [lineAt, hi]; rfl
    rw [← hat]
    rcases hlines i with hsame | ⟨-, v, hfill⟩
    · rw [hsame]
      exact hr.lineAt i
    · exact newline_not_mem_fill (hr.lineAt i) (word_write _ v).1 hfill

/-- A round that is followed by another one has found something. -/
theorem progress_solveRound (h : r.solveRound.changed = true) : (∃ x, Learnt r r.solveRound x) ∨ ∃ i, Completes r i :=
  ((adds_solveRound r).changed h).resolve_left Bool.false_ne_true

theorem Round.unique (h : Round s₀ n r) (h' : Round s₀ n r') : r = r' := by
  induction h generalizing r' with
  | first =>
    cases h'
    rfl
  | next h hn hchanged ih =>
    cases h' with
    | next h' => rw [ih h']

theorem Round.later (h : Round s₀ n r) (hs₀ : s₀.Unbroken) : Later s₀ r := by
  induction h with
  | first => exact .refl hs₀
  | next h hn hchanged ih => exact ih.trans (later_solveRound ih.unbroken)

/-- Of two rounds the second one begins where the first one has ended, or later. -/
theorem Round.later_of_lt (h : Round s₀ n r) (h' : Round s₀ m r') (hnm : n < m) (hs₀ : s₀.Unbroken) :
    Later r.solveRound r' := by
  induction h' with
  | first => cases hnm
  | @next m t h' hm hchanged ih =>
    rcases Nat.lt_succ_iff_lt_or_eq.mp hnm with hlt | rfl
    · exact (ih hlt).trans (later_solveRound (h'.later hs₀).unbroken)
    · rw [h.unique h']
      exact .refl (later_solveRound (h'.later hs₀).unbroken).unbroken

/-- The last round: it finds nothing, or no further one is allowed. -/
theorem Round.exists_last (h : Round s₀ n r) : ∃ m r', Round s₀ m r' ∧ n ≤ m ∧
    s₀.solveEquations = r'.solveRound ∧ (r'.solveRound.changed = false ∨ m + 1 = maxRounds) := by
  obtain ⟨k, hk, heq⟩ := h.solveEquations_eq
  have hrounds (k n : Nat) (r : SolveState) (h : Round s₀ n r) (hk : n + (k + 1) = maxRounds) :
      ∃ m r', Round s₀ m r' ∧ n ≤ m ∧ solveRounds (k + 1) r = r'.solveRound ∧
        (r'.solveRound.changed = false ∨ m + 1 = maxRounds) := by
    induction k generalizing n r with
    | zero => exact ⟨n, r, h, Nat.le_refl n, ite_self _, .inr hk⟩
    | succ k ih =>
      cases hchanged : r.solveRound.changed with
      | false =>
        refine ⟨n, r, h, Nat.le_refl n, ?_, .inl hchanged⟩
        unfold solveRounds
        dsimp only
        rw [hchanged, if_neg Bool.false_ne_true]
      | true =>
        obtain ⟨m, r', hround, hle, hlast, hend⟩ := ih (n + 1) r.solveRound (h.next (by omega) hchanged) (by omega)
        refine ⟨m, r', hround, by omega, ?_, hend⟩
        rw [← hlast]
        conv_lhs => unfold solveRounds
        dsimp only
        rw [hchanged, if_pos rfl]
  obtain ⟨m, r', hround, hle, hlast, hend⟩ := hrounds k n r h hk
  exact ⟨m, r', hround, hle, heq.trans hlast, hend⟩

end Later

/-! ### Counting -/

/-- The names that have a value in `s'` and none in `s`. -/
def learntNames (s s' : SolveState) : List Text := s'.context.values.names.filter fun x => !s.context.hasVariable x

/-- The lines that are not the same in `s'` as in `s`. -/
def changedLines (s s' : SolveState) : List Nat := (List.range s.lines.length).filter fun i => s'.lineAt i ≠ s.lineAt i

section Count
variable {s s' s₀ r r' : SolveState} {n m i : Nat} {x : Text}

theorem mem_learntNames : x ∈ learntNames s s' ↔ Learnt s s' x := by
  unfold learntNames Learnt
  rw [List.mem_filter, Table.mem_names_iff, Bool.not_eq_true', and_comm]
  rfl

theorem mem_changedLines : i ∈ changedLines s s' ↔ i < s.lines.length ∧ s'.lineAt i ≠ s.lineAt i := by
  unfold changedLines
  rw [List.mem_filter, List.mem_range, decide_eq_true_iff]

theorem nodup_learntNames (s s' : SolveState) : (learntNames s s').Nodup := (Table.nodup_names _).filter _

theorem nodup_changedLines (s s' : SolveState) : (changedLines s s').Nodup := List.nodup_range.filter _

theorem length_lt_of_mem {α : Type} {l l' : List α} {a : α} (hnodup : l.Nodup) (hsub : l ⊆ l') (ha : a ∈ l') (hno : a ∉ l) :
    l.length < l'.length := by
  have hall : a :: l ⊆ l' := List.cons_subset.mpr ⟨ha, hsub⟩
  exact (List.subperm_of_subset (List.nodup_cons.mpr ⟨hno, hnodup⟩) hall).length_le

theorem Later.learntNames_subset (h : Later r r') : learntNames s₀ r ⊆ learntNames s₀ r' := by
  intro x hx
  obtain ⟨hnone, hvalue⟩ := mem_learntNames.mp hx
  exact mem_learntNames.mpr ⟨hnone, hasVariable_of_learns h.learns hvalue⟩

theorem Later.changedLines_subset (h₀ : Later s₀ r) (h : Later r r') : changedLines s₀ r ⊆ changedLines s₀ r' := by
  intro i hi
  obtain ⟨hlt, hne⟩ := mem_changedLines.mp hi
  refine mem_changedLines.mpr ⟨hlt, ?_⟩
  have hclosed := ((h₀.lines i).resolve_left hne).2
  rwa [(h.lines i).resolve_right fun hopen => hclosed hopen.1]

/-- A line that a round completes has not been touched before. -/
theorem Completes.lineAt_eq (h : Completes r i) (h₀ : Later s₀ r) : r.lineAt i = s₀.lineAt i :=
  (h₀.lines i).resolve_right fun hclosed => hclosed.2 h.incomplete.2

theorem Completes.mem_changedLines (h : Completes r i) (h₀ : Later s₀ r) (h' : Later r.solveRound r') :
    i ∈ changedLines s₀ r' := by
  have hclosed := h.not_incomplete h₀.unbroken
  refine SolveState.mem_changedLines.mpr ⟨h₀.length ▸ h.incomplete.1, fun hsame => hclosed ?_⟩
  rw [← (h'.lines i).resolve_right fun hopen => hclosed hopen.1, hsame, ← h.lineAt_eq h₀]
  exact h.incomplete.2

/-- There are no more rounds before one than names and lines that have been found. -/
theorem Round.le_length (h : Round s₀ n r) (hs₀ : s₀.Unbroken) :
    n ≤ (learntNames s₀ r).length + (changedLines s₀ r).length := by
  induction h with
  | first => exact Nat.zero_le _
  | @next n r h hn hchanged ih =>
    have h₀ := h.later hs₀
    have hlater := later_solveRound h₀.unbroken
    have hnames : learntNames s₀ r ⊆ learntNames s₀ r.solveRound := hlater.learntNames_subset
    have hlines := h₀.changedLines_subset hlater
    have hnames' := (List.subperm_of_subset (nodup_learntNames s₀ r) hnames).length_le
    have hlines' := (List.subperm_of_subset (nodup_changedLines s₀ r) hlines).length_le
    rcases progress_solveRound hchanged with ⟨x, hnone, hvalue⟩ | ⟨i, hi⟩
    · have hno : x ∉ learntNames s₀ r := fun hx => by
        rw [(mem_learntNames.mp hx).2] at hnone
        cases hnone
      have hx : x ∈ learntNames s₀ r.solveRound := by
        refine mem_learntNames.mpr ⟨?_, hvalue⟩
        cases hvalue₀ : s₀.context.hasVariable x with
        | false => rfl
        | true => rw [hasVariable_of_learns h₀.learns hvalue₀] at hnone; cases hnone
      have hlt := length_lt_of_mem (nodup_learntNames s₀ r) hnames hx hno
      omega
    · have hno : i ∉ changedLines s₀ r := fun hmem => (mem_changedLines.mp hmem).2 (hi.lineAt_eq h₀)
      have hmem := hi.mem_changedLines h₀ (.refl hlater.unbroken)
      have hlt := length_lt_of_mem (nodup_changedLines s₀ r) hlines hmem hno
      omega

/-- What a round ends with and the first one has not begun with was found in this round or in one before it. -/
theorem Round.found (h : Round s₀ n r) :
    (∀ x, Learnt s₀ r.solveRound x → ∃ m r', Round s₀ m r' ∧ Learnt r' r'.solveRound x) ∧
      ∀ i, r.solveRound.lineAt i ≠ s₀.lineAt i → ∃ m r', Round s₀ m r' ∧ Completes r' i := by
  have hround {n : Nat} {r : SolveState} (h : Round s₀ n r)
      (hbefore : (∀ x, Learnt s₀ r x → ∃ m r', Round s₀ m r' ∧ Learnt r' r'.solveRound x) ∧
        ∀ i, r.lineAt i ≠ s₀.lineAt i → ∃ m r', Round s₀ m r' ∧ Completes r' i) :
      (∀ x, Learnt s₀ r.solveRound x → ∃ m r', Round s₀ m r' ∧ Learnt r' r'.solveRound x) ∧
        ∀ i, r.solveRound.lineAt i ≠ s₀.lineAt i → ∃ m r', Round s₀ m r' ∧ Completes r' i := by
    refine ⟨fun x hx => ?_, fun i hi => ?_⟩
    · cases hvalue : r.context.hasVariable x with
      | false => exact ⟨n, r, h, hvalue, hx.2⟩
      | true => exact hbefore.1 x ⟨hx.1, hvalue⟩
    · rcases (adds_solveRound r).lines i with hsame | hfill
      · exact hbefore.2 i fun heq => hi (hsame.trans heq)
      · exact ⟨n, r, h, hfill⟩
  induction h with
  | first =>
    refine hround .first ⟨fun x hx => ?_, fun i hi => absurd rfl hi⟩
    obtain ⟨hnone, hvalue⟩ := hx
    rw [hnone] at hvalue
    cases hvalue
  | next h hn hchanged ih => exact hround (h.next hn hchanged) ih

/-- The last round that is gone through. -/
theorem Round.later_solveEquations (h : Round s₀ n r) (hs₀ : s₀.Unbroken) : Later r.solveRound s₀.solveEquations := by
  obtain ⟨m, r', hround, hle, heq, -⟩ := h.exists_last
  have hlater := later_solveRound (hround.later hs₀).unbroken
  rw [heq]
  rcases Nat.lt_or_eq_of_le hle with hlt | rfl
  · exact (h.later_of_lt hround hlt hs₀).trans hlater
  · rw [h.unique hround]
    exact .refl hlater.unbroken

end Count

/-! ### The document -/

section Unbroken
variable {s s' : SolveState}

theorem Keeps.unbroken (h : Keeps s s') (hs : s.Unbroken) : s'.Unbroken := by
  unfold Unbroken
  rw [h.lines]
  exact hs

theorem Unbroken.setLine (h : s.Unbroken) (line : Nat) {t : Text} (ht : '\n' ∉ t) : (s.setLine line t).Unbroken := by
  intro l hl
  rcases List.mem_or_eq_of_mem_set hl with hl | rfl
  · exact h l hl
  · exact ht

theorem Unbroken.spliceOne (h : s.Unbroken) (line : Nat) (reporting : Bool) (e : Inline) :
    (spliceOne line reporting s e).Unbroken := by
  have hkeeps := s.keeps_evaluateText line e.source
  unfold SolveState.spliceOne
  split
  · rename_i p t heq
    have ht := (hkeeps.of_eq heq).unbroken h
    split
    · exact (t.keeps_report line p).unbroken ht
    · exact ht
  · rename_i v t heq
    have ht := (hkeeps.of_eq heq).unbroken h
    have hword := OutputText.word_render (Written.proper_number v inlinePlaces true .positional 10 false)
    have hvalue : '\n' ∉ writeNumber v inlinePlaces := fun hmem => absurd (hword.isWordPart _ hmem) (by decide)
    have hline := ht.lineAt line
    refine ht.setLine line ?_
    simp only [Inline.replace, List.mem_append, List.mem_cons, List.not_mem_nil, or_false, not_or]
    exact ⟨⟨fun hmem => hline (List.mem_of_mem_take hmem), ⟨by decide, hvalue⟩, by decide⟩,
      fun hmem => hline (List.mem_of_mem_drop hmem)⟩

theorem Unbroken.spliceLine (h : s.Unbroken) (reporting : Bool) (line : Nat) :
    (spliceLine reporting s line).Unbroken := by
  unfold SolveState.spliceLine
  generalize (Inline.find (s.lineAt line)).reverse = es
  induction es generalizing s with
  | nil => exact h
  | cons e es ih => exact ih (h.spliceOne line reporting e)

theorem Unbroken.discoverLine (h : s.Unbroken) (found : List (Option ValueLine)) (line : Nat) :
    (discoverLine (s, found) line).1.Unbroken := by
  have hspliced := h.spliceLine false line
  unfold SolveState.discoverLine
  dsimp only
  split
  · split
    · exact (keeps_declare _ line _ _).unbroken hspliced
    · exact hspliced
  · exact hspliced

theorem Unbroken.discover (h : s.Unbroken) : s.discover.Unbroken := by
  have hfold (lines : List Nat) : ∀ x : SolveState × List (Option ValueLine), x.1.Unbroken →
      (lines.foldl SolveState.discoverLine x).1.Unbroken := by
    induction lines with
    | nil => exact fun _ hx => hx
    | cons line lines ih => exact fun x hx => ih _ (hx.discoverLine x.2 line)
  exact hfold _ (s, Lines.classify s.lines) h

theorem unbroken_discovered (text : Text) (c : Context) (settings : Settings) : (discovered text c settings).Unbroken := by
  have hstart : (start text c settings).Unbroken := fun l hl => Text.newline_not_mem_of_mem_lines hl
  exact ((keeps_loadFunctions _).unbroken hstart).discover

end Unbroken

/-- Every round that is followed by another one has given a value to a name that had none, or has completed an
    incomplete equation; no name is found twice, and no line is completed twice. So there are at most as many rounds as
    there are names found and lines completed, and one more. With fewer than 49 of them the last round, which finds
    nothing, is one before the fiftieth. -/
theorem rounds_le_found (text : Text) (c : Context) (settings : Settings) :
    let s₀ := discovered text c settings
    let found := learntNames s₀ s₀.solveEquations
    let completed := changedLines s₀ s₀.solveEquations
    (∀ n r, Round s₀ n r → r.solveRound.changed = true → (∃ x, Learnt r r.solveRound x) ∨ ∃ i, Completes r i) ∧
    (∀ n r m r', Round s₀ n r → Round s₀ m r' → n < m →
      (∀ x, Learnt r r.solveRound x → ¬Learnt r' r'.solveRound x) ∧ ∀ i, Completes r i → ¬Completes r' i) ∧
    (∀ x, x ∈ found ↔ ∃ n r, Round s₀ n r ∧ Learnt r r.solveRound x) ∧
    (∀ i, i ∈ completed ↔ ∃ n r, Round s₀ n r ∧ Completes r i) ∧
    (∀ n r, Round s₀ n r → n + 1 ≤ 1 + found.length + completed.length) ∧
    (found.length + completed.length < 49 → ∃ n r, Round s₀ n r ∧ n + 1 < maxRounds ∧
      r.solveRound.changed = false ∧ r.solveRound.context = r.context ∧ r.solveRound.lines = r.lines ∧
      s₀.solveEquations = r.solveRound) := by
  have hs₀ := unbroken_discovered text c settings
  generalize discovered text c settings = s₀ at hs₀ ⊢
  obtain ⟨n₁, last, hlast, -, hend, hstop⟩ := (@Round.first s₀).exists_last
  have hcount {n : Nat} {r : SolveState} (h : Round s₀ n r) :
      n ≤ (learntNames s₀ s₀.solveEquations).length + (changedLines s₀ s₀.solveEquations).length := by
    have hlater := (later_solveRound (h.later hs₀).unbroken).trans (h.later_solveEquations hs₀)
    have hnames := (List.subperm_of_subset (nodup_learntNames s₀ r) hlater.learntNames_subset).length_le
    have hlines := (List.subperm_of_subset (nodup_changedLines s₀ r) ((h.later hs₀).changedLines_subset hlater)).length_le
    exact (h.le_length hs₀).trans (Nat.add_le_add hnames hlines)
  refine ⟨fun n r _ => progress_solveRound, ?_, ?_, ?_, ?_, ?_⟩
  · intro n r m r' h h' hnm
    have hlater := h.later_of_lt h' hnm hs₀
    refine ⟨fun x hx hx' => ?_, fun i hi hi' => ?_⟩
    · obtain ⟨hnone, -⟩ := hx'
      rw [hasVariable_of_learns hlater.learns hx.2] at hnone
      cases hnone
    · have hclosed := hi.not_incomplete (h.later hs₀).unbroken
      exact hclosed (hi'.lineAt_eq hlater ▸ hi'.incomplete.2)
  · intro x
    rw [mem_learntNames]
    constructor
    · rw [hend]
      exact hlast.found.1 x
    · rintro ⟨n, r, h, hnone, hvalue⟩
      refine ⟨?_, hasVariable_of_learns (h.later_solveEquations hs₀).learns hvalue⟩
      cases hbefore : s₀.context.hasVariable x with
      | false => rfl
      | true =>
        rw [hasVariable_of_learns (h.later hs₀).learns hbefore] at hnone
        cases hnone
  · intro i
    constructor
    · intro hi
      rw [hend] at hi
      exact hlast.found.2 i (mem_changedLines.mp hi).2
    · rintro ⟨n, r, h, hi⟩
      exact hi.mem_changedLines (h.later hs₀) (h.later_solveEquations hs₀)
  · intro n r h
    have hle := hcount h
    omega
  · intro hfew
    have hle := hcount hlast
    have hlt : n₁ + 1 < maxRounds := by
      unfold maxRounds
      omega
    have hstill := hstop.resolve_right (Nat.ne_of_lt hlt)
    obtain ⟨-, hcontext, hlines⟩ := (adds_solveRound last).still hstill
    exact ⟨n₁, last, hlast, hlt, hstill, hcontext, hlines, hend⟩

end SolveState
end Worksheet
