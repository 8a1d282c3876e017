import Worksheet.Proofs.Document.Framed
import Worksheet.Proofs.Expr.Moved
import Worksheet.Proofs.Solve.Rounds
import Worksheet.Solve.Document

/-! Two runs side by side: on a document, and on the document between lines that a solve reads over. Every state of the
    second run is the state of the first one with those lines around it and with all places counted from the first of
    them, through every operation and every pass. -/

namespace Worksheet

/-! ### Folds -/

section Folds
variable {σ τ α β : Type}

/-- A fold stays where no step leads away. -/
theorem foldl_of_fixed {g : τ → β → τ} {y : τ} {ys : List β} (h : ∀ b ∈ ys, g y b = y) : ys.foldl g y = y := by
  induction ys with
  | nil => rfl
  | cons b ys ih =>
    obtain ⟨hb, hys⟩ := List.forall_mem_cons.mp h
    rw [List.foldl_cons, hb, ih hys]

/-- Two folds whose steps correspond, as long as an invariant of the first one holds. -/
theorem foldl_commutes {F : σ → τ} {I : σ → Prop} {f : σ → α → σ} {g : τ → β → τ} {e : α → β} {xs : List α}
    (h : ∀ x, I x → ∀ a ∈ xs, g (F x) (e a) = F (f x a) ∧ I (f x a)) {x : σ} (hx : I x) :
    (xs.map e).foldl g (F x) = F (xs.foldl f x) ∧ I (xs.foldl f x) := by
  induction xs generalizing x with
  | nil => exact ⟨rfl, hx⟩
  | cons a xs ih =>
    obtain ⟨hstep, hnext⟩ := h x hx a List.mem_cons_self
    rw [List.map_cons, List.foldl_cons, List.foldl_cons, hstep]
    exact ih (fun x hx b hb => h x hx b (List.mem_cons_of_mem a hb)) hnext

/-- All lines of a document, with `n` lines ahead of it and `k` behind it that are passed over. -/
theorem foldl_range_commutes {F : σ → τ} {I : σ → Prop} {f : σ → Nat → σ} {g : τ → Nat → τ} {n m k : Nat}
    (hahead : ∀ x, I x → ∀ i < n, g (F x) i = F x) (hbehind : ∀ x, I x → ∀ i < k, g (F x) (n + (m + i)) = F x)
    (h : ∀ x, I x → ∀ i < m, g (F x) (i + n) = F (f x i) ∧ I (f x i)) {x : σ} (hx : I x) :
    (List.range (n + (m + k))).foldl g (F x) = F ((List.range m).foldl f x) ∧ I ((List.range m).foldl f x) := by
  have hown : ((List.range m).map (· + n)).foldl g (F x) = F ((List.range m).foldl f x) ∧ I ((List.range m).foldl f x) :=
    foldl_commutes (fun x hx i hi => h x hx i (List.mem_range.mp hi)) hx
  have hfirst : (List.range n).foldl g (F x) = F x :=
    foldl_of_fixed fun i hi => hahead x hx i (List.mem_range.mp hi)
  have hlast : (((List.range k).map (m + ·)).map (n + ·)).foldl g (F ((List.range m).foldl f x)) =
      F ((List.range m).foldl f x) := by
    refine foldl_of_fixed fun j hj => ?_
    rw [List.map_map] at hj
    obtain ⟨i, hi, rfl⟩ := List.mem_map.mp hj
    exact hbehind _ hown.2 i (List.mem_range.mp hi)
  have hcomm : (List.range m).map (n + ·) = (List.range m).map (· + n) :=
    List.map_congr_left fun i _ => Nat.add_comm n i
  rw [List.range_add, List.range_add, List.map_append, List.foldl_append, List.foldl_append, hfirst, hcomm, hown.1, hlast]
  exact ⟨rfl, hown.2⟩

end Folds

/-! ### Places in a document that stands further down -/

def Site.down (n : Nat) (s : Site) : Site := { s with line := s.line + n }

def Failure.down (n : Nat) (f : Failure) : Failure := { f with line := f.line + n }

def Elimination.down (n : Nat) (e : Elimination) : Elimination := { e with line := e.line + n }

/-- A second declaration is reported with the line of the first one. -/
def Problem.down (n : Nat) : Problem → Problem
  | .duplicate name first => .duplicate name (first + n)
  | p => p

def Issue.down (n : Nat) (i : Issue) : Issue := ⟨i.line + n, i.problem.down n⟩

namespace Eliminations
variable (n : Nat) (m : Eliminations)

def down : Eliminations := Table.mapValues m (Elimination.down n)

theorem elsewhere_down (line : Nat) : (m.down n).elsewhere (line + n) = m.elsewhere line := by
  funext name
  unfold elsewhere down
  rw [Table.find?_mapValues]
  cases Table.find? m name with
  | none => rfl
  | some e =>
    have hline : (e.line + n != line + n) = (e.line != line) := by
      rw [Bool.eq_iff_iff, bne_iff_ne, bne_iff_ne, ne_eq, ne_eq, Nat.add_right_cancel_iff]
    rw [Option.map_some, Option.filter_some, Option.filter_some]
    show (if (e.line + n != line + n) = true then some (e.down n) else none).map Elimination.expr = _
    rw [hline]
    split <;> rfl

theorem eliminate_down (line : Nat) (e : Expr) : (m.down n).eliminate (line + n) e = m.eliminate line e := by
  unfold eliminate
  rw [elsewhere_down]

theorem wants_down (c : Context) : (m.down n).wants (c.down n) = m.wants c := by
  funext d
  unfold wants down
  rw [Context.isKnown_down, Table.contains_mapValues]

end Eliminations

theorem Definition.derive?_down (n : Nat) (c : Context) (s : Sides) : derive? (c.down n) s = derive? c s := by
  have hunknown : (c.down n).isUnknown = c.isUnknown := funext (Context.isUnknown_down n c)
  unfold derive? fromSide? unknownOperand?
  rw [hunknown]

theorem Eliminations.addSides_down (n : Nat) (m : Eliminations) (c : Context) (line : Nat) (s : Sides) :
    (m.down n).addSides (c.down n) (line + n) s = (m.addSides c line s).down n := by
  unfold addSides
  rw [wants_down, Definition.derive?_down]
  generalize (Definition.ofSides? s).filter (m.wants c) = given
  generalize (Definition.derive? c s).filter (m.wants c) = derived
  cases given with
  | some d => exact (Table.mapValues_insert (Elimination.down n) m d.name ⟨d.expr, line⟩).symm
  | none =>
    cases derived with
    | some d => exact (Table.mapValues_insert (Elimination.down n) m d.name ⟨d.expr, line⟩).symm
    | none => rfl

namespace SolveState

/-- As many lines, and the same settings. -/
structure Spans (s t : SolveState) : Prop where
  length : t.lines.length = s.lines.length
  settings : t.settings = s.settings

section Spans
variable {s t u : SolveState}

theorem Spans.refl (s : SolveState) : Spans s s := ⟨rfl, rfl⟩

theorem Spans.trans (h : Spans s t) (h' : Spans t u) : Spans s u :=
  ⟨h'.length.trans h.length, h'.settings.trans h.settings⟩

theorem Keeps.spans (h : Keeps s t) : Spans s t := ⟨congrArg List.length h.lines, h.settings⟩

theorem spans_setLine (s : SolveState) (line : Nat) (t : Text) : Spans s (s.setLine line t) := ⟨List.length_set, rfl⟩

end Spans

theorem difference_down (n : Nat) (c : Context) (x : Text) (left right : Expr) :
    difference (c.down n) x left right = difference c x left right := by
  funext v
  unfold difference
  dsimp only
  rw [Context.bind_down, Expr.eval_down, Expr.eval_down]

/-! ### Elementary changes -/

/-- The state of a solve with other lines around the document. -/
def framed (A B : List Text) (s : SolveState) : SolveState :=
  { s with
    context := s.context.moved A.length
    lines := A ++ (s.lines ++ B)
    sites := s.sites.map (Site.down A.length)
    failures := s.failures.mapValues (Failure.down A.length)
    issues := s.issues.map (Issue.down A.length) }

section Framed
variable {A B : List Text} (s : SolveState) (line : Nat)

theorem settings_framed : (framed A B s).settings = s.settings := rfl

theorem length_framed : (framed A B s).lines.length = A.length + (s.lines.length + B.length) := by
  show (A ++ (s.lines ++ B)).length = _
  rw [List.length_append, List.length_append]

theorem classify_lines_framed (hA : ∀ l ∈ A, Inert l) (hB : ∀ l ∈ B, Inert l) :
    Lines.classify (framed A B s).lines =
      List.replicate A.length none ++ (Lines.classify s.lines ++ List.replicate B.length none) :=
  Lines.classify_framed hA hB s.lines

theorem find_lines_framed (hA : ∀ l ∈ A, Prose l) (hB : ∀ l ∈ B, Inert l) :
    Equation.find (framed A B s).lines = (Equation.find s.lines).map (Equation.down A.length) ++
      Equation.findFrom ((FunctionSource.find s.lines).map (FunctionSource.down A.length)) 0
        (s.lines.length + A.length) B :=
  Equation.find_framed hA hB s.lines

theorem contextAt_framed : (framed A B s).contextAt (line + A.length) = (s.contextAt line).down A.length := rfl

variable {line} in
theorem lineAt_framed (h : line < s.lines.length) : (framed A B s).lineAt (line + A.length) = s.lineAt line := by
  show ((A ++ (s.lines ++ B))[line + A.length]?).getD [] = _
  rw [List.getElem?_append_right (Nat.le_add_left _ _), Nat.add_sub_cancel, List.getElem?_append_left h]
  rfl

variable {line} in
theorem setLine_framed (h : line < s.lines.length) (t : Text) :
    (framed A B s).setLine (line + A.length) t = framed A B (s.setLine line t) := by
  have hset : (A ++ (s.lines ++ B)).set (line + A.length) t = A ++ (s.lines.set line t ++ B) := by
    rw [List.set_append_right _ _ (Nat.le_add_left _ _), Nat.add_sub_cancel, List.set_append_left _ _ h]
  unfold setLine framed
  rw [hset]

theorem report_framed (p : Problem) :
    (framed A B s).report (line + A.length) (p.down A.length) = framed A B (s.report line p) := by
  unfold report framed
  simp [Issue.down]

theorem use_framed (u : Usage) : (framed A B s).use u = framed A B (s.use u) := rfl

theorem fail_framed (name : Text) (cause : FailureCause) :
    (framed A B s).fail name cause (line + A.length) = framed A B (s.fail name cause line) := by
  unfold fail framed
  rw [Table.mapValues_insert]
  rfl

theorem assign_framed (name : Text) (v : Float) : (framed A B s).assign name v = framed A B (s.assign name v) := by
  unfold assign framed
  rw [Table.mapValues_erase]
  rfl

/-! ### Evaluating -/

theorem evaluate_framed (e : Expr) :
    (framed A B s).evaluate (line + A.length) e = (s.evaluate line e).map id (framed A B) := by
  unfold evaluate
  rw [contextAt_framed, Expr.eval_down]
  rfl

theorem evaluateText_framed (t : Text) :
    (framed A B s).evaluateText (line + A.length) t = (s.evaluateText line t).map id (framed A B) := by
  unfold evaluateText
  cases parseExpr t with
  | error e => rfl
  | ok e =>
    dsimp only
    rw [evaluate_framed]
    obtain ⟨e | v, s₁⟩ := s.evaluate line e <;> rfl

theorem valueOf_framed (style : Style) (t : Text) :
    (framed A B s).valueOf (line + A.length) style t = (s.valueOf line style t).map id (framed A B) := by
  unfold valueOf
  split
  · rfl
  · exact s.evaluateText_framed line t

theorem limitsOf_framed (name : Text) : (framed A B s).limitsOf name = (s.limitsOf name).map id (framed A B) := by
  have hsite : ((framed A B s).sites.find? fun site => site.name == name && site.found.limits?.isSome) =
      (s.sites.find? fun site => site.name == name && site.found.limits?.isSome).map (Site.down A.length) :=
    List.find?_map
  unfold limitsOf
  rw [hsite]
  cases s.sites.find? fun site => site.name == name && site.found.limits?.isSome with
  | none => rfl
  | some site =>
    dsimp only [Option.map_some]
    have hfound : (site.down A.length).found = site.found := rfl
    have hline : (site.down A.length).line = site.line + A.length := rfl
    rw [hfound, hline]
    cases site.found.limits? with
    | none => rfl
    | some l =>
      dsimp only
      rw [valueOf_framed]
      obtain ⟨p | low, s₁⟩ := s.valueOf site.line site.found.decoration.style l.low
      · rfl
      · dsimp only [Prod.map, id]
        rw [valueOf_framed]
        obtain ⟨p | high, s₂⟩ := s₁.valueOf site.line site.found.decoration.style l.high <;> rfl

/-- A text without a value is not a second declaration. -/
theorem down_of_evaluateText {s s₁ : SolveState} {line : Nat} {t : Text} {p : Problem}
    (h : s.evaluateText line t = (.error p, s₁)) (n : Nat) : p.down n = p := by
  unfold evaluateText at h
  cases ht : parseExpr t with
  | error e =>
    rw [ht] at h
    obtain ⟨hp, -⟩ := Prod.mk.inj h
    obtain rfl := Except.error.inj hp
    rfl
  | ok e =>
    rw [ht] at h
    dsimp only at h
    split at h
    · cases h
    · obtain ⟨hp, -⟩ := Prod.mk.inj h
      obtain rfl := Except.error.inj hp
      rfl

theorem down_declarationProblem {s s₁ : SolveState} {line : Nat} {style : Style} {t : Text} {p : Problem}
    (h : s.valueOf line style t = (.error p, s₁)) (name : Text) (n : Nat) :
    (declarationProblem name p).down n = declarationProblem name p := by
  have hp : p.down n = p := by
    unfold valueOf at h
    split at h
    · cases h
    · exact down_of_evaluateText h n
  unfold declarationProblem
  split
  · rfl
  · exact hp

/-! ### The first pass -/

theorem loadFunction_framed (f : FunctionSource) :
    loadFunction (framed A B s) (f.down A.length) = framed A B (loadFunction s f) := by
  unfold loadFunction
  have hbody : (f.down A.length).body = f.body := rfl
  rw [hbody]
  cases parseExpr f.body with
  | ok body => rfl
  | error e => exact s.report_framed f.firstLine (.invalidFunction f.name e.cause)

theorem loadFunctions_framed (hA : ∀ l ∈ A, Inert l) (hB : ∀ l ∈ B, Inert l) :
    (framed A B s).loadFunctions = framed A B s.loadFunctions := by
  have hfind : FunctionSource.find (framed A B s).lines =
      (FunctionSource.find s.lines).map (FunctionSource.down A.length) := FunctionSource.find_framed hA hB s.lines
  unfold loadFunctions
  rw [hfind, List.foldl_map]
  exact List.foldl_hom (framed A B) fun s f => s.loadFunction_framed f

variable {line} in
theorem spliceOne_framed (h : line < s.lines.length) (reporting : Bool) (e : Inline) :
    spliceOne (line + A.length) reporting (framed A B s) e = framed A B (spliceOne line reporting s e) ∧
      Spans s (spliceOne line reporting s e) := by
  have hkeeps := s.keeps_evaluateText line e.source
  unfold spliceOne
  rw [evaluateText_framed]
  cases hvalue : s.evaluateText line e.source with | mk r s₁ => ?_
  rw [hvalue] at hkeeps
  dsimp only at hkeeps
  cases r with
  | error p =>
    dsimp only [Prod.map, id]
    split
    · have hp := s₁.report_framed (A := A) (B := B) line p
      rw [down_of_evaluateText hvalue] at hp
      exact ⟨hp, (hkeeps.trans (s₁.keeps_report line p)).spans⟩
    · exact ⟨rfl, hkeeps.spans⟩
  | ok v =>
    have h₁ : line < s₁.lines.length := hkeeps.lines ▸ h
    dsimp only [Prod.map, id]
    rw [lineAt_framed s₁ h₁]
    exact ⟨s₁.setLine_framed h₁ _, hkeeps.spans.trans (s₁.spans_setLine line _)⟩

variable {line} in
theorem spliceLine_framed (h : line < s.lines.length) (reporting : Bool) :
    spliceLine reporting (framed A B s) (line + A.length) = framed A B (spliceLine reporting s line) ∧
      Spans s (spliceLine reporting s line) := by
  have hfold (es : List Inline) :
      (es.map id).foldl (spliceOne (line + A.length) reporting) (framed A B s) =
          framed A B (es.foldl (spliceOne line reporting) s) ∧ Spans s (es.foldl (spliceOne line reporting) s) := by
    refine foldl_commutes (I := Spans s) (fun t ht e _ => ?_) (.refl s)
    obtain ⟨hone, hspans⟩ := t.spliceOne_framed (A := A) (B := B) (ht.length ▸ h) reporting e
    exact ⟨hone, ht.trans hspans⟩
  unfold spliceLine
  rw [lineAt_framed s h]
  simpa only [List.map_id] using hfold (Inline.find (s.lineAt line)).reverse

theorem accept_framed (name : Text) (l : ValueLine) (first : Option Nat) (v : Float) :
    (framed A B s).accept name l (line + A.length) (first.map (· + A.length)) v =
      framed A B (s.accept name l line first v) := by
  have hvalues : (framed A B s).context.values = s.context.values := rfl
  unfold accept
  rw [hvalues]
  cases first with
  | none => rfl
  | some first =>
    cases s.context.values.find? name with
    | none => rfl
    | some before =>
      dsimp only [Option.map_some]
      split
      · exact s.report_framed line (.duplicate name first)
      · rfl

theorem declareValue_framed (name : Text) (l : ValueLine) (first : Option Nat) :
    (framed A B s).declareValue name l (line + A.length) (first.map (· + A.length)) =
      framed A B (s.declareValue name l line first) := by
  have hrefused : ((framed A B s).context.constants.contains name && !(framed A B s).settings.shadowConstants) =
      (s.context.constants.contains name && !s.settings.shadowConstants) := rfl
  unfold declareValue
  rw [hrefused]
  split
  · exact s.report_framed line (.constantRedeclared name)
  · have hshadow : ({ framed A B s with
          context := (framed A B s).context.shadow name ((line + A.length : Nat) : Int) } : SolveState) =
        framed A B { s with context := s.context.shadow name line } := by
      show ({ framed A B s with context := (s.context.moved A.length).shadow name (line + A.length) } : SolveState) = _
      rw [Context.shadow_moved]
      rfl
    dsimp only at hshadow ⊢
    rw [hshadow, valueOf_framed]
    generalize ({ s with context := s.context.shadow name line } : SolveState) = t
    cases hvalue : t.valueOf line l.decoration.style l.valueText with | mk r t₁ => ?_
    cases r with
    | error p =>
      have hreport := t₁.report_framed (A := A) (B := B) line (declarationProblem name p)
      rw [down_declarationProblem hvalue] at hreport
      exact hreport
    | ok v => exact t₁.accept_framed line name l first v

theorem declare_framed (name : Text) (l : ValueLine) :
    (framed A B s).declare name l (line + A.length) = framed A B (s.declare name l line) := by
  have hfirst : ((framed A B s).sites.find? (·.name == name)).map Site.line =
      ((s.sites.find? (·.name == name)).map Site.line).map (· + A.length) := by
    show ((s.sites.map (Site.down A.length)).find? (·.name == name)).map Site.line = _
    rw [List.find?_map, Option.map_map, Option.map_map]
    rfl
  have hadded : ({ framed A B s with sites := (framed A B s).sites ++ [⟨name, l, line + A.length⟩] } : SolveState) =
      framed A B { s with sites := s.sites ++ [⟨name, l, line⟩] } := by
    unfold framed
    simp [Site.down]
  unfold declare
  rw [hfirst]
  dsimp only
  rw [hadded]
  split
  · rfl
  · exact declareValue_framed _ line name l _

/-- A state together with the value lines of its document. -/
def framedLines (A B : List Text) (x : SolveState × List (Option ValueLine)) : SolveState × List (Option ValueLine) :=
  (framed A B x.1, List.replicate A.length none ++ (x.2 ++ List.replicate B.length none))

/-- The state of a document with the lines of `s`, every one of which has an entry. -/
def Paired (s : SolveState) (x : SolveState × List (Option ValueLine)) : Prop :=
  Spans s x.1 ∧ x.2.length = s.lines.length

/-- What is found on a line that is passed over. -/
theorem passed_framedLines {x : SolveState × List (Option ValueLine)} {i : Nat} (hx : Paired s x)
    (hA : ∀ l ∈ A, Inert l) (hB : ∀ l ∈ B, Inert l)
    (hi : i < A.length ∨ ∃ j < B.length, i = A.length + (s.lines.length + j)) :
    Inline.find ((framedLines A B x).1.lineAt i) = [] ∧ ((framedLines A B x).2[i]?).join = none := by
  obtain ⟨hspans, hfound⟩ := hx
  have hlength := hspans.length
  show Inline.find (((A ++ (x.1.lines ++ B))[i]?).getD []) = [] ∧
    ((List.replicate A.length none ++ (x.2 ++ List.replicate B.length none))[i]?).join = none
  rcases hi with hi | ⟨j, hj, rfl⟩
  · rw [List.getElem?_append_left hi, List.getElem?_append_left (by simpa using hi), List.getElem?_eq_getElem hi]
    exact ⟨(hA _ (List.getElem_mem hi)).noInline, by simp [hi]⟩
  · have hlines : (A ++ (x.1.lines ++ B))[A.length + (s.lines.length + j)]? = some B[j] := by
      rw [List.getElem?_append_right (Nat.le_add_right _ _), Nat.add_sub_cancel_left,
        List.getElem?_append_right (hlength ▸ Nat.le_add_right _ _), hlength, Nat.add_sub_cancel_left,
        List.getElem?_eq_getElem hj]
    have hfound : (List.replicate A.length none ++
        (x.2 ++ List.replicate B.length none))[A.length + (s.lines.length + j)]? = some (none : Option ValueLine) := by
      rw [List.getElem?_append_right (by simp), List.length_replicate, Nat.add_sub_cancel_left,
        List.getElem?_append_right (hfound ▸ Nat.le_add_right _ _), hfound, Nat.add_sub_cancel_left,
        List.getElem?_replicate, if_pos hj]
    rw [hlines, hfound]
    exact ⟨(hB _ (List.getElem_mem hj)).noInline, rfl⟩

/-- A line without inline expressions and without a value line is passed over. -/
theorem discoverLine_passed {x : SolveState × List (Option ValueLine)} {i : Nat}
    (h : Inline.find (x.1.lineAt i) = [] ∧ (x.2[i]?).join = none) : discoverLine x i = x := by
  unfold discoverLine
  dsimp only
  rw [spliceLine_eq h.1, if_pos rfl, h.2]

theorem discoverLine_framed (hA : ∀ l ∈ A, Inert l) (hB : ∀ l ∈ B, Inert l)
    {x : SolveState × List (Option ValueLine)} {i : Nat} (hx : Paired s x) (hi : i < s.lines.length) :
    discoverLine (framedLines A B x) (i + A.length) = framedLines A B (discoverLine x i) ∧
      Paired s (discoverLine x i) := by
  obtain ⟨s₁, found⟩ := x
  obtain ⟨hspans, hfound⟩ := hx
  dsimp only at hspans hfound
  obtain ⟨hspliced, hspans'⟩ := s₁.spliceLine_framed (A := A) (B := B) (hspans.length ▸ hi) false
  unfold discoverLine framedLines
  dsimp only
  rw [hspliced]
  generalize spliceLine false s₁ i = t at hspans' ⊢
  have ht : Spans s t := hspans.trans hspans'
  rw [lineAt_framed t (ht.length ▸ hi), lineAt_framed s₁ (hspans.length ▸ hi)]
  rw [classify_lines_framed t hA hB, ← apply_ite (fun now => List.replicate A.length none ++ (now ++ List.replicate B.length none))]
  have hnow : (if t.lineAt i = s₁.lineAt i then found else Lines.classify t.lines).length = s.lines.length := by
    split
    · exact hfound
    · exact (Lines.length_classify t.lines).trans ht.length
  generalize (if t.lineAt i = s₁.lineAt i then found else Lines.classify t.lines) = now at hnow ⊢
  have hat : (List.replicate A.length none ++ (now ++ List.replicate B.length none))[i + A.length]? = now[i]? := by
    rw [List.getElem?_append_right (by simp), List.length_replicate, Nat.add_sub_cancel,
      List.getElem?_append_left (hnow ▸ hi)]
  rw [hat]
  cases (now[i]?).join with
  | none => exact ⟨rfl, ht, hnow⟩
  | some l =>
    dsimp only
    cases l.name? with
    | none => exact ⟨rfl, ht, hnow⟩
    | some name =>
      dsimp only
      rw [declare_framed]
      exact ⟨rfl, ht.trans (t.keeps_declare i name l).spans, hnow⟩

theorem discover_framed (hA : ∀ l ∈ A, Inert l) (hB : ∀ l ∈ B, Inert l) :
    (framed A B s).discover = framed A B s.discover ∧ Spans s s.discover := by
  have hfold := foldl_range_commutes (F := framedLines A B) (I := Paired s) (f := discoverLine)
    (g := discoverLine) (k := B.length)
    (fun x hx i hi => discoverLine_passed (s.passed_framedLines hx hA hB (.inl hi)))
    (fun x hx i hi => discoverLine_passed (s.passed_framedLines hx hA hB (.inr ⟨i, hi, rfl⟩)))
    (fun x hx i hi => s.discoverLine_framed hA hB hx hi) (x := (s, Lines.classify s.lines))
    ⟨.refl s, Lines.length_classify s.lines⟩
  unfold discover
  rw [length_framed, classify_lines_framed s hA hB]
  exact ⟨congrArg Prod.fst hfold.1, hfold.2.1⟩

/-! ### Equations -/

variable {eq : Equation}

theorem complete_framed (h : eq.firstLine < s.lines.length) (left : Expr) (m : Eliminations) :
    (framed A B s).complete (eq.down A.length) left (m.down A.length) = framed A B (s.complete eq left m) ∧
      Spans s (s.complete eq left m) := by
  have hbraced : (eq.down A.length).braced = eq.braced := rfl
  have hfirst : (eq.down A.length).firstLine = eq.firstLine + A.length := rfl
  unfold complete
  rw [hbraced, hfirst, Eliminations.eliminate_down, evaluate_framed]
  have hkeeps := s.keeps_evaluate eq.firstLine (m.eliminate eq.firstLine left)
  split
  · exact ⟨rfl, .refl s⟩
  · generalize s.evaluate eq.firstLine (m.eliminate eq.firstLine left) = x at hkeeps ⊢
    obtain ⟨r, s₁⟩ := x
    dsimp only at hkeeps
    cases r with
    | error e => exact ⟨rfl, hkeeps.spans⟩
    | ok v =>
      have h₁ : eq.firstLine < s₁.lines.length := hkeeps.lines ▸ h
      dsimp only [Prod.map, id]
      rw [lineAt_framed s₁ h₁, settings_framed]
      cases fillAfterEquals (s₁.lineAt eq.firstLine) (s₁.settings.write v) with
      | none => exact ⟨rfl, hkeeps.spans⟩
      | some line =>
        have hset := hkeeps.spans.trans (s₁.spans_setLine eq.firstLine line)
        dsimp only
        rw [setLine_framed s₁ h₁]
        exact ⟨rfl, hset.length, hset.settings⟩

theorem checkLimits_framed (name : Text) (v : Float) :
    (framed A B s).checkLimits name v (line + A.length) = (s.checkLimits name v line).map id (framed A B) := by
  unfold checkLimits
  rw [limitsOf_framed]
  obtain ⟨_ | l, s₁⟩ := s.limitsOf name
  · rfl
  · dsimp only [Prod.map, id]
    rw [settings_framed, fail_framed]
    split <;> rfl

theorem evaluateDefinition_framed (d : Definition) :
    (framed A B s).evaluateDefinition (line + A.length) d = framed A B (s.evaluateDefinition line d) := by
  unfold evaluateDefinition
  rw [evaluate_framed]
  obtain ⟨e | v, s₁⟩ := s.evaluate line d.expr
  · exact s₁.fail_framed line d.name (.eval e)
  · dsimp only [Prod.map, id]
    rw [checkLimits_framed]
    obtain ⟨_ | _, s₂⟩ := s₁.checkLimits d.name v line
    · rfl
    · exact s₂.assign_framed d.name v

theorem define_framed (d : Definition) :
    (framed A B s).define (line + A.length) d = (s.define line d).map id (framed A B) := by
  have hgiven : (framed A B s).given = s.given := rfl
  unfold define
  dsimp only
  rw [contextAt_framed, Context.unknowns_down, Context.isKnown_down, hgiven, evaluateDefinition_framed]
  split
  · rfl
  · split <;> rfl

theorem useAt_framed (f : Float → Evaluation Float) (points : List Float) :
    (framed A B s).useAt f points = framed A B (s.useAt f points) :=
  List.foldl_hom (framed A B) fun _ _ => rfl

theorem solveFor_framed (x : Text) (left right : Expr) :
    (framed A B s).solveFor (line + A.length) x left right = framed A B (s.solveFor line x left right) := by
  unfold solveFor
  rw [limitsOf_framed]
  obtain ⟨limits, s₁⟩ := s.limitsOf x
  dsimp only [Prod.map, id]
  rw [contextAt_framed, difference_down, useAt_framed, useAt_framed]
  split
  · exact fail_framed _ line x .undetermined
  · split
    · exact assign_framed _ x _
    · exact fail_framed _ line x _

theorem solveSides_framed (left right : Expr) (m : Eliminations) :
    (framed A B s).solveSides (line + A.length) left right (m.down A.length) =
      framed A B (s.solveSides line left right m) := by
  unfold solveSides
  dsimp only
  rw [contextAt_framed, Context.unknowns_down, Context.unknowns_down, Eliminations.eliminate_down,
    Eliminations.eliminate_down]
  split
  · rfl
  · exact s.solveFor_framed line _ left right
  · split
    · exact s.solveFor_framed line _ _ _
    · rfl

theorem solveBoth_framed (sides : Sides) (right : Expr) (m : Eliminations) :
    (framed A B s).solveBoth (line + A.length) sides right (m.down A.length) =
      framed A B (s.solveBoth line sides right m) := by
  unfold solveBoth
  split
  · exact s.solveSides_framed line sides.left right m
  · rename_i d hd
    rw [define_framed]
    obtain ⟨_ | _, s₁⟩ := s.define line d
    · rfl
    · exact s₁.solveSides_framed line sides.left right m

theorem solveEquation_framed (h : eq.firstLine < s.lines.length) (m : Eliminations) :
    solveEquation (m.down A.length) (framed A B s) (eq.down A.length) = framed A B (solveEquation m s eq) ∧
      Spans s (solveEquation m s eq) := by
  have htext : (eq.down A.length).text = eq.text := rfl
  have hfirst : (eq.down A.length).firstLine = eq.firstLine + A.length := rfl
  unfold solveEquation
  rw [htext, hfirst]
  split
  · exact ⟨rfl, .refl s⟩
  · rename_i sides hsides
    split
    · exact s.complete_framed h sides.left m
    · rename_i right hright
      exact ⟨s.solveBoth_framed eq.firstLine sides right m, (s.keeps_solveBoth eq.firstLine sides right m).spans⟩

theorem solveEquation_unreadable (h : eq.Unreadable) (m : Eliminations) : solveEquation m s eq = s := by
  obtain ⟨e, he⟩ := h
  unfold solveEquation
  rw [he]

theorem eliminations_framed (equations : List Equation) {unread : List Equation} (h : ∀ eq ∈ unread, eq.Unreadable) :
    (framed A B s).eliminations (equations.map (Equation.down A.length) ++ unread) =
      (s.eliminations equations).down A.length := by
  unfold eliminations
  rw [List.foldl_append]
  refine (foldl_of_fixed fun eq heq => ?_).trans ?_
  · obtain ⟨e, he⟩ := h eq heq
    rw [he]
  · refine (foldl_commutes (F := Eliminations.down A.length) (I := fun _ => True) (x := Table.empty)
      (fun m _ eq _ => ⟨?_, trivial⟩) trivial).1
    have htext : (eq.down A.length).text = eq.text := rfl
    rw [htext]
    cases Equation.parseSides eq.text with
    | error e => rfl
    | ok sides => exact m.addSides_down A.length (s.contextAt eq.firstLine) eq.firstLine sides

/-- The equations around the document that cannot be read are passed over. -/
theorem solveRound_framed (hA : ∀ l ∈ A, Prose l) (hB : ∀ l ∈ B, Inert l) :
    (framed A B s).solveRound = framed A B s.solveRound ∧ Spans s s.solveRound := by
  have hunread : ∀ eq ∈ Equation.findFrom ((FunctionSource.find s.lines).map (FunctionSource.down A.length)) 0
      (s.lines.length + A.length) B, eq.Unreadable := fun eq => Equation.unreadable_of_mem_findFrom hB
  have hfresh : ({ framed A B s with changed := false } : SolveState) = framed A B { s with changed := false } := rfl
  have hfirst : ∀ eq ∈ Equation.find s.lines, eq.firstLine < s.lines.length := by
    intro eq heq
    obtain ⟨k, line, hk, hline, -⟩ := Equation.of_mem_findFrom heq
    rw [hk, Nat.zero_add]
    exact (List.getElem?_eq_some_iff.mp hline).1
  unfold solveRound
  dsimp only at hfresh ⊢
  rw [find_lines_framed s hA hB, eliminations_framed s _ hunread, hfresh, List.foldl_append]
  generalize s.eliminations (Equation.find s.lines) = m
  have hown : ((Equation.find s.lines).map (Equation.down A.length)).foldl (solveEquation (m.down A.length))
      (framed A B { s with changed := false }) =
        framed A B ((Equation.find s.lines).foldl (solveEquation m) { s with changed := false }) ∧
      Spans s ((Equation.find s.lines).foldl (solveEquation m) { s with changed := false }) := by
    refine foldl_commutes (I := Spans s) (fun t ht eq heq => ?_) ⟨rfl, rfl⟩
    obtain ⟨hstep, hspans⟩ := t.solveEquation_framed (A := A) (B := B) (ht.length ▸ hfirst eq heq) m
    exact ⟨hstep, ht.trans hspans⟩
  rw [hown.1, foldl_of_fixed fun eq heq => solveEquation_unreadable _ (hunread eq heq) _]
  exact ⟨rfl, hown.2⟩

theorem solveRounds_framed (hA : ∀ l ∈ A, Prose l) (hB : ∀ l ∈ B, Inert l) (n : Nat) :
    solveRounds n (framed A B s) = framed A B (solveRounds n s) ∧ Spans s (solveRounds n s) := by
  induction n generalizing s with
  | zero => exact ⟨rfl, .refl s⟩
  | succ n ih =>
    obtain ⟨hround, hspans⟩ := s.solveRound_framed hA hB
    have hchanged : (framed A B s.solveRound).changed = s.solveRound.changed := rfl
    unfold solveRounds
    dsimp only
    rw [hround, hchanged]
    split
    · obtain ⟨hrest, hspans'⟩ := ih s.solveRound
      exact ⟨hrest, hspans.trans hspans'⟩
    · exact ⟨rfl, hspans⟩

/-! ### The last passes -/

variable {line} in
theorem writeValue_framed (h : line < s.lines.length) (l : ValueLine) (v : Float) :
    (framed A B s).writeValue (line + A.length) l v = framed A B (s.writeValue line l v) := by
  unfold writeValue
  rw [lineAt_framed s h, settings_framed, setLine_framed s h]

theorem spans_writeValue (l : ValueLine) (v : Float) : Spans s (s.writeValue line l v) := s.spans_setLine line _

variable {line} in
theorem writeExpression_framed (h : line < s.lines.length) (l : ValueLine) (source : Text) :
    (framed A B s).writeExpression (line + A.length) l source = framed A B (s.writeExpression line l source) ∧
      Spans s (s.writeExpression line l source) := by
  have hkeeps := s.keeps_evaluateText line source
  unfold writeExpression
  split
  · exact ⟨rfl, .refl s⟩
  · rw [evaluateText_framed]
    cases hvalue : s.evaluateText line source with | mk r s₁ => ?_
    rw [hvalue] at hkeeps
    dsimp only at hkeeps
    cases r with
    | error p =>
      have hp := s₁.report_framed (A := A) (B := B) line p
      rw [down_of_evaluateText hvalue] at hp
      exact ⟨hp, (hkeeps.trans (s₁.keeps_report line p)).spans⟩
    | ok v =>
      exact ⟨s₁.writeValue_framed (hkeeps.lines ▸ h) l v, hkeeps.spans.trans (s₁.spans_writeValue line l v)⟩

theorem reportMissing_framed (name : Text) (l : ValueLine) :
    (framed A B s).reportMissing (line + A.length) name l = framed A B (s.reportMissing line name l) := by
  have hfailure : (framed A B s).failures.find? name = (s.failures.find? name).map (Failure.down A.length) :=
    Table.find?_mapValues _ s.failures name
  unfold reportMissing
  rw [hfailure]
  cases s.failures.find? name with
  | some failure => exact s.report_framed failure.line (.unsolved name failure.cause)
  | none =>
    dsimp only [Option.map_none]
    split
    · exact s.report_framed line (.noValue name)
    · rfl

theorem keeps_reportMissing (name : Text) (l : ValueLine) : Keeps s (s.reportMissing line name l) := by
  unfold reportMissing
  split
  · exact s.keeps_report _ _
  · split
    · exact s.keeps_report line _
    · exact .refl s

variable {line} in
theorem writeDeclaration_framed (h : line < s.lines.length) (reported : NameSet) (name : Text) (l : ValueLine) :
    (framed A B s).writeDeclaration reported (line + A.length) name l =
        (s.writeDeclaration reported line name l).map (framed A B) id ∧
      Spans s (s.writeDeclaration reported line name l).1 := by
  unfold writeDeclaration
  dsimp only
  rw [contextAt_framed, Context.lookup_down, use_framed]
  have huse := (s.keeps_use ((s.contextAt line).lookup name).used).spans
  generalize s.use ((s.contextAt line).lookup name).used = t at huse ⊢
  split
  · exact ⟨rfl, .refl s⟩
  · split
    · rename_i v hv
      rw [writeValue_framed t (huse.length ▸ h)]
      exact ⟨rfl, huse.trans (t.spans_writeValue line l v)⟩
    · split
      · exact ⟨rfl, huse⟩
      · rw [reportMissing_framed]
        exact ⟨rfl, huse.trans (t.keeps_reportMissing line name l).spans⟩

theorem writeLine_framed {x : SolveState × NameSet} (found : Option ValueLine) {i : Nat} (h : i < x.1.lines.length) :
    writeLine (x.map (framed A B) id) (found, i + A.length) = (writeLine x (found, i)).map (framed A B) id ∧
      Spans x.1 (writeLine x (found, i)).1 := by
  obtain ⟨s, reported⟩ := x
  unfold writeLine
  cases found with
  | none => exact ⟨rfl, .refl s⟩
  | some l =>
    dsimp only [Prod.map]
    cases l.subject with
    | expression source =>
      dsimp only
      obtain ⟨hwritten, hspans⟩ := s.writeExpression_framed (A := A) (B := B) h l source
      rw [hwritten]
      exact ⟨rfl, hspans⟩
    | declaration name limits => exact s.writeDeclaration_framed h reported name l

theorem spliceLines_framed (hA : ∀ l ∈ A, Inert l) (hB : ∀ l ∈ B, Inert l) (reporting : Bool) :
    (List.range (framed A B s).lines.length).foldl (spliceLine reporting) (framed A B s) =
        framed A B ((List.range s.lines.length).foldl (spliceLine reporting) s) ∧
      Spans s ((List.range s.lines.length).foldl (spliceLine reporting) s) := by
  have hpaired {t : SolveState} (ht : Spans s t) : Paired s (t, Lines.classify t.lines) :=
    ⟨ht, (Lines.length_classify t.lines).trans ht.length⟩
  rw [length_framed]
  refine foldl_range_commutes (I := Spans s) ?_ ?_ ?_ (.refl s)
  · intro t ht i hi
    exact spliceLine_eq (s.passed_framedLines (hpaired ht) hA hB (.inl hi)).1 reporting
  · intro t ht i hi
    exact spliceLine_eq (s.passed_framedLines (hpaired ht) hA hB (.inr ⟨i, hi, rfl⟩)).1 reporting
  · intro t ht i hi
    obtain ⟨hspliced, hspans⟩ := t.spliceLine_framed (A := A) (B := B) (ht.length ▸ hi) reporting
    exact ⟨hspliced, ht.trans hspans⟩

theorem writeOutputs_framed (hA : ∀ l ∈ A, Inert l) (hB : ∀ l ∈ B, Inert l) :
    (framed A B s).writeOutputs = framed A B s.writeOutputs ∧ Spans s s.writeOutputs := by
  obtain ⟨hspliced, hspans⟩ := s.spliceLines_framed hA hB true
  unfold writeOutputs
  dsimp only
  rw [hspliced]
  generalize (List.range s.lines.length).foldl (spliceLine true) s = t at hspans ⊢
  -- nothing is written into the lines around the document
  have hpassed (k n : Nat) (x : SolveState × NameSet) :
      ((List.replicate n none).zipIdx k).foldl writeLine x = x := by
    refine foldl_of_fixed fun y hy => ?_
    have hnone : y.1 = none := by
      have hmem := List.fst_mem_of_mem_zipIdx hy
      exact (List.mem_replicate.mp hmem).2
    unfold writeLine
    rw [hnone]
  have hown : (((Lines.classify t.lines).zipIdx.map (Prod.map id (· + A.length))).foldl writeLine
        ((t, (∅ : NameSet)).map (framed A B) id)) =
        ((Lines.classify t.lines).zipIdx.foldl writeLine (t, ∅)).map (framed A B) id ∧
      Spans t ((Lines.classify t.lines).zipIdx.foldl writeLine (t, ∅)).1 := by
    refine foldl_commutes (I := fun x : SolveState × NameSet => Spans t x.1) (fun x hx y hy => ?_) (.refl t)
    have hlt := List.snd_lt_of_mem_zipIdx hy
    rw [Lines.length_classify, Nat.add_zero] at hlt
    obtain ⟨hwritten, hspans⟩ := writeLine_framed (A := A) (B := B) y.1 (hx.length ▸ hlt)
    exact ⟨hwritten, hx.trans hspans⟩
  rw [List.map_snd_add_zipIdx_eq_zipIdx] at hown
  rw [classify_lines_framed t hA hB, List.zipIdx_append, List.zipIdx_append, List.foldl_append, List.foldl_append, hpassed, hpassed,
    List.length_replicate, Nat.add_comm 0]
  exact ⟨congrArg Prod.fst hown.1, hspans.trans hown.2⟩

theorem checkEquation_framed (eq : Equation) :
    (framed A B s).checkEquation (eq.down A.length) = framed A B (s.checkEquation eq) := by
  have htext : (eq.down A.length).text = eq.text := rfl
  have hfirst : (eq.down A.length).firstLine = eq.firstLine + A.length := rfl
  unfold checkEquation
  rw [htext, hfirst]
  cases Equation.parseSides eq.text with
  | error e => exact s.report_framed eq.firstLine (.parse e.cause)
  | ok sides =>
    obtain ⟨left, _ | right⟩ := sides
    · dsimp only
      unfold checkLeft
      rw [evaluate_framed]
      obtain ⟨e | v, s₁⟩ := s.evaluate eq.firstLine left
      · exact s₁.report_framed eq.firstLine (.eval e)
      · rfl
    · dsimp only
      rw [contextAt_framed, Context.unknowns_down]
      split
      · unfold checkSides
        dsimp only
        rw [hfirst, htext, contextAt_framed, Expr.eval_down, Expr.eval_down, use_framed, settings_framed]
        split
        · rename_i e he
          exact report_framed _ eq.firstLine (.eval e)
        · rename_i l r hlr
          split
          · rfl
          · exact report_framed _ eq.firstLine (.unbalanced eq.text l r)
      · rfl

/-- The equations behind the document are checked last. -/
theorem checkBalance_framed (hA : ∀ l ∈ A, Prose l) (hB : ∀ l ∈ B, Inert l) :
    (framed A B s).checkBalance =
      (Equation.findFrom ((FunctionSource.find s.lines).map (FunctionSource.down A.length)) 0 (s.lines.length + A.length)
        B).foldl checkEquation (framed A B s.checkBalance) := by
  have hown : (Equation.find s.lines).foldl (fun t eq => checkEquation t (eq.down A.length)) (framed A B s) =
      framed A B ((Equation.find s.lines).foldl checkEquation s) :=
    List.foldl_hom (framed A B) checkEquation_framed
  unfold checkBalance
  rw [find_lines_framed s hA hB, List.foldl_append, List.foldl_map, hown]

end Framed

/-! ### The whole run -/

section Run
variable {A B : List Text} {s : SolveState}

/-- The run up to the check of the equations. -/
theorem writeOutputs_run_framed (hA : ∀ l ∈ A, Prose l) (hB : ∀ l ∈ B, Inert l) (s : SolveState) :
    (framed A B s).loadFunctions.discover.solveEquations.writeOutputs =
        framed A B s.loadFunctions.discover.solveEquations.writeOutputs ∧
      Spans s s.loadFunctions.discover.solveEquations.writeOutputs := by
  have hinert : ∀ l ∈ A, Inert l := fun l hl => (hA l hl).toInert
  obtain ⟨hdiscover, hspans⟩ := s.loadFunctions.discover_framed hinert hB
  obtain ⟨hsolve, hspans'⟩ := s.loadFunctions.discover.solveRounds_framed hA hB maxRounds
  obtain ⟨hwrite, hspans''⟩ := (solveRounds maxRounds s.loadFunctions.discover).writeOutputs_framed hinert hB
  unfold solveEquations
  rw [s.loadFunctions_framed hinert hB, hdiscover, hsolve, hwrite]
  exact ⟨rfl, s.keeps_loadFunctions.spans.trans (hspans.trans (hspans'.trans hspans''))⟩

theorem keeps_foldl_checkEquation (s : SolveState) (es : List Equation) : Keeps s (es.foldl checkEquation s) :=
  Keeps.foldl (fun s _ eq _ => s.keeps_checkEquation eq) rfl

/-- A run on a document between other lines is the run on the document, with the equations behind it checked at the
    end. -/
theorem run_framed (hA : ∀ l ∈ A, Prose l) (hB : ∀ l ∈ B, Inert l) (hoff : s.settings.appendReferences = false) :
    Spans s s.run ∧ ∃ functions : List FunctionSource, (∀ f ∈ functions, f.lastLine < s.lines.length + A.length) ∧
      (framed A B s).run =
        (Equation.findFrom functions 0 (s.lines.length + A.length) B).foldl checkEquation (framed A B s.run) := by
  obtain ⟨hframed, hspans⟩ := writeOutputs_run_framed hA hB s
  unfold run
  rw [hframed]
  generalize s.loadFunctions.discover.solveEquations.writeOutputs = t at hspans ⊢
  have hchecked := t.keeps_checkBalance
  have hofft : t.settings.appendReferences = false := hspans.settings ▸ hoff
  rw [checkBalance_framed t hA hB, appendReferences_of_off (hchecked.settings ▸ hofft), appendReferences_of_off ?_]
  · refine ⟨hspans.trans hchecked.spans, _, fun f hf => ?_, by rw [hspans.length]⟩
    obtain ⟨g, hg, rfl⟩ := List.mem_map.mp hf
    have hlast := FunctionSource.lastLine_lt_of_mem_findFrom hg
    rw [Nat.zero_add, hspans.length] at hlast
    exact Nat.add_lt_add_right hlast A.length
  · rw [(keeps_foldl_checkEquation _ _).settings]
    exact hchecked.settings ▸ hofft

end Run
end SolveState
end Worksheet
