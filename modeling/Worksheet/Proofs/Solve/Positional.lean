import Worksheet.Proofs.Expr.Shadowing
import Worksheet.Proofs.Solve.Evaluations

/-! A constant that the document declares anew is hidden from the line of that declaration on. All evaluations of a
    solve read the constant on the lines before and the local value from that line on, in every pass; but the inline
    expressions of the line itself are evaluated in the first pass before the line is read as a declaration. -/

namespace Worksheet

/-- A name that is free where an evaluation reads it has the meaning that it has on the line of the evaluation. -/
theorem Performed.find?_of_onLine {p : Performed} {c c' : Context} {g : Text} (hline : c.OnLine p.context)
    (hreads : p.expr.ReadsIn p.context c' g) (hfree : c'.bound.contains g = false) :
    c'.find? g = (c.setLine p.context.line).find? g := by
  obtain ⟨hfree, heq⟩ := Context.find?_of_readsIn hreads hfree
  -- a name on trial is bound, so it is another one than `g`
  obtain ⟨line, hp | ⟨x, v, hp⟩⟩ := hline
  · rw [heq, hp]
    rfl
  · rw [hp] at hfree heq
    rw [heq, hp, (Context.find?_bind_of_free hfree).2]
    rfl

namespace SolveState
open Context

variable {g : Text} {k : Constant} {S : Nat} {v : Float}

/-- Wherever the evaluation reads `g`, it takes the value of the constant before line `S` and `v` from there on. -/
def ReadsPositionally (g : Text) (k : Constant) (S : Nat) (v : Float) (p : Performed) : Prop :=
  ∀ c, p.expr.ReadsIn p.context c g → c.bound.contains g = false →
    c.find? g = if p.context.line < S then some (.ofConstant k.value) else some (.ofVariable v)

/-! ### The later passes -/

/-- Once the constant is hidden, all evaluations read it positionally. -/
theorem Performs.readsPositionally {s t : SolveState} {ps : List Performed} (h : Performs s ps t)
    (hhidden : Hidden g k S v s.context) : ∀ p ∈ ps, ReadsPositionally g k S v p := by
  intro p hp c hreads hfree
  obtain ⟨d, hlearns, hline⟩ := h.contexts p hp
  rw [Performed.find?_of_onLine hline hreads hfree]
  exact (hhidden.learns hlearns).find? p.context.line

/-! ### Evaluations of the first pass -/

section FirstPass
variable {s : SolveState} {line : Nat} {p : Performed}

theorem context_of_mem_traceText {t : Text} (h : p ∈ s.traceText line t) : p.context = s.contextAt line := by
  unfold traceText at h
  split at h
  · cases h
  · rw [List.mem_singleton.mp h]

theorem context_of_mem_traceValue {style : Style} {t : Text} (h : p ∈ s.traceValue line style t) :
    p.context = s.contextAt line := by
  unfold traceValue at h
  split at h
  · cases h
  · exact context_of_mem_traceText h

theorem context_of_mem_traceSplice {reporting : Bool} (h : p ∈ traceSplice reporting s line) :
    p.context = s.contextAt line := by
  have hall (t : SolveState) (es : List Inline)
      (h : p ∈ traceAlong (spliceOne line reporting) (fun s e => s.traceText line e.source) t es) :
      p.context = t.contextAt line := by
    induction es generalizing t with
    | nil => cases h
    | cons e es ih =>
      rcases List.mem_append.mp h with h | h
      · exact context_of_mem_traceText h
      · exact (ih _ h).trans (congrArg (Context.setLine · (line : Int)) (context_spliceOne line reporting t e))
  exact hall s _ h

end FirstPass

/-! ### Reading the lines -/

/-- The first pass before it comes to line `n`. -/
def discoverTo (s : SolveState) (n : Nat) : SolveState × List (Option ValueLine) :=
  (List.range n).foldl discoverLine (s, Lines.classify s.lines)

/-- The value that a declaration has on its line. -/
def declaredValue (s : SolveState) (name : Text) (l : ValueLine) (line : Nat) : Except Problem Float :=
  (valueOf { s with context := s.context.shadow name line } line l.decoration.style l.valueText).1

/-- The first pass reads a declaration of `g` with a value on line `n`. -/
def Declares (s : SolveState) (g : Text) (n : Nat) (l : ValueLine) : Prop :=
  declaration? (discoverTo s n) n = some (g, l) ∧ l.valueText.isEmpty = false

/-- The first declaration of `g` with a value is on line `S` and has the value `v`. -/
structure DeclaresFirst (s : SolveState) (g : Text) (S : Nat) (v : Float) : Prop where
  lt_length : S < s.lines.length
  declares : ∃ l, Declares s g S l ∧ declaredValue (spliced (discoverTo s S) S).1 g l S = .ok v
  first : ∀ i < S, ∀ l, ¬Declares s g i l

/-- Each later declaration of `g` has the value `v` again, if it has any, or is reported as one with another value. -/
def RepeatsOnly (s : SolveState) (g : Text) (S : Nat) (v : Float) : Prop :=
  ∀ n, S < n → n < s.lines.length → ∀ l w, Declares s g n l → declaredValue (spliced (discoverTo s n) n).1 g l n = .ok w →
    w = v ∨ l.isOutput = false ∧ sameValue v w = false

section Lines
variable {s : SolveState} {line : Nat}

/-- Inline values change the text and the reports only. -/
theorem spliced_eq (x : SolveState × List (Option ValueLine)) (line : Nat) :
    ∃ used lines issues, (spliced x line).1 = { x.1 with used, lines, issues } := by
  have hone (s : SolveState) (e : Inline) :
      ∃ used lines issues, spliceOne line false s e = { s with used, lines, issues } := by
    obtain ⟨t, ⟨u, rfl⟩, heq | ⟨p, heq⟩ | ⟨y, heq⟩⟩ := s.spliceOne_cases line false e <;> rw [heq] <;>
      exact ⟨_, _, _, rfl⟩
  show ∃ used lines issues, (Inline.find (x.1.lineAt line)).reverse.foldl (spliceOne line false) x.1 = _
  generalize (Inline.find (x.1.lineAt line)).reverse = es
  generalize x.1 = s
  induction es generalizing s with
  | nil => exact ⟨s.used, s.lines, s.issues, rfl⟩
  | cons e es ih =>
    obtain ⟨used, lines, issues, heq⟩ := ih (spliceOne line false s e)
    obtain ⟨used', lines', issues', heq'⟩ := hone s e
    rw [List.foldl_cons, heq, heq']
    exact ⟨used, lines, issues, rfl⟩

theorem declaredValue_eq {s t : SolveState} (h : t.context = s.context) (name : Text) (l : ValueLine) (line : Nat) :
    t.declaredValue name l line = s.declaredValue name l line := by
  unfold declaredValue valueOf evaluateText
  rw [h]
  cases Literal.read? l.valueText l.decoration.style with
  | some v => rfl
  | none =>
    dsimp only
    cases parseExpr l.valueText with
    | error e => rfl
    | ok e =>
      dsimp only
      rw [evaluate_eq, evaluate_eq]
      have hline : ({ t with context := s.context.shadow name line } : SolveState).contextAt line =
        ({ s with context := s.context.shadow name line } : SolveState).contextAt line := rfl
      rw [hline]
      cases (e.eval (({ s with context := s.context.shadow name line } : SolveState).contextAt line)).result <;> rfl

theorem accept_eq (s : SolveState) (name : Text) (l : ValueLine) (line : Nat) (first : Option Nat) (v : Float) :
    ∃ given issues, s.accept name l line first v =
      { s with
        given
        issues
        context :=
          if first.isSome && (s.context.values.find? name).any fun w => !l.isOutput && !sameValue w v then s.context
          else s.context.setVariable name v } := by
  unfold accept
  cases first with
  | none => exact ⟨_, _, rfl⟩
  | some first =>
    dsimp only
    cases s.context.values.find? name with
    | none => exact ⟨_, _, rfl⟩
    | some w =>
      rw [Option.isSome_some, Bool.true_and, Option.any_some]
      dsimp only
      split
      · exact ⟨s.given, _, rfl⟩
      · exact ⟨_, s.issues, rfl⟩

/-- The context behind a declaration with a value. It is the one before where names of constants are not free, where
    the value cannot be had, or where the name has another one; but the constant is hidden. -/
def AfterDeclaring (s : SolveState) (name : Text) (l : ValueLine) (line : Nat) (first : Option Nat) (c : Context) : Prop :=
  s.settings.shadowConstants = false ∧ c = s.context ∨
    (∃ p, s.declaredValue name l line = .error p) ∧ c = s.context.shadow name line ∨
    ∃ v, s.declaredValue name l line = .ok v ∧ c =
      if first.isSome && (s.context.values.find? name).any fun w => !l.isOutput && !sameValue w v then
        s.context.shadow name line
      else (s.context.shadow name line).setVariable name v

theorem declareValue_eq (s : SolveState) (name : Text) (l : ValueLine) (line : Nat) (first : Option Nat) :
    ∃ context used given issues, s.declareValue name l line first = { s with context, used, given, issues } ∧
      s.AfterDeclaring name l line first context := by
  unfold declareValue
  by_cases h : (s.context.constants.contains name && !s.settings.shadowConstants) = true
  · rw [if_pos h]
    rw [Bool.and_eq_true, Bool.not_eq_true'] at h
    exact ⟨_, _, _, _, rfl, .inl ⟨h.2, rfl⟩⟩
  · rw [if_neg h]
    have hvalues : (s.context.shadow name line).values = s.context.values := by
      unfold Context.shadow
      split <;> rfl
    have huses := uses_valueOf { s with context := s.context.shadow name line } line l.decoration.style l.valueText
    unfold AfterDeclaring declaredValue
    dsimp only
    generalize valueOf { s with context := s.context.shadow name line } line l.decoration.style l.valueText = r at huses
    obtain ⟨p | v, t⟩ := r
    · obtain ⟨u, rfl⟩ := huses
      exact ⟨_, _, _, _, rfl, .inr (.inl ⟨⟨p, rfl⟩, rfl⟩)⟩
    · obtain ⟨u, rfl⟩ := huses
      obtain ⟨given, issues, heq⟩ :=
        accept_eq { s with context := s.context.shadow name line, used := u } name l line first v
      refine ⟨_, _, _, _, heq, .inr (.inr ⟨v, rfl, ?_⟩)⟩
      dsimp only
      rw [hvalues]

/-- The line of the first declaration of a name. -/
def firstLine? (s : SolveState) (name : Text) : Option Nat := (s.sites.find? (·.name == name)).map Site.line

theorem declare_eq (s : SolveState) (name : Text) (l : ValueLine) (line : Nat) :
    ∃ context used given issues, s.declare name l line =
        { s with sites := s.sites ++ [⟨name, l, line⟩], context, used, given, issues } ∧
      (l.valueText.isEmpty = true ∧ context = s.context ∨
        l.valueText.isEmpty = false ∧ s.AfterDeclaring name l line (s.firstLine? name) context) := by
  unfold declare
  dsimp only
  cases hempty : l.valueText.isEmpty with
  | true => exact ⟨_, _, _, _, rfl, .inl ⟨rfl, rfl⟩⟩
  | false =>
    obtain ⟨context, used, given, issues, heq, hcontext⟩ := declareValue_eq
      { s with sites := s.sites ++ [⟨name, l, line⟩] } name l line (s.firstLine? name)
    have hvalue := declaredValue_eq (s := s) (t := { s with sites := s.sites ++ [⟨name, l, line⟩] }) rfl name l line
    unfold AfterDeclaring at hcontext
    rw [hvalue] at hcontext
    exact ⟨context, used, given, issues, heq, .inr ⟨rfl, hcontext⟩⟩

/-- A declaration of another name, or one without a value, does not touch `g`. -/
theorem agree_declare (s : SolveState) {name : Text} {l : ValueLine} (line : Nat)
    (h : name = g → l.valueText.isEmpty = true) : Agree g s.context (s.declare name l line).context := by
  obtain ⟨context, used, given, issues, heq, hcases⟩ := s.declare_eq name l line
  rw [heq]
  rcases hcases with ⟨-, rfl⟩ | ⟨hvalue, hcases⟩
  · exact .refl g s.context
  · have hne : name ≠ g := fun heq => Bool.false_ne_true (hvalue.symm.trans (h heq))
    have hshadow := agree_shadow s.context hne line
    rcases hcases with ⟨-, rfl⟩ | ⟨-, rfl⟩ | ⟨v, -, rfl⟩
    · exact .refl g s.context
    · exact hshadow
    · dsimp only
      split
      · exact hshadow
      · exact hshadow.trans (agree_setVariable _ hne v)

/-- The first declaration with a value hides the constant. -/
theorem hidden_declare {s : SolveState} {l : ValueLine} (hseen : Seen g k s.context)
    (hshadow : s.settings.shadowConstants = true) (hvalue : l.valueText.isEmpty = false)
    (hv : s.declaredValue g l S = .ok v) : Hidden g k S v (s.declare g l S).context := by
  obtain ⟨context, used, given, issues, heq, hcases⟩ := s.declare_eq g l S
  have hcontext : context = (s.context.shadow g S).setVariable g v := by
    rcases hcases with ⟨h, -⟩ | ⟨-, ⟨h, -⟩ | ⟨⟨p, hp⟩, -⟩ | ⟨w, hw, rfl⟩⟩
    · exact absurd (hvalue.symm.trans h) Bool.false_ne_true
    · exact absurd (h.symm.trans hshadow) Bool.false_ne_true
    · cases hv.symm.trans hp
    · obtain rfl := Except.ok.inj (hv.symm.trans hw)
      rw [hseen.value]
      simp
  rw [heq]
  show Hidden g k S v context
  rw [hcontext, hseen.shadow]
  exact ⟨hseen.constant, hseen.bound, by simp [setVariable, Table.find?_insert], by simp [setVariable, Table.find?_insert]⟩

/-- A declaration that repeats the value, or is rejected, leaves the constant hidden as it is. -/
theorem hidden_declare_again {s : SolveState} {l : ValueLine} {line : Nat} (hhidden : Hidden g k S v s.context)
    (hline : S < line) (hsite : ∃ site ∈ s.sites, site.name = g)
    (hrepeats : ∀ w, l.valueText.isEmpty = false → s.declaredValue g l line = .ok w →
      w = v ∨ l.isOutput = false ∧ sameValue v w = false) :
    Hidden g k S v (s.declare g l line).context := by
  have hfirst : (s.firstLine? g).isSome = true := by
    obtain ⟨site, hmem, hname⟩ := hsite
    rw [firstLine?, Option.isSome_map, List.find?_isSome]
    exact ⟨site, hmem, beq_iff_eq.mpr hname⟩
  have hshadow : s.context.shadow g line = s.context := hhidden.shadow (by exact_mod_cast hline)
  obtain ⟨context, used, given, issues, heq, hcases⟩ := s.declare_eq g l line
  rw [heq]
  show Hidden g k S v context
  rcases hcases with ⟨-, rfl⟩ | ⟨hvalue, ⟨-, rfl⟩ | ⟨-, rfl⟩ | ⟨w, hw, rfl⟩⟩
  · exact hhidden
  · exact hhidden
  · rwa [hshadow]
  · rw [hshadow, hfirst, hhidden.value, Bool.true_and, Option.any_some]
    rcases hrepeats w hvalue hw with rfl | ⟨houtput, hother⟩
    · split
      · exact hhidden
      · exact ⟨hhidden.constant, hhidden.bound, by simp [setVariable, Table.find?_insert], hhidden.shadowed⟩
    · rw [houtput, hother, Bool.not_false, Bool.and_self, if_pos rfl]
      exact hhidden

end Lines

/-! ### The first pass, line after line -/

section Discover
variable {s : SolveState} {n : Nat}

/-- Inline expressions touch neither the settings nor the context nor the declarations. -/
theorem spliced_keeps (x : SolveState × List (Option ValueLine)) (line : Nat) :
    (spliced x line).1.settings = x.1.settings ∧ (spliced x line).1.context = x.1.context ∧
      (spliced x line).1.sites = x.1.sites := by
  obtain ⟨used, lines, issues, heq⟩ := spliced_eq x line
  rw [heq]
  exact ⟨rfl, rfl, rfl⟩

theorem declare_keeps (s : SolveState) (name : Text) (l : ValueLine) (line : Nat) :
    (s.declare name l line).settings = s.settings ∧
      (s.declare name l line).sites = s.sites ++ [⟨name, l, line⟩] := by
  obtain ⟨context, used, given, issues, heq, -⟩ := s.declare_eq name l line
  rw [heq]
  exact ⟨rfl, rfl⟩

theorem fst_discoverTo_succ (s : SolveState) (n : Nat) : (discoverTo s (n + 1)).1 =
    match declaration? (discoverTo s n) n with
    | some d => (spliced (discoverTo s n) n).1.declare d.1 d.2 n
    | none => (spliced (discoverTo s n) n).1 := by
  rw [discoverTo, List.range_succ, List.foldl_append]
  show (discoverLine (discoverTo s n) n).1 = _
  rw [discoverLine_eq]
  cases declaration? (discoverTo s n) n <;> rfl

theorem settings_discoverTo (s : SolveState) (n : Nat) : (discoverTo s n).1.settings = s.settings := by
  induction n with
  | zero => rfl
  | succ n ih =>
    obtain ⟨hsettings, -⟩ := spliced_keeps (discoverTo s n) n
    rw [fst_discoverTo_succ, ← ih, ← hsettings]
    cases declaration? (discoverTo s n) n with
    | none => rfl
    | some d => exact (declare_keeps _ _ _ _).1

theorem sites_discoverTo_succ {site : Site} (h : site ∈ (discoverTo s n).1.sites) :
    site ∈ (discoverTo s (n + 1)).1.sites := by
  obtain ⟨-, -, hsites⟩ := spliced_keeps (discoverTo s n) n
  rw [fst_discoverTo_succ]
  rw [← hsites] at h
  cases declaration? (discoverTo s n) n with
  | none => exact h
  | some d =>
    dsimp only
    rw [(declare_keeps _ _ _ _).2]
    exact List.mem_append_left _ h

/-- A line without a declaration of `g` that has a value does not touch `g`. -/
theorem agree_discoverTo_succ (h : ∀ l, ¬Declares s g n l) :
    Agree g (discoverTo s n).1.context (discoverTo s (n + 1)).1.context := by
  obtain ⟨-, hcontext, -⟩ := spliced_keeps (discoverTo s n) n
  rw [fst_discoverTo_succ, ← hcontext]
  cases hd : declaration? (discoverTo s n) n with
  | none => exact .refl g _
  | some d =>
    refine agree_declare _ n fun hname => ?_
    by_contra hvalue
    exact h d.2 ⟨by rw [hd, ← hname], Bool.eq_false_iff.mpr hvalue⟩

theorem seen_discoverTo (hseen : Seen g k s.context) (hfirst : ∀ i < S, ∀ l, ¬Declares s g i l) (hn : n ≤ S) :
    Seen g k (discoverTo s n).1.context := by
  induction n with
  | zero => exact hseen
  | succ n ih => exact (ih (Nat.le_of_succ_le hn)).agree (agree_discoverTo_succ (hfirst n hn))

/-- From line `S` on the constant is hidden. -/
theorem hidden_discoverTo (hseen : Seen g k s.context) (hshadow : s.settings.shadowConstants = true)
    (hfirst : DeclaresFirst s g S v) (hrepeats : RepeatsOnly s g S v) (hn : S < n) (hlength : n ≤ s.lines.length) :
    Hidden g k S v (discoverTo s n).1.context ∧ ∃ site ∈ (discoverTo s n).1.sites, site.name = g := by
  -- on the lines read so far; the recorded declaration makes a later one a repetition, whose value is compared
  induction n with
  | zero => cases hn
  | succ n ih =>
    obtain ⟨hsettings, hcontext, hsites⟩ := spliced_keeps (discoverTo s n) n
    rcases Nat.lt_succ_iff_lt_or_eq.mp hn with hn | rfl
    · obtain ⟨hhidden, site, hsite, hname⟩ := ih hn (Nat.le_of_succ_le hlength)
      refine ⟨?_, site, sites_discoverTo_succ hsite, hname⟩
      rw [← hcontext] at hhidden
      rw [← hsites] at hsite
      by_cases hd : ∃ l, declaration? (discoverTo s n) n = some (g, l)
      · obtain ⟨l, hd⟩ := hd
        rw [fst_discoverTo_succ, hd]
        exact hidden_declare_again hhidden hn ⟨site, hsite, hname⟩ fun w hvalue hw =>
          hrepeats n hn hlength l w ⟨hd, hvalue⟩ hw
      · rw [hcontext] at hhidden
        exact hhidden.agree (agree_discoverTo_succ fun l hl => hd ⟨l, hl.1⟩)
    · obtain ⟨l, ⟨hd, hvalue⟩, hv⟩ := hfirst.declares
      have hseen := seen_discoverTo hseen hfirst.first Nat.le.refl
      rw [← hcontext] at hseen
      rw [fst_discoverTo_succ, hd]
      refine ⟨hidden_declare hseen ?_ hvalue hv, ⟨g, l, S⟩, ?_, rfl⟩
      · rw [hsettings, settings_discoverTo, hshadow]
      · rw [(declare_keeps _ _ _ _).2]
        exact List.mem_append_right _ List.mem_cons_self

/-! ### All evaluations -/

section FirstPass
variable {i : Nat} {p : Performed}

/-- The first pass evaluates in the context of the line, where the line's own declaration may have hidden a constant
    already. -/
theorem context_of_mem_traceDiscoverLine {x : SolveState × List (Option ValueLine)} (h : p ∈ traceDiscoverLine x i) :
    p.context = x.1.context.setLine i ∨
      ∃ name l, declaration? x i = some (name, l) ∧ l.valueText.isEmpty = false ∧
        p.context = (x.1.context.shadow name i).setLine i := by
  obtain ⟨-, hcontext, -⟩ := spliced_keeps x i
  rcases List.mem_append.mp h with h | h
  · exact .inl (context_of_mem_traceSplice h)
  · cases hd : declaration? x i with
    | none =>
      rw [hd] at h
      cases h
    | some d =>
      obtain ⟨name, l⟩ := d
      rw [hd] at h
      dsimp only at h
      unfold traceDeclare traceDeclareValue at h
      cases hvalue : l.valueText.isEmpty with
      | true =>
        rw [hvalue] at h
        cases h
      | false =>
        rw [hvalue, if_neg Bool.false_ne_true] at h
        split at h
        · cases h
        · refine .inr ⟨name, l, rfl, hvalue, ?_⟩
          rw [context_of_mem_traceValue h, ← hcontext]
          rfl

theorem readsPositionally_of_seen {c : Context} (hseen : Seen g k c) (hp : p.context = c.setLine i) (hi : i < S) :
    ReadsPositionally g k S v p := by
  intro c' hreads hfree
  have hline : p.context.line = i := congrArg Context.line hp
  rw [Performed.find?_of_onLine ⟨i, .inl hp⟩ hreads hfree, hseen.find?, hline, if_pos (by exact_mod_cast hi)]

theorem readsPositionally_of_hidden {c : Context} (hhidden : Hidden g k S v c) (hp : p.context = c.setLine i) :
    ReadsPositionally g k S v p := by
  intro c' hreads hfree
  rw [Performed.find?_of_onLine ⟨i, .inl hp⟩ hreads hfree, hhidden.find?]

/-- Before the declaration the constant is read. -/
theorem readsPositionally_before (hseen : Seen g k s.context) (hfirst : DeclaresFirst s g S v) (hi : i < S)
    (hp : p ∈ traceDiscoverLine (discoverTo s i) i) : ReadsPositionally g k S v p := by
  have hseen := seen_discoverTo hseen hfirst.first (Nat.le_of_lt hi)
  rcases context_of_mem_traceDiscoverLine hp with hp | ⟨name, l, hd, hvalue, hp⟩
  · exact readsPositionally_of_seen hseen hp hi
  · have hname : name ≠ g := fun heq => hfirst.first i hi l ⟨heq ▸ hd, hvalue⟩
    exact readsPositionally_of_seen (hseen.agree (agree_shadow _ hname i)) hp hi

/-- Behind the declaration the local value is read. -/
theorem readsPositionally_behind (hseen : Seen g k s.context) (hshadow : s.settings.shadowConstants = true)
    (hfirst : DeclaresFirst s g S v) (hrepeats : RepeatsOnly s g S v) (hi : S < i) (hlength : i ≤ s.lines.length)
    (hp : p ∈ traceDiscoverLine (discoverTo s i) i) : ReadsPositionally g k S v p := by
  obtain ⟨hhidden, -⟩ := hidden_discoverTo hseen hshadow hfirst hrepeats hi hlength
  rcases context_of_mem_traceDiscoverLine hp with hp | ⟨name, l, -, -, hp⟩
  · exact readsPositionally_of_hidden hhidden hp
  · by_cases hname : name = g
    · rw [hname, hhidden.shadow (by exact_mod_cast hi)] at hp
      exact readsPositionally_of_hidden hhidden hp
    · exact readsPositionally_of_hidden (hhidden.agree (agree_shadow _ hname i)) hp

/-- On the line of the declaration the first pass cannot read the local value yet. -/
theorem no_value_on_line (hseen : Seen g k s.context) (hfirst : DeclaresFirst s g S v)
    (hp : p ∈ traceDiscoverLine (discoverTo s S) S) {c : Context} (hreads : p.expr.ReadsIn p.context c g)
    (hfree : c.bound.contains g = false) (w : Float) : c.find? g ≠ some (.ofVariable w) := by
  have hvalue := (seen_discoverTo hseen hfirst.first Nat.le.refl).value
  have hnone : p.context.values.find? g = none := by
    rcases context_of_mem_traceDiscoverLine hp with hp | ⟨name, l, -, -, hp⟩
    · rw [hp]
      exact hvalue
    · rw [hp, ← hvalue]
      unfold Context.shadow
      split <;> rfl
  rw [(find?_of_readsIn hreads hfree).2]
  exact find?_ne_variable hnone w

end FirstPass

/-- If the first declaration of a constant's name `g` with a value is on line `S` and has the value `v`, and the later
    declarations of `g` do not replace it, then a solve reads the constant before line `S` and `v` from there on exactly
    if the first pass does not read `g` on line `S` itself. -/
theorem readsPositionally_iff {text : Text} {c : Context} {settings : Settings}
    (hshadow : settings.shadowConstants = true) (hconstant : c.constants.find? g = some k)
    (hvalue : c.values.find? g = none) (hbound : c.bound.contains g = false)
    (hfirst : DeclaresFirst (start text c settings).loadFunctions g S v)
    (hrepeats : RepeatsOnly (start text c settings).loadFunctions g S v) :
    (∀ p ∈ (start text c settings).trace, ReadsPositionally g k S v p) ↔
      ∀ p ∈ traceDiscoverLine (discoverTo (start text c settings).loadFunctions S) S,
        ∀ c', p.expr.ReadsIn p.context c' g → c'.bound.contains g = true := by
  obtain ⟨functions, locals, issues, hload⟩ := (start text c settings).loadFunctions_eq
  have hsettings : (start text c settings).loadFunctions.settings.shadowConstants = true := by
    rw [hload]
    exact hshadow
  have hseen : Seen g k (start text c settings).loadFunctions.context := by
    rw [hload]
    exact ⟨hconstant, hbound, hvalue, rfl⟩
  unfold trace
  generalize (start text c settings).loadFunctions = s at hfirst hrepeats hsettings hseen ⊢
  have hdiscover {p : Performed} : p ∈ s.traceDiscover ↔
      ∃ i < s.lines.length, p ∈ traceDiscoverLine (discoverTo s i) i := mem_traceAlong_range
  constructor
  · -- on line `S` the first pass would have to read `v`, which the name does not have yet
    intro hall p hp c' hreads
    by_contra hfree
    have hfree := Bool.eq_false_iff.mpr hfree
    have hline : ¬p.context.line < S := by
      rcases context_of_mem_traceDiscoverLine hp with hp | ⟨name, l, -, -, hp⟩ <;> rw [hp] <;> exact Int.lt_irrefl _
    have hread := hall p (List.mem_append_left _ (hdiscover.mpr ⟨S, hfirst.lt_length, hp⟩)) c' hreads hfree
    rw [if_neg hline] at hread
    exact no_value_on_line hseen hfirst hp hreads hfree v hread
  · -- the first pass goes over the lines before, on and behind `S`; the later ones begin with the constant hidden
    intro hnone p hp
    rcases List.mem_append.mp hp with hp | hp
    · obtain ⟨i, hi, hp⟩ := hdiscover.mp hp
      rcases Nat.lt_trichotomy i S with h | rfl | h
      · exact readsPositionally_before hseen hfirst h hp
      · intro c' hreads hfree
        exact absurd (hfree.symm.trans (hnone p hp c' hreads)) Bool.false_ne_true
      · exact readsPositionally_behind hseen hsettings hfirst hrepeats h (Nat.le_of_lt hi) hp
    · have hhidden := (hidden_discoverTo hseen hsettings hfirst hrepeats hfirst.lt_length Nat.le.refl).1
      exact s.discover.performs_later.readsPositionally hhidden p hp

/-! ### Two documents -/

/-- The first declaration by evaluation of the lines. -/
theorem DeclaresFirst.of_any (hlength : S < s.lines.length)
    (hany : (declaration? (discoverTo s S) S).any (fun d => d.1 = g ∧ d.2.valueText.isEmpty = false ∧
      (declaredValue (spliced (discoverTo s S) S).1 g d.2 S).toOption = some v) = true)
    (hnone : ∀ i < S, (declaration? (discoverTo s i) i).isNone = true) : DeclaresFirst s g S v := by
  obtain ⟨⟨name, l⟩, hd, hl⟩ := (Option.any_eq_true _ _).mp hany
  obtain ⟨rfl, hvalue, hv⟩ := of_decide_eq_true hl
  have hv : declaredValue (spliced (discoverTo s S) S).1 name l S = .ok v := by
    cases hresult : declaredValue (spliced (discoverTo s S) S).1 name l S <;> rw [hresult] at hv <;> cases hv
    rfl
  exact ⟨hlength, ⟨l, ⟨hd, hvalue⟩, hv⟩, fun i hi l hl => by simpa [hl.1] using hnone i hi⟩

/-- A use of the constant before the declaration, and one of the local value behind it. -/
theorem readsPositionally_between :
    let c : Context := { constants := Shared.constants "g: 9.81".toList }
    let s := start "g*2->\ng: 5\ng*2->".toList c {}
    ∃ k, c.constants.find? ['g'] = some k ∧ k.value = 9.81 ∧ DeclaresFirst s.loadFunctions ['g'] 1 5 ∧
      RepeatsOnly s.loadFunctions ['g'] 1 5 ∧ ∀ p ∈ s.trace, ReadsPositionally ['g'] k 1 5 p := by
  intro c s
  have hconstant : (c.constants.find? ['g']).any (·.value = 9.81) = true := by decide +kernel
  have hlength : s.loadFunctions.lines.length = 3 := by decide +kernel
  have hother : ∀ n ∈ [0, 2], (declaration? (discoverTo s.loadFunctions n) n).isNone = true := by decide +kernel
  have hfirst : DeclaresFirst s.loadFunctions ['g'] 1 5 := by
    refine .of_any (by omega) (by decide +kernel) fun i hi => hother i ?_
    obtain rfl : i = 0 := by omega
    decide
  have hrepeats : RepeatsOnly s.loadFunctions ['g'] 1 5 := by
    intro n hn hlt l w hl
    obtain rfl : n = 2 := by omega
    exact absurd (hother 2 (by decide)) (by simp [hl.1])
  have hline : (traceDiscoverLine (discoverTo s.loadFunctions 1) 1).isEmpty = true := by decide +kernel
  obtain ⟨k, hk, hvalue⟩ := (Option.any_eq_true _ _).mp hconstant
  refine ⟨k, hk, of_decide_eq_true hvalue, hfirst, hrepeats,
    (readsPositionally_iff rfl hk rfl rfl hfirst hrepeats).mpr fun p hp => ?_⟩
  rw [List.isEmpty_iff.mp hline] at hp
  cases hp

/-- The line `g: 5 // \g\` declares `g` and shows the constant: the first pass evaluates the inline expression before it
    comes to the declaration. -/
theorem not_readsPositionally_inline :
    let c : Context := { constants := Shared.constants "g: 9.81".toList }
    let s := start "g: 5 // \\g\\".toList c {}
    DeclaresFirst s.loadFunctions ['g'] 0 5 ∧ RepeatsOnly s.loadFunctions ['g'] 0 5 ∧
      (∃ p ∈ s.trace, p.context.line = 0 ∧ p.context.bound.contains ['g'] = false ∧
        p.expr.ReadsIn p.context p.context ['g'] ∧ p.context.find? ['g'] = some (.ofConstant 9.81)) ∧
      (solve "g: 5 // \\g\\".toList c {}).text = "g: 5 // \\9.81\\".toList := by
  intro c s
  have hlength : s.loadFunctions.lines.length = 1 := by decide +kernel
  have hfirst : DeclaresFirst s.loadFunctions ['g'] 0 5 :=
    .of_any (by omega) (by decide +kernel) fun i hi => absurd hi (Nat.not_lt_zero i)
  have hrepeats : RepeatsOnly s.loadFunctions ['g'] 0 5 := by
    intro n hn hlt
    omega
  have hread : s.trace.any (fun p => p.context.line = 0 ∧ p.context.bound.contains ['g'] = false ∧
      p.expr.name? = some ['g'] ∧ p.context.values.find? ['g'] = none ∧
      (p.context.find? ['g']).map Meaning.value = some 9.81) = true := by decide +kernel
  obtain ⟨p, hp, hread⟩ := List.any_eq_true.mp hread
  obtain ⟨hline, hbound, hname, hnone, hmeans⟩ := of_decide_eq_true hread
  refine ⟨hfirst, hrepeats, ⟨p, hp, hline, hbound, ?_, ?_⟩, by decide +kernel⟩
  · cases he : p.expr <;> rw [he] at hname <;> cases hname
    exact .var _ _
  · obtain ⟨m, hm, hvalue⟩ := Option.map_eq_some_iff.mp hmeans
    cases m with
    | ofConstant u => rw [hm, ← hvalue]; rfl
    | ofVariable u => exact absurd hm (find?_ne_variable hnone u)

end Discover
end SolveState
end Worksheet
