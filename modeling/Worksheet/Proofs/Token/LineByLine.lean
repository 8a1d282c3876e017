import Worksheet.Proofs.Token.Tiling

/-! Lexing goes line by line. Every token ends before the newline behind it and is found without regard to the lines
    below; behind a newline the lexer begins afresh. So the tokens of a text are those of its lines, moved to their
    places. -/

namespace Worksheet

/-- The token as it is when `lines` lines with `chars` characters are put before its line. -/
def Token.moved (lines chars : Nat) (tok : Token) : Token := { tok with line := tok.line + lines, offset := tok.offset + chars }

/-- The place when `lines` lines with `chars` characters are put before its line. -/
def Position.moved (lines chars : Nat) (p : Position) : Position := ⟨p.line + lines, p.col, p.offset + chars⟩

theorem Position.moved_after (lines chars : Nat) (p : Position) (c : Char) :
    (p.moved lines chars).after c = (p.after c).moved lines chars := by
  unfold after moved
  split <;> simp only [Nat.add_right_comm]

namespace Lexer
open Token

/-! ### One token -/

section Scan
variable (before : Before) (c : Char) (t u : Text)

theorem scanQuoted_append_newline : scanQuoted (t ++ '\n' :: u) = scanQuoted t := by
  have hrun : (t ++ '\n' :: u).takeWhile (fun c => c != '"' && c != '\n') = t.takeWhile (fun c => c != '"' && c != '\n') :=
    Text.takeWhile_append_of_stops t (by simp)
  have hle : (t.takeWhile fun c => c != '"' && c != '\n').length ≤ t.length := (List.takeWhile_prefix _).length_le
  unfold scanQuoted Text.span
  dsimp only
  rw [hrun, List.drop_append_of_le_length hle, (Agree.append_newline _ u).ite_head? (by decide)]

/-- A token is found without regard to the lines below. -/
theorem scan_append_newline : scan before c (t ++ '\n' :: u) = scan before c t := by
  have hagree : Agree (t ++ '\n' :: u) t := .append_newline t u
  by_cases hquote : c = '"'
  · subst hquote
    exact scanQuoted_append_newline t u
  by_cases hslash : c = '/' ∧ (t ++ '\n' :: u).head? = some '/'
  · obtain ⟨rfl, hwhole⟩ := hslash
    have hline : t.head? = some '/' := (hagree.head?_eq_some (by decide)).mp hwhole
    have hrun : (t ++ '\n' :: u).takeWhile (· != '\n') = t.takeWhile (· != '\n') :=
      Text.takeWhile_append_of_stops t (by simp)
    simp [scan, hwhole, hline, Text.span, hrun]
  · exact Agree.scan_eq (.cons c hagree) hquote hslash before

variable {t}

theorem EndsWithMarker.more_lt {f : Found} (h : EndsWithMarker f t) : f.more < t.length := by
  obtain ⟨z, m, d, u, rfl, hmore, -⟩ := h
  rw [List.length_append]
  omega

variable (t)

theorem more_scanOperator_lt : (scanOperator (c :: t)).more < (c :: t).length := by
  unfold scanOperator
  split
  · rename_i m hm
    exact (endsWithMarker_foundMarker (z := []) _ (by simp) hm).more_lt
  · split
    · rename_i htwo
      cases t with
      | nil => simp [doubleOperators] at htwo
      | cons d t => exact Nat.succ_lt_succ (Nat.succ_pos _)
    · split <;> exact Nat.succ_pos _

/-- A token has no more characters than there are. -/
theorem more_scan_le : (scan before c t).more ≤ t.length := by
  by_cases hquote : c = '"'
  · subst hquote
    show (scanQuoted t).more ≤ t.length
    have hle : (t.takeWhile fun c => c != '"' && c != '\n').length ≤ t.length := (List.takeWhile_prefix _).length_le
    unfold scanQuoted Text.span
    dsimp only
    split
    · rename_i hclosed
      obtain ⟨r, hr⟩ := List.head?_eq_some_iff.mp hclosed
      have hlength := congrArg List.length hr
      rw [List.length_drop, List.length_cons] at hlength
      omega
    · exact hle
  by_cases hslash : c = '/' ∧ t.head? = some '/'
  · obtain ⟨rfl, ht⟩ := hslash
    have hscan : scan before '/' t = ⟨.comment, Text.span (· != '\n') t⟩ := by simp [scan, ht]
    rw [hscan]
    exact (List.takeWhile_prefix _).length_le
  cases hs : isStructural c with
  | true =>
    rw [scan_structural hs hquote]
    exact Nat.zero_le _
  | false =>
    refine Nat.le_of_lt_succ ?_
    rcases scan_cases hs hslash before with hplain | hmarker | hoperator
    · exact hplain.quiet.length_le
    · exact hmarker.more_lt
    · rw [hoperator]
      exact more_scanOperator_lt c t

end Scan

/-! ### Walking over lines -/

/-- The tokens of lines that are moved. -/
theorem lexFrom_moved (lines chars skip : Nat) (before : Before) (p : Position) (t : Text) :
    lexFrom skip before (p.moved lines chars) t = (lexFrom skip before p t).map (Token.moved lines chars) := by
  induction t generalizing skip before p with
  | nil =>
    rw [lexFrom_nil, lexFrom_nil]
    rfl
  | cons c t ih =>
    cases skip with
    | succ skip => rw [lexFrom_skip_cons, lexFrom_skip_cons, Position.moved_after, ih]
    | zero =>
      cases hc : Byte.isBlank c with
      | true => rw [lexFrom_blank hc, lexFrom_blank hc, Position.moved_after, ih]
      | false =>
        rw [lexFrom_token hc, lexFrom_token hc, Position.moved_after, ih]
        rfl

/-- At a newline behind the characters of a token the lexer begins afresh. -/
theorem lexFrom_append_newline {skip : Nat} {a : Text} (h : skip ≤ a.length) (before : Before) (p : Position) (b : Text) :
    lexFrom skip before p (a ++ '\n' :: b) = (lexFrom skip before p a).dropLast ++
      ⟨.newline, ['\n'], (p.advance a).line, (p.advance a).col, (p.advance a).offset⟩ ::
        lexFrom 0 {} ((p.advance a).after '\n') b := by
  induction a generalizing skip before p with
  | nil =>
    obtain rfl := Nat.le_zero.mp h
    rw [List.nil_append, lexFrom_token rfl, lexFrom_nil]
    rfl
  | cons c a ih =>
    rw [List.cons_append, Position.advance_cons]
    cases skip with
    | succ skip =>
      rw [lexFrom_skip_cons, lexFrom_skip_cons]
      exact ih (Nat.le_of_succ_le_succ h) before (p.after c)
    | zero =>
      cases hc : Byte.isBlank c with
      | true =>
        rw [lexFrom_blank hc, lexFrom_blank hc]
        exact ih (Nat.zero_le _) _ (p.after c)
      | false =>
        have hmore := more_scan_le before c a
        obtain ⟨body, hbody, -⟩ := lexFrom_finish (scan before c a).more (.ofKind (scan before c a).kind) (p.after c) a
        have hne : lexFrom (scan before c a).more (.ofKind (scan before c a).kind) (p.after c) a ≠ [] := by simp [hbody]
        rw [lexFrom_token hc, lexFrom_token hc, scan_append_newline, ih hmore, List.take_append_of_le_length hmore,
          List.dropLast_cons_of_ne_nil hne]
        rfl

end Lexer

/-- The tokens of a text before and behind one of its newlines. -/
theorem tokenize_append_newline (a b : Text) : tokenize (a ++ '\n' :: b) = (tokenize a).dropLast ++
    ⟨.newline, ['\n'], 1 + a.count '\n', 1 + Text.span (· != '\n') a.reverse, a.length⟩ ::
      (tokenize b).map (Token.moved (a.count '\n' + 1) (a.length + 1)) := by
  have hplace : (Position.advance {} a).after '\n' = Position.moved (a.count '\n' + 1) (a.length + 1) {} := by
    rw [Position.advance_start]
    simp [Position.after, Position.moved, Nat.add_comm, Nat.add_left_comm]
  unfold tokenize
  rw [Lexer.lexFrom_append_newline (Nat.zero_le _), hplace, Lexer.lexFrom_moved, Position.advance_start]

/-- What the tokens on the lines of a text are: kinds, characters and columns, without the ends of the lines. -/
def onLines (ts : List Token) : List (Token.Kind × Text × Nat) :=
  ts.filterMap fun tok =>
    match tok.kind with
    | .newline | .finish => none
    | k => some (k, tok.lexeme, tok.col)

theorem onLines_append_newline (a b : Text) :
    onLines (tokenize (a ++ '\n' :: b)) = onLines (tokenize a) ++ onLines (tokenize b) := by
  have hlast : onLines (tokenize a) = onLines (tokenize a).dropLast := by
    obtain ⟨body, hbody, -⟩ := Lexer.lexFrom_finish 0 {} {} a
    have hbody : tokenize a = body ++ _ := hbody
    rw [hbody, List.dropLast_concat]
    simp [onLines]
  have hmoved (lines chars : Nat) (ts : List Token) : onLines (ts.map (Token.moved lines chars)) = onLines ts := by
    simp only [onLines, List.filterMap_map]
    rfl
  rw [tokenize_append_newline, hlast, onLines, List.filterMap_append, List.filterMap_cons]
  exact congrArg _ (hmoved _ _ (tokenize b))

/-- Lexing is local to the lines of a text. Its tokens are those before a newline, the newline, and those behind it,
    moved to their places; so the tokens on its lines are those of one line after the other. -/
theorem tokenize_line_by_line :
    (∀ a b : Text, tokenize (a ++ '\n' :: b) = (tokenize a).dropLast ++
      ⟨.newline, ['\n'], 1 + a.count '\n', 1 + Text.span (· != '\n') a.reverse, a.length⟩ ::
        (tokenize b).map (Token.moved (a.count '\n' + 1) (a.length + 1))) ∧
    ∀ t : Text, onLines (tokenize t) = (Text.lines t).flatMap fun l => onLines (tokenize l) := by
  refine ⟨tokenize_append_newline, fun t => ?_⟩
  have hlines (ls : List Text) (hne : ls ≠ []) :
      onLines (tokenize (Text.unlines ls)) = ls.flatMap fun l => onLines (tokenize l) := by
    induction ls with
    | nil => exact absurd rfl hne
    | cons l ls ih =>
      cases ls with
      | nil =>
        rw [List.flatMap_singleton]
        rfl
      | cons m ms =>
        rw [Text.unlines_cons (List.cons_ne_nil m ms), onLines_append_newline, List.flatMap_cons, ih (List.cons_ne_nil m ms)]
  have hwhole := hlines (Text.lines t) (Text.lines_ne_nil t)
  rwa [Text.unlines_lines] at hwhole

end Worksheet
