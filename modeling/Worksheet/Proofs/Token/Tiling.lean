import Mathlib.Data.List.Induction
import Worksheet.Proofs.Token.Walk

/-! The tokens of a text tile it. They stand in the text one behind the other, only blanks lie between them, and the
    place that a token carries is the one that is found by counting the newlines and characters before it. -/

namespace Worksheet

/-- A place is found by counting: the newlines before it, and the characters behind the last of them. -/
theorem Position.advance_start (x : Text) :
    Position.advance {} x = ⟨1 + x.count '\n', 1 + Text.span (· != '\n') x.reverse, x.length⟩ := by
  induction x using List.reverseRecOn with
  | nil => rfl
  | append_singleton x c ih =>
    rw [advance_append, ih]
    show after _ c = _
    unfold after
    by_cases hc : c = '\n'
    · simp [hc, Text.span, Nat.add_assoc]
    · simp [hc, Text.span, Nat.add_comm 1]

namespace Token

/-- The character at offset `i` belongs to the token. -/
def Covers (tok : Token) (i : Nat) : Prop := tok.offset ≤ i ∧ i < tok.endOffset

/-- The tokens `ts` tile the text `t`. -/
structure Tiles (t : Text) (ts : List Token) : Prop where
  /-- The last token, and no other, is the end of the text; every other one has characters. -/
  finish : ∃ body last, ts = body ++ [last] ∧ last.kind = .finish ∧ last.length = 0 ∧ last.offset = t.length ∧
    ∀ tok ∈ body, tok.kind.isFinish = false ∧ 1 ≤ tok.length
  /-- A token begins at the end of the one before it or behind that. -/
  ordered : ts.Pairwise fun a b => a.endOffset ≤ b.offset
  /-- A token has the characters that stand at its place. -/
  lexeme : ∀ tok ∈ ts, tok.lexeme = t.slice tok.offset tok.endOffset
  /-- What no token covers is a blank. -/
  gaps : ∀ i c, t[i]? = some c → (∀ tok ∈ ts, ¬tok.Covers i) → Byte.isBlank c = true
  line : ∀ tok ∈ ts, tok.line = 1 + (t.take tok.offset).count '\n'
  col : ∀ tok ∈ ts, tok.col = 1 + Text.span (· != '\n') (t.take tok.offset).reverse

end Token

namespace Lexer
open Token

/-- No scan finds the end of a text. -/
theorem isFinish_scan (before : Before) (c : Char) (t : Text) : (scan before c t).kind.isFinish = false := by
  by_cases hslash : c = '/' ∧ t.head? = some '/'
  · obtain ⟨rfl, ht⟩ := hslash
    simp [scan, ht, Kind.isFinish]
  cases hs : isStructural c with
  | true =>
    simp only [isStructural, List.contains_eq_mem, List.mem_cons, List.not_mem_nil, or_false, decide_eq_true_eq] at hs
    rcases hs with rfl | rfl | rfl | rfl | rfl | rfl <;> rfl
  | false =>
    rcases scan_kind hs hslash before with hordinary | ⟨z, m, d, u, -, -, hkind, -, -⟩
    · cases hk : (scan before c t).kind <;> simp_all [isOrdinary, Kind.isFinish]
    · rw [hkind]
      rfl

section Walk
variable (skip : Nat) (before : Before) (p : Position) (t : Text)

/-- The walk ends with the end of the text; the tokens before it have characters. -/
theorem lexFrom_finish : ∃ body, lexFrom skip before p t =
      body ++ [⟨.finish, [], (p.advance t).line, (p.advance t).col, (p.advance t).offset⟩] ∧
    ∀ tok ∈ body, tok.kind.isFinish = false ∧ 1 ≤ tok.length := by
  induction t generalizing skip before p with
  | nil => exact ⟨[], lexFrom_nil skip before p, fun tok htok => nomatch htok⟩
  | cons c t ih =>
    rw [Position.advance_cons]
    cases skip with
    | succ skip =>
      rw [lexFrom_skip_cons]
      exact ih skip before (p.after c)
    | zero =>
      cases hc : Byte.isBlank c with
      | true =>
        rw [lexFrom_blank hc]
        exact ih 0 _ (p.after c)
      | false =>
        obtain ⟨body, hbody, hproper⟩ := ih (scan before c t).more (.ofKind (scan before c t).kind) (p.after c)
        rw [lexFrom_token hc, hbody]
        refine ⟨_ :: body, rfl, List.forall_mem_cons.mpr ⟨⟨isFinish_scan before c t, ?_⟩, hproper⟩⟩
        exact Nat.succ_le_succ (Nat.zero_le _)

/-- Behind the characters that belong to an earlier token every character is a blank or belongs to a token. -/
theorem covered_lexFrom {i : Nat} {c : Char} (hi : t[i]? = some c) (hskip : skip ≤ i) :
    Byte.isBlank c = true ∨ ∃ tok ∈ lexFrom skip before p t, tok.Covers (p.offset + i) := by
  induction t generalizing skip before p i with
  | nil => cases hi
  | cons d t ih =>
    have hnext {j : Nat} (skip : Nat) (before : Before) (hj : t[j]? = some c) (hskip : skip ≤ j) : Byte.isBlank c = true ∨
        ∃ tok ∈ lexFrom skip before (p.after d) t, tok.Covers (p.offset + (j + 1)) := by
      have h := ih skip before (p.after d) hj hskip
      rwa [Position.after_offset, Nat.add_assoc, Nat.add_comm 1] at h
    cases skip with
    | succ skip =>
      rw [lexFrom_skip_cons]
      obtain ⟨j, rfl⟩ : ∃ j, i = j + 1 := ⟨i - 1, by omega⟩
      exact hnext skip before hi (Nat.le_of_succ_le_succ hskip)
    | zero =>
      cases hd : Byte.isBlank d with
      | true =>
        rw [lexFrom_blank hd]
        cases i with
        | zero =>
          obtain rfl := Option.some.inj hi
          exact .inl hd
        | succ j => exact hnext 0 _ hi (Nat.zero_le j)
      | false =>
        rw [lexFrom_token hd]
        by_cases hmore : i ≤ (scan before d t).more
        · -- the token at the head goes on to this character
          refine .inr ⟨_, List.mem_cons_self, Nat.le_add_right _ _, ?_⟩
          have hlt : i < t.length + 1 := by simpa using (List.getElem?_eq_some_iff.mp hi).1
          simp only [Token.endOffset, Token.length, List.length_cons, List.length_take]
          omega
        · obtain ⟨j, rfl⟩ : ∃ j, i = j + 1 := ⟨i - 1, by omega⟩
          have hpassed : (scan before d t).more ≤ j := by omega
          refine (hnext _ (.ofKind (scan before d t).kind) hi hpassed).imp_right ?_
          rintro ⟨tok, htok, hcovers⟩
          exact ⟨tok, List.mem_cons_of_mem _ htok, hcovers⟩

variable {skip before p t}

/-- A token stands in the text at the place that it carries. -/
theorem placed_of_mem_lexFrom {tok : Token} (h : tok ∈ lexFrom skip before p t) : ∃ x u, t = x ++ (tok.lexeme ++ u) ∧
    (⟨tok.line, tok.col, tok.offset⟩ : Position) = p.advance x := by
  induction t generalizing skip before p with
  | nil =>
    rw [lexFrom_nil, List.mem_singleton] at h
    rw [h]
    exact ⟨[], [], rfl, rfl⟩
  | cons c t ih =>
    have hnext {skip : Nat} {before : Before} (h : tok ∈ lexFrom skip before (p.after c) t) : ∃ x u,
        c :: t = x ++ (tok.lexeme ++ u) ∧ (⟨tok.line, tok.col, tok.offset⟩ : Position) = p.advance x := by
      obtain ⟨x, u, ht, hplace⟩ := ih h
      exact ⟨c :: x, u, congrArg (List.cons c) ht, hplace⟩
    cases skip with
    | succ skip => exact hnext (lexFrom_skip_cons skip ▸ h)
    | zero =>
      cases hc : Byte.isBlank c with
      | true => exact hnext (lexFrom_blank hc ▸ h)
      | false =>
        rw [lexFrom_token hc] at h
        rcases List.mem_cons.mp h with rfl | h
        · refine ⟨[], t.drop (scan before c t).more, ?_, rfl⟩
          exact congrArg (List.cons c) (List.take_append_drop _ t).symm
        · exact hnext h

end Walk
end Lexer

/-- The tokens of every text tile it. -/
theorem tokenize_tiles (t : Text) : Token.Tiles t (tokenize t) := by
  -- The place of a token is known by the text before it, and that is what its offset cuts off.
  have hplaced {tok : Token} (htok : tok ∈ tokenize t) : tok.lexeme = t.slice tok.offset tok.endOffset ∧
      tok.line = 1 + (t.take tok.offset).count '\n' ∧
      tok.col = 1 + Text.span (· != '\n') (t.take tok.offset).reverse := by
    obtain ⟨x, u, ht, hplace⟩ := Lexer.placed_of_mem_lexFrom htok
    rw [Position.advance_start] at hplace
    obtain ⟨hline, hcol, hoffset⟩ := Position.mk.inj hplace
    have hbefore : t.take tok.offset = x := by rw [ht, hoffset, List.take_left]
    refine ⟨?_, by rw [hbefore, hline], by rw [hbefore, hcol]⟩
    rw [Text.slice, Token.endOffset, Nat.add_sub_cancel_left, hoffset, ht, List.drop_left, Token.length, List.take_left]
  obtain ⟨body, hbody, hproper⟩ := Lexer.lexFrom_finish 0 {} {} t
  constructor
  case finish =>
    refine ⟨body, _, hbody, rfl, rfl, ?_, hproper⟩
    show (Position.advance {} t).offset = t.length
    rw [Position.advance_start]
  case ordered => exact Lexer.pairwise_lexFrom 0 {} {} t
  case lexeme => exact fun tok htok => (hplaced htok).1
  case gaps =>
    intro i c hi hnone
    rcases Lexer.covered_lexFrom 0 {} {} t hi (Nat.zero_le i) with hblank | ⟨tok, htok, hcovers⟩
    · exact hblank
    · rw [Nat.zero_add] at hcovers
      exact absurd hcovers (hnone tok htok)
  case line => exact fun tok htok => (hplaced htok).2.1
  case col => exact fun tok htok => (hplaced htok).2.2

end Worksheet
