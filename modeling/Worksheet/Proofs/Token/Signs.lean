import Worksheet.Proofs.Token.Walk

/-! What the tokens of a text mean for the structure of its line: its markers, its brackets and its comments. The
    structure of a text that begins with a blank does not depend on what stands before the blank. -/

namespace Worksheet

/-- A token that the rules of a line look for. -/
inductive Sign where
  | marker (m : Marker)
  | opening
  | closing
  | comment (lexeme : Text) (offset : Nat)
  deriving DecidableEq

namespace Sign

/-- The sign, counted from `n` characters earlier. -/
def shift (n : Nat) : Sign → Sign
  | comment lexeme offset => comment lexeme (offset + n)
  | s => s

end Sign

namespace Token

def sign? (t : Token) : Option Sign :=
  match t.kind with
  | .marker m _ => some (.marker m)
  | .openBracket => some .opening
  | .closeBracket => some .closing
  | .comment => some (.comment t.lexeme t.offset)
  | _ => none

/-- The signs among some tokens. -/
def signs (ts : List Token) : List Sign := ts.filterMap sign?

theorem signs_append (ts us : List Token) : signs (ts ++ us) = signs ts ++ signs us := List.filterMap_append

theorem signs_cons (t : Token) (ts : List Token) : signs (t :: ts) = t.sign?.toList ++ signs ts := by
  unfold signs
  rw [List.filterMap_cons]
  cases t.sign? <;> rfl

theorem sign?_of_isOrdinary {t : Token} (h : Lexer.isOrdinary t.kind = true) : t.sign? = none := by
  unfold sign?
  split <;> simp_all [Lexer.isOrdinary]

theorem signs_of_isOrdinary {ts : List Token} (h : ∀ t ∈ ts, Lexer.isOrdinary t.kind = true) : signs ts = [] :=
  List.filterMap_eq_nil_iff.mpr fun t ht => sign?_of_isOrdinary (h t ht)

end Token

namespace Lexer
open Token

theorem signs_lexFrom_moved {p q : Position} {n : Nat} (h : q.offset = p.offset + n) (skip : Nat) (before : Before)
    (t : Text) : signs (lexFrom skip before q t) = (signs (lexFrom skip before p t)).map (Sign.shift n) := by
  have hafter {p q : Position} (h : q.offset = p.offset + n) (c : Char) : (q.after c).offset = (p.after c).offset + n := by
    rw [Position.after_offset, Position.after_offset, h]
    omega
  induction t generalizing skip before p q with
  | nil =>
    rw [lexFrom_nil, lexFrom_nil]
    rfl
  | cons c t ih =>
    cases skip with
    | succ skip =>
      rw [lexFrom_skip_cons, lexFrom_skip_cons]
      exact ih (hafter h c) skip before
    | zero =>
      cases hc : Byte.isBlank c with
      | true =>
        rw [lexFrom_blank hc, lexFrom_blank hc]
        exact ih (hafter h c) 0 _
      | false =>
        rw [lexFrom_token hc, lexFrom_token hc, signs_cons, signs_cons, List.map_append, ih (hafter h c)]
        congr 1
        unfold sign?
        dsimp only
        split <;> simp [Sign.shift, h]

/-- A marker at the head of a text is a token. -/
theorem lexFrom_text {m : Marker} {u : Text} (hu : m.Walled u) (before : Before) (p : Position) :
    lexFrom 0 before p (m.text ++ u) =
      ⟨.marker m {}, m.text, p.line, p.col, p.offset⟩ :: lexFrom 0 {} (p.advance m.text) u := by
  obtain ⟨c, r, hcr, hc⟩ := m.text_eq_cons
  have hblank : Byte.isBlank c = false := by
    simp only [Marker.isFirst, Bool.or_eq_true, beq_iff_eq] at hc
    rcases hc with (rfl | rfl) | rfl <;> rfl
  have hscan : scan before c (r ++ u) = ⟨.marker m {}, r.length⟩ := by
    have hoperator : scan before c (r ++ u) = scanOperator (c :: (r ++ u)) := by
      simp only [Marker.isFirst, Bool.or_eq_true, beq_iff_eq] at hc
      rcases hc with (rfl | rfl) | rfl <;> rfl
    have hof : Marker.ofText? (c :: (r ++ u)) = some m := by
      rw [← List.cons_append, ← hcr]
      exact hu
    rw [hoperator, scanOperator, hof]
    simp [foundMarker, hcr]
  rw [hcr, List.cons_append, lexFrom_token hblank, hscan, List.take_left, lexFrom_skip]
  rfl

/-- A name before `#` is read as digits of a base where an operand is due, and as a name where it is not. -/
theorem scanName_operandDue (t : Text) : scanName ⟨true, false⟩ t = scanName ⟨false, false⟩ t ∨
    ∃ r, t.drop (t.takeWhile Byte.isNamePart).length = '#' :: r ∧ startsWithDigit r = true ∧
      scanName ⟨true, false⟩ t = scanBased (t.takeWhile Byte.isNamePart) r ∧
      scanName ⟨false, false⟩ t = ⟨.name, (t.takeWhile Byte.isNamePart).length - 1⟩ := by
  unfold scanName
  dsimp only
  split
  · exact .inl rfl
  · split
    · exact .inl rfl
    · split
      · rename_i r hr
        cases hdigit : startsWithDigit r with
        | false => exact .inl rfl
        | true =>
          cases hsuffix : suffixFollows r with
          | false => exact .inl rfl
          | true => exact .inr ⟨r, hr, hdigit, rfl, rfl⟩
      · exact .inl rfl

/-- What a scan of digits, `#` and a base finds. -/
theorem scanBased_found (digits t : Text) :
    (scanBased digits t).more = digits.length + (t.takeWhile Byte.isDigit).length ∧
      isOrdinary (scanBased digits t).kind = true ∧ Before.ofKind (scanBased digits t).kind = {} := by
  unfold scanBased
  dsimp only
  split
  · exact ⟨rfl, rfl, rfl⟩
  · split <;> exact ⟨rfl, rfl, rfl⟩

/-- `#` with digits and perhaps a marker behind it, as a token of its own or as the end of one. -/
theorem signs_hash {r : Text} (h : startsWithDigit r = true) (before : Before) (p : Position) :
    signs (lexFrom 0 before p ('#' :: r)) =
      signs (lexFrom 0 {} (p.advance ('#' :: r.takeWhile Byte.isDigit)) (r.dropWhile Byte.isDigit)) := by
  have hne : (r.takeWhile Byte.isDigit).isEmpty = false := by
    cases r with
    | nil => cases h
    | cons c r =>
      have hc : Byte.isDigit c = true := h
      simp [hc]
  have hr : r = r.takeWhile Byte.isDigit ++ r.dropWhile Byte.isDigit := List.takeWhile_append_dropWhile.symm
  rw [lexFrom_token rfl, signs_cons]
  have hscan : scan before '#' r = scanHash r := rfl
  rw [hscan]
  unfold scanHash
  dsimp only
  rw [hne, drop_length_takeWhile]
  generalize r.takeWhile Byte.isDigit = digits at *
  generalize r.dropWhile Byte.isDigit = rest at *
  subst hr
  cases hm : Marker.ofText? rest with
  | none =>
    simp only [Bool.false_eq_true, if_false]
    rw [lexFrom_skip]
    rfl
  | some m =>
    obtain ⟨u, rfl, hu⟩ := Marker.ofText?_eq_some hm
    have hmore : 1 + digits.length + m.text.length - 1 = (digits ++ m.text).length := by
      rw [List.length_append]
      omega
    simp only [Bool.false_eq_true, if_false, foundMarker]
    rw [hmore, ← List.append_assoc, lexFrom_skip, lexFrom_text hu, signs_cons, Position.advance_cons,
      ← Position.advance_append]
    rfl

theorem scan_operandDue (c : Char) (t : Text) : scan ⟨true, false⟩ c t = scan ⟨false, false⟩ c t ∨
    Byte.isNameStart c = true ∧ ∀ due, scan ⟨due, false⟩ c t = scanName ⟨due, false⟩ (c :: t) := by
  unfold scan
  split
  · exact .inl rfl
  · exact .inl rfl
  · exact .inl rfl
  · exact .inl rfl
  · exact .inl rfl
  · exact .inl rfl
  · exact .inl rfl
  · exact .inl rfl
  · exact .inl rfl
  · exact .inl rfl
  · exact .inl rfl
  · exact .inl rfl
  · exact .inl rfl
  · split
    · exact .inl rfl
    · split
      · exact .inl rfl
      · split
        · rename_i hname
          exact .inr ⟨hname, fun due => rfl⟩
        · exact .inl rfl

/-- Whether an operand is due makes no difference to the signs. -/
theorem signs_operandDue (p : Position) (t : Text) :
    signs (lexFrom 0 ⟨true, false⟩ p t) = signs (lexFrom 0 ⟨false, false⟩ p t) := by
  induction t generalizing p with
  | nil => rw [lexFrom_nil, lexFrom_nil]
  | cons c t ih =>
    cases hc : Byte.isBlank c with
    | true =>
      rw [lexFrom_blank hc, lexFrom_blank hc]
      exact ih (p.after c)
    | false =>
      rw [lexFrom_token hc, lexFrom_token hc]
      rcases scan_operandDue c t with hsame | ⟨hname, hscan⟩
      · rw [hsame]
      · rw [hscan, hscan]
        -- A name is read differently only as the digits of a numeral with its base, `ff#16`.
        rcases scanName_operandDue (c :: t) with hsame | ⟨r, hr, hdigit, hdue, hfree⟩
        · rw [hsame]
        · have hpart : Byte.isNamePart c = true := Byte.isNamePart_of_isNameStart hname
          rw [List.takeWhile_cons, if_pos hpart] at hr hdue hfree
          rw [List.length_cons, List.drop_succ_cons, drop_length_takeWhile] at hr
          obtain ⟨hmore, hordinary, hbefore⟩ := scanBased_found (c :: t.takeWhile Byte.isNamePart) r
          have ht : t = t.takeWhile Byte.isNamePart ++ '#' :: r := by rw [← hr, List.takeWhile_append_dropWhile]
          rw [hdue, hfree, signs_cons, signs_cons, sign?_of_isOrdinary hordinary, hbefore, hmore]
          generalize t.takeWhile Byte.isNamePart = name at *
          subst ht
          have hskip : (c :: name).length + (r.takeWhile Byte.isDigit).length =
              (name ++ '#' :: r.takeWhile Byte.isDigit).length := by
            simp only [List.length_append, List.length_cons]
            omega
          have htext : name ++ '#' :: r = (name ++ '#' :: r.takeWhile Byte.isDigit) ++ r.dropWhile Byte.isDigit := by
            rw [List.append_assoc, List.cons_append, List.takeWhile_append_dropWhile]
          have hleft : lexFrom ((c :: name).length + (r.takeWhile Byte.isDigit).length) {} (p.after c) (name ++ '#' :: r) =
              lexFrom 0 {} ((p.after c).advance (name ++ '#' :: r.takeWhile Byte.isDigit)) (r.dropWhile Byte.isDigit) := by
            rw [hskip, htext, lexFrom_skip]
          have hright : lexFrom ((c :: name).length - 1) (.ofKind .name) (p.after c) (name ++ '#' :: r) =
              lexFrom 0 (.ofKind .name) ((p.after c).advance name) ('#' :: r) := lexFrom_skip _ _ _ _
          rw [hleft, hright, signs_hash hdigit, Position.advance_append]
          rfl

/-- What came before a blank makes no difference to the signs behind it. -/
theorem signs_lexFrom_ends {t : Text} (h : Text.Ends t) (before before' : Before) (p : Position) :
    signs (lexFrom 0 before p t) = signs (lexFrom 0 before' p t) := by
  cases t with
  | nil => rw [lexFrom_nil, lexFrom_nil]
  | cons c t =>
    have hc : Byte.isBlank c = true := by simpa using h
    have hfree (b : Before) :
        signs (lexFrom 0 b p (c :: t)) = signs (lexFrom 0 ⟨false, false⟩ (p.after c) t) := by
      rw [lexFrom_blank hc]
      cases hdue : b.operandDue with
      | true => exact signs_operandDue _ _
      | false => rfl
    rw [hfree, hfree]

end Lexer
end Worksheet
