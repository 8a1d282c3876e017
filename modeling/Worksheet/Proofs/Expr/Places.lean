import Worksheet.Proofs.Expr.Stacks
import Worksheet.Proofs.Token.Tiling

/-! The place that a parse error names. It is that of a token which waits or is refused; where the text ends too early, it
    is the place behind one of the tokens. -/

namespace Worksheet
namespace Parser

/-! ### The places that a state knows -/

/-- What waits has the places of tokens, and so does what has been reached: it is behind one of them, or the start. -/
structure Placed (ts : List Token) (s : State) : Prop where
  pending : ∀ p ∈ s.pending, ∃ t ∈ ts, p.place = placeOf t
  reached : s.reached = {} ∨ ∃ t ∈ ts, s.reached = placeBehind t

section Placed
variable {ts : List Token} {s s' : State} {t : Token} {e : ParseError}

theorem Placed.start (ts : List Token) : Placed ts {} := ⟨by simp, .inl rfl⟩

/-- What is completed does not wait any more. -/
theorem Placed.pending_completing (h : Placed ts s) {es : List Expr} {ps : List Pending}
    (hall : Completing (s.operands, s.pending) (es, ps)) : ∀ p ∈ ps, ∃ t ∈ ts, p.place = placeOf t :=
  fun p hp => h.pending p (hall.suffix.subset hp)

theorem Placed.takes (h : Placed ts s) (hmem : t ∈ ts) (ht : Takes t s s') : Placed ts s' := by
  have hreached : placeBehind t = {} ∨ ∃ u ∈ ts, placeBehind t = placeBehind u := .inr ⟨t, hmem, rfl⟩
  cases ht with
  | dress => exact ⟨h.pending, h.reached⟩
  | operand => exact ⟨h.pending, hreached⟩
  | prefixOp => exact ⟨List.forall_mem_cons.mpr ⟨⟨t, hmem, rfl⟩, h.pending⟩, hreached⟩
  | binaryOp _ hall => exact ⟨List.forall_mem_cons.mpr ⟨⟨t, hmem, rfl⟩, h.pending_completing hall⟩, hreached⟩
  | group => exact ⟨List.forall_mem_cons.mpr ⟨⟨t, hmem, rfl⟩, h.pending⟩, hreached⟩
  | call => exact ⟨List.forall_mem_cons.mpr ⟨⟨t, hmem, rfl⟩, h.pending⟩, h.reached⟩
  | separator hall => exact ⟨h.pending_completing hall, hreached⟩
  | closeGroup hall => exact ⟨(List.forall_mem_cons.mp (h.pending_completing hall)).2, hreached⟩
  | closeEmpty hall => exact ⟨(List.forall_mem_cons.mp (h.pending_completing hall)).2, hreached⟩
  | closeCall hall => exact ⟨(List.forall_mem_cons.mp (h.pending_completing hall)).2, hreached⟩

theorem Placed.waiting {p : Pending} (h : Placed ts s) (hp : p ∈ s.pending) :
    ∃ t ∈ ts, placeOf t = ⟨p.place.line, p.place.col⟩ := by
  obtain ⟨t, ht, hplace⟩ := h.pending p hp
  exact ⟨t, ht, hplace.symm⟩

theorem Placed.refuses (h : Placed ts s) (hmem : t ∈ ts) (ht : Refuses t s e) :
    e.cause.isEarlyEnd = false ∧ ∃ t ∈ ts, placeOf t = ⟨e.line, e.col⟩ := by
  cases ht with
  | operator hstarves =>
    obtain ⟨p, hp, symbol, rfl⟩ := hstarves
    exact ⟨rfl, h.waiting hp⟩
  | token _ hend => exact ⟨hend, t, hmem, rfl⟩
  | @imbalance cause es ps f p himbalance =>
    refine ⟨?_, t, hmem, rfl⟩
    cases cause <;> simp_all [ParseCause.isImbalance, ParseCause.isEarlyEnd]

end Placed

/-! ### The place of an error -/

/-- An error of some tokens names one of them; where they end too early, it names the place behind one of them, or the
    start. -/
theorem place_of_parseTokens {ts : List Token} {e : ParseError} (h : parseTokens ts = .error e) :
    (e.cause.isEarlyEnd = false ∧ ∃ t ∈ ts.takeWhile (!·.kind.isFinish), placeOf t = ⟨e.line, e.col⟩) ∨
      e.cause.isEarlyEnd = true ∧ ((⟨e.line, e.col⟩ : Place) = {} ∨
        ∃ t ∈ ts.takeWhile (!·.kind.isFinish), (⟨e.line, e.col⟩ : Place) = placeBehind t) := by
  have hbalance := isImbalance_of_parseTokens h
  obtain ⟨us, s, hus, hs, hcase⟩ := parseTokens_error h
  have hplaced : Placed (ts.takeWhile (!·.kind.isFinish)) s :=
    run_keeps (.start _) (fun t ht _ _ hplaced htakes => hplaced.takes (hus.subset ht) htakes) hs
  rcases hcase with ⟨t, hmem, hrefuses⟩ | hend
  · exact .inl (hplaced.refuses hmem hrefuses)
  · cases hend with
    | early hend => exact .inr ⟨hend, hplaced.reached⟩
    | waiting hp _ hend => exact .inl ⟨hend, hplaced.waiting hp⟩
    | imbalance himbalance =>
      rw [himbalance] at hbalance
      cases hbalance

end Parser

/-! ### The tokens of a line -/

namespace Token
variable {x : Text} {t : Token} {e : ParseError}

theorem takeWhile_tokenize (x : Text) : (tokenize x).takeWhile (!·.kind.isFinish) = (tokenize x).dropLast := by
  obtain ⟨body, last, hbody, hlast, -, -, hproper⟩ := (tokenize_tiles x).finish
  rw [hbody, List.dropLast_concat, List.takeWhile_append_of_pos fun t ht => by simp [(hproper t ht).1]]
  simp [hlast, Kind.isFinish]

/-- A token before the end of a text has characters in it. -/
theorem within_of_mem_dropLast (ht : t ∈ (tokenize x).dropLast) : 1 ≤ t.length ∧ t.endOffset ≤ x.length := by
  obtain ⟨body, last, hbody, -, -, hoffset, hproper⟩ := (tokenize_tiles x).finish
  have hordered := (tokenize_tiles x).ordered
  rw [hbody] at ht hordered
  rw [List.dropLast_concat] at ht
  refine ⟨(hproper t ht).2, ?_⟩
  rw [← hoffset]
  exact (List.pairwise_append.mp hordered).2.2 t ht last List.mem_cons_self

/-- A text that begins with a character has a token before its end. -/
theorem dropLast_tokenize_ne_nil {c : Char} (hc : Byte.isBlank c = false) : (tokenize (c :: x)).dropLast ≠ [] := by
  have htiles := tokenize_tiles (c :: x)
  obtain ⟨body, last, hbody, -, hlength, hoffset, -⟩ := htiles.finish
  rw [hbody, List.dropLast_concat]
  rintro rfl
  have hblank := htiles.gaps 0 c rfl fun tok htok hcovers => by
    rw [hbody, List.nil_append, List.mem_singleton] at htok
    rw [htok, Covers, endOffset, hlength, hoffset] at hcovers
    omega
  rw [hc] at hblank
  cases hblank

/-- On one line the column of a token counts the characters before it. -/
theorem place_of_mem_tokenize (hx : '\n' ∉ x) (ht : t ∈ tokenize x) : t.line = 1 ∧ t.col = t.offset + 1 := by
  obtain ⟨y, u, rfl, hplace⟩ := Lexer.placed_of_mem_lexFrom ht
  have hy : '\n' ∉ y := fun hmem => hx (List.mem_append_left _ hmem)
  have hspan : y.reverse.takeWhile (· != '\n') = y.reverse := by
    rw [List.takeWhile_eq_self_iff]
    rintro c hc
    simp only [bne_iff_ne]
    rintro rfl
    exact hy (List.mem_reverse.mp hc)
  rw [Position.advance_start, List.count_eq_zero.mpr hy, Text.span, hspan, List.length_reverse] at hplace
  obtain ⟨hline, hcol, hoffset⟩ := Position.mk.inj hplace
  exact ⟨hline, by rw [hcol, hoffset, Nat.add_comm]⟩

/-- The last token before the end of a text ends behind all of them. -/
theorem endOffset_le_getLast {u : Token} (hlast : (tokenize x).dropLast.getLast? = some t)
    (hu : u ∈ (tokenize x).dropLast) : u.endOffset ≤ t.endOffset := by
  have hordered := (tokenize_tiles x).ordered.sublist (List.dropLast_sublist _)
  obtain ⟨init, hinit⟩ := List.getLast?_eq_some_iff.mp hlast
  rw [hinit] at hordered hu
  rcases List.mem_append.mp hu with hu | hu
  · calc u.endOffset ≤ t.offset := (List.pairwise_append.mp hordered).2.2 u hu t List.mem_cons_self
      _ ≤ t.endOffset := Nat.le_add_right _ _
  · rw [List.mem_singleton.mp hu]

end Token

/-! ### The error of a line -/

/-- An error of a text names one of its tokens; where the text ends too early, it names a column at most behind the last
    one. -/
theorem place_of_parseExpr {x : Text} {e : ParseError} (hx : '\n' ∉ x) (h : parseExpr x = .error e) :
    (e.cause.isEarlyEnd = false ∧ ∃ t ∈ (tokenize x).dropLast, Parser.placeOf t = ⟨e.line, e.col⟩) ∨
      e.cause.isEarlyEnd = true ∧ ∀ t, (tokenize x).dropLast.getLast? = some t → e.col ≤ t.endOffset + 1 := by
  have hplace := Parser.place_of_parseTokens h
  rw [Token.takeWhile_tokenize] at hplace
  rcases hplace with hplace | ⟨hend, hplace⟩
  · exact .inl hplace
  · refine .inr ⟨hend, fun t ht => ?_⟩
    rcases hplace with hstart | ⟨u, hu, hbehind⟩
    · obtain ⟨-, hcol⟩ := Parser.Place.mk.inj hstart
      rw [hcol]
      exact Nat.le_add_left 1 _
    · obtain ⟨-, hcol⟩ := Parser.Place.mk.inj hbehind
      have hu' := (Token.place_of_mem_tokenize hx (List.dropLast_subset _ hu)).2
      calc e.col = u.col + u.length := hcol
        _ = u.endOffset + 1 := by rw [hu', Token.endOffset, Nat.add_right_comm]
        _ ≤ t.endOffset + 1 := Nat.succ_le_succ (Token.endOffset_le_getLast ht hu)

end Worksheet
