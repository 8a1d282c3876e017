import Mathlib.Algebra.BigOperators.Group.List.Basic
import Worksheet.Proofs.Document.Framed
import Worksheet.Proofs.Token.Balance
import Worksheet.Proofs.Token.Equals

/-! Lines without the characters of which markers, limits, blocks and inline expressions are made. Their tokens say
    nothing about the structure of a line but where its comments are, so they are inert unless they define a function or
    hold an equation that can be read. -/

namespace Worksheet
open Classify (blankComments)

/-- The characters that set a line apart from running text and from an equation. -/
def marking : List Char := [':', '<', '>', '[', ']', '{', '}', '\\', '\n']

/-- A line without those characters. -/
def Unmarked (l : Text) : Prop := ∀ c ∈ marking, c ∉ l

section Unmarked
variable {l t : Text}

instance : Decidable (Unmarked l) := List.decidableBAll (fun c => c ∉ l) marking

/-- Blanks in place of comments add none of those characters. -/
theorem Unmarked.blankComments (h : Unmarked l) : Unmarked (blankComments l) := by
  intro c hc hmem
  rcases Classify.mem_blankComments hmem with hmem | rfl
  · exact h c hc hmem
  · exact absurd hc (by decide)

theorem Unmarked.tail {c : Char} (h : Unmarked (c :: t)) : Unmarked t :=
  fun d hd hmem => h d hd (List.mem_cons_of_mem c hmem)

theorem Unmarked.newline_not_mem (h : Unmarked l) : '\n' ∉ l := h '\n' (by decide)

/-! ### Signs -/

/-- No bracket and no marker begins with a character of the line. -/
theorem Unmarked.glance_eq {c : Char} (h : Unmarked (c :: t)) : Lexer.glance c t = (none, 0) := by
  have hhead (d : Char) (hd : d ∈ marking) : c ≠ d := by
    rintro rfl
    exact h c hd List.mem_cons_self
  have hnext : t.head? ≠ some '>' := fun ht => h.tail '>' (by decide) (List.mem_of_mem_head? ht)
  unfold Lexer.glance
  rw [if_neg (hhead '[' (by decide)), if_neg (hhead ']' (by decide)), Marker.ofText?_cons, if_neg (hhead ':' (by decide)),
    if_neg (hhead '<' (by decide))]
  simp [hnext, hhead '<' (by decide)]

/-- The only signs of the line are its comments. -/
theorem Unmarked.outline (h : Unmarked t) (skip offset : Nat) :
    ∀ s ∈ Lexer.outline skip offset t, ∃ lexeme place, s = .comment lexeme place := by
  induction t generalizing skip offset with
  | nil =>
    rw [Lexer.outline_nil]
    exact fun s hs => nomatch hs
  | cons c t ih =>
    cases skip with
    | succ skip =>
      rw [Lexer.outline_succ]
      exact ih h.tail skip _
    | zero =>
      cases hnote : Lexer.note? c t with
      | some n =>
        rw [Lexer.outline_note hnote]
        exact List.forall_mem_cons.mpr ⟨⟨_, _, rfl⟩, ih h.tail n _⟩
      | none =>
        rw [Lexer.outline_glance hnote, h.glance_eq]
        exact ih h.tail 0 _

theorem Unmarked.signs (h : Unmarked l) :
    ∀ s ∈ Token.signs (tokenize l), ∃ lexeme place, s = .comment lexeme place := by
  rw [Lexer.signs_tokenize]
  exact h.outline 0 0

theorem Unmarked.bracketBalance_eq (h : Unmarked l) : Lines.bracketBalance l = 0 := by
  rw [Lines.bracketBalance_eq]
  unfold Sign.balance
  refine List.sum_eq_zero fun n hn => ?_
  obtain ⟨s, hs, rfl⟩ := List.mem_map.mp hn
  obtain ⟨lexeme, place, rfl⟩ := h.signs s hs
  rfl

/-- There is no marker among the tokens. -/
theorem Unmarked.isMarker_eq (h : Unmarked l) : ∀ t ∈ tokenize l, t.kind.isMarker = false := by
  intro t ht
  cases hk : t.kind with
  | marker m d =>
    have hsign : t.sign? = some (.marker m) := by
      unfold Token.sign?
      rw [hk]
    obtain ⟨lexeme, place, hcomment⟩ := h.signs _ (List.mem_filterMap.mpr ⟨t, ht, hsign⟩)
    cases hcomment
  | _ => rfl

theorem Unmarked.classifyLine_eq (h : Unmarked l) : classifyLine l = none := by
  refine Option.eq_none_iff_forall_ne_some.mpr fun found hfound => ?_
  obtain ⟨index, m, t, -, hchoose, ht, -⟩ := Classify.ofTokens_eq_some_iff.mp hfound
  obtain ⟨-, t', ht', hm⟩ := Classify.candidates_spec (Classify.choose_mem hchoose)
  obtain rfl := Option.some.inj (ht.symm.trans ht')
  have hmarker := h.isMarker_eq t (List.mem_of_mem_filter (List.mem_of_getElem? ht))
  rw [Token.Kind.isMarker, hm] at hmarker
  cases hmarker

/-! ### Inline expressions and blocks -/

theorem Unmarked.find_eq_nil (h : Unmarked l) : Inline.find l = [] := by
  have hscan (line : Text) (i : Nat) (quoted : Bool) (t : Text) (ht : '\\' ∉ t) : Inline.scan line i quoted none t = [] := by
    induction t generalizing i quoted with
    | nil => rfl
    | cons c t ih =>
      obtain ⟨hc, ht⟩ := not_or.mp (mt List.mem_cons.mpr ht)
      unfold Inline.scan
      dsimp only
      rw [if_pos (by simp [Ne.symm hc])]
      exact ih _ _ ht
  exact hscan l 0 false l (h '\\' (by decide))

/-! ### Equations and functions -/

/-- Without markers an operator `=` makes an equation. -/
theorem Unmarked.isPlain_iff (h : Unmarked t) :
    Equation.isPlain t = true ↔ ∃ tok ∈ tokenize t, tok.isOperator ['='] = true := by
  have hmarker : ∀ tok ∈ Lines.significantTokens t, tok.kind.isMarker = false :=
    fun tok htok => h.isMarker_eq tok (List.mem_of_mem_filter htok)
  unfold Equation.isPlain
  cases hfind : (Lines.significantTokens t).find? fun tok => tok.kind.isMarker || tok.isOperator ['='] with
  | none =>
    constructor
    · intro h
      cases h
    rintro ⟨tok, htok, hequals⟩
    have hloud : tok.kind.isSilent = false := by
      simp only [Token.isOperator, Bool.and_eq_true] at hequals
      revert hequals
      cases tok.kind <;> simp [Token.Kind.isOperator, Token.Kind.isSilent]
    have hmem : tok ∈ Lines.significantTokens t := List.mem_filter.mpr ⟨htok, by simp [hloud]⟩
    have hnone := List.find?_eq_none.mp hfind tok hmem
    simp [hequals] at hnone
  | some tok =>
    have hmem := List.mem_of_find?_eq_some hfind
    have hsome := List.find?_some hfind
    dsimp only
    rw [hmarker tok hmem] at hsome ⊢
    exact ⟨fun _ => ⟨tok, List.mem_of_mem_filter hmem, hsome⟩, fun _ => rfl⟩

/-- An operator `=` stands outside the comments of a line. -/
theorem exists_equals_blankComments (hl : '\n' ∉ l) (h : ∃ tok ∈ tokenize l, tok.isOperator ['='] = true) :
    ∃ tok ∈ tokenize (blankComments l), tok.isOperator ['='] = true := by
  obtain ⟨b, cs, hb⟩ := Classify.exists_commented l hl
  rw [hb.blankComments_eq]
  refine Classical.byContradiction fun hno => ?_
  have hquiet : ∀ tok ∈ Lexer.lexFrom 0 {} {} b, tok.isOperator ['='] = false := fun tok htok =>
    Bool.eq_false_iff.mpr fun htrue => hno ⟨tok, htok, htrue⟩
  have hnone : Lexer.equals 0 b = [] := Lexer.equals_eq_nil hquiet
  have hempty : Lexer.equals 0 l = [] := by
    have hpaired := Lexer.Commented.equals hb (Classify.free_zero l)
    rw [hnone] at hpaired
    exact List.forall₂_nil_right_iff.mp hpaired
  obtain ⟨tok, htok, hequals⟩ := h
  obtain ⟨first, hfirst⟩ := Option.isSome_iff_exists.mp
    (List.find?_isSome.mpr ⟨tok, htok, hequals⟩ : ((tokenize l).find? (·.isOperator ['='])).isSome = true)
  obtain ⟨hfirst, pre, post, hsplit, hpre⟩ := List.find?_eq_some_iff_append.mp hfirst
  obtain ⟨s, -, -, hs, -⟩ := Lexer.equals_lexFrom hsplit (fun x hx => by simpa using hpre x hx) hfirst
  rw [hempty] at hs
  cases hs

/-- Without an opening brace the body of a function stands on the line of its header. -/
theorem FunctionSource.at?_eq_none_of_find (hbrace : '{' ∉ l) (h : FunctionSource.find [l] = []) (index : Nat)
    (rest : List Text) : FunctionSource.at? index l rest = none := by
  have hone : FunctionSource.at? 0 l [] = none := by
    unfold FunctionSource.find FunctionSource.findFrom at h
    dsimp only at h
    cases hf : FunctionSource.at? 0 l [] with
    | none => rfl
    | some f =>
      rw [hf] at h
      cases h
  have hbody (t : Text) (ht : '{' ∉ t) : FunctionSource.body? t rest = FunctionSource.body? t [] := by
    unfold FunctionSource.body?
    split
    · exact absurd List.mem_cons_self ht
    · rfl
  rw [FunctionSource.at?_eq] at hone ⊢
  cases hheader : FunctionSource.header? (Classify.blankComments l) with
  | none => rfl
  | some header =>
    rw [hheader, Option.bind_some, Option.map_eq_none_iff] at hone
    rw [Option.bind_some, hbody, hone]
    · rfl
    · intro hmem
      have hclean := List.mem_of_mem_drop (Classify.mem_of_mem_trim hmem)
      rcases Classify.mem_blankComments hclean with hmem | hmem
      · exact hbrace hmem
      · cases hmem

/-- An unmarked line whose equation cannot be read, if it holds one, is inert. -/
theorem Unmarked.inert (h : Unmarked l) (hfunction : FunctionSource.find [l] = [])
    (hunreadable : Equation.isPlain (Classify.blankComments l) = true →
      ∃ e, Equation.parseSides (Inline.toParens (Text.trim (Classify.blankComments l))) = .error e) : Inert l where
  balance := h.bracketBalance_eq
  noValue := h.classifyLine_eq
  noInline := h.find_eq_nil
  noFunction := FunctionSource.at?_eq_none_of_find (h '{' (by decide)) hfunction
  notOpening := h.blankComments '{' (by decide)
  notClosing := h.blankComments '}' (by decide)
  unreadable := hunreadable

end Unmarked
end Worksheet
