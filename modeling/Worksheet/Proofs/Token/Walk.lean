import Worksheet.Proofs.Token.Shape

/-! Walking over a text. What is found before and at a marker does not depend on the text behind the marker. A
    word that stands before a blank is read by itself. Behind a blank it makes no difference to the structure
    of the line what came before the blank. -/

namespace Worksheet

/-- The place behind a text. -/
def Position.advance (p : Position) (x : Text) : Position := x.foldl Position.after p

namespace Position

theorem after_offset (p : Position) (c : Char) : (p.after c).offset = p.offset + 1 := by
  unfold after
  split <;> rfl

theorem advance_cons (p : Position) (c : Char) (x : Text) : p.advance (c :: x) = (p.after c).advance x := rfl

theorem advance_append (p : Position) (x y : Text) : p.advance (x ++ y) = (p.advance x).advance y :=
  List.foldl_append

theorem advance_offset (p : Position) (x : Text) : (p.advance x).offset = p.offset + x.length := by
  induction x generalizing p with
  | nil => rfl
  | cons c x ih =>
    rw [advance_cons, ih, after_offset, List.length_cons]
    omega

end Position

namespace Lexer
open Token

section Steps
variable {before : Before} {p : Position} {c : Char} {t : Text}

theorem lexFrom_nil (skip : Nat) (before : Before) (p : Position) :
    lexFrom skip before p [] = [⟨.finish, [], p.line, p.col, p.offset⟩] := by
  unfold lexFrom
  rfl

theorem lexFrom_skip_cons (skip : Nat) : lexFrom (skip + 1) before p (c :: t) = lexFrom skip before (p.after c) t := by
  rw [lexFrom]

theorem lexFrom_blank (hc : Byte.isBlank c = true) :
    lexFrom 0 before p (c :: t) = lexFrom 0 { before with touchesName := false } (p.after c) t := by
  rw [lexFrom]
  simp [hc]

theorem lexFrom_token (hc : Byte.isBlank c = false) : lexFrom 0 before p (c :: t) =
    ⟨(scan before c t).kind, c :: t.take (scan before c t).more, p.line, p.col, p.offset⟩
      :: lexFrom (scan before c t).more (.ofKind (scan before c t).kind) (p.after c) t := by
  rw [lexFrom]
  simp [hc]

end Steps

/-- Characters that belong to the token before them are passed over. -/
theorem lexFrom_skip (before : Before) (p : Position) (x t : Text) :
    lexFrom x.length before p (x ++ t) = lexFrom 0 before (p.advance x) t := by
  induction x generalizing p with
  | nil => rfl
  | cons c x ih => rw [List.length_cons, List.cons_append, lexFrom_skip_cons, ih, Position.advance_cons]

theorem offset_of_mem_lexFrom {skip : Nat} {before : Before} {p : Position} {t : Text} {tok : Token}
    (h : tok ∈ lexFrom skip before p t) : p.offset + min skip t.length ≤ tok.offset := by
  induction t generalizing skip before p with
  | nil =>
    rw [lexFrom_nil, List.mem_singleton] at h
    rw [h]
    simp
  | cons c t ih =>
    cases skip with
    | succ skip =>
      rw [lexFrom_skip_cons] at h
      have hle := ih h
      rw [Position.after_offset] at hle
      rw [List.length_cons]
      omega
    | zero =>
      cases hc : Byte.isBlank c with
      | true =>
        rw [lexFrom_blank hc] at h
        have hle := ih h
        rw [Position.after_offset] at hle
        omega
      | false =>
        rw [lexFrom_token hc] at h
        rcases List.mem_cons.mp h with rfl | h
        · simp
        · have hle := ih h
          rw [Position.after_offset] at hle
          omega

/-- The tokens stand one behind the other. -/
theorem pairwise_lexFrom (skip : Nat) (before : Before) (p : Position) (t : Text) :
    (lexFrom skip before p t).Pairwise fun a b => a.endOffset ≤ b.offset := by
  induction t generalizing skip before p with
  | nil =>
    rw [lexFrom_nil]
    exact List.pairwise_singleton _ _
  | cons c t ih =>
    cases skip with
    | succ skip =>
      rw [lexFrom_skip_cons]
      exact ih _ _ _
    | zero =>
      cases hc : Byte.isBlank c with
      | true =>
        rw [lexFrom_blank hc]
        exact ih _ _ _
      | false =>
        rw [lexFrom_token hc]
        refine List.Pairwise.cons ?_ (ih _ _ _)
        intro tok htok
        have hle := offset_of_mem_lexFrom htok
        rw [Position.after_offset] at hle
        simp only [Token.endOffset, Token.length, List.length_cons, List.length_take]
        omega

/-! ### Up to a marker -/

/-- A marker among the tokens stands in the text. -/
theorem marker_of_mem_lexFrom {skip : Nat} {before : Before} {p : Position} {t : Text} {tok : Token} {m : Marker}
    {d : Decoration} (h : tok ∈ lexFrom skip before p t) (hkind : tok.kind = .marker m d) :
    ∃ x z u, t = x ++ (z ++ m.text ++ u) ∧ tok.lexeme = z ++ m.text ∧ tok.offset = p.offset + x.length ∧
      m.Walled u ∧ ∀ c ∈ tok.lexeme.head?, isStructural c = false := by
  induction t generalizing skip before p with
  | nil =>
    rw [lexFrom_nil, List.mem_singleton] at h
    rw [h] at hkind
    cases hkind
  | cons c t ih =>
    have hnext {skip : Nat} {before : Before} (h : tok ∈ lexFrom skip before (p.after c) t) :
        ∃ x z u, c :: t = x ++ (z ++ m.text ++ u) ∧ tok.lexeme = z ++ m.text ∧ tok.offset = p.offset + x.length ∧
          m.Walled u ∧ ∀ c ∈ tok.lexeme.head?, isStructural c = false := by
      obtain ⟨x, z, u, ht, hlexeme, hoffset, hu, hhead⟩ := ih h
      refine ⟨c :: x, z, u, by rw [ht, List.cons_append], hlexeme, ?_, hu, hhead⟩
      rw [hoffset, Position.after_offset, List.length_cons]
      omega
    cases skip with
    | succ skip => exact hnext (lexFrom_skip_cons skip ▸ h)
    | zero =>
      cases hc : Byte.isBlank c with
      | true => exact hnext (lexFrom_blank hc ▸ h)
      | false =>
        rw [lexFrom_token hc] at h
        rcases List.mem_cons.mp h with rfl | h
        · obtain ⟨z, m', d', u, ht, hmore, hkind', hu, -⟩ := endsWithMarker_of_scan hkind
          obtain ⟨rfl, rfl⟩ := Kind.marker.inj (hkind'.symm.trans hkind)
          have hlexeme : c :: t.take (scan before c t).more = z ++ m'.text := by
            rw [← List.take_succ_cons, hmore, ht, List.take_left]
          have hstructural := not_structural_of_scan hkind
          exact ⟨[], z, u, by simpa using ht, hlexeme, by simp, hu, by simpa using hstructural⟩
        · exact hnext h

/-- A run that ends within `x` is the same whatever stands behind `x`. -/
theorem takeWhile_append_of_length_lt {p : Char → Bool} {x u : Text} (u' : Text)
    (h : ((x ++ u).takeWhile p).length < x.length) : (x ++ u).takeWhile p = (x ++ u').takeWhile p := by
  induction x with
  | nil => exact absurd h (Nat.not_lt_zero _)
  | cons c x ih =>
    cases hc : p c with
    | true =>
      simp only [List.cons_append, List.takeWhile_cons, hc, if_true, List.length_cons, Nat.add_lt_add_iff_right] at h ⊢
      rw [ih h]
    | false => simp [hc]

/-- A run that ends before a character that it could take ends within `x`. -/
theorem length_takeWhile_lt {p : Char → Bool} {x u : Text} {e : Char} (he : p e = true)
    (h : ((x ++ e :: u).takeWhile p).length ≤ x.length) : ((x ++ e :: u).takeWhile p).length < x.length := by
  induction x with
  | nil => simp [he] at h
  | cons c x ih =>
    cases hc : p c with
    | true =>
      simp only [List.cons_append, List.takeWhile_cons, hc, if_true, List.length_cons, Nat.add_le_add_iff_right,
        Nat.add_lt_add_iff_right] at h ⊢
      exact ih h
    | false => simp [hc]

/-- A comment that ends before a character which is neither a quote nor a line end, ends there whatever follows. -/
theorem scanQuoted_append {x u : Text} {e : Char} (u' : Text) (he : isStructural e = false)
    (h : (scanQuoted (x ++ e :: u)).more ≤ x.length) : scanQuoted (x ++ e :: u) = scanQuoted (x ++ u') := by
  have hrun : (e != '"' && e != '\n') = true := by
    simp only [Bool.and_eq_true, bne_iff_ne]
    constructor <;> rintro rfl <;> cases he
  have hspan : Text.span (fun c => c != '"' && c != '\n') (x ++ e :: u) ≤ x.length := by
    unfold scanQuoted at h
    dsimp only at h
    split at h
    · exact Nat.le_of_succ_le h
    · exact h
  have hlt := length_takeWhile_lt hrun hspan
  have hsame := takeWhile_append_of_length_lt u' hlt
  have hdrop (w : Text) {n : Nat} (hn : n < x.length) : ((x ++ w).drop n).head? = x[n]? := by
    rw [List.head?_drop, List.getElem?_append_left hn]
  unfold scanQuoted Text.span
  dsimp only
  rw [← hsame, hdrop _ hlt, hdrop _ hlt]

/-- A token that ends before texts which agree is found before the one as before the other. -/
theorem scan_append {before : Before} {c e : Char} {x u v : Text} (hagree : Agree (e :: u) (e :: v))
    (he : isStructural e = false) (h : (scan before c (x ++ e :: u)).more ≤ x.length) :
    scan before c (x ++ e :: u) = scan before c (x ++ e :: v) := by
  by_cases hquote : c = '"'
  · subst hquote
    exact scanQuoted_append _ he h
  by_cases hslash : c = '/' ∧ (x ++ e :: u).head? = some '/'
  · obtain ⟨rfl, hslash⟩ := hslash
    have hcomment (t : Text) (ht : t.head? = some '/') : scan before '/' t = ⟨.comment, Text.span (· != '\n') t⟩ := by
      simp [scan, ht]
    rw [hcomment _ hslash] at h
    have hlt : ((x ++ e :: u).takeWhile (· != '\n')).length < x.length := by
      refine length_takeWhile_lt ?_ h
      rw [bne_iff_ne]
      rintro rfl
      cases he
    have hslash' : (x ++ e :: v).head? = some '/' := by
      cases x with
      | nil => exact absurd hlt (Nat.not_lt_zero _)
      | cons d x => exact hslash
    rw [hcomment _ hslash, hcomment _ hslash', Text.span, Text.span, takeWhile_append_of_length_lt (e :: v) hlt]
  · exact Agree.scan_eq (hagree.append_left (c :: x)) hquote hslash before

section Agree
variable {skip : Nat} {before : Before} {p : Position} {x u v : Text} {e : Char} {tok : Token} {pre post : List Token}

/-- What is found before a token is found before every text that agrees with the text from that token on. -/
theorem lexFrom_agree (hagree : Agree (e :: u) (e :: v)) (he : isStructural e = false)
    (h : lexFrom skip before p (x ++ e :: u) = pre ++ tok :: post) (hoffset : tok.offset = p.offset + x.length) :
    Byte.isBlank e = false ∧ ∃ before', lexFrom 0 before' (p.advance x) (e :: u) = tok :: post ∧
      lexFrom skip before p (x ++ e :: v) = pre ++ lexFrom 0 before' (p.advance x) (e :: v) := by
  induction x generalizing skip before p pre with
  | nil =>
    simp only [List.nil_append, List.length_nil, Nat.add_zero] at h hoffset ⊢
    -- Every token behind the first character has a greater offset.
    have hlater {skip : Nat} {before : Before} (h : tok ∈ lexFrom skip before (p.after e) u) : False := by
      have hle := offset_of_mem_lexFrom h
      rw [Position.after_offset, hoffset] at hle
      omega
    cases skip with
    | succ skip => exact (hlater (by rw [← lexFrom_skip_cons, h]; simp)).elim
    | zero =>
      cases hc : Byte.isBlank e with
      | true => exact (hlater (by rw [← lexFrom_blank hc, h]; simp)).elim
      | false =>
        have hfound := h
        rw [lexFrom_token hc] at h
        cases pre with
        | cons t pre => exact (hlater (by rw [(List.cons.inj h).2]; simp)).elim
        | nil => exact ⟨rfl, before, hfound, rfl⟩
  | cons c x ih =>
    rw [List.length_cons] at hoffset
    have hoffset' : tok.offset = (p.after c).offset + x.length := by
      rw [Position.after_offset]
      omega
    simp only [List.cons_append, Position.advance_cons] at h ⊢
    cases skip with
    | succ skip =>
      rw [lexFrom_skip_cons] at h ⊢
      exact ih h hoffset'
    | zero =>
      cases hc : Byte.isBlank c with
      | true =>
        rw [lexFrom_blank hc] at h ⊢
        exact ih h hoffset'
      | false =>
        rw [lexFrom_token hc] at h
        cases pre with
        | nil =>
          have hfirst : p.offset = tok.offset := congrArg Token.offset (List.cons.inj h).1
          omega
        | cons t pre =>
          rw [List.cons_append] at h
          obtain ⟨ht, hrest⟩ := List.cons.inj h
          subst ht
          obtain ⟨hblank, before', hfound, hprimed⟩ := ih hrest hoffset'
          refine ⟨hblank, before', hfound, ?_⟩
          -- The token is read later, so the first token ends before it.
          have hmore : (scan before c (x ++ e :: u)).more ≤ x.length := by
            have hmem : tok ∈ lexFrom (scan before c (x ++ e :: u)).more (.ofKind (scan before c (x ++ e :: u)).kind)
                (p.after c) (x ++ e :: u) := by
              rw [hrest]
              simp
            have hle := offset_of_mem_lexFrom hmem
            simp only [List.length_append, List.length_cons] at hle
            omega
          rw [lexFrom_token hc, ← scan_append hagree he hmore, hprimed, List.take_append_of_le_length hmore,
            List.take_append_of_le_length hmore]
          rfl

/-- An operator `=`, and what is found behind it, is found there whatever stands behind a blank that follows it. -/
theorem lexFrom_equals (h : lexFrom skip before p (x ++ '=' :: u) = pre ++ tok :: post)
    (hoffset : tok.offset = p.offset + x.length) (hu : Text.Ends u) (hv : Text.Ends v) :
    post = lexFrom 0 ⟨true, false⟩ (p.advance (x ++ ['='])) u ∧
      lexFrom skip before p (x ++ '=' :: v) = pre ++ tok :: lexFrom 0 ⟨true, false⟩ (p.advance (x ++ ['='])) v := by
  obtain ⟨-, before', hfound, hprimed⟩ := lexFrom_agree (.equals hu hv) rfl h hoffset
  have hhead {u : Text} (hu : Text.Ends u) : lexFrom 0 before' (p.advance x) ('=' :: u) =
      ⟨.operator, ['='], (p.advance x).line, (p.advance x).col, (p.advance x).offset⟩ ::
        lexFrom 0 ⟨true, false⟩ (p.advance (x ++ ['='])) u := by
    have hscan : scan before' '=' u = ⟨.operator, 0⟩ := scanOperator_equals hu
    rw [lexFrom_token rfl, hscan, Position.advance_append]
    rfl
  rw [hhead hu] at hfound
  obtain ⟨rfl, rfl⟩ := List.cons.inj hfound
  rw [hprimed, hhead hv]
  exact ⟨rfl, rfl⟩

end Agree

section Marker
variable {skip : Nat} {before : Before} {p : Position} {x z u u' : Text} {tok : Token} {pre post : List Token}
  {m : Marker} {d : Decoration}

/-- A marker at the head of a text. -/
theorem lexFrom_marker_head (h : lexFrom 0 before p (z ++ m.text ++ u) = tok :: post) (hlexeme : tok.lexeme = z ++ m.text)
    (hblank : ∀ c ∈ (z ++ m.text).head?, Byte.isBlank c = false) (hkind : tok.kind = .marker m d) (hu : m.Walled u)
    (hu' : m.Walled u') : post = lexFrom 0 {} (p.advance (z ++ m.text)) u ∧
      lexFrom 0 before p (z ++ m.text ++ u') = tok :: lexFrom 0 {} (p.advance (z ++ m.text)) u' := by
  have hagree : Agree (z ++ m.text ++ u) (z ++ m.text ++ u') := .append hu hu'
  obtain ⟨e, w, hew⟩ := List.exists_cons_of_ne_nil (l := z ++ m.text) (by simp [m.text_ne_nil])
  rw [hew] at h hlexeme hblank hagree ⊢
  have hc : Byte.isBlank e = false := hblank e rfl
  rw [List.cons_append, lexFrom_token hc] at h
  obtain ⟨htok, rfl⟩ := List.cons.inj h
  subst htok
  have hquote : e ≠ '"' := by
    rintro rfl
    cases hkind
  have hscan : scan before e (w ++ u) = scan before e (w ++ u') :=
    Agree.scan_eq hagree hquote (not_slashes_of_scan hkind) before
  obtain ⟨z', m', d', u₀, htext, hmore, -⟩ := endsWithMarker_of_scan hkind
  have hlength : (scan before e (w ++ u)).more = w.length := by
    have htake : e :: (w ++ u).take (scan before e (w ++ u)).more = z' ++ m'.text := by
      rw [← List.take_succ_cons, hmore, htext, List.take_left]
    have hsame := congrArg List.length (hlexeme.symm.trans htake)
    rw [← hmore, List.length_cons] at hsame
    omega
  have hmarker : (scan before e (w ++ u)).kind = .marker m d := hkind
  rw [List.cons_append, lexFrom_token hc, ← hscan, hlength, hmarker, lexFrom_skip, lexFrom_skip, Position.advance_cons,
    List.take_left, List.take_left]
  exact ⟨rfl, rfl⟩

/-- What is found up to a marker, and what is found behind it, is found there whatever stands behind the marker. -/
theorem lexFrom_marker (h : lexFrom skip before p (x ++ (z ++ m.text ++ u)) = pre ++ tok :: post)
    (hlexeme : tok.lexeme = z ++ m.text) (hoffset : tok.offset = p.offset + x.length) (hkind : tok.kind = .marker m d)
    (hhead : ∀ c ∈ (z ++ m.text).head?, isStructural c = false) (hu : m.Walled u) (hu' : m.Walled u') :
    post = lexFrom 0 {} (p.advance (x ++ (z ++ m.text))) u ∧
      lexFrom skip before p (x ++ (z ++ m.text ++ u')) =
        pre ++ tok :: lexFrom 0 {} (p.advance (x ++ (z ++ m.text))) u' := by
  have hagree : Agree (z ++ m.text ++ u) (z ++ m.text ++ u') := .append hu hu'
  obtain ⟨e, w, hew⟩ := List.exists_cons_of_ne_nil (l := z ++ m.text) (by simp [m.text_ne_nil])
  have hcons (u : Text) : z ++ m.text ++ u = e :: (w ++ u) := by rw [hew, List.cons_append]
  rw [hcons, hcons] at hagree
  rw [hcons] at h
  obtain ⟨hblank, before', hfound, hprimed⟩ := lexFrom_agree hagree (hhead e (by simp [hew])) h hoffset
  rw [← hcons] at hfound
  obtain ⟨hpost, hmarker⟩ := lexFrom_marker_head hfound hlexeme (by rw [hew]; rintro _ ⟨⟩; exact hblank) hkind hu hu'
  rw [Position.advance_append, hpost]
  refine ⟨rfl, ?_⟩
  rw [hcons, hprimed, ← hcons, hmarker]

/-- A text `h` that ends with a marker is read as itself before every text that leaves the marker as it is. -/
theorem tokenize_marker {h : Text} (htokens : tokenize (h ++ u) = pre ++ tok :: post) (hend : tok.endOffset = h.length)
    (hkind : tok.kind = .marker m d) : m.Walled u ∧ ∀ u', m.Walled u' →
      tokenize (h ++ u') = pre ++ tok :: lexFrom 0 {} (Position.advance {} h) u' := by
  have hmem : tok ∈ lexFrom 0 {} {} (h ++ u) := by
    show tok ∈ tokenize (h ++ u)
    simp [htokens]
  obtain ⟨x, z, u₀, htext, hlexeme, hoffset, hu, hhead⟩ := marker_of_mem_lexFrom hmem hkind
  rw [hlexeme] at hhead
  have hoffset' : tok.offset = x.length := by simpa using hoffset
  have hlength : h.length = (x ++ (z ++ m.text)).length := by
    rw [← hend, Token.endOffset, Token.length, hlexeme, hoffset', ← List.length_append]
  obtain ⟨rfl, rfl⟩ : h = x ++ (z ++ m.text) ∧ u = u₀ := by
    refine List.append_inj ?_ hlength
    rw [htext]
    simp only [List.append_assoc]
  refine ⟨hu, ?_⟩
  intro u' hu'
  have hfound : lexFrom 0 {} {} (x ++ (z ++ m.text ++ u)) = pre ++ tok :: post := by
    rw [← htext]
    exact htokens
  have hmarker := (lexFrom_marker hfound hlexeme hoffset hkind hhead hu hu').2
  rw [← hmarker]
  unfold tokenize
  simp only [List.append_assoc]

end Marker

/-! ### Words -/

/-- No character of a word is a blank or has a meaning for the structure of a line. -/
def isWordPart (c : Char) : Bool :=
  !Byte.isBlank c && !isStructural c && c != ':' && c != '<' && c != '>' && c != '/'

/-- The characters that are no part of a word. -/
def nonWord : List Char := [' ', '\t', '\r', '\n', '"', '[', ']', '{', '}', ':', '<', '>', '/']

theorem isWordPart_of {p : Char → Bool} (hp : nonWord.any p = false) {c : Char} (hc : p c = true) : isWordPart c = true := by
  cases h : isWordPart c with
  | true => rfl
  | false =>
    have hmem : c ∈ nonWord := by
      simp only [isWordPart, isStructural, Byte.isBlank, List.contains_eq_mem, Bool.and_eq_false_iff, Bool.not_eq_false',
        bne_eq_false_iff_eq, Bool.or_eq_true, beq_iff_eq, decide_eq_true_eq] at h
      simpa [nonWord, or_assoc] using h
    have hbad := List.any_eq_false.mp hp c hmem
    exact absurd hc hbad
theorem walled_of_ends {t : Text} (h : Text.Ends t) (m : Marker) : m.Walled t := by
  cases t with
  | nil => exact m.walled_nil
  | cons c t =>
    have hc : Byte.isBlank c = true := by simpa using h
    simp only [Byte.isBlank, Bool.or_eq_true, beq_iff_eq] at hc
    rcases hc with (rfl | rfl) | rfl <;> cases m <;> rfl

/-- Every marker has a character that is no part of a word. -/
theorem exists_not_isWordPart (m : Marker) : ∃ c ∈ m.text, isWordPart c = false := by
  cases m with
  | colon => exact ⟨':', by decide, rfl⟩
  | doubleColon => exact ⟨':', by decide, rfl⟩
  | leftArrow => exact ⟨'<', by decide, rfl⟩
  | rightArrow => exact ⟨'>', by decide, rfl⟩
  | fullArrow => exact ⟨'>', by decide, rfl⟩

/-- The token at the head of a word ends with the word or before. -/
theorem scan_word (before : Before) {c : Char} {v u : Text} (hv : ∀ e ∈ c :: v, isWordPart e = true) (hu : Text.Ends u) :
    ((scan before c (v ++ u)).more ≤ v.length ∨ u = []) ∧ isOrdinary (scan before c (v ++ u)).kind = true := by
  have hc : isWordPart c = true := hv c (List.mem_cons_self)
  simp only [isWordPart, Bool.and_eq_true, Bool.not_eq_true', bne_iff_ne] at hc
  obtain ⟨⟨⟨⟨⟨hblank, hstructural⟩, -⟩, -⟩, -⟩, hslash⟩ := hc
  have hquote : c ≠ '"' := by
    rintro rfl
    cases hstructural
  have hslashes : ¬(c = '/' ∧ (v ++ u).head? = some '/') := fun h => hslash h.1
  have hsolid := solid_scan hblank hquote hslashes before
  have hmore : (scan before c (v ++ u)).more ≤ v.length ∨ u = [] := by
    cases u with
    | nil => exact .inr rfl
    | cons e u =>
      have he : Byte.isBlank e = true := by simpa using hu
      exact .inl (hsolid.le_length he)
  refine ⟨hmore, ?_⟩
  rcases scan_kind hstructural hslashes before with hordinary | ⟨z, m, d, w, htext, hlength, -, -⟩
  · exact hordinary
  · obtain ⟨e, he, hpart⟩ := exists_not_isWordPart m
    have hmem : e ∈ c :: v := by
      have hinit : (z ++ m.text) <+: c :: (v ++ u) := ⟨w, htext.symm⟩
      have hle : (z ++ m.text).length ≤ (c :: v).length := by
        rcases hmore with hmore | rfl
        · rw [← hlength, List.length_cons]
          omega
        · simpa using hinit.length_le
      have hshort : (z ++ m.text) <+: c :: v :=
        List.prefix_of_prefix_length_le hinit (List.prefix_append (c :: v) u) hle
      exact hshort.subset (List.mem_append_right z he)
    rw [hv e hmem] at hpart
    cases hpart

/-- A word is read by itself. -/
theorem lexFrom_word (skip : Nat) (before : Before) (p : Position) {v u : Text} (hv : ∀ c ∈ v, isWordPart c = true)
    (hu : Text.Ends u) (hskip : skip ≤ v.length ∨ u = []) :
    ∃ toks before', lexFrom skip before p (v ++ u) = toks ++ lexFrom 0 before' (p.advance v) u ∧
      (∀ t ∈ toks, isOrdinary t.kind = true) ∧ (skip = 0 → v ≠ [] → toks ≠ []) := by
  induction v generalizing skip before p with
  | nil =>
    refine ⟨[], before, ?_, by simp, fun _ h => absurd rfl h⟩
    rcases hskip with hskip | rfl
    · obtain rfl : skip = 0 := by simpa using hskip
      rfl
    · rw [List.nil_append, List.nil_append, lexFrom_nil, lexFrom_nil]
      rfl
  | cons c v ih =>
    have hv' : ∀ e ∈ v, isWordPart e = true := fun e he => hv e (List.mem_cons_of_mem c he)
    cases skip with
    | succ skip =>
      have hskip' : skip ≤ v.length ∨ u = [] := hskip.imp_left Nat.le_of_succ_le_succ
      obtain ⟨toks, before', htoks, hordinary, -⟩ := ih skip before (p.after c) hv' hskip'
      refine ⟨toks, before', ?_, hordinary, fun h => nomatch h⟩
      rw [List.cons_append, lexFrom_skip_cons, htoks, Position.advance_cons]
    | zero =>
      have hc : Byte.isBlank c = false := by
        have hc := hv c List.mem_cons_self
        simp only [isWordPart, Bool.and_eq_true, Bool.not_eq_true'] at hc
        exact hc.1.1.1.1.1
      obtain ⟨hmore, hkind⟩ := scan_word before hv hu
      obtain ⟨toks, before', htoks, hordinary, -⟩ :=
        ih _ (.ofKind (scan before c (v ++ u)).kind) (p.after c) hv' hmore
      rw [List.cons_append, lexFrom_token hc, htoks, Position.advance_cons]
      refine ⟨_ :: toks, before', rfl, ?_, fun _ _ => List.cons_ne_nil _ _⟩
      intro t ht
      rcases List.mem_cons.mp ht with rfl | ht
      · exact hkind
      · exact hordinary t ht

end Lexer
end Worksheet
