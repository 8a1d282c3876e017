import Worksheet.Proofs.Document.Found

/-! The offsets of a value line are valid in the line that it belongs to: the subject begins before the marker, and
    between the offsets of the marker stand its decoration and the marker itself. Where lines are read together, the
    offsets are those in the last line, for the marker stands in it. -/

namespace Worksheet
open Token

/-! ### Decorated markers -/

namespace Token

/-- What may stand before a marker as its decoration: nothing, `$`, `%`, or `#` and digits. -/
inductive IsDecoration : Text → Prop
  | none : IsDecoration []
  | money : IsDecoration ['$']
  | percent : IsDecoration ['%']
  | base {digits : Text} (hne : digits ≠ []) (h : ∀ c ∈ digits, Byte.isDigit c = true) : IsDecoration ('#' :: digits)

end Token

namespace Lexer
variable {before : Before} {f : Found} {c : Char} {t z : Text} {m : Marker} {d : Decoration} {tok : Token}

/-- If the token `f` at the head of `t` is a marker, its characters are a decoration and those of the marker. -/
def Decorated (f : Found) (t : Text) : Prop :=
  ∀ m d, f.kind = .marker m d → ∃ z, IsDecoration z ∧ t.take (f.more + 1) = z ++ m.text

theorem decorated_of_isOrdinary (h : isOrdinary f.kind = true) (t : Text) : Decorated f t := by
  intro m d hkind
  rw [hkind] at h
  cases h

theorem decorated_foundMarker (hz : IsDecoration z) (h : Marker.ofText? t = some m) (d : Decoration) :
    Decorated (foundMarker z.length m d) (z ++ t) := by
  rintro m d ⟨⟩
  obtain ⟨u, rfl, -⟩ := Marker.ofText?_eq_some h
  have hmore : (foundMarker z.length m d).more + 1 = (z ++ m.text).length := by
    have hlength : m.text.length ≠ 0 := by cases m <;> decide
    show z.length + m.text.length - 1 + 1 = _
    rw [List.length_append]
    omega
  exact ⟨z, hz, by rw [hmore, ← List.append_assoc, List.take_left]⟩

theorem decorated_scanDollar (t : Text) : Decorated (scanDollar t) ('$' :: t) := by
  unfold scanDollar
  split
  · rename_i hnumber
    refine decorated_of_isOrdinary ?_ _
    exact (isPlain_scanDecimal true (quiet_one_of_startsNumber hnumber)).isOrdinary
  · split
    · rename_i m hm
      exact decorated_foundMarker .money hm _
    · exact decorated_of_isOrdinary rfl _

theorem decorated_scanPercent (before : Before) (t : Text) : Decorated (scanPercent before t) ('%' :: t) := by
  unfold scanPercent
  split
  · rename_i m hm
    exact decorated_foundMarker .percent hm _
  · split <;> exact decorated_of_isOrdinary rfl _

theorem decorated_scanHash (t : Text) : Decorated (scanHash t) ('#' :: t) := by
  unfold scanHash
  dsimp only
  split
  · exact decorated_of_isOrdinary rfl _
  · rename_i hdigits
    split
    · rename_i m hm
      have hz : IsDecoration ('#' :: t.takeWhile Byte.isDigit) :=
        .base (by simpa using hdigits) fun c hc => List.mem_takeWhile_imp hc
      have h := decorated_foundMarker hz hm ⟨.plain, baseOf (t.takeWhile Byte.isDigit)⟩
      rwa [List.cons_append, drop_length_takeWhile, List.takeWhile_append_dropWhile, List.length_cons, Nat.add_comm] at h
    · exact decorated_of_isOrdinary rfl _

theorem decorated_scanOperator (t : Text) : Decorated (scanOperator t) t := by
  unfold scanOperator
  split
  · rename_i m hm
    exact decorated_foundMarker (z := []) .none hm _
  · split
    · exact decorated_of_isOrdinary rfl _
    · split <;> exact decorated_of_isOrdinary rfl _

/-- A marker token is a marker with its decoration before it. -/
theorem decorated_scan (before : Before) (c : Char) (t : Text) : Decorated (scan before c t) (c :: t) := by
  intro m d hkind
  have hstructural := not_structural_of_scan hkind
  have hslash := not_slashes_of_scan hkind
  revert hkind
  unfold scan
  split
  case h_11 => exact decorated_scanDollar t m d
  case h_12 => exact decorated_scanPercent before t m d
  case h_13 => exact decorated_scanHash t m d
  case h_14 =>
    rw [if_neg hslash]
    split
    · rename_i hnumber
      exact decorated_of_isOrdinary (isPlain_scanNumber (quiet_one_of_startsNumber hnumber)).isOrdinary _ m d
    · split
      · rename_i hname
        have hquiet : Quiet 1 (c :: t) := (Quiet.zero t).char (isQuiet_of_isNamePart (Byte.isNamePart_of_isNameStart hname))
        exact decorated_of_isOrdinary (isPlain_scanName before hquiet).isOrdinary _ m d
      · exact decorated_scanOperator (c :: t) m d
  all_goals exact fun hkind => nomatch hkind

theorem decorated_of_mem_lexFrom {skip : Nat} {p : Position} (h : tok ∈ lexFrom skip before p t)
    (hkind : tok.kind = .marker m d) : ∃ z, IsDecoration z ∧ tok.lexeme = z ++ m.text := by
  induction t generalizing skip before p with
  | nil =>
    rw [lexFrom_nil, List.mem_singleton] at h
    rw [h] at hkind
    cases hkind
  | cons c t ih =>
    cases skip with
    | succ skip => exact ih (lexFrom_skip_cons skip ▸ h)
    | zero =>
      cases hc : Byte.isBlank c with
      | true => exact ih (lexFrom_blank hc ▸ h)
      | false =>
        rw [lexFrom_token hc] at h
        rcases List.mem_cons.mp h with rfl | h
        · exact decorated_scan before c t m d hkind
        · exact ih h

end Lexer

/-! ### Tokens before the marker -/

namespace Classify
variable {line : Text} {l : ValueLine} {m : Marker} {d : Decoration} {before : List Token} {found : Finding}

theorem takeSuffixes_suffix (d : Decoration) (ts : List Token) : (takeSuffixes d ts).2 <:+ ts := by
  induction ts generalizing d with
  | nil => exact List.suffix_refl _
  | cons t ts ih =>
    unfold takeSuffixes
    split
    · exact (ih _).trans (List.suffix_cons t ts)
    · exact List.suffix_refl _

theorem findOpen_suffix {depth : Nat} {colon colon' : Option Token} {opening : Token} {ts rest : List Token}
    (h : findOpen depth colon ts = some (colon', opening, rest)) : opening :: rest <:+ ts := by
  induction ts generalizing depth colon with
  | nil => cases h
  | cons t ts ih =>
    unfold findOpen at h
    split at h
    · exact (ih h).trans (List.suffix_cons t ts)
    · split at h
      · obtain ⟨-, rfl, rfl⟩ := Option.some.inj h
        exact List.suffix_refl _
      · exact (ih h).trans (List.suffix_cons t ts)
    · exact (ih h).trans (List.suffix_cons t ts)
    · exact (ih h).trans (List.suffix_cons t ts)

theorem readHead_suffix (line : Text) (d : Decoration) (before : List Token) : (readHead line d before).rest <:+ before := by
  have hsuffixes := takeSuffixes_suffix d before
  unfold readHead
  generalize takeSuffixes d before = passed at hsuffixes ⊢
  obtain ⟨e, rest⟩ := passed
  dsimp only at hsuffixes ⊢
  split
  · exact List.nil_suffix
  · split
    · rename_i hopen
      exact (takeSuffixes_suffix _ _).trans ((List.suffix_cons _ _).trans ((findOpen_suffix hopen).trans hsuffixes))
    · exact hsuffixes

theorem matchOpen_suffix {depth : Nat} {ts us : List Token} (h : matchOpen depth ts = some us) : us <:+ ts := by
  induction ts generalizing depth with
  | nil => cases h
  | cons t ts ih =>
    unfold matchOpen at h
    split at h
    · exact (ih h).trans (List.suffix_cons t ts)
    · split at h
      · obtain rfl := Option.some.inj h
        exact List.suffix_refl _
      · exact (ih h).trans (List.suffix_cons t ts)
    · exact (ih h).trans (List.suffix_cons t ts)

theorem withName_suffix (t : Token) (ts : List Token) : withName t ts <:+ t :: ts := by
  unfold withName
  split
  · split
    · exact List.suffix_cons _ _
    · exact List.suffix_refl _
  · exact List.suffix_refl _

theorem operandStart_suffix (ts : List Token) : operandStart ts <:+ ts := by
  unfold operandStart
  split
  · exact List.suffix_refl _
  · split
    · exact withName_suffix _ _
    · split
      · rename_i hmatch
        exact (withName_suffix _ _).trans (matchOpen_suffix hmatch)
      · exact List.suffix_refl _
    · exact List.suffix_refl _

theorem extend_suffix (fuel : Nat) (ts : List Token) : extend fuel ts <:+ ts := by
  induction fuel generalizing ts with
  | zero => exact List.suffix_refl _
  | succ fuel ih =>
    unfold extend
    split
    · rename_i t op rest
      have hop : op :: rest <:+ t :: op :: rest := List.suffix_cons t _
      split
      · exact List.suffix_refl _
      · split
        · exact (ih _).trans hop
        · split
          · exact (ih _).trans ((operandStart_suffix rest).trans ((List.suffix_cons op rest).trans hop))
          · split
            · split
              · exact (ih _).trans hop
              · split
                · exact hop
                · exact List.suffix_refl _
            · exact List.suffix_refl _
    · exact List.suffix_refl _

theorem expressionStart_suffix (before : List Token) : expressionStart before <:+ before :=
  (extend_suffix _ _).trans (operandStart_suffix before)

/-- The subject begins with one of the tokens before the marker. -/
theorem exists_subjectBefore (h : subjectBefore line m d before = some found) : ∃ t ∈ before, found.labelEnd = t.offset := by
  have hexpression (h : expressionBefore line d before = some found) : ∃ t ∈ before, found.labelEnd = t.offset := by
    unfold expressionBefore at h
    split at h
    · rename_i first more _ hstart
      obtain rfl := Option.some.inj h
      exact ⟨first, (hstart ▸ expressionStart_suffix _).subset List.mem_cons_self, rfl⟩
    · cases h
  unfold subjectBefore at h
  dsimp only at h
  split at h
  · rename_i name rest hrest
    split at h
    · split at h
      · obtain rfl := Option.some.inj h
        exact ⟨name, (readHead_suffix line d before).subset (hrest ▸ List.mem_cons_self), rfl⟩
      · exact hexpression h
    · split at h
      · cases h
      · exact hexpression h
  · split at h
    · cases h
    · exact hexpression h

end Classify

/-! ### Offsets -/

namespace ValueLine
variable {line before last : Text} {l : ValueLine}

/-- The offsets of a value line are those of its parts in the line: the subject begins before the marker, and the marker
    stands between its offsets, behind its decoration. -/
structure Fits (l : ValueLine) (line : Text) : Prop where
  label : l.labelEnd ≤ l.markerBegin
  marker_lt : l.markerBegin < l.markerEnd
  marker_le : l.markerEnd ≤ line.length
  marker : ∃ z, IsDecoration z ∧ line.slice l.markerBegin l.markerEnd = z ++ l.marker.text

theorem fits_of_classifyLine (hl : classifyLine line = some l) : l.Fits line := by
  have hle := Classify.markerEnd_le hl
  obtain ⟨index, m, t, found, hchoose, ht, -, -, hfound, rfl⟩ := Classify.ofTokens_eq_some_iff.mp hl
  obtain ⟨-, t', ht', hm⟩ := Classify.candidates_spec (Classify.choose_mem hchoose)
  obtain rfl := Option.some.inj (ht.symm.trans ht')
  obtain ⟨d, hd⟩ : ∃ d, t.kind = .marker m d := by
    cases hk : t.kind <;> simp_all [Kind.marker?]
  have hmem : t ∈ Lexer.lexFrom 0 {} {} line := List.mem_of_mem_filter (List.mem_of_getElem? ht)
  obtain ⟨x, _, u, hline, hlexeme, hoffset, -⟩ := Lexer.marker_of_mem_lexFrom hmem hd
  obtain ⟨z, hz, hdecorated⟩ := Lexer.decorated_of_mem_lexFrom hmem hd
  refine ⟨?_, ?_, hle, z, hz, ?_⟩
  · -- the subject begins with a token that stands before the marker
    obtain ⟨s, hs, hlabel⟩ := Classify.exists_subjectBefore hfound
    have hordered := (Lexer.pairwise_lexFrom 0 {} {} line).filter fun t => !t.kind.isSilent
    rw [← List.take_append_drop index (List.filter _ _), List.pairwise_append] at hordered
    have hdrop : t ∈ (significant (tokenize line)).drop index := by
      refine List.mem_of_getElem? (i := 0) ?_
      rw [List.getElem?_drop, Nat.add_zero, ht]
    have hbefore : s.endOffset ≤ t.offset := hordered.2.2 s (List.mem_reverse.mp hs) t hdrop
    calc found.labelEnd = s.offset := hlabel
      _ ≤ s.endOffset := Nat.le_add_right _ _
      _ ≤ t.offset := hbefore
  · have hpos : 0 < t.lexeme.length := by
      rw [hdecorated, List.length_append]
      exact Nat.add_pos_right _ (List.length_pos_iff.mpr m.text_ne_nil)
    exact Nat.lt_add_of_pos_right hpos
  · have hbegin : t.offset = x.length := by simpa using hoffset
    show line.slice t.offset (t.offset + t.lexeme.length) = z ++ m.text
    rw [← hdecorated, Text.slice, Nat.add_sub_cancel_left, hbegin, hline, List.drop_left, ← hlexeme, List.take_left]

/-- In lines that are read together the offsets behind the first ones are those in the last one. -/
theorem slice_append {a b : Nat} (ha : before.length ≤ a) (hab : a ≤ b) :
    Text.slice (before ++ last) a b = last.slice (a - before.length) (b - before.length) := by
  unfold Text.slice
  rw [List.drop_append, List.drop_of_length_le ha, List.nil_append]
  congr 1
  omega

theorem Fits.shift (h : l.Fits (before ++ last)) (hbegin : before.length ≤ l.markerBegin) :
    (l.shift before.length).Fits last where
  label := Nat.sub_le_sub_right h.label _
  marker_lt := Nat.sub_lt_sub_right hbegin h.marker_lt
  marker_le := by
    have hle := h.marker_le
    rw [List.length_append] at hle
    show l.markerEnd - before.length ≤ last.length
    omega
  marker := by
    obtain ⟨z, hz, hslice⟩ := h.marker
    exact ⟨z, hz, (slice_append hbegin h.marker_lt.le).symm.trans hslice⟩

/-- A value that is written into the line leaves the line up to the marker as it is. -/
theorem take_write (h : l.markerEnd ≤ line.length) (v : Text) :
    (l.write line v).take l.markerEnd = line.take l.markerEnd := by
  have hlength : (line.take l.markerEnd).length = l.markerEnd := List.length_take_of_le h
  unfold write
  exact List.take_left' hlength

end ValueLine

namespace Lines
variable {ls : List Text} {i : Nat} {l : ValueLine}

/-- Every value line of some lines fits the line that it belongs to. -/
theorem fits_of_classify (h : (classify ls)[i]? = some (some l)) :
    ∃ line, ls[i]? = some line ∧ l.Fits line ∧ ∀ v, (l.write line v).take l.markerEnd = line.take l.markerEnd := by
  obtain ⟨line, hline⟩ : ∃ line, ls[i]? = some line := by
    have hlt := (List.getElem?_eq_some_iff.mp h).1
    rw [classify, length_classifyFrom] at hlt
    exact ⟨_, List.getElem?_eq_getElem hlt⟩
  have hmem : (line, some l) ∈ ls.zip (classifyFrom none ls) :=
    List.mem_of_getElem? (List.getElem?_zip_eq_some.mpr ⟨hline, h⟩)
  have hfits : l.Fits line := by
    refine of_mem_classifyFrom (P := fun line l => l.Fits line) ?_ (fun n found hheld => by cases hheld) hmem
    exact fun init last l _ hl hbegin => (ValueLine.fits_of_classifyLine hl).shift hbegin
  exact ⟨line, hline, hfits, ValueLine.take_write hfits.marker_le⟩

/-- The limits begin on the line before the one with the marker. -/
theorem fits_of_classify_joined : ∃ l, (classify ["x [0:".toList, "10] #16-> 7".toList])[1]? = some (some l) ∧
    l.markerBegin = 4 ∧ l.markerEnd = 9 ∧ ∃ line, ["x [0:".toList, "10] #16-> 7".toList][1]? = some line ∧ l.Fits line ∧
      ∀ v, (l.write line v).take l.markerEnd = line.take l.markerEnd :=
  ⟨_, rfl, rfl, rfl, fits_of_classify rfl⟩

end Lines
end Worksheet
