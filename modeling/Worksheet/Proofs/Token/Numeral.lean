import Worksheet.Proofs.Token.Walk

/-! How the lexer reads decimal numerals: a numeral is one token up to white space or to the `%` that belongs to it, with
    the commas that stand in an amount of money before its digits. -/

namespace Worksheet

namespace Text

/-- Nothing but white space. -/
def Spaces (w : Text) : Prop := ∀ c ∈ w, Byte.isSpace c = true

theorem Spaces.stops {w : Text} (h : Spaces w) {p : Char → Bool}
    (hp : [' ', '\t', '\r', '\n', '\x0b', '\x0c'].any p = false) : Stops p w := by
  intro c hc
  have hspace := h c (List.mem_of_mem_head? hc)
  simp only [Byte.isSpace, Byte.isBlank, Bool.or_eq_true, beq_iff_eq, or_assoc] at hspace
  refine Bool.eq_false_iff.mpr (List.any_eq_false.mp hp c ?_)
  simpa using hspace

theorem Spaces.dropWhile {w : Text} (h : Spaces w) (p : Char → Bool) : Spaces (w.dropWhile p) :=
  fun c hc => h c ((List.dropWhile_suffix p).subset hc)

end Text

/-- No marker begins with another character. -/
theorem Marker.ofText?_eq_none {t : Text} (h : Text.Stops isFirst t) : ofText? t = none := by
  cases t with
  | nil => rfl
  | cons c t =>
    have hc := Text.stops_cons.mp h
    simp only [isFirst, Bool.or_eq_false_iff, beq_eq_false_iff_ne] at hc
    rw [ofText?_cons, if_neg hc.1.1, if_neg hc.1.2, if_neg hc.2]

namespace Literal
open Text

/-- A text is what is left of it without white space, with white space around it. -/
theorem exists_strip (t : Text) : ∃ w w', Spaces w ∧ Spaces w' ∧ t = w ++ (strip t ++ w') := by
  have hsplit : t = t.takeWhile Byte.isSpace ++ t.dropWhile Byte.isSpace := List.takeWhile_append_dropWhile.symm
  generalize hu : t.dropWhile Byte.isSpace = u at hsplit
  have hstrip : strip t = (u.reverse.dropWhile Byte.isSpace).reverse := by rw [strip, hu]
  refine ⟨t.takeWhile Byte.isSpace, (u.reverse.takeWhile Byte.isSpace).reverse, fun c hc => List.mem_takeWhile_imp hc,
    fun c hc => List.mem_takeWhile_imp (List.mem_reverse.mp hc), ?_⟩
  rw [hstrip, ← List.reverse_append, List.takeWhile_append_dropWhile, List.reverse_reverse]
  exact hsplit

/-- A `%` that belongs to a literal. -/
def percentText (percent : Bool) : Text := if percent then ['%'] else []

theorem splitPercent_eq (t : Text) : t = (splitPercent t).1 ++ percentText (splitPercent t).2 := by
  unfold splitPercent percentText
  split
  · rename_i hlast
    have hne : t ≠ [] := by
      rintro rfl
      cases hlast
    rw [List.getLast?_eq_some_getLast hne] at hlast
    have hjoin := List.dropLast_concat_getLast hne
    rw [Option.some.inj hlast] at hjoin
    exact hjoin.symm
  · exact (List.append_nil t).symm

/-- What stands behind the digits of a literal ends every run of them. -/
theorem stops_percentText {w : Text} (hw : Spaces w) (percent : Bool) {p : Char → Bool}
    (hp : ['%', ' ', '\t', '\r', '\n', '\x0b', '\x0c'].any p = false) : Stops p (percentText percent ++ w) := by
  rw [List.any_cons, Bool.or_eq_false_iff] at hp
  cases percent with
  | false => exact hw.stops hp.2
  | true => exact stops_cons.mpr hp.1

end Literal

namespace Decimal

/-- The characters of a decimal numeral. -/
def isPart (c : Char) : Bool := Byte.isDigit c || ['.', 'e', 'E', '+', '-'].contains c

theorem isPart_of_isDigit {c : Char} (h : Byte.isDigit c = true) : isPart c = true := by simp [isPart, h]

theorem isPart_of_isSign {c : Char} (h : isSign c = true) : isPart c = true := by
  rcases Bool.or_eq_true _ _ ▸ h with h | h <;> rw [beq_iff_eq.mp h] <;> rfl

theorem isPart_of_isExponent {c : Char} (h : (c == 'e' || c == 'E') = true) : isPart c = true := by
  rcases Bool.or_eq_true _ _ ▸ h with h | h <;> rw [beq_iff_eq.mp h] <;> rfl

end Decimal

namespace Lexer
open Token Text

/-! ### The first characters -/

/-- The first `n` characters satisfy `p`. -/
def Each (p : Char → Bool) (n : Nat) (t : Text) : Prop := ∀ c ∈ t.take n, p c = true

section Each
variable {p q : Char → Bool} {m n : Nat} {t : Text} {c : Char}

theorem each_zero (p : Char → Bool) (t : Text) : Each p 0 t := by simp [Each]

theorem Each.cons (hc : p c = true) (h : Each p n t) : Each p (n + 1) (c :: t) := by
  simpa [Each, hc] using h

theorem Each.add (h : Each p m t) (h' : Each p n (t.drop m)) : Each p (m + n) t := by
  intro c hc
  rw [List.take_add, List.mem_append] at hc
  exact hc.elim (h c) (h' c)

theorem Each.mono (h : Each q n t) (hqp : ∀ c, q c = true → p c = true) : Each p n t := fun c hc => hqp c (h c hc)

theorem each_of_eq_append {x u : Text} (ht : t = x ++ u) (hx : ∀ c ∈ x, p c = true) : Each p x.length t := by
  intro c hc
  rw [ht, List.take_left] at hc
  exact hx c hc

theorem each_run (hqp : ∀ c, q c = true → p c = true) (t : Text) : Each p (t.takeWhile q).length t :=
  each_of_eq_append List.takeWhile_append_dropWhile.symm fun c hc => hqp c (List.mem_takeWhile_imp hc)

/-- A run of at least one character, where the first one satisfies `p` in any case. -/
theorem each_pred (h : Each p n t) (hone : Each p 1 t) : Each p (n - 1 + 1) t := by
  cases n with
  | zero => exact hone
  | succ n => exact h

/-- The first characters end before one that does not satisfy `p`. -/
theorem Each.le_length {x u : Text} (h : Each p n (x ++ c :: u)) (hc : p c = false) : n ≤ x.length := by
  refine Nat.le_of_not_lt fun hlt => ?_
  have hmem : c ∈ (x ++ c :: u).take n := by
    rw [List.take_append, List.mem_append, show n - x.length = n - x.length - 1 + 1 by omega, List.take_succ_cons]
    exact .inr List.mem_cons_self
  rw [h c hmem] at hc
  cases hc

end Each

/-! ### Numerals -/

section Numerals
variable {d r t u : Text} {c : Char}

theorem each_fractionSpan (t : Text) : Each Decimal.isPart (fractionSpan t) t := by
  unfold fractionSpan
  split
  · rename_i u
    rw [Nat.add_comm]
    exact (each_run (fun c => Decimal.isPart_of_isDigit) u).cons rfl
  · exact each_zero _ t

theorem each_exponent {x : Int} {n : Nat} (h : Decimal.exponent? t = some (x, n)) : Each Decimal.isPart n t := by
  unfold Decimal.exponent? at h
  split at h
  · cases h
  · rename_i e t
    split at h
    · rename_i he
      dsimp only at h
      split at h
      · cases h
      · obtain ⟨-, rfl⟩ := Prod.mk.inj (Option.some.inj h)
        have hsign : Each Decimal.isPart ((t.take 1).filter Decimal.isSign).length t := by
          cases t with
          | nil => exact each_zero _ []
          | cons c t =>
            cases hc : Decimal.isSign c with
            | false => simpa [hc] using each_zero _ (c :: t)
            | true => simpa [hc] using (each_zero _ t).cons (Decimal.isPart_of_isSign hc)
        rw [Nat.add_assoc, Nat.add_comm 1]
        exact (hsign.add (each_run (fun c => Decimal.isPart_of_isDigit) _)).cons (Decimal.isPart_of_isExponent he)
    · cases h

/-- The length of what a numeral has behind its whole part: a point, a fraction and an exponent. -/
def tailSpan (t : Text) : Nat :=
  fractionSpan t + ((Decimal.exponent? (t.drop (fractionSpan t))).map (·.2)).getD 0

theorem each_tailSpan (t : Text) : Each Decimal.isPart (tailSpan t) t := by
  unfold tailSpan
  refine (each_fractionSpan t).add ?_
  cases hx : Decimal.exponent? (t.drop (fractionSpan t)) with
  | none => exact each_zero _ _
  | some x => exact each_exponent hx

theorem fractionSpan_append (t : Text) (hu : Stops Decimal.isPart u) : fractionSpan (t ++ u) = fractionSpan t := by
  rcases t with - | ⟨c, t⟩
  · cases u with
    | nil => rfl
    | cons c u =>
      have hc : c ≠ '.' := by
        rintro rfl
        cases stops_cons.mp hu
      simp [fractionSpan, hc]
  · by_cases hc : c = '.'
    · subst hc
      simp only [List.cons_append, fractionSpan, span,
        takeWhile_append_of_stops t (hu.mono fun c => Decimal.isPart_of_isDigit)]
    · simp [fractionSpan, hc]

theorem exponent?_append (t : Text) (hu : Stops Decimal.isPart u) :
    Decimal.exponent? (t ++ u) = Decimal.exponent? t := by
  have hdigit : Stops Byte.isDigit u := hu.mono fun c => Decimal.isPart_of_isDigit
  rcases t with - | ⟨e, t⟩
  · cases u with
    | nil => rfl
    | cons c u =>
      have hc : (c == 'e' || c == 'E') = false := stops_cons.mp (hu.mono fun c => Decimal.isPart_of_isExponent)
      simp [Decimal.exponent?, hc]
  · have hsign : ((t ++ u).take 1).filter Decimal.isSign = (t.take 1).filter Decimal.isSign := by
      rcases t with - | ⟨c, t⟩
      · cases u with
        | nil => rfl
        | cons c u =>
          have hc : Decimal.isSign c = false := stops_cons.mp (hu.mono fun c => Decimal.isPart_of_isSign)
          simp [hc]
      · rfl
    have hle : ((t.take 1).filter Decimal.isSign).length ≤ t.length :=
      Nat.le_trans (List.length_filter_le _ _) (List.length_take_le' 1 t)
    rw [List.cons_append]
    unfold Decimal.exponent?
    dsimp only
    rw [hsign, List.drop_append_of_le_length hle, takeWhile_append_of_stops _ hdigit]

theorem tailSpan_append (t : Text) (hu : Stops Decimal.isPart u) : tailSpan (t ++ u) = tailSpan t := by
  unfold tailSpan
  rw [fractionSpan_append t hu, List.drop_append_of_le_length (quiet_fractionSpan t).length_le, exponent?_append _ hu]

/-- The point and the fraction that a numeral is asked for are those that the lexer passes over. -/
theorem length_point_add_fraction (r : Text) :
    ((r.take 1).filter (· == '.')).length + (if ((r.take 1).filter (· == '.')).isEmpty then []
      else (r.drop 1).takeWhile Byte.isDigit).length = fractionSpan r := by
  rcases r with - | ⟨c, r⟩
  · rfl
  · by_cases hc : c = '.'
    · subst hc
      rfl
    · simp [fractionSpan, hc]

theorem startsNumber_of_fraction {r : Text} (h : (if ((r.take 1).filter (· == '.')).isEmpty then []
    else (r.drop 1).takeWhile Byte.isDigit) ≠ []) : startsNumber r = true := by
  rcases r with - | ⟨c, r⟩
  · exact absurd rfl h
  · by_cases hc : c = '.'
    · subst hc
      cases r with
      | nil => exact absurd rfl h
      | cons c r => cases hc : Byte.isDigit c <;> simp_all [startsNumber, startsWithDigit]
    · simp [hc] at h

/-- In a numeral everything behind the whole part is a point, a fraction and an exponent, and without a whole part there
    is a digit behind the point. -/
theorem tailSpan_of_isNumeral (hd : ∀ c ∈ d, Byte.isDigit c = true) (hr : Stops Byte.isDigit r)
    (h : Decimal.isNumeral (d ++ r) = true) : tailSpan r = r.length ∧ (d = [] → startsNumber r = true) := by
  have hdrop : (d ++ r).dropWhile Byte.isDigit = r := by
    rw [List.dropWhile_append_of_pos hd, dropWhile_of_stops hr]
  unfold Decimal.isNumeral at h
  dsimp only at h
  rw [takeWhile_run hd hr, hdrop, length_point_add_fraction, Bool.and_eq_true, Bool.or_eq_true] at h
  obtain ⟨hdigits, htail⟩ := h
  have hle : fractionSpan r ≤ r.length := (quiet_fractionSpan r).length_le
  constructor
  · rw [tailSpan]
    rcases htail with hend | hexponent
    · have hn : r.length - fractionSpan r = 0 := by simpa using congrArg List.length (List.isEmpty_iff.mp hend)
      rw [List.isEmpty_iff.mp hend]
      show fractionSpan r + 0 = r.length
      omega
    · obtain ⟨x, hx, hlength⟩ := (Option.any_eq_true _ _).mp hexponent
      rw [hx]
      have hn : x.2 = r.length - fractionSpan r := by simpa using hlength
      show fractionSpan r + x.2 = r.length
      omega
  · rintro rfl
    refine startsNumber_of_fraction ?_
    simpa using hdigits

/-- The characters of a numeral before its point or exponent; an amount of money has commas there. -/
def whole (money : Bool) (t : Text) : Text := if money then amountDigits t else t.takeWhile Byte.isDigit

theorem numeralLength_eq_add (money : Bool) (t : Text) :
    numeralLength money t = (whole money t).length + tailSpan (t.drop (whole money t).length) := by
  rw [numeralLength_eq money t (whole money t) rfl, Nat.add_assoc]
  rfl

theorem startsWithDigit_append (t : Text) (hu : Stops Byte.isDigit u) : startsWithDigit (t ++ u) = startsWithDigit t := by
  cases t with
  | nil =>
    cases u with
    | nil => rfl
    | cons c u => exact stops_cons.mp hu
  | cons c t => rfl

theorem amountDigits_append (t : Text) (hu : Stops Byte.isDigit u) (hcomma : Stops (· == ',') u) :
    amountDigits (t ++ u) = amountDigits t := by
  induction t with
  | nil =>
    cases u with
    | nil => rfl
    | cons c u =>
      have hc : c ≠ ',' := by simpa using hcomma
      simp [amountDigits, stops_cons.mp hu, hc]
  | cons c t ih =>
    rw [List.cons_append, amountDigits, amountDigits, ih, startsWithDigit_append t hu]

theorem whole_append (money : Bool) (t : Text) (hu : Stops Byte.isDigit u) (hcomma : Stops (· == ',') u) :
    whole money (t ++ u) = whole money t := by
  cases money with
  | false => exact takeWhile_append_of_stops t hu
  | true => exact amountDigits_append t hu hcomma

theorem isDigit_of_mem_amountDigits (h : c ∈ amountDigits t) (hc : c ≠ ',') : Byte.isDigit c = true := by
  induction t with
  | nil => cases h
  | cons d t ih =>
    rw [amountDigits] at h
    split at h
    · rename_i hd
      rcases List.mem_cons.mp h with rfl | h
      · simpa [hc] using hd
      · exact ih h
    · cases h

theorem isDigit_of_mem_whole {money : Bool} (h : c ∈ whole money t) (hc : c ≠ ',') : Byte.isDigit c = true := by
  cases money with
  | false => exact List.mem_takeWhile_imp h
  | true => exact isDigit_of_mem_amountDigits h hc

theorem exists_amountDigits (t : Text) : ∃ r, t = amountDigits t ++ r ∧ Stops Byte.isDigit r := by
  induction t with
  | nil => exact ⟨[], rfl, stops_nil⟩
  | cons c t ih =>
    obtain ⟨r, ht, hr⟩ := ih
    rw [amountDigits]
    split
    · exact ⟨r, congrArg (List.cons c) ht, hr⟩
    · rename_i hc
      have hdigit : Byte.isDigit c = false := by
        rw [Bool.or_eq_true, not_or] at hc
        exact Bool.eq_false_iff.mpr hc.1
      exact ⟨c :: t, rfl, stops_cons.mpr hdigit⟩

theorem exists_whole (money : Bool) (t : Text) : ∃ r, t = whole money t ++ r ∧ Stops Byte.isDigit r := by
  cases money with
  | false =>
    refine ⟨t.dropWhile Byte.isDigit, List.takeWhile_append_dropWhile.symm, fun c hc => ?_⟩
    have hhead := List.head?_dropWhile_not Byte.isDigit t
    rw [Option.mem_def.mp hc] at hhead
    simpa using hhead
  | true => exact exists_amountDigits t

theorem isPart_of_mem_numeral (h : Decimal.isNumeral t = true) (hc : c ∈ t) : Decimal.isPart c = true := by
  obtain ⟨r, ht, hr⟩ := exists_whole false t
  have hdigits : ∀ d ∈ whole false t, Byte.isDigit d = true := fun d hd => List.mem_takeWhile_imp hd
  rw [ht] at h hc
  rcases List.mem_append.mp hc with hc | hc
  · exact Decimal.isPart_of_isDigit (hdigits c hc)
  · have heach := each_tailSpan r
    rw [(tailSpan_of_isNumeral hdigits hr h).1, Each, List.take_length] at heach
    exact heach c hc

theorem startsNumber_of_isDigit (h : Byte.isDigit c = true) (t : Text) : startsNumber (c :: t) = true := by
  have hc : c ≠ '.' := by
    rintro rfl
    cases h
  simpa [startsNumber, hc, startsWithDigit] using h

theorem startsNumber_append (h : startsNumber t = true) (u : Text) : startsNumber (t ++ u) = true := by
  rcases t with - | ⟨c, t⟩
  · cases h
  · by_cases hc : c = '.'
    · subst hc
      cases t with
      | nil => cases h
      | cons d t => exact h
    · have hdigit : Byte.isDigit c = true := by simpa [startsNumber, hc, startsWithDigit] using h
      exact startsNumber_of_isDigit hdigit _

theorem startsNumber_of_isNumeral (h : Decimal.isNumeral t = true) : startsNumber t = true := by
  obtain ⟨r, ht, hr⟩ := exists_whole false t
  have hdigits : ∀ d ∈ whole false t, Byte.isDigit d = true := fun d hd => List.mem_takeWhile_imp hd
  rw [ht] at h ⊢
  cases ha : whole false t with
  | nil => exact (tailSpan_of_isNumeral hdigits hr h).2 ha
  | cons c a => exact startsNumber_of_isDigit (hdigits c (ha ▸ List.mem_cons_self)) _

/-! ### The token of a numeral -/

theorem operandFollows_spaces {w : Text} (hw : Spaces w) : operandFollows w = false := by
  unfold operandFollows
  split
  · rename_i c hc
    exact (hw.dropWhile isGap).stops (p := fun c => Byte.isNamePart c || c == '(' || c == '.' || c == '$') rfl c hc
  · rfl

theorem filter_comma (h : ',' ∉ t) : t.filter (· != ',') = t :=
  List.filter_eq_self.mpr fun _ hc => bne_iff_ne.mpr (ne_of_mem_of_not_mem hc h)

theorem scanDecimal_plain {money : Bool} (h : Stops (· == '%') (t.drop (numeralLength money t))) :
    scanDecimal money t = ⟨.number (Decimal.value ((t.take (numeralLength money t)).filter (· != ','))) 10
      (if money then .money else .plain), numeralLength money t - 1⟩ := by
  unfold scanDecimal
  dsimp only
  split
  · rename_i r hr
    rw [hr] at h
    cases stops_cons.mp h
  · rfl

/-- A numeral with commas at the places where the lexer passes over them is read as the numeral without them, together
    with its `%`. -/
theorem scanDecimal_numeral {money : Bool} (percent : Bool) {a w : Text} (ha : whole money (a ++ r) = a)
    (hr : Stops Byte.isDigit r) (hcomma : ',' ∉ r)
    (hnumeral : Decimal.isNumeral ((a ++ r).filter (· != ',')) = true) (hw : Spaces w) :
    scanDecimal money (a ++ r ++ (Literal.percentText percent ++ w)) =
      ⟨.number (if percent then Decimal.value ((a ++ r).filter (· != ',')) / 100.0
          else Decimal.value ((a ++ r).filter (· != ','))) 10
        (if percent then .percent else if money then .money else .plain),
        (a ++ r ++ Literal.percentText percent).length - 1⟩ := by
  have hstops {p : Char → Bool} (hp : ['%', ' ', '\t', '\r', '\n', '\x0b', '\x0c'].any p = false) :
      Stops p (Literal.percentText percent ++ w) := Literal.stops_percentText hw percent hp
  have hlength : numeralLength money (a ++ r ++ (Literal.percentText percent ++ w)) = (a ++ r).length := by
    have hdigits : ∀ c ∈ a.filter (· != ','), Byte.isDigit c = true := by
      intro c hc
      obtain ⟨hmem, hne⟩ := List.mem_filter.mp hc
      rw [← ha] at hmem
      exact isDigit_of_mem_whole hmem (bne_iff_ne.mp hne)
    rw [List.filter_append, filter_comma hcomma] at hnumeral
    rw [numeralLength_eq_add, whole_append money (a ++ r) (hstops rfl) (hstops rfl), ha, List.append_assoc, List.drop_left,
      tailSpan_append r (hstops rfl), (tailSpan_of_isNumeral hdigits hr hnumeral).1, List.length_append]
  cases percent with
  | false =>
    have hplain : Stops (· == '%') ((a ++ r ++ (Literal.percentText false ++ w)).drop (a ++ r).length) := by
      rw [List.drop_left]
      exact hw.stops rfl
    rw [← hlength] at hplain
    rw [scanDecimal_plain hplain, hlength, List.take_left]
    simp [Literal.percentText]
  | true =>
    unfold scanDecimal
    dsimp only
    rw [hlength, List.take_left, List.drop_left]
    simp [Literal.percentText, Marker.ofText?_eq_none (hw.stops rfl), operandFollows_spaces hw]

/-- A number that has a comma behind its whole part ends before that comma. -/
theorem scanDecimal_comma {money : Bool} {a x y : Text} (ha : whole money (a ++ (x ++ ',' :: y)) = a)
    (hne : a ++ x ≠ []) (hx : '%' ∉ x) : ∃ k ≤ x.length, 0 < a.length + k ∧
      ∃ v style, scanDecimal money (a ++ (x ++ ',' :: y)) = ⟨.number v 10 style, a.length + k - 1⟩ := by
  have htail : tailSpan (x ++ ',' :: y) ≤ x.length := (each_tailSpan _).le_length rfl
  have hlength : numeralLength money (a ++ (x ++ ',' :: y)) = a.length + tailSpan (x ++ ',' :: y) := by
    rw [numeralLength_eq_add, ha, List.drop_left]
  have hpercent : Stops (· == '%') ((a ++ (x ++ ',' :: y)).drop (numeralLength money (a ++ (x ++ ',' :: y)))) := by
    rw [hlength, ← List.drop_drop, List.drop_left, List.drop_append_of_le_length htail]
    refine Stops.append (fun c hc => ?_) (stops_cons.mpr rfl)
    refine beq_eq_false_iff_ne.mpr ?_
    rintro rfl
    exact hx (List.mem_of_mem_drop (List.mem_of_mem_head? hc))
  have hpos : 0 < a.length + x.length := by
    rw [← List.length_append]
    exact List.length_pos_iff.mpr hne
  -- A number has at least one character.
  obtain ⟨k, hk, hle, hpos⟩ : ∃ k, numeralLength money (a ++ (x ++ ',' :: y)) - 1 = a.length + k - 1 ∧ k ≤ x.length ∧
      0 < a.length + k :=
    ⟨numeralLength money (a ++ (x ++ ',' :: y)) - 1 + 1 - a.length, by omega, by omega, by omega⟩
  have hplain := scanDecimal_plain hpercent
  rw [hk] at hplain
  exact ⟨k, hle, hpos, _, _, hplain⟩

end Numerals

end Lexer
end Worksheet
