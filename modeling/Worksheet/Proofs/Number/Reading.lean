import Mathlib.Tactic.Ring
import Mathlib.Tactic.Tauto
import Worksheet.Number.Literal
import Worksheet.Proofs.Number.Shape
import Worksheet.Proofs.Number.Value

/-! Reading a numeral that has been written. Its sign, `$`, grouping and `%` are taken off in the order in which they
    were put on, and what is left denotes the decimal that its digits and its exponent make. -/

namespace Worksheet
open Text

/-! ### Digits -/

namespace Text

theorem toNat_concat (t : Text) (c : Char) : toNat (t ++ [c]) = 10 * toNat t + (c.toNat - '0'.toNat) := by
  simp [toNat, List.foldl_append]

theorem toNat_digitChar {d : Nat} (h : d < 10) : (Nat.digitChar d).toNat - '0'.toNat = d := by
  have hall : ∀ d : Fin 10, (Nat.digitChar d).toNat - '0'.toNat = d := by decide
  exact hall ⟨d, h⟩

/-- A number is read from its digits. -/
theorem toNat_ofNat (n : Nat) : toNat (ofNat n) = n := by
  induction n using Nat.strong_induction_on with
  | _ n ih =>
    unfold ofNat at ih ⊢
    rw [Nat.toDigits_eq_if (by decide)]
    split
    · rename_i hlt
      show 10 * 0 + ((Nat.digitChar n).toNat - '0'.toNat) = n
      rw [toNat_digitChar hlt, Nat.mul_zero, Nat.zero_add]
    · rename_i hge
      rw [toNat_concat, ih (n / 10) (by omega), toNat_digitChar (Nat.mod_lt n (by decide))]
      omega

theorem toNat_append (t u : Text) : toNat (t ++ u) = toNat t * 10 ^ u.length + toNat u := by
  unfold toNat
  rw [List.foldl_append]
  generalize t.foldl _ 0 = a
  have hshift (a b : Nat) : u.foldl (fun n c => 10 * n + (c.toNat - '0'.toNat)) (a + b) =
      a * 10 ^ u.length + u.foldl (fun n c => 10 * n + (c.toNat - '0'.toNat)) b := by
    induction u generalizing a b with
    | nil => simp
    | cons c u ih =>
      rw [List.foldl_cons, List.foldl_cons, Nat.mul_add, Nat.add_assoc, ih, List.length_cons, Nat.pow_succ]
      ring
  exact hshift a 0

theorem toNat_zeros (n : Nat) : toNat (List.replicate n '0') = 0 := by
  induction n with
  | zero => rfl
  | succ n ih => rw [List.replicate_succ', toNat_concat, ih]; rfl

/-- Zeros in front do not count. -/
theorem toNat_padded (width n : Nat) : toNat (Decimal.padded width n) = n := by
  unfold Decimal.padded
  rw [toNat_append, toNat_zeros, Nat.zero_mul, Nat.zero_add, toNat_ofNat]

end Text

/-- Nothing is stripped from a text without white space. -/
theorem Literal.strip_eq_self {p : Char → Bool} (hp : [' ', '\t', '\r', '\n', '\x0b', '\x0c'].any p = false) {t : Text}
    (ht : ∀ c ∈ t, p c = true) : strip t = t := by
  have hstops {t : Text} (ht : ∀ c ∈ t, p c = true) : Stops Byte.isSpace t := by
    intro c hc
    have hc := ht c (List.mem_of_mem_head? hc)
    refine Bool.eq_false_iff.mpr fun hspace => ?_
    have hmem : c ∈ [' ', '\t', '\r', '\n', '\x0b', '\x0c'] := by
      simp only [Byte.isSpace, Byte.isBlank, Bool.or_eq_true, beq_iff_eq] at hspace
      simpa [or_assoc] using hspace
    exact List.any_eq_false.mp hp c hmem hc
  unfold strip
  rw [dropWhile_of_stops (hstops ht), dropWhile_of_stops (hstops fun c hc => ht c (List.mem_reverse.mp hc)),
    List.reverse_reverse]

/-- A sign and a `$` in front are taken off. -/
theorem Literal.signed?_dressed (style : Style) (negative dollar : Bool) {t : Text} (hsign : t.head? ≠ some '-')
    (hdollar : t.head? ≠ some '$') :
    signed? style ((if negative then ['-'] else []) ++ ((if dollar then ['$'] else []) ++ t)) =
      (body? dollar ((splitPercent t).1.filter (· != ','))).map fun v =>
        let v := if negative then -v else v
        if style = .percent || (splitPercent t).2 then v / 100.0 else v := by
  cases negative <;> cases dollar <;> simp [signed?, hsign, hdollar]

namespace Numeral
variable {n : Numeral}

/-- The numeral without its sign, `$`, grouping and `%`. -/
def bareText (n : Numeral) : Text := n.whole ++ n.fractionText ++ n.exponentText

/-- The decimal that the numeral shows, signs aside. -/
def decimal (n : Numeral) : Decimal := ⟨toNat (n.whole ++ n.fraction), n.exponent.getD 0 - n.fraction.length⟩

/-! ### What is left without the dress -/

theorem stops_exponentText {p : Char → Bool} (hp : p 'e' = false) : Stops p n.exponentText := by
  unfold exponentText
  cases n.exponent with
  | none => simp
  | some e => simpa [renderExponent] using hp

theorem stops_fractionText {p : Char → Bool} (hp : p '.' = false) : Stops p n.fractionText := by
  unfold fractionText
  split
  · simp
  · simpa using hp

theorem exponent?_renderExponent (e : Int) :
    Decimal.exponent? (renderExponent e) = some (e, (renderExponent e).length) := by
  have hrun : (ofNat e.natAbs).takeWhile Byte.isDigit = ofNat e.natAbs :=
    List.takeWhile_eq_self_iff.mpr fun c hc => isDigit_of_mem_ofNat hc
  have hne := ofNat_ne_nil e.natAbs
  have hvalue : (if e < 0 then -(e.natAbs : Int) else e.natAbs) = e := by split <;> omega
  unfold renderExponent Decimal.exponent?
  generalize e.natAbs = n at hrun hne hvalue ⊢
  by_cases hneg : e < 0
  · rw [if_pos hneg] at hvalue
    simp [hneg, Decimal.isSign, hrun, hne, toNat_ofNat, hvalue]
    omega
  · rw [if_neg hneg] at hvalue
    simp [hneg, Decimal.isSign, hrun, hne, toNat_ofNat, hvalue]
    omega

theorem exponent?_exponentText :
    ((Decimal.exponent? n.exponentText).map (·.1)).getD 0 = n.exponent.getD 0 ∧
      (n.exponentText.isEmpty || (Decimal.exponent? n.exponentText).any (·.2 == n.exponentText.length)) = true := by
  unfold exponentText
  cases n.exponent with
  | none => exact ⟨rfl, rfl⟩
  | some e =>
    dsimp only
    rw [exponent?_renderExponent]
    exact ⟨rfl, by simp⟩

/-- The parts of the bare text are found again. -/
theorem parts_bareText (hn : n.Proper) (hfinite : n.isFinite = true) :
    n.bareText.takeWhile Byte.isDigit = n.whole ∧ n.bareText.dropWhile Byte.isDigit = n.fractionText ++ n.exponentText ∧
      ∃ point : Text, ((n.fractionText ++ n.exponentText).take 1).filter (· == '.') = point ∧
        (if point.isEmpty then [] else ((n.fractionText ++ n.exponentText).drop 1).takeWhile Byte.isDigit) = n.fraction ∧
        (n.fractionText ++ n.exponentText).drop (point.length + n.fraction.length) = n.exponentText := by
  have hdigits : ∀ c ∈ n.whole, Byte.isDigit c = true := List.all_eq_true.mp hfinite
  have hstops : Stops Byte.isDigit (n.fractionText ++ n.exponentText) :=
    (stops_fractionText rfl).append (stops_exponentText rfl)
  have hbare : n.bareText = n.whole ++ (n.fractionText ++ n.exponentText) := List.append_assoc _ _ _
  refine ⟨hbare ▸ takeWhile_run hdigits hstops, ?_, ?_⟩
  · rw [hbare, List.dropWhile_append_of_pos hdigits]
    exact dropWhile_of_stops hstops
  · unfold fractionText
    split
    · rename_i hempty
      have hnil : n.fraction = [] := List.isEmpty_iff.mp hempty
      refine ⟨[], ?_, by rw [hnil]; rfl, by rw [hnil]; rfl⟩
      rw [List.nil_append]
      unfold exponentText
      cases n.exponent with
      | none => rfl
      | some e => rfl
    · refine ⟨['.'], rfl, ?_, ?_⟩
      · exact takeWhile_run hn.fraction (stops_exponentText rfl)
      · rw [List.length_singleton, Nat.add_comm]
        exact List.drop_left

/-- The bare text is a numeral and denotes the decimal that the numeral shows. -/
theorem isNumeral_bareText (hn : n.Proper) (hfinite : n.isFinite = true) :
    Decimal.isNumeral n.bareText = true ∧ Decimal.ofNumeral n.bareText = n.decimal := by
  obtain ⟨hwhole, hrest, point, hpoint, hfraction, htail⟩ := parts_bareText hn hfinite
  obtain ⟨hshift, hend⟩ := exponent?_exponentText (n := n)
  unfold Decimal.isNumeral Decimal.ofNumeral decimal
  dsimp only
  rw [hwhole, hrest, hpoint, hfraction, htail, hshift, hend]
  refine ⟨?_, rfl⟩
  have hne : n.whole.isEmpty = false := by simpa using hn.whole_ne_nil
  rw [hne]
  rfl

/-! ### Taking off the dress -/

theorem filter_groupThousands {t : Text} (ht : ',' ∉ t) : (groupThousands t).filter (· != ',') = t := by
  have hgrouped : (groupThousands t).filter (· != ',') = t.filter (· != ',') := by
    unfold groupThousands
    clear ht
    induction t with
    | nil => rfl
    | cons c t ih =>
      rw [List.foldr_cons]
      generalize List.foldr _ _ t = grouped at ih ⊢
      split <;> simp [List.filter_cons, ih]
  rw [hgrouped, List.filter_eq_self]
  intro c hc
  rw [bne_iff_ne]
  rintro rfl
  exact ht hc

section Proper
variable (hn : n.Proper)
include hn

/-- No character of the whole part is one of those that dress a numeral. -/
theorem Proper.not_mem_whole {c : Char} (hc : c = ',' ∨ c = '-' ∨ c = '$' ∨ c = '%' ∨ c = '0' ∧ n.isFinite = false) :
    c ∉ n.whole := by
  intro hmem
  rcases hn.whole with h | h | h
  · rcases hc with rfl | rfl | rfl | rfl | ⟨rfl, hfinite⟩
    · cases h _ hmem
    · cases h _ hmem
    · cases h _ hmem
    · cases h _ hmem
    · rw [isFinite, List.all_eq_true.mpr h] at hfinite
      cases hfinite
  all_goals
    rw [h] at hmem
    rcases hc with rfl | rfl | rfl | rfl | ⟨rfl, -⟩ <;> exact absurd hmem (by decide)

theorem Proper.filter_comma :
    (n.wholeText ++ n.fractionText ++ n.exponentText).filter (· != ',') = n.bareText := by
  have hwhole : n.wholeText.filter (· != ',') = n.whole := by
    have hcomma : ',' ∉ n.whole := hn.not_mem_whole (.inl rfl)
    unfold wholeText
    split
    · exact filter_groupThousands hcomma
    · exact List.filter_eq_self.mpr fun c hc => bne_iff_ne.mpr fun h => hcomma (h ▸ hc)
  have hfraction : n.fractionText.filter (· != ',') = n.fractionText := by
    refine List.filter_eq_self.mpr fun c hc => bne_iff_ne.mpr ?_
    rintro rfl
    unfold fractionText at hc
    split at hc
    · cases hc
    · simpa [Byte.isDigit] using hn.fraction ',' (by simpa using hc)
  have hexponent : n.exponentText.filter (· != ',') = n.exponentText := by
    refine List.filter_eq_self.mpr fun c hc => bne_iff_ne.mpr ?_
    rintro rfl
    unfold exponentText renderExponent at hc
    split at hc
    · cases hc
    · simp only [List.mem_cons, Char.reduceEq, false_or] at hc
      rcases hc with hc | hc
      · split at hc <;> cases hc
      · cases isDigit_of_mem_ofNat hc
  rw [List.filter_append, List.filter_append, hwhole, hfraction, hexponent]
  rfl

/-- The first character of the digits is neither a sign nor `$`. -/
theorem Proper.head?_digits {c : Char} (hc : c = '-' ∨ c = '$') (r : Text) : (n.wholeText ++ r).head? ≠ some c := by
  have hne : n.wholeText ≠ [] := by
    obtain ⟨d, t, hd⟩ := List.exists_cons_of_ne_nil hn.whole_ne_nil
    exact List.ne_nil_of_mem (mem_wholeText (n := n) (c := d) (by simp [hd]))
  obtain ⟨d, t, hd⟩ := List.exists_cons_of_ne_nil hne
  rw [hd, List.cons_append, List.head?_cons]
  rintro ⟨⟩
  have hmem : c ∈ n.wholeText := by simp [hd]
  have hwhole : c ∈ n.whole := by
    unfold wholeText at hmem
    split at hmem
    · refine (mem_groupThousands.1 hmem).resolve_right ?_
      rcases hc with rfl | rfl <;> decide
    · exact hmem
  exact hn.not_mem_whole (hc.elim (fun h => .inr (.inl h)) fun h => .inr (.inr (.inl h))) hwhole

theorem Proper.splitPercent_eq :
    Literal.splitPercent (n.wholeText ++ n.fractionText ++ n.exponentText ++ n.percentText) =
      (n.wholeText ++ n.fractionText ++ n.exponentText, n.percent) := by
  have hpercent : '%' ∉ n.wholeText ++ n.fractionText ++ n.exponentText := by
    intro hmem
    have hbare : '%' ∈ n.bareText := by
      rw [← hn.filter_comma]
      exact List.mem_filter.mpr ⟨hmem, rfl⟩
    simp only [bareText, List.mem_append] at hbare
    rcases hbare with (hbare | hbare) | hbare
    · exact hn.not_mem_whole (.inr (.inr (.inr (.inl rfl)))) hbare
    · unfold fractionText at hbare
      split at hbare
      · cases hbare
      · simpa [Byte.isDigit] using hn.fraction '%' (by simpa using hbare)
    · unfold exponentText renderExponent at hbare
      split at hbare
      · cases hbare
      · simp only [List.mem_cons, Char.reduceEq, false_or] at hbare
        rcases hbare with hc | hc
        · split at hc <;> cases hc
        · cases isDigit_of_mem_ofNat hc
  unfold Literal.splitPercent percentText
  cases n.percent with
  | true => simp
  | false =>
    rw [if_neg Bool.false_ne_true, List.append_nil, if_neg]
    intro hlast
    exact hpercent (List.mem_of_getLast? hlast)

/-- A literal that is a rendered numeral is read from its bare text. -/
theorem Proper.read?_render_eq (style : Style) :
    Literal.read? n.render style = (Literal.body? n.dollar n.bareText).map fun v =>
      let v := if n.negative then -v else v
      if style = .percent || n.percent then v / 100.0 else v := by
  have hshown : ∀ c ∈ n.render, isShown c = true := fun c hc => hn.isShown_of_mem_render hc
  have hstrip : Literal.strip n.render = n.render := Literal.strip_eq_self (p := isShown) rfl hshown
  have hname {t : Text} {c : Char} (hc : c ∈ t) (hno : isShown c = false) : n.render ≠ t := by
    rintro rfl
    rw [hshown c hc] at hno
    cases hno
  have hhead {c : Char} (hc : c = '-' ∨ c = '$') :
      (n.wholeText ++ n.fractionText ++ n.exponentText ++ n.percentText).head? ≠ some c := by
    have hdigits := hn.head?_digits hc (n.fractionText ++ (n.exponentText ++ n.percentText))
    rwa [← List.append_assoc, ← List.append_assoc] at hdigits
  have hsplit : n.render = n.signText ++ (n.dollarText ++
      (n.wholeText ++ n.fractionText ++ n.exponentText ++ n.percentText)) := by
    simp [render_eq, body]
  unfold Literal.read?
  dsimp only
  rw [hstrip, if_neg (hname (c := 'N') (by decide) rfl), if_neg (hname (c := 'I') (by decide) rfl),
    if_neg (hname (c := 'I') (by decide) rfl), hsplit]
  unfold signText dollarText
  rw [Literal.signed?_dressed style n.negative n.dollar (hhead (.inl rfl)) (hhead (.inr rfl)), hn.splitPercent_eq,
    hn.filter_comma]

/-- A numeral is read as the double nearest to the decimal that it shows, with its sign, and over 100 if it is a
    percentage. -/
theorem Proper.read?_render (hfinite : n.isFinite = true) (style : Style) :
    Literal.read? n.render style = some
      (let v := if n.negative then -n.decimal.toFloat else n.decimal.toFloat
       if style = .percent || n.percent then v / 100.0 else v) := by
  obtain ⟨hnumeral, hdecimal⟩ := isNumeral_bareText hn hfinite
  rw [hn.read?_render_eq]
  unfold Literal.body? Decimal.value
  rw [if_pos hnumeral, hdecimal]
  rfl

/-- What is written in place of digits is no literal. -/
theorem Proper.read?_render_eq_none (hfinite : n.isFinite = false) (style : Style) : Literal.read? n.render style = none := by
  rw [hn.read?_render_eq, Option.map_eq_none_iff]
  obtain ⟨c, t, hbare, hc⟩ : ∃ c t, n.bareText = c :: t ∧ (c = 'i' ∨ c = 'n') := by
    rcases hn.whole with h | h | h
    · rw [isFinite, List.all_eq_true.mpr h] at hfinite
      cases hfinite
    · exact ⟨'i', _, by rw [bareText, h]; rfl, .inl rfl⟩
    · exact ⟨'n', _, by rw [bareText, h]; rfl, .inr rfl⟩
  have hnumeral : Decimal.isNumeral n.bareText = false := by
    rw [hbare]
    rcases hc with rfl | rfl <;> rfl
  have hprefixed : Literal.prefixed? n.bareText = none := by
    rw [hbare]
    rcases hc with rfl | rfl <;> rfl
  have hbased : Literal.based? n.bareText = none := by
    have hhash : ∀ c ∈ n.bareText, (c != '#') = true := by
      intro c hc
      rw [← hn.filter_comma] at hc
      have hmem : c ∈ n.render := by
        have hc := (List.mem_filter.mp hc).1
        simp only [render_eq, body, List.mem_append] at hc ⊢
        tauto
      rw [bne_iff_ne]
      rintro rfl
      cases hn.isShown_of_mem_render hmem
    unfold Literal.based?
    dsimp only
    rw [List.dropWhile_eq_nil_iff.mpr hhash]
    simp
  unfold Literal.body?
  rw [hnumeral, hprefixed, hbased, if_neg Bool.false_ne_true]
  split <;> rfl

end Proper
end Numeral

/-! ### Numbers in decimal -/

namespace Numeral

/-- Neither a `$` stands before the digits nor a `%` behind them. -/
def IsBare (n : Numeral) : Prop := n.dollar = false ∧ n.percent = false

theorem isBare_fixed (x : Float) (places : Int) : (fixed x places).IsBare := by
  unfold fixed
  split <;> exact ⟨rfl, rfl⟩

theorem isBare_scientific (x : Float) (places : Int) : (scientific x places).IsBare := ⟨rfl, rfl⟩

end Numeral

namespace Written
open Numeral

theorem isBare_positional (x : Float) (places : Int) : (positional x places).IsBare := by
  unfold positional
  dsimp only
  split
  · exact isBare_scientific x places
  · exact isBare_fixed x places

theorem isBare_engineering (x : Float) (places : Int) (libm : Libm := .native) : (engineering x places libm).IsBare := by
  have hwith (e : Int) : (engineeringWith x places e libm).IsBare := isBare_fixed _ places
  unfold engineering
  dsimp only
  split
  · exact isBare_fixed 0.0 places
  · split <;> exact hwith _

theorem isBare_numeral (x : Float) (places : Int) (stripZeros : Bool) (notated : Notation) (groupDigits : Bool) :
    (numeral x places stripZeros notated groupDigits).IsBare := by
  have hdress {n : Numeral} (h : n.IsBare) : IsBare (let n := if stripZeros then n.stripZeros else n
      let n := if groupDigits then n.group else n
      n.dropNegativeZero) := by
    cases stripZeros <;> cases groupDigits <;> exact h
  cases notated with
  | positional => exact hdress (isBare_positional x places)
  | scientific => exact hdress (isBare_scientific x places)
  | engineering => exact hdress (isBare_engineering x places)

end Written

/-- A finite number is written in decimal. -/
theorem Settings.write_of_isFinite (settings : Settings) {x : Float} (h : x.isFinite = true) : settings.write x =
    (Written.numeral x settings.places settings.stripZeros settings.notated settings.groupDigits).render := by
  have hbase : Written.hasBase x 10 = false := rfl
  unfold Settings.write writeNumber Written.number
  rw [Binary.isNaN_of_isFinite h, Binary.isInf_of_isFinite h, hbase]
  rfl

end Worksheet
