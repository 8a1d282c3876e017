import Worksheet.Proofs.Number.Engineering
import Worksheet.Proofs.Number.Redisplay

/-! The look of a number. Zeros that are left out, thousands that are grouped and a sign that a zero loses change the text
    of a number, but not what it is read as. -/

namespace Worksheet
open Binary Text

/-! ### Signs that are due -/

/-- A digit other than zero is shown before any exponent and any base. -/
def Text.showsNonzero (t : Text) : Bool :=
  (t.takeWhile fun c => c != 'e' && c != '#').any fun c => (Byte.digitValue? c).any (0 < ·)

/-- A `-` in front is followed by a digit other than zero before any exponent and any base: no negative zero is shown. -/
def Text.SignIsDue (t : Text) : Prop := t.head? = some '-' → t.showsNonzero = true

namespace Text

theorem digitValue?_pos {c : Char} (hc : Byte.isDigit c = true) (hne : c ≠ '0') :
    (Byte.digitValue? c).any (0 < ·) = true := by
  unfold Byte.digitValue?
  rw [if_pos hc, Option.any_some, decide_eq_true_eq]
  simp only [Byte.isDigit, Bool.and_eq_true, decide_eq_true_eq] at hc
  have hlt : '0' < c := lt_of_le_of_ne hc.1 hne.symm
  exact Nat.sub_pos_of_lt hlt

/-- A nonzero digit with neither an exponent nor a base before it is shown. -/
theorem showsNonzero_append {t u : Text} (ht : 'e' ∉ t ∧ '#' ∉ t) {c : Char} (hc : c ∈ t)
    (hpos : (Byte.digitValue? c).any (0 < ·) = true) : (t ++ u).showsNonzero = true := by
  have hall : ∀ c ∈ t, (c != 'e' && c != '#') = true := by
    intro c hc
    rw [Bool.and_eq_true, bne_iff_ne, bne_iff_ne]
    exact ⟨fun h => ht.1 (h ▸ hc), fun h => ht.2 (h ▸ hc)⟩
  unfold showsNonzero
  rw [List.takeWhile_append_of_pos hall, List.any_append, List.any_eq_true.mpr ⟨c, hc, hpos⟩, Bool.true_or]

end Text

/-! ### Decimal numerals -/

namespace Numeral
variable {n : Numeral}

/-- A numeral with the look that is chosen for it. -/
def styled (stripZeros groupDigits : Bool) (n : Numeral) : Numeral :=
  let n := if stripZeros then n.stripZeros else n
  let n := if groupDigits then n.group else n
  n.dropNegativeZero

theorem dresses_styled (stripZeros groupDigits : Bool) : Dresses (styled stripZeros groupDigits) :=
  dresses_dropNegativeZero.comp ((dresses_group.ite groupDigits).comp (dresses_stripZeros.ite stripZeros))

theorem isZero_eq (hn : n.Proper) (hfinite : n.isFinite = true) : n.isZero = decide (n.decimal.rat = 0) := by
  rw [Bool.eq_iff_iff, decide_eq_true_eq]
  refine ⟨fun h => Decimal.rat_eq_zero.mpr ?_, isZero_of_rat hn hfinite⟩
  have hzeros : ∀ c ∈ n.whole ++ n.fraction, c = '0' := by
    rw [isZero, ← List.all_append] at h
    exact fun c hc => beq_iff_eq.mp (List.all_eq_true.mp h c hc)
  show toNat (n.whole ++ n.fraction) = 0
  rw [List.eq_replicate_of_mem hzeros, toNat_zeros]

/-- The sign that is left is the one of a number other than zero. -/
theorem negative_styled (hn : n.Proper) (hfinite : n.isFinite = true) (stripZeros groupDigits : Bool) :
    (n.styled stripZeros groupDigits).negative = (n.negative && !decide (n.decimal.rat = 0)) := by
  have hdress := (dresses_group.ite groupDigits).comp (dresses_stripZeros.ite stripZeros)
  have hzero := isZero_eq (hdress.proper hn) ((hdress.isFinite n).trans hfinite)
  rw [hdress.rat] at hzero
  rw [← hzero]
  cases stripZeros <;> cases groupDigits <;> rfl

theorem isBare_styled (h : n.IsBare) (stripZeros groupDigits : Bool) : (n.styled stripZeros groupDigits).IsBare := by
  cases stripZeros <;> cases groupDigits <;> exact h

/-- Whatever the look, the same double is read. -/
theorem exists_read?_styled (hn : n.Proper) (hfinite : n.isFinite = true) (hbare : n.IsBare) : ∃ v : Float,
    v.isNaN = false ∧ ∀ stripZeros groupDigits, Literal.read? (n.styled stripZeros groupDigits).render = some v := by
  refine ⟨if n.negative && !decide (n.decimal.rat = 0) then -n.decimal.toFloat else n.decimal.toFloat, ?_,
    fun stripZeros groupDigits => ?_⟩
  · split
    · rw [isNaN_neg, Decimal.isNaN_toFloat]
    · exact Decimal.isNaN_toFloat _
  · have hdress := dresses_styled stripZeros groupDigits
    rw [(hdress.proper hn).read?_render ((hdress.isFinite n).trans hfinite), (isBare_styled hbare stripZeros groupDigits).2,
      negative_styled hn hfinite, Decimal.toFloat_congr (hdress.rat n), Bool.or_false, if_neg (by decide)]

/-- A numeral with a sign shows a digit other than zero. -/
theorem showsNonzero_render (hn : n.Proper) (hfinite : n.isFinite = true) (h : n.isZero = false) :
    n.render.showsNonzero = true := by
  have hdigits : ∀ c ∈ n.whole ++ n.fraction, Byte.isDigit c = true := by
    intro c hc
    rcases List.mem_append.mp hc with hc | hc
    · exact List.all_eq_true.mp hfinite c hc
    · exact hn.fraction c hc
  rw [isZero, ← List.all_append, List.all_eq_false] at h
  obtain ⟨c, hc, hne⟩ := h
  have hbody : c ∈ n.body := by
    unfold body fractionText
    rcases List.mem_append.mp hc with hwhole | hfraction
    · exact List.mem_append_left _ (List.mem_append_right _ (mem_wholeText hwhole))
    · rw [if_neg (by simpa using List.ne_nil_of_mem hfraction)]
      exact List.mem_append_right _ (List.mem_cons_of_mem _ hfraction)
  have hhash : '#' ∉ n.body := by
    intro hmem
    have hshown := hn.isShown_of_mem_render (c := '#')
      (by rw [render_eq]; exact List.mem_append_left _ (List.mem_append_left _ hmem))
    cases hshown
  rw [render_eq, List.append_assoc]
  exact showsNonzero_append ⟨e_not_mem_body hn hfinite, hhash⟩ hbody
    (digitValue?_pos (hdigits c hc) fun hzero => hne (by simp [hzero]))

/-- A `-` in front is the sign of the numeral. -/
theorem negative_of_head? (hn : n.Proper) (hbare : n.IsBare) (h : n.render.head? = some '-') : n.negative = true := by
  by_contra hsign
  have hrender : n.render = n.wholeText ++ (n.fractionText ++ (n.exponentText ++ n.percentText)) := by
    rw [render_eq, body, signText, dollarText, if_neg hsign, hbare.1, if_neg Bool.false_ne_true]
    simp
  rw [hrender] at h
  exact hn.head?_digits (.inl rfl) _ h

/-- No negative zero is left. -/
theorem signIsDue_styled (hn : n.Proper) (hfinite : n.isFinite = true) (hbare : n.IsBare) (stripZeros groupDigits : Bool) :
    (n.styled stripZeros groupDigits).render.SignIsDue := by
  have hdress := dresses_styled stripZeros groupDigits
  have hproper := hdress.proper hn
  have hshown := (hdress.isFinite n).trans hfinite
  intro hhead
  have hsign := negative_of_head? hproper (isBare_styled hbare stripZeros groupDigits) hhead
  rw [negative_styled hn hfinite, ← hdress.rat, ← isZero_eq hproper hshown, Bool.and_eq_true, Bool.not_eq_true'] at hsign
  exact showsNonzero_render hproper hshown hsign.2

end Numeral

/-! ### Bases -/

namespace Written
variable {base n : ℕ}

/-- The first digit of a number other than zero is not zero. -/
theorem exists_go_eq_cons (hbase : 2 ≤ base) {fuel : ℕ} (acc : Text) (hfuel : n ≤ fuel) (hpos : 0 < n) :
    ∃ d t, 0 < d ∧ d < base ∧ baseDigits.go base fuel n acc = Byte.ofDigit d :: t := by
  have hlast {n : ℕ} (hpos : 0 < n) (hzero : n / base = 0) : 0 < n % base ∧ n % base < base := by
    rw [Nat.mod_eq_of_lt ((Nat.div_eq_zero_iff_lt (by omega)).mp hzero)]
    exact ⟨hpos, (Nat.div_eq_zero_iff_lt (by omega)).mp hzero⟩
  induction fuel generalizing n acc with
  | zero => omega
  | succ fuel ih =>
    unfold baseDigits.go
    dsimp only
    split
    · rename_i hzero
      exact ⟨n % base, acc, (hlast hpos hzero).1, (hlast hpos hzero).2, rfl⟩
    · rename_i hne
      have hless : n / base < n := Nat.div_lt_self hpos hbase
      exact ih _ (by omega) (Nat.pos_of_ne_zero hne)

/-- A number in a base that is shown with a sign is not zero. -/
theorem signIsDue_based (hbase : 2 ≤ base) (hmax : base ≤ 36) {negative : Bool} (h : negative = true → 0 < n) :
    (based negative (baseDigits base n) base).render.SignIsDue := by
  intro hhead
  rcases Nat.eq_zero_or_pos n with rfl | hpos
  · have hsign : negative = false := Bool.eq_false_iff.mpr fun hsign => absurd (h hsign) (Nat.lt_irrefl 0)
    rw [hsign] at hhead
    have hzero : Byte.ofDigit (0 % base) = '-' := Option.some.inj hhead
    rw [Nat.zero_mod] at hzero
    exact absurd hzero (by decide)
  · obtain ⟨d, t, hd, hlt, hgo⟩ := exists_go_eq_cons hbase [] (le_refl n) hpos
    have hall : ∀ d : Fin 36, Byte.ofDigit d ≠ 'e' ∧ Byte.ofDigit d ≠ '#' := by decide
    obtain ⟨he, hhash⟩ := hall ⟨d, hlt.trans_le hmax⟩
    have hdigit : (Byte.digitValue? (Byte.ofDigit d)).any (0 < ·) = true := by
      rw [Digits.digitValue?_ofDigit (hlt.trans_le hmax)]
      exact decide_eq_true hd
    have hrender : (based negative (baseDigits base n) base).render =
        ((if negative then ['-'] else []) ++ [Byte.ofDigit d]) ++ (t ++ '#' :: Text.ofNat base) := by
      unfold render baseDigits
      rw [hgo]
      simp
    rw [hrender]
    refine showsNonzero_append (c := Byte.ofDigit d) ?_ (by simp) hdigit
    cases negative <;> simp [he.symm, hhash.symm]

/-! ### Numbers -/

variable {x : Float} {libm : Libm} {notated : Notation}

/-- A finite number in a notation, before it is given its look. -/
def unstyled (x : Float) (places : ℤ) (notated : Notation) (libm : Libm) : Numeral :=
  match notated with
  | .scientific => Numeral.scientific x places
  | .engineering => engineering x places libm
  | .positional => positional x places

theorem numeral_eq_styled (x : Float) (places : ℤ) (stripZeros : Bool) (notated : Notation) (groupDigits : Bool)
    (libm : Libm) : numeral x places stripZeros notated groupDigits libm =
      (unstyled x places notated libm).styled stripZeros groupDigits := rfl

/-- Digits are shown in every notation. -/
theorem unstyled_spec (hx : x.isFinite = true) (places : ℤ) (hlibm : notated = .engineering → libm.Accurate) :
    (unstyled x places notated libm).Proper ∧ (unstyled x places notated libm).isFinite = true ∧
      (unstyled x places notated libm).IsBare := by
  cases notated with
  | positional => exact ⟨proper_positional x places, (steady_positional places).isFinite hx, isBare_positional x places⟩
  | scientific =>
    exact ⟨Numeral.proper_scientific x places, (Numeral.steady_scientific places).isFinite hx,
      Numeral.isBare_scientific x places⟩
  | engineering =>
    exact ⟨proper_engineering x places libm, isFinite_engineering (hlibm rfl) hx places, isBare_engineering x places libm⟩

/-- Whether zeros are left out and whether thousands are grouped, a finite number is read as the same number, and no negative
    zero is shown. -/
theorem read?_writeNumber_look (hx : x.isFinite = true) (places : ℤ) (base : ℕ)
    (hlibm : notated = .engineering → libm.Accurate) : ∃ v : Float, v.isNaN = false ∧ ∀ stripZeros groupDigits,
      Literal.read? (writeNumber x places stripZeros notated base groupDigits libm) = some v ∧
        (writeNumber x places stripZeros notated base groupDigits libm).SignIsDue := by
  by_cases hbase : hasBase x base = true
  · obtain ⟨w, hread, hfinite, -⟩ := read?_number_of_hasBase hx hbase places true notated false
      (by decide : Style.plain ≠ .percent)
    rw [number_eq_based hx hbase] at hread
    obtain ⟨-, hlow, hhigh, hwhole, -⟩ := (hasBase_iff hx).mp hbase
    refine ⟨w, isNaN_of_isFinite hfinite, fun stripZeros groupDigits => ?_⟩
    unfold writeNumber
    rw [number_eq_based hx hbase places stripZeros notated groupDigits libm]
    refine ⟨hread, signIsDue_based hlow hhigh fun hneg => ?_⟩
    have hneg := (lt_iff_value hx rfl).mp (of_decide_eq_true hneg)
    have hpos := abs_pos.mpr hneg.ne
    rw [hwhole] at hpos
    exact_mod_cast hpos
  · obtain ⟨hproper, hfinite, hbare⟩ := unstyled_spec hx places hlibm
    obtain ⟨v, hnan, hread⟩ := Numeral.exists_read?_styled hproper hfinite hbare
    refine ⟨v, hnan, fun stripZeros groupDigits => ?_⟩
    unfold writeNumber
    rw [number_of_isFinite hx places stripZeros notated base groupDigits libm, if_neg hbase, numeral_eq_styled]
    exact ⟨hread stripZeros groupDigits, Numeral.signIsDue_styled hproper hfinite hbare stripZeros groupDigits⟩

/-- A thousand in engineering notation, and a number that two places do not show. -/
theorem read?_writeNumber_look_thousand :
    ((1000.0 : Float).isFinite = true ∧ (Notation.engineering = .engineering → Libm.exact.Accurate) ∧
      ∃ v : Float, v.isNaN = false ∧ ∀ stripZeros groupDigits,
        Literal.read? (writeNumber 1000.0 2 stripZeros .engineering 10 groupDigits Libm.exact) = some v ∧
          (writeNumber 1000.0 2 stripZeros .engineering 10 groupDigits Libm.exact).SignIsDue) ∧
      (-0.001 : Float).isFinite = true ∧ ∃ v : Float, v.isNaN = false ∧ ∀ stripZeros groupDigits,
        Literal.read? (writeNumber (-0.001) 2 stripZeros .positional 10 groupDigits) = some v ∧
          (writeNumber (-0.001) 2 stripZeros .positional 10 groupDigits).SignIsDue :=
  ⟨⟨rfl, fun _ => Libm.accurate_exact, read?_writeNumber_look rfl 2 10 fun _ => Libm.accurate_exact⟩, rfl,
    read?_writeNumber_look rfl 2 10 fun h => nomatch h⟩

end Written
end Worksheet
