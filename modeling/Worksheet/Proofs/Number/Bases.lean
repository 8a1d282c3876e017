import Worksheet.Number.Writing
import Worksheet.Proofs.Number.Steady
import Worksheet.Proofs.Token.Literal

/-! Whole numbers in other bases. Below `2 ^ 53` every whole number is a double, and so is every number that its digits
    make on the way: what is written in a base is read exactly. -/

namespace Worksheet
open Binary Text

/-! ### Digits -/

namespace Digits
variable {base n : ℕ}

/-- Numbers of 53 bits are kept. -/
theorem roundTo53_of_lt (h : n < 2 ^ 53) : roundTo53 n = n := by
  have hlog : n.log2 - 52 = 0 := by
    by_cases hzero : n = 0
    · rw [hzero, Nat.log2_zero]
    · have hlog := (Nat.log2_lt hzero).mpr h
      omega
  unfold roundTo53
  dsimp only
  rw [hlog, pow_zero, Nat.mul_one]
  unfold roundQuotient
  simp [Nat.mod_one]

theorem step_of_lt {d : ℕ} (h : n * base + d < 2 ^ 53) : step base n d = n * base + d := by
  unfold step
  rw [roundTo53_of_lt (Nat.lt_of_le_of_lt (Nat.le_add_right _ d) h), roundTo53_of_lt h]

theorem digitValue?_ofDigit {d : ℕ} (h : d < 36) : Byte.digitValue? (Byte.ofDigit d) = some d := by
  have hall : ∀ d : Fin 36, Byte.digitValue? (Byte.ofDigit d) = some d.val := by decide
  exact hall ⟨d, h⟩

theorem digitOf?_ofDigit {d : ℕ} (h : d < base) (hbase : base ≤ 36) : Byte.digitOf? base (Byte.ofDigit d) = some d := by
  unfold Byte.digitOf?
  rw [digitValue?_ofDigit (h.trans_le hbase), Option.filter_some, if_pos (decide_eq_true h)]

/-- What is put before other digits is read as the number whose digits they are. -/
theorem exists_go (hbase : 2 ≤ base) (hmax : base ≤ 36) {fuel : ℕ} (acc : Text) (hfuel : n ≤ fuel) (h : n < 2 ^ 53) :
    ∃ t ds, Written.baseDigits.go base fuel n acc = t ++ acc ∧ t.mapM (Byte.digitOf? base) = some ds ∧
      ds.foldl (step base) 0 = n := by
  have hlast (n : ℕ) : Byte.digitOf? base (Byte.ofDigit (n % base)) = some (n % base) :=
    digitOf?_ofDigit (Nat.mod_lt n (by omega)) hmax
  have hstep {n : ℕ} (h : n < 2 ^ 53) : step base (n / base) (n % base) = n := by
    have hdiv := Nat.div_add_mod' n base
    rw [step_of_lt (by rwa [hdiv]), hdiv]
  have hsingle {n : ℕ} (acc : Text) (h : n < 2 ^ 53) (hzero : n / base = 0) :
      ∃ t ds, Byte.ofDigit (n % base) :: acc = t ++ acc ∧ t.mapM (Byte.digitOf? base) = some ds ∧
        ds.foldl (step base) 0 = n := by
    have hstep := hstep h
    rw [hzero] at hstep
    exact ⟨[Byte.ofDigit (n % base)], [n % base], rfl, by simp [hlast], hstep⟩
  induction fuel generalizing n acc with
  | zero =>
    obtain rfl : n = 0 := Nat.le_zero.mp hfuel
    exact hsingle acc h (Nat.zero_div base)
  | succ fuel ih =>
    unfold Written.baseDigits.go
    dsimp only
    split
    · rename_i hzero
      exact hsingle acc h hzero
    · rename_i hne
      have hpos : 0 < n := Nat.pos_of_ne_zero fun hzero => hne (by rw [hzero, Nat.zero_div])
      have hless : n / base < n := Nat.div_lt_self hpos hbase
      obtain ⟨t, ds, hgo, hds, hvalue⟩ := ih (Byte.ofDigit (n % base) :: acc) (by omega) (hless.trans h)
      refine ⟨t ++ [Byte.ofDigit (n % base)], ds ++ [n % base], by rw [hgo, List.append_assoc]; rfl, ?_, ?_⟩
      · rw [List.mapM_append, hds]
        simp [hlast]
      · rw [List.foldl_append, hvalue]
        exact hstep h

/-- Digits are read back exactly. -/
theorem read?_baseDigits (hbase : 2 ≤ base) (hmax : base ≤ 36) (h : n < 2 ^ 53) :
    read? base (Written.baseDigits base n) = some (Binary.ofNat n) := by
  obtain ⟨t, ds, hgo, hds, hvalue⟩ := exists_go hbase hmax [] (Nat.le_refl n) h
  rw [List.append_nil] at hgo
  unfold read? Written.baseDigits
  rw [hgo, hds, Option.map_some, fold, hvalue]

end Digits

/-! ### Texts -/

namespace Literal
variable {base n : ℕ}

/-- A text with a `#` is read in the base behind it. -/
theorem body?_based (hbase : 2 ≤ base) (hmax : base ≤ 36) (h : n < 2 ^ 53) :
    body? false (Written.baseDigits base n ++ '#' :: ofNat base) = some (Binary.ofNat n) := by
  have hread := Digits.read?_baseDigits hbase hmax h
  have hmem : '#' ∈ Written.baseDigits base n ++ '#' :: ofNat base := by simp
  have hnumeral : Decimal.isNumeral (Written.baseDigits base n ++ '#' :: ofNat base) = false := by
    refine Bool.eq_false_iff.mpr fun hnumeral => ?_
    cases Lexer.isPart_of_mem_numeral hnumeral hmem
  have hprefixed : prefixed? (Written.baseDigits base n ++ '#' :: ofNat base) = none := by
    revert hmem
    generalize Written.baseDigits base n ++ '#' :: ofNat base = t
    intro hmem
    unfold prefixed?
    split
    · rename_i p d t
      cases hp : prefixBase? p with
      | none => rfl
      | some b =>
        cases hread : Digits.read? b (d :: t) with
        | none => exact hread
        | some v =>
          exfalso
          rcases List.mem_cons.mp hmem with hzero | hmem
          · cases hzero
          · rcases List.mem_cons.mp hmem with rfl | hmem
            · cases hp
            · have hdigit := Lexer.digitOf?_of_read? hread hmem
              have hall : (Byte.digitOf? b '#').isSome = false := rfl
              rw [hall] at hdigit
              cases hdigit
    · rfl
  have hdigits : ∀ c ∈ Written.baseDigits base n, (c != '#') = true := by
    intro c hc
    have hdigit := Lexer.digitOf?_of_read? hread hc
    rw [bne_iff_ne]
    rintro rfl
    cases hdigit
  have hne : (Written.baseDigits base n).isEmpty = false := by
    rw [List.isEmpty_eq_false_iff]
    exact Written.go_ne_nil base n n []
  have htake : (Written.baseDigits base n ++ '#' :: ofNat base).takeWhile (· != '#') = Written.baseDigits base n :=
    takeWhile_run hdigits (stops_cons.mpr rfl)
  have hdrop : (Written.baseDigits base n ++ '#' :: ofNat base).dropWhile (· != '#') = '#' :: ofNat base := by
    rw [List.dropWhile_append_of_pos hdigits]
    rfl
  have hlength : (Text.ofNat base).length ≤ 2 := Nat.toDigits_length 10 base 2 Nat.two_pos (by omega)
  have hall : (Text.ofNat base).all Byte.isDigit = true := List.all_eq_true.mpr fun c hc => isDigit_of_mem_ofNat hc
  unfold body? based?
  dsimp only
  rw [hnumeral, if_neg Bool.false_ne_true, if_neg Bool.false_ne_true, hprefixed, htake, hdrop, List.drop_one, List.tail_cons,
    hne, hall, toNat_ofNat, if_neg (by simp [ofNat_ne_nil, hlength]), if_pos ⟨hbase, hmax⟩, hread]
  rfl

/-- What is written in a base is read as the whole number with its sign. -/
theorem read?_based (hbase : 2 ≤ base) (hmax : base ≤ 36) (h : n < 2 ^ 53) (negative : Bool) {style : Style}
    (hstyle : style ≠ .percent) : read? (Written.based negative (Written.baseDigits base n) base).render style =
      some (if negative then -Binary.ofNat n else Binary.ofNat n) := by
  have hdigits : ∀ c ∈ Written.baseDigits base n, Byte.isAlphanumeric c = true := fun c hc =>
    Lexer.isAlphanumeric_of_digitOf? (Lexer.digitOf?_of_read? (Digits.read?_baseDigits hbase hmax h) hc)
  have hbaseText : ∀ c ∈ Text.ofNat base, Byte.isAlphanumeric c = true := fun c hc =>
    Byte.isAlphanumeric_of_isDigit (isDigit_of_mem_ofNat hc)
  obtain ⟨t, ht⟩ : ∃ t, Written.baseDigits base n ++ '#' :: Text.ofNat base = t := ⟨_, rfl⟩
  have hbody := body?_based hbase hmax h
  rw [ht] at hbody
  have hchars : ∀ c ∈ t, (Byte.isAlphanumeric c || c == '#') = true := by
    intro c hc
    rw [← ht, List.mem_append, List.mem_cons] at hc
    rcases hc with hc | rfl | hc
    · rw [hdigits c hc, Bool.true_or]
    · rfl
    · rw [hbaseText c hc, Bool.true_or]
  have hno {c : Char} (hc : (Byte.isAlphanumeric c || c == '#') = false) : c ∉ t := by
    intro hmem
    rw [hchars c hmem] at hc
    cases hc
  have hrender : (Written.based negative (Written.baseDigits base n) base).render =
      (if negative then ['-'] else []) ++ ((if false then ['$'] else []) ++ t) := by
    rw [← ht]
    exact List.append_assoc _ _ _
  have hstrip : strip (Written.based negative (Written.baseDigits base n) base).render =
      (Written.based negative (Written.baseDigits base n) base).render := by
    refine strip_eq_self (p := fun c => Byte.isAlphanumeric c || c == '#' || c == '-') rfl fun c hc => ?_
    rw [hrender] at hc
    rcases List.mem_append.mp hc with hc | hc
    · split at hc
      · rw [List.mem_singleton.mp hc]
        rfl
      · cases hc
    · rw [hchars c hc, Bool.true_or]
  have hname {u : Text} (hu : '#' ∉ u) : (Written.based negative (Written.baseDigits base n) base).render ≠ u := by
    rintro rfl
    exact hu (by simp [Written.render])
  have hpercent : splitPercent t = (t, false) := if_neg fun hlast => hno rfl (List.mem_of_getLast? hlast)
  have hfilter : t.filter (· != ',') = t := List.filter_eq_self.mpr fun c hc => bne_iff_ne.mpr fun hcomma =>
    hno rfl (hcomma ▸ hc)
  unfold read?
  dsimp only
  rw [hstrip, if_neg (hname (by decide)), if_neg (hname (by decide)), if_neg (hname (by decide)), hrender,
    signed?_dressed style negative false (fun hhead => hno rfl (List.mem_of_mem_head? hhead))
      (fun hhead => hno rfl (List.mem_of_mem_head? hhead)), hpercent, hfilter, hbody]
  simp [hstyle]

end Literal

/-! ### Values -/

namespace Written
variable {x w : Float} {base : ℕ}

theorem value_nine : Binary.value 9.0e15 = 9 * 10 ^ 15 := by
  show ((9 * 10 ^ 15 : ℕ) : ℚ) * 2 ^ (0 : ℤ) = _
  norm_num

/-- Only whole numbers are shown in a base. -/
theorem hasBase_iff (hx : x.isFinite = true) : hasBase x base = true ↔
    base ≠ 10 ∧ 2 ≤ base ∧ base ≤ 36 ∧ |Binary.value x| = wholePart x ∧ |Binary.value x| < 9 * 10 ^ 15 := by
  have hlt : x.abs < 9.0e15 ↔ |Binary.value x| < 9 * 10 ^ 15 := by
    rw [lt_iff_value ((isFinite_abs x).trans hx) rfl, value_abs, value_nine]
  unfold hasBase
  simp only [Bool.and_eq_true, bne_iff_ne, decide_eq_true_eq, hlt, and_assoc]
  refine and_congr_right fun _ => and_congr_right fun _ => and_congr_right fun _ => and_congr_left fun hlt => ?_
  refine ⟨fun h => ?_, fun h => ?_⟩
  · exact abs_value_of_truncate hx (by linarith) h
  · rw [(truncate_of_abs_value hx h).1]
    exact (beq_iff_value hx hx).mpr rfl

/-- A number that is shown in a base. -/
theorem number_eq_based (hx : x.isFinite = true) (h : hasBase x base = true) (places : ℤ) (stripZeros : Bool)
    (notated : Notation) (groupDigits : Bool) (libm : Libm := .native) :
    number x places stripZeros notated base groupDigits libm = based (x < 0) (baseDigits base (wholePart x)) base := by
  unfold number
  rw [isNaN_of_isFinite hx, isInf_of_isFinite hx, if_neg Bool.false_ne_true, if_neg Bool.false_ne_true, if_pos h]

/-- It is read exactly. -/
theorem read?_number_of_hasBase (hx : x.isFinite = true) (h : hasBase x base = true) (places : ℤ) (stripZeros : Bool)
    (notated : Notation) (groupDigits : Bool) {style : Style} (hstyle : style ≠ .percent) :
    ∃ w : Float, Literal.read? (number x places stripZeros notated base groupDigits).render style = some w ∧
      w.isFinite = true ∧ Binary.value w = Binary.value x := by
  obtain ⟨-, hlow, hhigh, hwhole, hlt⟩ := (hasBase_iff hx).mp h
  have hsmall : wholePart x < 2 ^ 53 := by
    rw [hwhole] at hlt
    have hlt : (wholePart x : ℚ) < (2 ^ 53 : ℕ) := hlt.trans (by norm_num)
    exact_mod_cast hlt
  obtain ⟨hfinite, hvalue⟩ := value_ofNat hsmall
  have hneg : x < 0 ↔ Binary.value x < 0 := lt_iff_value hx rfl
  rw [number_eq_based hx h, Literal.read?_based hlow hhigh hsmall (decide (x < 0)) hstyle]
  refine ⟨_, rfl, by rw [Numeral.isFinite_signed, hfinite], ?_⟩
  simp only [decide_eq_true_eq, hneg]
  split
  · rename_i hsign
    rw [value_neg, hvalue, ← hwhole, abs_of_neg hsign, neg_neg]
  · rename_i hsign
    rw [hvalue, ← hwhole, abs_of_nonneg (not_lt.mp hsign)]

/-- A number that is shown in a base is read as a number that is shown in the same way. -/
theorem number_based (hx : x.isFinite = true) (h : hasBase x base = true) (places : ℤ) (stripZeros : Bool)
    (notated : Notation) (groupDigits : Bool) {style : Style} (hstyle : style ≠ .percent) :
    ∃ w : Float, Literal.read? (number x places stripZeros notated base groupDigits).render style = some w ∧
      w.isFinite = true ∧
      number w places stripZeros notated base groupDigits = number x places stripZeros notated base groupDigits := by
  obtain ⟨w, hread, hfinite, hvalue⟩ := read?_number_of_hasBase hx h places stripZeros notated groupDigits hstyle
  obtain ⟨hten, hlow, hhigh, hwhole, hlt⟩ := (hasBase_iff hx).mp h
  have hpart : wholePart w = wholePart x := (truncate_of_abs_value hfinite (by rw [hvalue, hwhole])).2
  have hbase : hasBase w base = true :=
    (hasBase_iff hfinite).mpr ⟨hten, hlow, hhigh, by rw [hvalue, hpart, hwhole], by rwa [hvalue]⟩
  have hneg {y : Float} (hy : y.isFinite = true) : y < 0 ↔ Binary.value y < 0 := lt_iff_value hy rfl
  refine ⟨w, hread, hfinite, ?_⟩
  rw [number_eq_based hx h, number_eq_based hfinite hbase, hpart]
  simp only [hneg hx, hneg hfinite, hvalue]

/-- A whole number below `9 * 10 ^ 15` is written in every base but ten as a literal that is read as that number. -/
theorem read?_writeNumber_whole (hx : x.isFinite = true) {n : ℤ} (hwhole : Binary.value x = n) (hlt : |n| < 9 * 10 ^ 15)
    (hlow : 2 ≤ base) (hhigh : base ≤ 36) (hten : base ≠ 10) (places : ℤ) (stripZeros : Bool) (notated : Notation)
    (groupDigits : Bool) :
    ∃ w : Float, Literal.read? (writeNumber x places stripZeros notated base groupDigits) = some w ∧
      w.isFinite = true ∧ Binary.value w = n ∧ (w == x) = true := by
  have habs : |Binary.value x| = n.natAbs := by rw [hwhole, ← Int.cast_abs, ← Int.natCast_natAbs, Int.cast_natCast]
  have hsmall : |Binary.value x| < 9 * 10 ^ 15 := by
    rw [hwhole]
    exact_mod_cast hlt
  have hbase : hasBase x base = true :=
    (hasBase_iff hx).mpr ⟨hten, hlow, hhigh, by rw [habs, (truncate_of_abs_value hx habs).2], hsmall⟩
  obtain ⟨w, hread, hfinite, hvalue⟩ := read?_number_of_hasBase hx hbase places stripZeros notated groupDigits
    (by decide : Style.plain ≠ .percent)
  exact ⟨w, hread, hfinite, hvalue.trans hwhole, (beq_iff_value hfinite hx).mpr hvalue⟩

/-- `-255` is written as `-FF#16`. -/
theorem read?_writeNumber_neg_255 : Literal.read? (writeNumber (-255.0) 2 true .engineering 16 true) = some (-255.0) ∧
    ∃ w : Float, Literal.read? (writeNumber (-255.0) 2 true .engineering 16 true) = some w ∧
      w.isFinite = true ∧ Binary.value w = (-255 : ℤ) ∧ (w == -255.0) = true := by
  have hvalue : Binary.value (-255.0) = (-255 : ℤ) := by
    rw [value_neg]
    show -(((255 * 2 ^ 45 : ℕ) : ℚ) * 2 ^ (-45 : ℤ)) = _
    norm_num
  refine ⟨?_, read?_writeNumber_whole rfl hvalue (by decide) (by decide) (by decide) (by decide) 2 true .engineering true⟩
  decide +kernel

end Written
end Worksheet
