import Worksheet.Proofs.Number.Digits
import Worksheet.Proofs.Number.Whole

/-! Numerals that are kept when they are read. A way of writing doubles is `Steady` if every double that is no farther
    from what a numeral shows than the one that it is written for has the same digits. Rounding to places and rounding
    to leading digits are, and so is every dress of theirs. -/

namespace Worksheet
open Binary Text

namespace Numeral

/-- The numeral without its sign. -/
def unsigned (n : Numeral) : Numeral := { n with negative := false }

/-- What is no farther from what a numeral shows than the double it is written for is written with the same digits, given
    that the exponent is the same. -/
structure Steady (write : Float → Numeral) : Prop where
  proper : ∀ x, (write x).Proper
  isFinite : ∀ {x : Float}, x.isFinite = true → (write x).isFinite = true
  unsigned_eq : ∀ {x y : Float}, x.isFinite = true → y.isFinite = true → (write y).exponent = (write x).exponent →
    |(|Binary.value y|) - (write x).decimal.rat| ≤ |(|Binary.value x|) - (write x).decimal.rat| →
    (write y).unsigned = (write x).unsigned
  zero : ∀ {x : Float}, x.isFinite = true → Binary.value x = 0 → (write x).decimal.rat = 0

/-! ### Places -/

/-- The numeral of `c` units of the last one of `places` places. -/
def ofScaled (negative : Bool) (places c : ℕ) : Numeral :=
  { negative, whole := ofNat (c / 10 ^ places), fraction := if places = 0 then [] else Decimal.padded places (c % 10 ^ places) }

theorem decimal_ofScaled (negative : Bool) (places c : ℕ) : (ofScaled negative places c).decimal = ⟨c, -places⟩ := by
  have hlt : c % 10 ^ places < 10 ^ places := Nat.mod_lt _ (by positivity)
  unfold decimal ofScaled
  dsimp only
  split
  · rename_i hzero
    rw [hzero, pow_zero, Nat.div_one, List.append_nil, toNat_ofNat]
    rfl
  · rename_i hne
    rw [toNat_append, toNat_ofNat, toNat_padded, Decimal.length_padded hlt (Nat.pos_of_ne_zero hne), Nat.div_add_mod',
      Option.getD_none, zero_sub]

/-- A double with fixed places shows the multiple of the last one that it is rounded to. -/
theorem fixed_eq {x : Float} (hx : x.isFinite = true) (places : ℤ) : ∃ c,
    RoundsEven (|Binary.value x| * 10 ^ boundedPlaces places) c ∧
      fixed x places = ofScaled (isNegative x) (boundedPlaces places) c := by
  refine ⟨_, ?_, if_pos hx⟩
  rw [abs_value hx]
  exact (Decimal.roundsEven_scaled (units x) (boundedPlaces places)).1

/-- The digits of `y` are those of `x` if it is rounded to what they show. -/
theorem unsigned_fixed {x y : Float} (hx : x.isFinite = true) (hy : y.isFinite = true) {places : ℤ}
    (h : ∀ c : ℕ, RoundsEven (|Binary.value x| * 10 ^ boundedPlaces places) c →
      (fixed x places).decimal.rat = c / 10 ^ boundedPlaces places →
      RoundsEven (|Binary.value y| * 10 ^ boundedPlaces places) c) :
    (fixed y places).unsigned = (fixed x places).unsigned := by
  obtain ⟨c, hc, hfixed⟩ := fixed_eq hx places
  obtain ⟨c', hc', hfixed'⟩ := fixed_eq hy places
  have hrat : (fixed x places).decimal.rat = c / 10 ^ boundedPlaces places := by
    rw [hfixed, decimal_ofScaled, Decimal.rat, zpow_neg, zpow_natCast, div_eq_mul_inv]
  rw [hfixed, hfixed', hc'.unique (h c hc hrat)]
  rfl

theorem steady_fixed (places : ℤ) : Steady fun x => fixed x places where
  proper x := proper_fixed x places
  isFinite hx := by
    obtain ⟨c, -, hfixed⟩ := fixed_eq hx places
    rw [hfixed]
    exact List.all_eq_true.mpr fun c hc => isDigit_of_mem_ofNat hc
  unsigned_eq {x y} hx hy _ hnear := by
    refine unsigned_fixed hx hy fun c hc hrat => hc.of_nearer ?_
    have hpower : (0 : ℚ) < 10 ^ boundedPlaces places := by positivity
    have hscale (v : ℚ) : |v * 10 ^ boundedPlaces places - c| =
        |v - c / 10 ^ boundedPlaces places| * 10 ^ boundedPlaces places := by
      rw [← abs_of_pos hpower, ← abs_mul, abs_of_pos hpower, sub_mul, div_mul_cancel₀ _ hpower.ne']
    rw [hscale, hscale, ← hrat]
    exact mul_le_mul_of_nonneg_right hnear hpower.le
  zero {x} hx hzero := by
    obtain ⟨c, hc, hfixed⟩ := fixed_eq hx places
    rw [hzero, abs_zero, zero_mul] at hc
    obtain rfl : c = 0 := hc.unique (by exact_mod_cast roundsEven_natCast 0)
    rw [hfixed, decimal_ofScaled, Decimal.rat, Nat.cast_zero, zero_mul]

/-- What is shown with fixed places is never beyond all doubles: a large double is whole and is shown as it is. -/
theorem rat_fixed_lt {x : Float} (hx : x.isFinite = true) (places : ℤ) : (fixed x places).decimal.rat < overflow := by
  obtain ⟨c, hc, hfixed⟩ := fixed_eq hx places
  have hpower : (1 : ℚ) ≤ 10 ^ boundedPlaces places := one_le_pow₀ (by norm_num)
  rw [hfixed, decimal_ofScaled, Decimal.rat, zpow_neg, zpow_natCast, ← div_eq_mul_inv]
  by_cases hsmall : |Binary.value x| < 2 ^ 53
  · have hle := (abs_le.mp hc.le_half).1
    rw [div_lt_iff₀ (by positivity)]
    calc (c : ℚ) ≤ |Binary.value x| * 10 ^ boundedPlaces places + 1 / 2 := by linarith
      _ ≤ (|Binary.value x| + 1 / 2) * 10 ^ boundedPlaces places := by linarith
      _ < overflow * 10 ^ boundedPlaces places :=
        mul_lt_mul_of_pos_right (by linarith [two_pow_lt_overflow]) (by positivity)
  · obtain ⟨n, hn⟩ := exists_natCast hx (not_lt.mp hsmall)
    have hexact : c = n * 10 ^ boundedPlaces places := by
      refine hc.unique ?_
      rw [hn]
      exact_mod_cast roundsEven_natCast (n * 10 ^ boundedPlaces places)
    rw [hexact, Nat.cast_mul, Nat.cast_pow, Nat.cast_ofNat, mul_div_cancel_right₀ _ (by positivity), ← hn]
    exact abs_value_lt_overflow hx

/-! ### Leading digits -/

/-- The numeral of `places + 1` leading digits. -/
def ofLeading (negative : Bool) (places digits : ℕ) (exponent : ℤ) : Numeral :=
  { negative, whole := (Decimal.padded (places + 1) digits).take 1, fraction := (Decimal.padded (places + 1) digits).drop 1,
    exponent := some exponent }

theorem decimal_ofLeading (negative : Bool) {places digits : ℕ} (exponent : ℤ) (h : digits < 10 ^ (places + 1)) :
    (ofLeading negative places digits exponent).decimal = ⟨digits, exponent - places⟩ := by
  unfold decimal ofLeading
  dsimp only
  rw [List.take_append_drop, toNat_padded, List.length_drop, Decimal.length_padded h (Nat.succ_pos _), Nat.add_sub_cancel,
    Option.getD_some]

/-- A double with an exponent shows the leading digits that it is rounded to. -/
theorem scientific_eq {x : Float} (hx : x.isFinite = true) (places : ℤ) : ∃ digits exponent,
    scientific x places = ofLeading (isNegative x) (boundedPlaces places) digits exponent ∧
      digits < 10 ^ (boundedPlaces places + 1) ∧ (Binary.value x = 0 ∧ digits = 0 ∨
        Binary.value x ≠ 0 ∧ Decimal.Leads (|Binary.value x|) (boundedPlaces places) digits exponent) := by
  have habs := abs_value hx
  refine ⟨_, _, rfl, ?_⟩
  by_cases hunits : units x = 0
  · rw [hunits, Nat.cast_zero, zero_mul, abs_eq_zero] at habs
    rw [hunits]
    exact ⟨Nat.pow_pos (by decide), .inl ⟨habs, rfl⟩⟩
  · have hleads := Decimal.leads_leadingDigits hunits (boundedPlaces places)
    rw [habs]
    refine ⟨hleads.bounds.2, .inr ⟨fun hzero => ?_, hleads⟩⟩
    rw [hzero, abs_zero, eq_comm, mul_eq_zero, or_iff_left unit_pos.ne', Nat.cast_eq_zero] at habs
    exact hunits habs

theorem steady_scientific (places : ℤ) : Steady fun x => scientific x places where
  proper x := proper_scientific x places
  isFinite _ := List.all_eq_true.mpr fun _ hc => Decimal.isDigit_of_mem_padded (List.mem_of_mem_take hc)
  unsigned_eq {x y} hx hy hexp hnear := by
    obtain ⟨digits, exponent, hx, hlt, hcases⟩ := scientific_eq hx places
    obtain ⟨digits', exponent', hy, -, hcases'⟩ := scientific_eq hy places
    rw [hx, hy] at hexp
    obtain rfl : exponent' = exponent := Option.some.inj hexp
    rw [hx, decimal_ofLeading _ _ hlt, Decimal.rat] at hnear
    have hsame : digits' = digits := by
      rcases hcases with ⟨hzero, rfl⟩ | ⟨-, hleads⟩
      · rw [hzero, abs_zero, Nat.cast_zero, zero_mul, sub_zero, sub_zero, abs_abs, abs_zero] at hnear
        rcases hcases' with ⟨-, hzero'⟩ | ⟨hne, -⟩
        · exact hzero'
        · exact absurd (abs_nonpos_iff.mp hnear) hne
      · rcases hcases' with ⟨hzero', -⟩ | ⟨-, hleads'⟩
        · exact absurd (by rw [hzero', abs_zero]) (hleads.ne_zero_of_nearer hnear)
        · exact hleads.eq_of_nearer hleads' hnear
    rw [hx, hy, hsame]
    rfl
  zero {x} hx hzero := by
    obtain ⟨digits, exponent, hx, hlt, ⟨-, rfl⟩ | ⟨hne, -⟩⟩ := scientific_eq hx places
    · rw [hx, decimal_ofLeading _ _ hlt, Decimal.rat, Nat.cast_zero, zero_mul]
    · exact absurd hzero hne

/-! ### Dress -/

/-- The numeral is dressed, which neither its sign decides nor changes what it shows. -/
structure Dresses (f : Numeral → Numeral) : Prop where
  proper : ∀ {n}, n.Proper → (f n).Proper
  isFinite : ∀ n, (f n).isFinite = n.isFinite
  exponent : ∀ n, (f n).exponent = n.exponent
  rat : ∀ n, (f n).decimal.rat = n.decimal.rat
  unsigned : ∀ n, (f n).unsigned = (f n.unsigned).unsigned

section Dress
variable {write : Float → Numeral} {f g : Numeral → Numeral}

theorem Steady.dress (h : Steady write) (hf : Dresses f) : Steady fun x => f (write x) where
  proper x := hf.proper (h.proper x)
  isFinite hx := (hf.isFinite _).trans (h.isFinite hx)
  unsigned_eq hx hy hexp hnear := by
    rw [hf.exponent, hf.exponent] at hexp
    rw [hf.rat] at hnear
    rw [hf.unsigned, h.unsigned_eq hx hy hexp hnear, ← hf.unsigned]
  zero hx hzero := (hf.rat _).trans (h.zero hx hzero)

theorem Steady.abs (h : Steady write) : Steady fun x => write x.abs where
  proper x := h.proper x.abs
  isFinite hx := h.isFinite ((isFinite_abs _).trans hx)
  unsigned_eq hx hy hexp hnear :=
    h.unsigned_eq ((isFinite_abs _).trans hx) ((isFinite_abs _).trans hy) hexp (by rwa [value_abs, value_abs, abs_abs, abs_abs])
  zero hx hzero := h.zero ((isFinite_abs _).trans hx) (by rw [value_abs, hzero, abs_zero])

theorem Dresses.comp (hf : Dresses f) (hg : Dresses g) : Dresses fun n => f (g n) where
  proper h := hf.proper (hg.proper h)
  isFinite n := (hf.isFinite _).trans (hg.isFinite n)
  exponent n := (hf.exponent _).trans (hg.exponent n)
  rat n := (hf.rat _).trans (hg.rat n)
  unsigned n := by rw [hf.unsigned, hg.unsigned, ← hf.unsigned]

/-- What is asked for may be left out. -/
theorem Dresses.ite (hf : Dresses f) (b : Bool) : Dresses fun n => if b then f n else n where
  proper h := by split; exacts [hf.proper h, h]
  isFinite n := by split; exacts [hf.isFinite n, rfl]
  exponent n := by split; exacts [hf.exponent n, rfl]
  rat n := by split; exacts [hf.rat n, rfl]
  unsigned n := by split; exacts [hf.unsigned n, rfl]

/-- Zeros at the end of the fraction do not count. -/
theorem decimal_zeros {n m : Numeral} {k : ℕ} (hwhole : m.whole = n.whole)
    (hfraction : m.fraction = n.fraction ++ List.replicate k '0') (hexp : m.exponent = n.exponent) :
    m.decimal.rat = n.decimal.rat := by
  unfold decimal Decimal.rat
  dsimp only
  rw [hwhole, hfraction, hexp, ← List.append_assoc, toNat_append, toNat_zeros, Nat.add_zero, List.length_append,
    List.length_replicate, Nat.cast_add, ← sub_sub, zpow_sub₀ (by norm_num) _ (k : ℤ), zpow_natCast]
  push_cast
  field_simp

theorem dresses_stripZeros : Dresses stripZeros where
  proper h := h.stripZeros
  isFinite _ := rfl
  exponent _ := rfl
  rat n := by
    have hsplit := List.takeWhile_append_dropWhile (p := (· == '0')) (l := n.fraction.reverse)
    obtain ⟨k, hzeros⟩ : ∃ k, n.fraction.reverse.takeWhile (· == '0') = List.replicate k '0' :=
      ⟨_, List.eq_replicate_of_mem fun c hc => by simpa using List.mem_takeWhile_imp hc⟩
    refine (decimal_zeros (n := n.stripZeros) (m := n) (k := k) rfl ?_ rfl).symm
    rw [hzeros] at hsplit
    rw [stripZeros, ← List.reverse_inj, List.reverse_append, List.reverse_reverse, List.reverse_replicate]
    exact hsplit.symm
  unsigned _ := rfl

theorem dresses_padFraction (count : ℕ) : Dresses (padFraction count) where
  proper h := h.padFraction count
  isFinite n := by unfold padFraction; split <;> rfl
  exponent n := by unfold padFraction; split <;> rfl
  rat n := by
    unfold padFraction
    split
    · exact decimal_zeros rfl rfl rfl
    · rfl
  unsigned n := by
    unfold padFraction
    rw [show n.unsigned.exponent = n.exponent from rfl]
    split <;> rfl

/-- The sign does not count among the digits. -/
theorem Steady.sign (h : Steady write) (negative : Float → Bool) :
    Steady fun x => { write x with negative := negative x } where
  proper x := (h.proper x).dress rfl rfl
  isFinite hx := h.isFinite hx
  unsigned_eq hx hy hexp hnear := h.unsigned_eq hx hy hexp hnear
  zero hx hzero := h.zero hx hzero

theorem dresses_dollar : Dresses fun n => { n with dollar := true } :=
  ⟨fun h => h.dress rfl rfl, fun _ => rfl, fun _ => rfl, fun _ => rfl, fun _ => rfl⟩

theorem dresses_grouped : Dresses fun n => { n with grouped := true } :=
  ⟨fun h => h.dress rfl rfl, fun _ => rfl, fun _ => rfl, fun _ => rfl, fun _ => rfl⟩

theorem dresses_group : Dresses group := ⟨fun h => h.group, fun _ => rfl, fun _ => rfl, fun _ => rfl, fun _ => rfl⟩

theorem dresses_dropNegativeZero : Dresses dropNegativeZero :=
  ⟨fun h => h.dropNegativeZero, fun _ => rfl, fun _ => rfl, fun _ => rfl, fun _ => rfl⟩

end Dress

/-! ### Signs -/

/-- The sign that is shown is the one of the double, but for a zero. -/
def Signed (write : Float → Numeral) : Prop :=
  ∀ x : Float, x.isFinite = true → (write x).negative = (decide (Binary.value x < 0) && !(write x).isZero)

section Signs
variable {write : Float → Numeral} {n : Numeral}

theorem isZero_of_rat (hn : n.Proper) (hfinite : n.isFinite = true) (h : n.decimal.rat = 0) : n.isZero = true := by
  have hzeros := all_zero_of_toNat (t := n.whole ++ n.fraction) (fun c hc => ?_) (Decimal.rat_eq_zero.mp h)
  · rwa [List.all_append] at hzeros
  · rcases List.mem_append.mp hc with hc | hc
    · exact List.all_eq_true.mp hfinite c hc
    · exact hn.fraction c hc

/-- A negative zero has lost its sign where zeros have none. -/
theorem Steady.signed_dropNegativeZero (h : Steady write)
    (hsign : ∀ x : Float, x.isFinite = true → Binary.value x ≠ 0 → (write x).negative = decide (Binary.value x < 0)) :
    Signed fun x => (write x).dropNegativeZero := by
  intro x hx
  show ((write x).negative && !(write x).isZero) = (_ && !(write x).isZero)
  by_cases hzero : Binary.value x = 0
  · rw [isZero_of_rat (h.proper x) (h.isFinite hx) (h.zero hx hzero), Bool.not_true, Bool.and_false, Bool.and_false]
  · rw [hsign x hx hzero]

/-- Two doubles with the same digits are written as the same numeral, if the sign of the one is the sign that is shown
    for the other. -/
theorem Steady.write_eq (h : Steady write) (hsign : Signed write) {x y : Float} (hx : x.isFinite = true)
    (hy : y.isFinite = true) (hunsigned : (write y).unsigned = (write x).unsigned)
    (hnegative : Binary.value y ≠ 0 → decide (Binary.value y < 0) = (write x).negative) : write y = write x := by
  have hzero : (write y).isZero = (write x).isZero := by
    show (write y).unsigned.isZero = (write x).unsigned.isZero
    rw [hunsigned]
  have hsame : (write y).negative = (write x).negative := by
    by_cases hvalue : Binary.value y = 0
    · have hshown := isZero_of_rat (h.proper y) (h.isFinite hy) (h.zero hy hvalue)
      rw [hsign y hy, hsign x hx, ← hzero, hshown, Bool.not_true, Bool.and_false, Bool.and_false]
    · have hmarked := hnegative hvalue
      rw [hsign x hx] at hmarked ⊢
      rw [hsign y hy, hmarked, hzero, Bool.and_assoc, Bool.and_self]
  calc write y = { (write y).unsigned with negative := (write y).negative } := rfl
    _ = { (write x).unsigned with negative := (write x).negative } := by rw [hunsigned, hsame]

/-! ### Reading back -/

theorem isFinite_signed (y : Float) (negative : Bool) : (if negative then -y else y).isFinite = y.isFinite := by
  split
  · exact isFinite_neg y
  · rfl

/-- The sign and the size of a number behind its sign. -/
theorem value_signed {y : Float} (hy : 0 ≤ Binary.value y) (negative : Bool) :
    |Binary.value (if negative then -y else y)| = Binary.value y ∧
      (Binary.value (if negative then -y else y) ≠ 0 →
        decide (Binary.value (if negative then -y else y) < 0) = negative) := by
  cases negative with
  | true =>
    rw [if_pos rfl, value_neg, abs_neg, abs_of_nonneg hy]
    exact ⟨rfl, fun hne => decide_eq_true (lt_of_le_of_ne (neg_nonpos.mpr hy) hne)⟩
  | false =>
    rw [if_neg Bool.false_ne_true, abs_of_nonneg hy]
    exact ⟨rfl, fun _ => decide_eq_false hy.not_gt⟩

/-- What is read from a numeral is written as that numeral again, if it takes the same exponent. -/
theorem Steady.write_read (h : Steady write) (hsign : Signed write) {x w : Float} (hx : x.isFinite = true)
    (hpercent : (write x).percent = false) {style : Style} (hstyle : style ≠ .percent)
    (hread : Literal.read? (write x).render style = some w) (hw : w.isFinite = true)
    (hexp : (write w).exponent = (write x).exponent) : write w = write x := by
  rw [(h.proper x).read?_render (h.isFinite hx), hpercent] at hread
  simp only [hstyle, decide_false, Bool.or_false, Bool.false_eq_true, if_false, Option.some.injEq] at hread
  have hfinite : (write x).decimal.toFloat.isFinite = true := by rwa [← hread, isFinite_signed] at hw
  obtain ⟨hnonneg, hnear⟩ := Decimal.toFloat_nearest hfinite ((isFinite_abs x).trans hx)
  obtain ⟨habs, hnegative⟩ := value_signed hnonneg (write x).negative
  rw [hread] at habs hnegative
  refine h.write_eq hsign hx hw (h.unsigned_eq hx hw hexp ?_) hnegative
  rwa [habs, ← value_abs]

end Signs

end Numeral

/-! ### Notations -/

namespace Written
open Numeral

theorem steady_positional (places : ℤ) : Steady fun x => positional x places := by
  have hcases (x : Float) : positional x places = Numeral.scientific x places ∨
      positional x places = Numeral.fixed x places := by
    unfold positional
    dsimp only
    split
    · exact .inl rfl
    · exact .inr rfl
  have hfixed (x : Float) : (Numeral.fixed x places).exponent = none := by
    unfold Numeral.fixed
    split <;> rfl
  refine ⟨fun x => proper_positional x places, fun {x} hx => ?_, fun {x y} hx hy hexp hnear => ?_, fun {x} hx hzero => ?_⟩
  · rcases hcases x with h | h <;> rw [h]
    · exact (steady_scientific places).isFinite hx
    · exact (steady_fixed places).isFinite hx
  · -- The exponents say that both are written in one of the two ways.
    rcases hcases x with h | h <;> rcases hcases y with h' | h' <;> rw [h, h'] at hexp <;> rw [h] at hnear <;> rw [h, h']
    · exact (steady_scientific places).unsigned_eq hx hy hexp hnear
    · rw [hfixed] at hexp
      cases hexp
    · rw [hfixed] at hexp
      cases hexp
    · exact (steady_fixed places).unsigned_eq hx hy hexp hnear
  · rcases hcases x with h | h <;> rw [h]
    · exact (steady_scientific places).zero hx hzero
    · exact (steady_fixed places).zero hx hzero

theorem negative_positional (x : Float) (places : ℤ) : (positional x places).negative = isNegative x := by
  unfold positional
  dsimp only
  split
  · rfl
  · unfold Numeral.fixed
    split <;> rfl

end Written
end Worksheet
