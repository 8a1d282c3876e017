import Worksheet.Proofs.Number.Bases
import Worksheet.Proofs.Number.Hundredths

/-! Values that are written again. What is written for a finite double is read as the double nearest to it, which is
    written in the same way where it is shown at the same scale. -/

namespace Worksheet
open Binary Text Numeral

/-! ### Scale -/

/-- The scale that the digits are shown at: the exponent of a decimal numeral, if it has one, and nothing for what is no
    decimal numeral. -/
def Written.scale? : Written → Option (Option ℤ)
  | decimal n => some n.exponent
  | _ => none

theorem Numeral.e_not_mem_body {n : Numeral} (hn : n.Proper) (hfinite : n.isFinite = true) : 'e' ∉ n.body := by
  have hwhole : ∀ c ∈ n.wholeText ++ n.fractionText, Numeral.isWhole c = true ∨ c = '.' := by
    intro c hc
    rcases List.mem_append.mp hc with hc | hc
    · exact .inl (isWhole_of_mem_wholeText hfinite hc)
    · unfold fractionText at hc
      split at hc
      · cases hc
      · rcases List.mem_cons.mp hc with rfl | hc
        · exact .inr rfl
        · exact .inl (Bool.or_eq_true_iff.mpr (.inl (hn.fraction c hc)))
  intro hc
  rw [body, List.append_assoc, List.append_assoc, List.mem_append, List.mem_append] at hc
  rcases hc with hc | hc | hc
  · unfold signText at hc
    split at hc <;> simp at hc
  · unfold dollarText at hc
    split at hc <;> simp at hc
  · rcases hwhole _ hc with h | h <;> cases h

/-- The exponent begins at the first `e`. -/
theorem Numeral.dropWhile_render {n : Numeral} (hn : n.Proper) (hfinite : n.isFinite = true) (hpercent : n.percent = false) :
    n.render.dropWhile (· != 'e') = n.exponentText := by
  have hbody : ∀ c ∈ n.body, (c != 'e') = true := fun c hc =>
    bne_iff_ne.mpr fun h => e_not_mem_body hn hfinite (h ▸ hc)
  have hstops : Stops (· != 'e') n.exponentText := by
    unfold exponentText
    split
    · exact stops_nil
    · exact stops_cons.mpr rfl
  have hpercent : n.percentText = [] := by
    unfold percentText
    rw [hpercent, if_neg Bool.false_ne_true]
  rw [render_eq, hpercent, List.append_nil, List.dropWhile_append_of_pos hbody, dropWhile_of_stops hstops]

theorem Numeral.exponentText_inj {n m : Numeral} (h : n.exponentText = m.exponentText) : n.exponent = m.exponent := by
  unfold exponentText at h
  cases hn : n.exponent with
  | none =>
    cases hm : m.exponent with
    | none => rfl
    | some e =>
      rw [hn, hm] at h
      cases h
  | some e =>
    cases hm : m.exponent with
    | none =>
      rw [hn, hm] at h
      cases h
    | some e' =>
      rw [hn, hm] at h
      have hread : Decimal.exponent? (renderExponent e) = Decimal.exponent? (renderExponent e') := congrArg _ h
      rw [exponent?_renderExponent, exponent?_renderExponent] at hread
      exact congrArg some (Prod.mk.inj (Option.some.inj hread)).1

namespace Written

/-- A number that is shown in a base, or a decimal numeral without `%`. -/
inductive IsPlain : Written → Prop
  | based (negative : Bool) {digits : Text} (base : ℕ) (h : ∀ c ∈ digits, Byte.isAlphanumeric c = true) :
    IsPlain (based negative digits base)
  | decimal {n : Numeral} (hn : n.Proper) (hfinite : n.isFinite = true) (hpercent : n.percent = false) : IsPlain (decimal n)

/-- The scale is seen in the text. -/
theorem IsPlain.scale?_eq {u v : Written} (hu : u.IsPlain) (hv : v.IsPlain) (h : u.render = v.render) :
    u.scale? = v.scale? := by
  have hhash {n : Numeral} (hn : n.Proper) (negative : Bool) (digits : Text) (base : ℕ) :
      n.render ≠ (Written.based negative digits base).render := by
    intro h
    have hmem : '#' ∈ n.render := by
      rw [h]
      simp [render]
    cases hn.isShown_of_mem_render hmem
  cases hu with
  | based negative base hdigits =>
    cases hv with
    | based => rfl
    | decimal hn => exact absurd h.symm (hhash hn _ _ _)
  | decimal hn hfinite hpercent =>
    cases hv with
    | based => exact absurd h (hhash hn _ _ _)
    | decimal hm hfinite' hpercent' =>
      have htext := congrArg (List.dropWhile (· != 'e')) h
      change List.dropWhile _ (Numeral.render _) = List.dropWhile _ (Numeral.render _) at htext
      rw [dropWhile_render hn hfinite hpercent, dropWhile_render hm hfinite' hpercent'] at htext
      exact congrArg some (exponentText_inj htext)

/-! ### Ways of writing -/

/-- What is shown as a plain number or as an amount is steady, signed and without `%`, but for engineering notation. -/
theorem steady_numeral {notated : Notation} (h : notated ≠ .engineering) (places : ℤ) (stripZeros groupDigits : Bool) :
    Steady (fun x => numeral x places stripZeros notated groupDigits) ∧
      Signed fun x => numeral x places stripZeros notated groupDigits := by
  have hdress := (dresses_group.ite groupDigits).comp (dresses_stripZeros.ite stripZeros)
  have hsign (n : Numeral) : (let n := if stripZeros then n.stripZeros else n
      if groupDigits then n.group else n).negative = n.negative := by
    cases stripZeros <;> cases groupDigits <;> rfl
  cases notated with
  | positional =>
    have hsteady := (steady_positional places).dress hdress
    refine ⟨hsteady.dress dresses_dropNegativeZero, hsteady.signed_dropNegativeZero fun x hx hne => ?_⟩
    exact (hsign _).trans ((negative_positional x places).trans (isNegative_eq hx hne))
  | scientific =>
    have hsteady := (steady_scientific places).dress hdress
    refine ⟨hsteady.dress dresses_dropNegativeZero, hsteady.signed_dropNegativeZero fun x hx hne => ?_⟩
    exact (hsign _).trans (isNegative_eq hx hne)
  | engineering => exact absurd rfl h

/-- What is shown as an amount. -/
theorem steady_money {full : Bool} {s : Settings} (h : full = true → s.notated ≠ .engineering) :
    Steady (fun x => money x full s) ∧ Signed fun x => money x full s := by
  have hsteady : Steady fun x => ({ (if full then
      (numeral x.abs fullPlaces s.stripZeros s.notated s.groupDigits).padFraction 2
    else { Numeral.fixed x.abs 2 with grouped := true }) with negative := decide (x < 0), dollar := true } : Numeral) := by
    refine (Steady.dress ?_ dresses_dollar).sign fun x => decide (x < 0)
    cases full with
    | true => exact (steady_numeral (h rfl) fullPlaces s.stripZeros s.groupDigits).1.abs.dress (dresses_padFraction 2)
    | false => exact (steady_fixed 2).abs.dress dresses_grouped
  refine ⟨hsteady.dress dresses_dropNegativeZero, hsteady.signed_dropNegativeZero fun x hx _ => ?_⟩
  exact decide_eq_decide.mpr (lt_iff_value hx rfl)

theorem percent_money (x : Float) (full : Bool) (s : Settings) : (money x full s).percent = false := by
  cases full with
  | true =>
    have hbare := (isBare_numeral x.abs fullPlaces s.stripZeros s.notated s.groupDigits).2
    show (Numeral.padFraction 2 _).percent = false
    unfold padFraction
    split <;> exact hbare
  | false => exact (isBare_fixed x.abs 2).2

/-- A finite number by itself is shown in a base or as a decimal numeral. -/
theorem number_of_isFinite {x : Float} (hx : x.isFinite = true) (places : ℤ) (stripZeros : Bool) (notated : Notation)
    (base : ℕ) (groupDigits : Bool) (libm : Libm := .native) : number x places stripZeros notated base groupDigits libm =
      if hasBase x base then based (x < 0) (baseDigits base (wholePart x)) base
      else decimal (numeral x places stripZeros notated groupDigits libm) := by
  unfold number
  rw [isNaN_of_isFinite hx, isInf_of_isFinite hx, if_neg Bool.false_ne_true, if_neg Bool.false_ne_true]

end Written

/-! ### Values -/

namespace Settings
variable (s : Settings)

/-- What is written for `x` is read as a finite double that is written in the same way. -/
def Redisplays (x : Float) (style : Style) (full : Bool) (base : ℕ) : Prop :=
  ∃ w : Float, Literal.read? (s.writeValue x style full base) style = some w ∧ w.isFinite = true ∧
    s.writeValue w style full base = s.writeValue x style full base

/-- What is written for `x` is read as a finite double that is shown at the same scale. -/
def KeepsScale (x : Float) (style : Style) (full : Bool) (base : ℕ) : Prop :=
  ∃ w : Float, Literal.read? (s.writeValue x style full base) style = some w ∧ w.isFinite = true ∧
    (Written.value w style full base s).scale? = (Written.value x style full base s).scale?

variable {s} {x : Float} {style : Style} {full : Bool} {base : ℕ} {write : Float → Numeral}

/-- A decimal numeral is written again if its scale is kept. -/
theorem redisplays_iff_of_steady (hsteady : Steady write) (hsigned : Signed write) (hpercent : ∀ y, (write y).percent = false)
    (hstyle : style ≠ .percent) (hx : x.isFinite = true) (hvalue : Written.value x style full base s = .decimal (write x))
    (hcases : ∀ w : Float, w.isFinite = true → Written.value w style full base s = .decimal (write w) ∨
      ∃ negative digits, Written.value w style full base s = .based negative digits base ∧
        ∀ c ∈ digits, Byte.isAlphanumeric c = true) :
    s.Redisplays x style full base ↔ s.KeepsScale x style full base := by
  have hplain {y : Float} (hy : y.isFinite = true) : Written.IsPlain (.decimal (write y)) :=
    .decimal (hsteady.proper y) (hsteady.isFinite hy) (hpercent y)
  refine exists_congr fun w => and_congr_right fun hread => and_congr_right fun hw => ?_
  unfold writeValue at hread ⊢
  rw [hvalue] at hread ⊢
  rcases hcases w hw with hdecimal | ⟨negative, digits, hbased, hdigits⟩
  · rw [hdecimal]
    refine ⟨(hplain hw).scale?_eq (hplain hx), fun hscale => ?_⟩
    have hexp : (write w).exponent = (write x).exponent := Option.some.inj hscale
    rw [hsteady.write_read hsigned hx (hpercent x) hstyle hread hw hexp]
  · rw [hbased]
    exact ⟨(Written.IsPlain.based negative base hdigits).scale?_eq (hplain hx), fun hscale => nomatch hscale⟩

theorem value_of_isFinite (hx : x.isFinite = true) : Written.value x style full base s = match style with
    | .money => .decimal (Written.money x full s)
    | .percent => Written.percentage x full s
    | .plain => Written.number x (if full then fullPlaces else s.places) s.stripZeros s.notated base s.groupDigits := by
  exact if_pos hx

/-- A plain number, in decimal or in a base. -/
theorem redisplays_plain_iff (hnotated : s.notated ≠ .engineering) (hx : x.isFinite = true) :
    s.Redisplays x .plain full base ↔ s.KeepsScale x .plain full base := by
  generalize hplaces : (if full then fullPlaces else s.places) = places
  have hvalue {y : Float} (hy : y.isFinite = true) : Written.value y .plain full base s =
      Written.number y places s.stripZeros s.notated base s.groupDigits := by
    rw [value_of_isFinite hy, ← hplaces]
  have hnumber {y : Float} (hy : y.isFinite = true) :=
    (hvalue hy).trans (Written.number_of_isFinite hy places s.stripZeros s.notated base s.groupDigits)
  by_cases hbase : Written.hasBase x base = true
  · obtain ⟨w, hread, hw, hsame⟩ := Written.number_based hx hbase places s.stripZeros s.notated s.groupDigits
      (by decide : Style.plain ≠ .percent)
    rw [← hvalue hx] at hread hsame
    rw [← hvalue hw] at hsame
    exact iff_of_true ⟨w, hread, hw, congrArg Written.render hsame⟩ ⟨w, hread, hw, congrArg Written.scale? hsame⟩
  · obtain ⟨hsteady, hsigned⟩ := Written.steady_numeral hnotated places s.stripZeros s.groupDigits
    refine redisplays_iff_of_steady hsteady hsigned (fun y => (Written.isBare_numeral y _ _ _ _).2) (fun h => nomatch h) hx
      ((hnumber hx).trans (if_neg hbase)) fun w hw => ?_
    rw [hnumber hw]
    split
    · rename_i hshown
      have hproper := Written.proper_number w places s.stripZeros s.notated base s.groupDigits
      rw [Written.number_of_isFinite hw, if_pos hshown] at hproper
      exact .inr ⟨_, _, rfl, hproper.2⟩
    · exact .inl rfl

/-- An amount of two places is read as a finite double, and has no exponent before and after. -/
theorem keepsScale_money (hx : x.isFinite = true) : s.KeepsScale x .money false base := by
  have hfull : false = true → s.notated ≠ .engineering := fun h => nomatch h
  obtain ⟨hsteady, -⟩ := Written.steady_money hfull
  have hexp {y : Float} : (Written.money y false s).exponent = none := by
    show (Numeral.fixed y.abs 2).exponent = none
    unfold Numeral.fixed
    split <;> rfl
  have hfinite : (Written.money x false s).decimal.toFloat.isFinite = true :=
    Decimal.isFinite_toFloat (rat_fixed_lt ((isFinite_abs x).trans hx) 2)
  have hread := (hsteady.proper x).read?_render (hsteady.isFinite hx) .money
  rw [Written.percent_money] at hread
  simp only [reduceCtorEq, decide_false, Bool.or_false, Bool.false_eq_true, if_false] at hread
  generalize hw : (if (Written.money x false s).negative = true then -(Written.money x false s).decimal.toFloat
    else (Written.money x false s).decimal.toFloat) = w at hread
  have hwfinite : w.isFinite = true := by rw [← hw, isFinite_signed, hfinite]
  unfold KeepsScale writeValue
  rw [value_of_isFinite hx]
  refine ⟨w, hread, hwfinite, ?_⟩
  rw [value_of_isFinite hwfinite]
  exact congrArg some (hexp.trans hexp.symm)

/-- An amount of two places is always written again for what it is read as, and a percentage of two places is up to a
    bound. Any other amount and any plain number, unless in engineering notation, is if and only if its scale is kept. -/
theorem redisplays (s : Settings) {x : Float} (hx : x.isFinite = true) (style : Style) (full : Bool) (base : ℕ) :
    (style = .money → full = false → s.Redisplays x style full base) ∧
      (style ≠ .percent → s.notated ≠ .engineering →
        (s.Redisplays x style full base ↔ s.KeepsScale x style full base)) ∧
      (style = .percent → full = false → |Binary.value x| ≤ 10 ^ 11 → s.Redisplays x style full base) := by
  have hmoney (h : full = true → s.notated ≠ .engineering) :
      s.Redisplays x .money full base ↔ s.KeepsScale x .money full base := by
    obtain ⟨hsteady, hsigned⟩ := Written.steady_money h
    exact redisplays_iff_of_steady hsteady hsigned (fun y => Written.percent_money y full s) (fun h => nomatch h) hx
      (value_of_isFinite hx) fun w hw => .inl (value_of_isFinite hw)
  refine ⟨?_, fun hstyle hnotated => ?_, ?_⟩
  · rintro rfl rfl
    exact (hmoney fun hfull => nomatch hfull).mpr (keepsScale_money hx)
  · cases style with
    | percent => exact absurd rfl hstyle
    | money => exact hmoney fun _ => hnotated
    | plain => exact redisplays_plain_iff hnotated hx
  · rintro rfl rfl hle
    obtain ⟨w, hread, hw, hsame⟩ := Written.percentage_read hx hle s
    refine ⟨w, ?_, hw, ?_⟩
    · rwa [writeValue, value_of_isFinite hx]
    · rw [writeValue, writeValue, value_of_isFinite hx, value_of_isFinite hw, hsame]

/-- An eighth as an amount, by itself and as a percentage. -/
theorem redisplays_eighth : (0.125 : Float).isFinite = true ∧ ({} : Settings).Redisplays 0.125 .money false 10 ∧
    ({} : Settings).Redisplays 0.125 .plain false 10 ∧ ({} : Settings).Redisplays 0.125 .percent false 10 := by
  have hvalue : Binary.value 0.125 = 1 / 8 := by
    show ((2 ^ 52 : ℕ) : ℚ) * 2 ^ (-55 : ℤ) = 1 / 8
    norm_num
  have hbound : |Binary.value 0.125| ≤ 10 ^ 11 := by
    rw [hvalue, abs_of_pos (by norm_num)]
    norm_num
  refine ⟨rfl, (redisplays {} rfl .money false 10).1 rfl rfl, ?_, (redisplays {} rfl .percent false 10).2.2 rfl rfl hbound⟩
  refine ((redisplays {} rfl .plain false 10).2.1 (by decide) (by decide)).mpr ⟨0.125, ?_, rfl, ?_⟩
  · decide +kernel
  · decide +kernel

/-- One place is enough to round this number up to the first one that takes an exponent: it is shown without an exponent,
    and what is read from that is shown with one. -/
theorem not_redisplays : (99999999999999.98 : Float).isFinite = true ∧
    ¬({ places := 1 } : Settings).Redisplays 99999999999999.98 .plain false 10 := by
  refine ⟨rfl, ?_⟩
  rintro ⟨w, hread, -, hsame⟩
  have hwhole : Literal.read? (({ places := 1 } : Settings).writeValue 99999999999999.98 .plain false 10) = some 1e14 := by
    decide +kernel
  obtain rfl : w = 1e14 := Option.some.inj (hread.symm.trans hwhole)
  have hexp : ({ places := 1 } : Settings).writeValue 1e14 .plain false 10 ≠
      ({ places := 1 } : Settings).writeValue 99999999999999.98 .plain false 10 := by decide +kernel
  exact hexp hsame

end Settings
end Worksheet
