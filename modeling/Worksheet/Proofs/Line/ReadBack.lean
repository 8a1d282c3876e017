import Worksheet.Line.OutputText
import Worksheet.Proofs.Number.Shape

/-! What is written behind an output marker is found again as the value. A numeral is read part by part in the
    order in which it is rendered; only `%` and the exponent come in the other order. `legible` tells the
    values that are read back from those that are cut short. -/

namespace Worksheet
open Text

namespace OutputText
open Numeral

/-! ### Reading the parts -/

theorem startsWith_of_stops {c : Char} {t : Text} (h : Stops (· == c) t) : startsWith c t = 0 := by
  unfold startsWith
  rw [if_neg]
  intro hhead
  simpa using h c hhead

theorem startsWith_cons (c : Char) (t : Text) : startsWith c (c :: t) = 1 := by simp [startsWith]

theorem fractionLength_run {n : Numeral} {r : Text} (hn : n.Proper) (hr : Stops (fun c => Byte.isDigit c || c == '.') r) :
    fractionLength (n.fractionText ++ r) = n.fractionText.length := by
  unfold fractionText
  split
  · cases r with
    | nil => rfl
    | cons c r =>
      have hc : c ≠ '.' := by
        rintro rfl
        simp at hr
      simp [fractionLength, hc]
  · rename_i hne
    obtain ⟨d, ds, hds⟩ := List.exists_cons_of_ne_nil (by simpa using hne : n.fraction ≠ [])
    have hd : Byte.isDigit d = true := hn.fraction d (by simp [hds])
    have hspan := span_run hn.fraction (hr.mono (p := Byte.isDigit) (by simp +contextual))
    rw [List.cons_append, fractionLength, hspan, hds]
    simp [hd]
    omega

theorem exponentLength_of_stops {r : Text} (hr : Stops (fun c => c == 'e' || c == 'E') r) : exponentLength r = 0 := by
  cases r with
  | nil => rfl
  | cons c r =>
    have hc : c ≠ 'e' ∧ c ≠ 'E' := by simpa using hr
    simp [exponentLength, hc]

theorem exponentLength_run (e : Int) {r : Text} (hr : Stops Byte.isDigit r) :
    exponentLength (renderExponent e ++ r) = (renderExponent e).length := by
  have hspan := span_run (fun c hc => isDigit_of_mem_ofNat (n := e.natAbs) hc) hr
  have hne : (ofNat e.natAbs).length ≠ 0 := by simp [ofNat_ne_nil]
  unfold exponentLength renderExponent
  split_ifs <;> simp_all [startsWith]
  all_goals omega

/-- One character that is there or not. -/
theorem startsWith_optional {c : Char} {b : Bool} {t : Text} (ht : Stops (· == c) t) :
    startsWith c ((if b then [c] else []) ++ t) = (if b then [c] else []).length := by
  cases b with
  | true => exact startsWith_cons c t
  | false => exact startsWith_of_stops ht

/-- The length of a `%` and of an exponent behind it. -/
def tailLength (t : Text) : Nat := startsWith '%' t + exponentLength (t.drop (startsWith '%' t))

/-- The length of a decimal value without a sign and `$`. -/
def digitsLength? (t : Text) : Option Nat :=
  let whole := t.takeWhile isWhole
  if whole.any Byte.isDigit then
    let n := whole.length + fractionLength (t.drop whole.length)
    some (n + tailLength (t.drop n))
  else none

theorem decimalLength?_eq (t : Text) : decimalLength? t =
    (digitsLength? (t.drop (startsWith '-' t + startsWith '$' (t.drop (startsWith '-' t))))).map
      (startsWith '-' t + startsWith '$' (t.drop (startsWith '-' t)) + ·) := by
  have hwhole : isWhole = fun c => Byte.isDigit c || c == ',' := rfl
  unfold decimalLength? digitsLength? tailLength
  rw [hwhole]
  dsimp only
  generalize startsWith '-' t + startsWith '$' (t.drop (startsWith '-' t)) = start
  rw [apply_ite (Option.map _)]
  simp only [Option.map_some, Option.map_none, List.drop_drop, Nat.add_assoc]

/-- What may stand behind the digits of a numeral. -/
def isInner (c : Char) : Bool := Byte.isDigit c || c == ',' || c == '.'

theorem digitsLength?_run {n : Numeral} {r : Text} (hn : n.Proper) (hfinite : n.isFinite = true)
    (hr : Stops isInner r) : digitsLength? (n.wholeText ++ (n.fractionText ++ r)) =
      some (n.wholeText.length + n.fractionText.length + tailLength r) := by
  have hstops : Stops isWhole (n.fractionText ++ r) := by
    refine Stops.append ?_ (hr.mono (by simp +contextual [isWhole, isInner]))
    unfold fractionText
    split <;> simp [isWhole, Byte.isDigit]
  have hwhole : (n.wholeText ++ (n.fractionText ++ r)).takeWhile isWhole = n.wholeText :=
    takeWhile_run (fun c hc => isWhole_of_mem_wholeText hfinite hc) hstops
  have hany := any_isDigit_wholeText hfinite hn.whole_ne_nil
  have hfraction := fractionLength_run hn (r := r) (hr.mono fun c hc => by
    rcases Bool.or_eq_true_iff.mp hc with h | h <;> simp [isInner, h])
  unfold digitsLength?
  simp only [hwhole, hany, if_true, List.drop_left, hfraction]
  rw [← List.drop_drop, List.drop_left, List.drop_left]

theorem digitsLength?_of_stops {t : Text} (ht : Stops isWhole t) : digitsLength? t = none := by
  simp [digitsLength?, takeWhile_of_stops ht]

/-- A sign and `$` stand before the rest. -/
theorem decimalLength?_signed (n : Numeral) {t : Text} (hminus : Stops (· == '-') t) (hdollar : Stops (· == '$') t) :
    decimalLength? (n.signText ++ n.dollarText ++ t) =
      (digitsLength? t).map ((n.signText ++ n.dollarText).length + ·) := by
  have hfirst : Stops (· == '-') (n.dollarText ++ t) := by
    refine Stops.append ?_ hminus
    unfold dollarText
    split <;> simp
  have hsign : startsWith '-' (n.signText ++ (n.dollarText ++ t)) = n.signText.length := startsWith_optional hfirst
  have hmoney : startsWith '$' (n.dollarText ++ t) = n.dollarText.length := startsWith_optional hdollar
  rw [List.append_assoc, decimalLength?_eq, hsign, List.drop_left, hmoney, ← List.drop_drop, List.drop_left,
    List.drop_left, List.length_append]

/-! ### Behind the digits -/

section Tail
variable {r : Text}

theorem tailLength_of_ends (hr : Ends r) : tailLength r = 0 := by
  have hpercent : startsWith '%' r = 0 := startsWith_of_stops (hr.stops rfl)
  rw [tailLength, hpercent, List.drop_zero, exponentLength_of_stops (hr.stops rfl)]

theorem tailLength_percent (hr : Ends r) : tailLength ('%' :: r) = 1 := by
  have hexponent : exponentLength r = 0 := exponentLength_of_stops (hr.stops rfl)
  simp [tailLength, startsWith_cons, hexponent]

theorem tailLength_exponent (e : Int) (hr : Stops Byte.isDigit r) :
    tailLength (renderExponent e ++ r) = (renderExponent e).length := by
  have hpercent : startsWith '%' (renderExponent e ++ r) = 0 := startsWith_of_stops (by simp [renderExponent])
  rw [tailLength, hpercent, List.drop_zero, exponentLength_run e hr, Nat.zero_add]

end Tail

/-! ### Values in a base, and names -/

theorem basedLength?_of_not_mem {t r : Text} (ht : '#' ∉ t) (hr : Ends r) : basedLength? (t ++ r) = none := by
  have hstop : ((t ++ r).drop ((t ++ r).takeWhile Byte.isAlphanumeric).length).head? ≠ some '#' := by
    induction t with
    | nil =>
      rw [List.nil_append, takeWhile_of_stops (hr.stops rfl)]
      intro hhead
      simpa [Byte.isBlank] using hr '#' hhead
    | cons c t ih =>
      have hc : c ≠ '#' := fun h => ht (by simp [h])
      cases halnum : Byte.isAlphanumeric c with
      | true => simpa [halnum] using ih fun h => ht (List.mem_cons_of_mem _ h)
      | false => simpa [halnum] using hc
  unfold basedLength?
  dsimp only
  split
  · rename_i s hs
    rw [hs] at hstop
    exact absurd rfl hstop
  · rfl

theorem basedLength?_based {digits r : Text} {base : Nat} (hne : digits ≠ [])
    (hdigits : ∀ c ∈ digits, Byte.isAlphanumeric c = true) (hr : Ends r) :
    basedLength? (digits ++ '#' :: ofNat base ++ r) = some (digits ++ '#' :: ofNat base).length := by
  have hrun : (digits ++ '#' :: (ofNat base ++ r)).takeWhile Byte.isAlphanumeric = digits :=
    takeWhile_run hdigits (by simp [Byte.isAlphanumeric, Byte.isLetter, Byte.isDigit])
  have hbase : (ofNat base ++ r).takeWhile Byte.isDigit = ofNat base :=
    takeWhile_run (fun c hc => isDigit_of_mem_ofNat hc) (hr.stops rfl)
  have hblank : r.head?.all Byte.isBlank = true := by
    cases r with
    | nil => rfl
    | cons c r => exact hr c rfl
  rw [List.append_assoc, List.cons_append]
  unfold basedLength?
  simp only [hrun, List.drop_left, hbase, hblank]
  simp [hne, ofNat_ne_nil]
  omega

theorem specialLength?_of_not_mem {t r : Text} (hne : t ≠ []) (hminus : t ≠ ['-']) (hI : 'I' ∉ t) (hN : 'N' ∉ t) :
    specialLength? (t ++ r) = none := by
  obtain ⟨c, t, rfl⟩ := List.exists_cons_of_ne_nil hne
  simp only [List.mem_cons, not_or] at hI hN
  cases t with
  | nil =>
    have hc : '-' ≠ c := fun h => hminus (by rw [h])
    simp [specialLength?, specials, hI, hN, hc]
  | cons d t =>
    simp only [List.mem_cons, not_or] at hI
    simp [specialLength?, specials, hI, hN]

theorem valueLength_special {t r : Text} (ht : t ∈ specials) (hr : Ends r) : valueLength (t ++ r) = t.length := by
  simp only [specials, List.mem_cons, List.not_mem_nil, or_false] at ht
  have hbased : basedLength? (t ++ r) = none := by
    refine basedLength?_of_not_mem ?_ hr
    rcases ht with rfl | rfl | rfl <;> decide
  have hspecial : specialLength? (t ++ r) = some t.length := by
    rcases ht with rfl | rfl | rfl <;> rfl
  rw [valueLength, hbased, hspecial]
  rfl

/-- A numeral is taken neither for a value in a base nor for a name. -/
theorem valueLength_render {n : Numeral} {r : Text} (hn : n.Proper) (hr : Ends r) :
    valueLength (n.render ++ r) = (decimalLength? (n.render ++ r)).getD 0 := by
  have hnot {c : Char} (hc : isShown c = false) : c ∉ n.render := by
    intro h
    rw [hn.isShown_of_mem_render h] at hc
    cases hc
  obtain ⟨c, hc, hminus⟩ := hn.exists_mem_render
  have hbased : basedLength? (n.render ++ r) = none := basedLength?_of_not_mem (hnot rfl) hr
  have hspecial : specialLength? (n.render ++ r) = none := by
    refine specialLength?_of_not_mem (List.ne_nil_of_mem hc) ?_ (hnot rfl) (hnot rfl)
    intro h
    rw [h] at hc
    exact hminus (List.mem_singleton.mp hc)
  simp only [valueLength, hbased, hspecial, Option.orElse_none]

theorem decimalLength?_body {n : Numeral} {r : Text} (hn : n.Proper) (hfinite : n.isFinite = true)
    (hr : Stops isInner r) : decimalLength? (n.body ++ r) = some (n.body.length + tailLength r) := by
  have hfirst {c : Char} (hc : isWhole c = false) : Stops (· == c) (n.wholeText ++ (n.fractionText ++ r)) := by
    have hany := any_isDigit_wholeText hfinite hn.whole_ne_nil
    obtain ⟨d, w, hw⟩ := List.exists_cons_of_ne_nil (l := n.wholeText) fun h => by simp [h] at hany
    have hd : isWhole d = true := isWhole_of_mem_wholeText hfinite (by simp [hw])
    rw [hw, List.cons_append, stops_cons, beq_eq_false_iff_ne]
    rintro rfl
    rw [hd] at hc
    cases hc
  have hsigned := decimalLength?_signed n (hfirst (c := '-') rfl) (hfirst (c := '$') rfl)
  rw [digitsLength?_run hn hfinite hr, Option.map_some] at hsigned
  simpa only [body, List.append_assoc, List.length_append, Nat.add_assoc] using hsigned

/-- For no finite number there are no digits to read. -/
theorem decimalLength?_of_not_finite {n : Numeral} {r : Text} (hn : n.Proper) (hfinite : n.isFinite = false) :
    decimalLength? (n.body ++ r) = none := by
  have hhead : ∃ c t, (c = 'i' ∨ c = 'n') ∧ n.wholeText = c :: t := by
    rcases hn.whole with h | h | h
    · rw [isFinite, List.all_eq_true.mpr h] at hfinite
      cases hfinite
    · refine ⟨'i', "nf".toList, .inl rfl, ?_⟩
      unfold wholeText
      rw [h]
      split <;> rfl
    · refine ⟨'n', "an".toList, .inr rfl, ?_⟩
      unfold wholeText
      rw [h]
      split <;> rfl
  obtain ⟨c, t, hc, hwhole⟩ := hhead
  have hstops {p : Char → Bool} (hp : p 'i' = false ∧ p 'n' = false) : Stops p (n.wholeText ++ (n.fractionText ++ r)) := by
    rw [hwhole, List.cons_append, stops_cons]
    rcases hc with rfl | rfl
    · exact hp.1
    · exact hp.2
  have hsigned := decimalLength?_signed n (hstops (p := (· == '-')) ⟨rfl, rfl⟩) (hstops (p := (· == '$')) ⟨rfl, rfl⟩)
  rw [digitsLength?_of_stops (hstops ⟨rfl, rfl⟩), Option.map_none] at hsigned
  simpa only [body, List.append_assoc] using hsigned

/-! ### No `#` in a decimal value -/

/-- There is no `#` among the first `n` characters. -/
def HashFree (n : Nat) (t : Text) : Prop := '#' ∉ t.take n

theorem HashFree.add {m n : Nat} {t : Text} (h : HashFree m t) (h' : HashFree n (t.drop m)) : HashFree (m + n) t := by
  unfold HashFree
  rw [List.take_add, List.mem_append]
  exact not_or.mpr ⟨h, h'⟩

theorem hashFree_zero (t : Text) : HashFree 0 t := by simp [HashFree]

theorem hashFree_startsWith {c : Char} (hc : c ≠ '#') (t : Text) : HashFree (startsWith c t) t := by
  unfold startsWith
  split
  · rename_i hhead
    obtain ⟨u, rfl⟩ := List.head?_eq_some_iff.mp hhead
    simpa [HashFree] using Ne.symm hc
  · exact hashFree_zero t

theorem hashFree_takeWhile {p : Char → Bool} (hp : p '#' = false) (t : Text) : HashFree (t.takeWhile p).length t := by
  unfold HashFree
  rw [← List.prefix_iff_eq_take.mp (List.takeWhile_prefix p)]
  intro h
  rw [List.mem_takeWhile_imp h] at hp
  cases hp

theorem hashFree_fraction (t : Text) : HashFree (fractionLength t) t := by
  unfold fractionLength
  split
  · rename_i t
    split
    · have hpoint : HashFree 1 ('.' :: t) := by simp [HashFree]
      exact hpoint.add (hashFree_takeWhile (p := Byte.isDigit) rfl t)
    · exact hashFree_zero _
  · exact hashFree_zero t

theorem hashFree_exponent (t : Text) : HashFree (exponentLength t) t := by
  unfold exponentLength
  split
  · rename_i hhead
    dsimp only
    split
    · exact hashFree_zero t
    · have hletter : HashFree 1 t := by
        obtain ⟨c, u, rfl⟩ := List.exists_cons_of_ne_nil (l := t) fun h => by simp [h] at hhead
        have hc : c = 'e' ∨ c = 'E' := by simpa using hhead
        rcases hc with rfl | rfl <;> simp [HashFree]
      have hsign : HashFree (max (startsWith '+' (t.drop 1)) (startsWith '-' (t.drop 1))) (t.drop 1) := by
        rcases Nat.le_total (startsWith '+' (t.drop 1)) (startsWith '-' (t.drop 1)) with h | h
        · rw [Nat.max_eq_right h]
          exact hashFree_startsWith (by decide) _
        · rw [Nat.max_eq_left h]
          exact hashFree_startsWith (by decide) _
      refine (hletter.add hsign).add ?_
      rw [← List.drop_drop]
      exact hashFree_takeWhile rfl _
  · exact hashFree_zero t

theorem hashFree_tail (t : Text) : HashFree (tailLength t) t :=
  (hashFree_startsWith (by decide) t).add (hashFree_exponent _)

theorem hashFree_digits {n : Nat} {t : Text} (h : digitsLength? t = some n) : HashFree n t := by
  unfold digitsLength? at h
  dsimp only at h
  split at h
  · obtain rfl := Option.some.inj h
    exact ((hashFree_takeWhile rfl t).add (hashFree_fraction _)).add (hashFree_tail _)
  · cases h

theorem hashFree_decimal {n : Nat} {t : Text} (h : decimalLength? t = some n) : HashFree n t := by
  rw [decimalLength?_eq] at h
  obtain ⟨m, hm, rfl⟩ := Option.map_eq_some_iff.mp h
  exact ((hashFree_startsWith (by decide) t).add (hashFree_startsWith (by decide) _)).add (hashFree_digits hm)

theorem hashFree_special {n : Nat} {t : Text} (h : specialLength? t = some n) : HashFree n t := by
  obtain ⟨u, hu, rfl⟩ := Option.map_eq_some_iff.mp h
  have hinit : u <+: t := List.isPrefixOf_iff_prefix.mp (by simpa using List.find?_some hu)
  have hmem := List.mem_of_find?_eq_some hu
  unfold HashFree
  rw [← List.prefix_iff_eq_take.mp hinit]
  have hall : ∀ u ∈ specials, '#' ∉ u := by decide
  exact hall u hmem

end OutputText

namespace Written
open OutputText

/-! ### What is read back -/

/-- A value is cut short if it is negative in a base, a percentage beyond every double, a percentage with an
    exponent, or a numeral for no finite number. -/
def legible : Written → Bool
  | nan => true
  | infinite _ percent => !percent
  | based negative _ _ => !negative
  | decimal n => n.isFinite && !(n.percent && n.exponent.isSome)

theorem valueLength_decimal {n : Numeral} {r : Text} (hn : n.Proper) (hfinite : n.isFinite = true)
    (hr : Stops isInner (n.exponentText ++ n.percentText ++ r)) (hends : Ends r) :
    valueLength (n.render ++ r) = n.body.length + tailLength (n.exponentText ++ n.percentText ++ r) := by
  rw [valueLength_render hn hends, Numeral.render_eq, List.append_assoc, List.append_assoc, ← List.append_assoc _ _ r,
    decimalLength?_body hn hfinite hr]
  rfl

theorem stops_tail (n : Numeral) {r : Text} (hr : Ends r) : Stops isInner (n.exponentText ++ n.percentText ++ r) := by
  refine Stops.append (Stops.append ?_ ?_) (hr.stops rfl)
  · unfold Numeral.exponentText
    split <;> simp [Numeral.renderExponent, isInner, Byte.isDigit]
  · unfold Numeral.percentText
    split <;> simp [isInner, Byte.isDigit]

theorem valueLength_of_legible {w : Written} {r : Text} (hw : w.Proper) (hl : w.legible = true) (hr : Ends r) :
    valueLength (w.render ++ r) = w.render.length := by
  cases w with
  | nan => exact valueLength_special (t := "NaN".toList) (by simp [specials]) hr
  | infinite negative percent =>
    obtain rfl : percent = false := by simpa [legible] using hl
    cases negative with
    | false => exact valueLength_special (t := "Infinity".toList) (by simp [specials]) hr
    | true => exact valueLength_special (t := "-Infinity".toList) (by simp [specials]) hr
  | based negative digits base =>
    obtain rfl : negative = false := by simpa [legible] using hl
    have hbased : basedLength? (render (based false digits base) ++ r) = some (render (based false digits base)).length :=
      basedLength?_based hw.1 hw.2 hr
    rw [valueLength, hbased]
    rfl
  | decimal n =>
    obtain ⟨hfinite, hone⟩ : n.isFinite = true ∧ (n.percent = false ∨ n.exponent = none) := by
      simpa [legible] using hl
    have hlength := valueLength_decimal hw hfinite (stops_tail n hr) hr
    have htail : tailLength (n.exponentText ++ n.percentText ++ r) = (n.exponentText ++ n.percentText).length := by
      unfold Numeral.exponentText Numeral.percentText
      cases hexponent : n.exponent with
      | none =>
        cases n.percent with
        | false => exact tailLength_of_ends hr
        | true => exact tailLength_percent hr
      | some e =>
        have hpercent : n.percent = false := by simpa [hexponent] using hone
        simpa [hpercent] using tailLength_exponent e (hr.stops rfl)
    rw [render, hlength, htail]
    simp only [Numeral.render_eq, List.length_append, Nat.add_assoc]

theorem valueLength_lt_of_not_legible {w : Written} (hw : w.Proper) (hl : w.legible = false) :
    valueLength w.render < w.render.length := by
  have hnil : Ends [] := by simp [Ends]
  cases w with
  | nan => cases hl
  | infinite negative percent =>
    obtain rfl : percent = true := by simpa [legible] using hl
    cases negative <;> decide
  | based negative digits base =>
    obtain rfl : negative = true := by simpa [legible] using hl
    have hbased : basedLength? (render (based true digits base)) = none := rfl
    -- Behind a sign nothing is read as a numeral with a base, so no reading reaches the `#`.
    have hfree : HashFree (valueLength (render (based true digits base))) (render (based true digits base)) := by
      rw [valueLength, hbased]
      cases hspecial : specialLength? (render (based true digits base)) with
      | some k => exact hashFree_special hspecial
      | none =>
        cases hdecimal : decimalLength? (render (based true digits base)) with
        | some k => exact hashFree_decimal hdecimal
        | none => exact hashFree_zero _
    refine Nat.lt_of_not_le fun hle => hfree ?_
    rw [List.take_of_length_le hle]
    simp [render]
  | decimal n =>
    have hvalue := valueLength_render hw hnil
    simp only [List.append_nil] at hvalue
    cases hfinite : n.isFinite with
    | false =>
      have hnone := decimalLength?_of_not_finite (r := n.exponentText ++ n.percentText) hw hfinite
      rw [← List.append_assoc, ← Numeral.render_eq] at hnone
      rw [render, hvalue, hnone]
      obtain ⟨c, hc, -⟩ := Numeral.Proper.exists_mem_render hw
      exact List.length_pos_of_mem hc
    | true =>
      obtain ⟨hpercent, e, hexponent⟩ : n.percent = true ∧ ∃ e, n.exponent = some e := by
        simpa [legible, hfinite, Option.isSome_iff_exists] using hl
      have hlength := valueLength_decimal hw hfinite (stops_tail n hnil) hnil
      have htail := tailLength_exponent e (r := ['%']) (by simp [Byte.isDigit])
      simp only [List.append_nil, Numeral.exponentText, Numeral.percentText, hexponent, hpercent, if_true] at hlength
      rw [render, hlength, htail, Numeral.render_eq]
      simp [Numeral.exponentText, Numeral.percentText, hexponent, hpercent]

theorem isBlank_of_mem_render {w : Written} (hw : w.Proper) {c : Char} (hc : c ∈ w.render) :
    Byte.isBlank c = false := by
  cases w with
  | nan =>
    have hall : (render nan).all (!Byte.isBlank ·) = true := by decide
    simpa using List.all_eq_true.mp hall c hc
  | infinite negative percent =>
    have hall : (render (infinite negative percent)).all (!Byte.isBlank ·) = true := by
      cases negative <;> cases percent <;> decide
    simpa using List.all_eq_true.mp hall c hc
  | based negative digits base =>
    simp only [render, List.mem_append, List.mem_cons] at hc
    rcases hc with (hc | hc) | rfl | hc
    · split at hc <;> simp_all [Byte.isBlank]
    · exact Byte.isBlank_of_isAlphanumeric (hw.2 c hc)
    · rfl
    · exact Byte.isBlank_of_isAlphanumeric (Byte.isAlphanumeric_of_isDigit (isDigit_of_mem_ofNat hc))
  | decimal n =>
    have hshown := Numeral.Proper.isShown_of_mem_render hw hc
    cases hblank : Byte.isBlank c with
    | false => rfl
    | true =>
      simp only [Byte.isBlank, Bool.or_eq_true, beq_iff_eq] at hblank
      rcases hblank with (rfl | rfl) | rfl <;> cases hshown

theorem trim_render {w : Written} (hw : w.Proper) : Text.trim w.render = w.render := by
  refine trim_eq_self_iff.mpr ⟨fun c hc => ?_, fun c hc => ?_⟩
  · exact isBlank_of_mem_render hw (List.mem_of_mem_head? hc)
  · exact isBlank_of_mem_render hw (List.mem_reverse.mp (List.mem_of_mem_head? hc))

theorem render_ne_nil {w : Written} (hw : w.Proper) : w.render ≠ [] := by
  cases w with
  | nan => decide
  | infinite negative percent => cases negative <;> cases percent <;> decide
  | based negative digits base => simp [render]
  | decimal n =>
    obtain ⟨c, hc, -⟩ := Numeral.Proper.exists_mem_render hw
    exact List.ne_nil_of_mem hc

end Written

namespace OutputText

/-- The text is taken for a value as a whole, by itself and in front of a unit. -/
def ReadsBack (t : Text) : Prop :=
  split t = (t, []) ∧ ∀ u, u ≠ [] → Text.trim u = u → split (t ++ ' ' :: u) = (t, u)

theorem split_append {t r : Text} (hne : t ≠ []) (htrim : Text.trim (t ++ r) = t ++ r)
    (hlength : valueLength (t ++ r) = t.length) : split (t ++ r) = (t, Text.trim r) := by
  have hpos : t.length ≠ 0 := by simpa using hne
  unfold split
  simp only [htrim, hlength, if_neg hpos, List.take_left, List.drop_left]

theorem valueLength_of_split {t : Text} (hne : t ≠ []) (htrim : Text.trim t = t) (h : split t = (t, [])) :
    t.length ≤ valueLength t := by
  unfold split at h
  rw [htrim] at h
  dsimp only at h
  split at h
  · exact absurd (Prod.ext_iff.mp h).1.symm hne
  · have htake : t.take (valueLength t) = t := (Prod.ext_iff.mp h).1
    have hle := List.length_take_le (valueLength t) t
    rwa [htake] at hle

/-- A written value that is read as one by itself is legible. -/
theorem legible_of_split {w : Written} (hw : w.Proper) (h : split w.render = (w.render, [])) : w.legible = true := by
  cases hl : w.legible with
  | true => rfl
  | false =>
    have hle := valueLength_of_split (Written.render_ne_nil hw) (Written.trim_render hw) h
    exact absurd (Written.valueLength_lt_of_not_legible hw hl) (Nat.not_lt.mpr hle)

/-- Exactly the legible ones of the values that are written are read back. -/
theorem readsBack_writeValue_iff (x : Float) (style : Style) (full : Bool) (base : Nat) (s : Settings) :
    ReadsBack (s.writeValue x style full base) ↔ (Written.value x style full base s).legible = true := by
  have hproper := Written.proper_value x style full base s
  have hne := Written.render_ne_nil hproper
  have htrim := Written.trim_render hproper
  unfold Settings.writeValue
  constructor
  · intro hreads
    exact legible_of_split hproper hreads.1
  · intro hl
    constructor
    · have hlength := Written.valueLength_of_legible (r := []) hproper hl (by simp [Ends])
      have hsplit := split_append (r := []) hne (by simpa using htrim) hlength
      simpa [Text.trim, trimLeft, trimRight] using hsplit
    · intro u hu hutrim
      have hlength := Written.valueLength_of_legible (r := ' ' :: u) hproper hl (by simp [Ends, Byte.isBlank])
      have hall := trim_append (v := [' ']) htrim hne hutrim hu
      rw [List.append_assoc] at hall
      have hsplit := split_append hne hall hlength
      rwa [List.singleton_append, trim_blank_cons rfl, hutrim] at hsplit

/-- A negative number in base sixteen loses its digits to the unit. -/
theorem not_readsBack_negative_in_base :
    ({} : Settings).writeValue (-255.0) .plain false 16 = "-FF#16".toList ∧
    split "-FF#16".toList = ([], "-FF#16".toList) ∧
    ¬ReadsBack (({} : Settings).writeValue (-255.0) .plain false 16) := by
  have htext : ({} : Settings).writeValue (-255.0) .plain false 16 = "-FF#16".toList := by decide +kernel
  have hsplit : split "-FF#16".toList = ([], "-FF#16".toList) := by decide
  refine ⟨htext, hsplit, fun hreads => ?_⟩
  rw [htext] at hreads
  cases hsplit.symm.trans hreads.1

end OutputText
end Worksheet
