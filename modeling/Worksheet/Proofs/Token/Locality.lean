import Worksheet.Proofs.Text
import Worksheet.Token.Lexer

/-! What stands before a marker is read without regard to what stands behind it, what stands before an equals sign
    without regard to what stands behind a blank, and what stands on a line without regard to the lines below. Two texts
    `Agree` if they are the same up to and with a marker or such an equals sign, or if one of them goes on with a newline
    where the other one ends; every look-ahead of the lexer ends there, because no run of characters that it takes goes on
    with a newline, with an equals sign or with the first character of a marker. -/

namespace Worksheet

namespace Marker

/-- The marker is read as itself in front of `u`. -/
def Walled (m : Marker) (u : Text) : Prop := ofText? (m.text ++ u) = some m

theorem walled_nil (m : Marker) : m.Walled [] := by cases m <;> rfl

/-- A marker that is found at the head of a text stands there. -/
theorem ofText?_eq_some {t : Text} {m : Marker} (h : ofText? t = some m) : ∃ u, t = m.text ++ u ∧ m.Walled u := by
  have hsplit : ∃ u, t = m.text ++ u := by
    unfold ofText? at h
    split at h <;> first | (obtain rfl := Option.some.inj h; exact ⟨_, rfl⟩) | cases h
  obtain ⟨u, rfl⟩ := hsplit
  exact ⟨u, rfl, h⟩

theorem ofText?_cons (c : Char) (t : Text) : ofText? (c :: t) =
    if c = ':' then some (if t.head? = some ':' then doubleColon else colon)
    else if c = '<' then if t.head? = some '-' then some leftArrow else none
    else if c = '-' then
      if t.head? = some '>' then some (if t.tail.head? = some '>' then fullArrow else rightArrow) else none
    else none := by
  by_cases hcolon : c = ':'
  · subst hcolon
    rcases t with - | ⟨d, u⟩
    · rfl
    · by_cases hd : d = ':' <;> simp [ofText?, hd]
  by_cases hleft : c = '<'
  · subst hleft
    rcases t with - | ⟨d, u⟩
    · rfl
    · by_cases hd : d = '-' <;> simp [ofText?, hd]
  by_cases hminus : c = '-'
  · subst hminus
    rcases t with - | ⟨d, - | ⟨e, u⟩⟩
    · rfl
    · by_cases hd : d = '>' <;> simp [ofText?, hd]
    · by_cases hd : d = '>' <;> by_cases he : e = '>' <;> simp [ofText?, hd, he]
  simp [ofText?, hcolon, hleft, hminus]

theorem text_ne_nil (m : Marker) : m.text ≠ [] := by cases m <;> simp [text]

/-- The characters that a marker may begin with. -/
def isFirst (c : Char) : Bool := c == ':' || c == '<' || c == '-'

theorem text_eq_cons (m : Marker) : ∃ c r, m.text = c :: r ∧ isFirst c = true := by
  cases m <;> exact ⟨_, _, rfl, rfl⟩

end Marker

namespace Lexer
open Token

/-- The texts are the same up to and with a marker or an equals sign before a blank, or the first one goes on with a
    newline where the second one ends. -/
inductive Agree : Text → Text → Prop
  | marker {m : Marker} {u v : Text} (hu : m.Walled u) (hv : m.Walled v) : Agree (m.text ++ u) (m.text ++ v)
  | equals {u v : Text} (hu : Text.Ends u) (hv : Text.Ends v) : Agree ('=' :: u) ('=' :: v)
  | lineEnd (u : Text) : Agree ('\n' :: u) []
  | cons (c : Char) {s t : Text} (h : Agree s t) : Agree (c :: s) (c :: t)

section Agree
variable {s t : Text}

theorem Agree.append_left (h : Agree s t) (x : Text) : Agree (x ++ s) (x ++ t) := by
  induction x with
  | nil => exact h
  | cons c x ih => exact .cons c ih

theorem Agree.append {x : Text} {m : Marker} {u v : Text} (hu : m.Walled u) (hv : m.Walled v) :
    Agree (x ++ m.text ++ u) (x ++ m.text ++ v) := by
  rw [List.append_assoc, List.append_assoc]
  exact (Agree.marker hu hv).append_left x

theorem Agree.append_newline (x u : Text) : Agree (x ++ '\n' :: u) x := by
  simpa using (Agree.lineEnd u).append_left x

/-- The texts begin alike, unless nothing is left of the line. -/
theorem Agree.head?_cases (h : Agree s t) : s.head? = t.head? ∨ (∃ u, s = '\n' :: u) ∧ t = [] := by
  cases h with
  | @marker m u v hu hv => cases m <;> exact .inl rfl
  | equals hu hv => exact .inl rfl
  | lineEnd u => exact .inr ⟨⟨u, rfl⟩, rfl⟩
  | cons c h => exact .inl rfl

/-- A test that no newline passes. -/
theorem Agree.any_head?_eq (h : Agree s t) {p : Char → Bool} (hp : p '\n' = false) : s.head?.any p = t.head?.any p := by
  rcases h.head?_cases with heq | ⟨⟨u, rfl⟩, rfl⟩
  · rw [heq]
  · simp [hp]

theorem Agree.head?_eq_some (h : Agree s t) {c : Char} (hc : c ≠ '\n') : s.head? = some c ↔ t.head? = some c := by
  have htest (x : Text) : x.head? = some c ↔ x.head?.any (· == c) = true := by simp [Option.any_eq_true]
  rw [htest, htest, h.any_head?_eq (by simpa using hc.symm)]

theorem Agree.ite_head? {α : Type} (h : Agree s t) {c : Char} (hc : c ≠ '\n') (x y : α) :
    (if s.head? = some c then x else y) = if t.head? = some c then x else y :=
  if_congr (h.head?_eq_some hc) rfl rfl

/-- The characters before which every run ends. -/
def isWall (c : Char) : Bool := Marker.isFirst c || c == '=' || c == '\n'

/-- Behind a character that is no wall the texts agree again. -/
theorem Agree.uncons {c : Char} (h : Agree (c :: s) t) (hc : isWall c = false) : ∃ r, t = c :: r ∧ Agree s r := by
  generalize hs : c :: s = s' at h
  cases h with
  | @marker m u v hu hv =>
    obtain ⟨d, r, hm, hd⟩ := m.text_eq_cons
    rw [hm] at hs
    obtain rfl : c = d := (List.cons.inj hs).1
    simp [isWall, hd] at hc
  | equals hu hv =>
    obtain rfl : c = '=' := (List.cons.inj hs).1
    cases hc
  | lineEnd u =>
    obtain rfl : c = '\n' := (List.cons.inj hs).1
    cases hc
  | cons d h =>
    obtain ⟨rfl, rfl⟩ := List.cons.inj hs
    exact ⟨_, rfl, h⟩

/-- A run of `p` can go on neither into a marker or an equals sign nor over a line end. -/
def Inner (p : Char → Bool) : Prop := ∀ c, isWall c = true → p c = false

theorem Inner.of_any {p : Char → Bool} (h : [':', '<', '-', '=', '\n'].any p = false) : Inner p := by
  intro c hc
  simp only [isWall, Marker.isFirst, Bool.or_eq_true, beq_iff_eq] at hc
  simp only [List.any_cons, List.any_nil, Bool.or_eq_false_iff] at h
  rcases hc with (((rfl | rfl) | rfl) | rfl) | rfl
  · exact h.1
  · exact h.2.1
  · exact h.2.2.1
  · exact h.2.2.2.1
  · exact h.2.2.2.2.1

theorem Inner.stops_text {p : Char → Bool} (hp : Inner p) (m : Marker) (u : Text) : Text.Stops p (m.text ++ u) := by
  obtain ⟨c, r, hm, hc⟩ := m.text_eq_cons
  rw [hm, List.cons_append, Text.stops_cons]
  exact hp c (by simp [isWall, hc])

theorem Agree.takeWhile_eq (h : Agree s t) {p : Char → Bool} (hp : Inner p) : s.takeWhile p = t.takeWhile p := by
  induction h with
  | @marker m u v hu hv =>
    rw [Text.takeWhile_of_stops (hp.stops_text m u), Text.takeWhile_of_stops (hp.stops_text m v)]
  | equals hu hv =>
    rw [Text.takeWhile_of_stops (Text.stops_cons.mpr (hp '=' rfl)), Text.takeWhile_of_stops (Text.stops_cons.mpr (hp '=' rfl))]
  | lineEnd u => exact Text.takeWhile_of_stops (Text.stops_cons.mpr (hp '\n' rfl))
  | cons c h ih => simp only [List.takeWhile_cons, ih]

theorem Agree.dropWhile (h : Agree s t) {p : Char → Bool} (hp : Inner p) : Agree (s.dropWhile p) (t.dropWhile p) := by
  induction h with
  | @marker m u v hu hv =>
    rw [Text.dropWhile_of_stops (hp.stops_text m u), Text.dropWhile_of_stops (hp.stops_text m v)]
    exact .marker hu hv
  | equals hu hv =>
    rw [Text.dropWhile_of_stops (Text.stops_cons.mpr (hp '=' rfl)), Text.dropWhile_of_stops (Text.stops_cons.mpr (hp '=' rfl))]
    exact .equals hu hv
  | lineEnd u =>
    rw [Text.dropWhile_of_stops (Text.stops_cons.mpr (hp '\n' rfl))]
    exact .lineEnd u
  | @cons c s t h ih =>
    cases hc : p c with
    | true => simpa [hc] using ih
    | false => simpa [hc] using Agree.cons c h

theorem drop_length_takeWhile (p : Char → Bool) (t : Text) : t.drop (t.takeWhile p).length = t.dropWhile p := by
  induction t with
  | nil => rfl
  | cons c t ih =>
    cases hc : p c with
    | true => simpa [hc] using ih
    | false => simp [hc]

/-- The first `n` characters are the same, and behind them the texts agree. -/
def Shares (n : Nat) (s t : Text) : Prop := s.take n = t.take n ∧ Agree (s.drop n) (t.drop n)

theorem Agree.shares_zero (h : Agree s t) : Shares 0 s t := ⟨rfl, h⟩

theorem Agree.shares_run (h : Agree s t) {p : Char → Bool} (hp : Inner p) : Shares (s.takeWhile p).length s t := by
  have htake (t : Text) : t.take (t.takeWhile p).length = t.takeWhile p :=
    (List.prefix_iff_eq_take.mp (List.takeWhile_prefix p)).symm
  constructor
  · rw [htake, h.takeWhile_eq hp, htake]
  · rw [drop_length_takeWhile, h.takeWhile_eq hp, drop_length_takeWhile]
    exact h.dropWhile hp

theorem Shares.add {m n : Nat} (h : Shares m s t) (h' : Shares n (s.drop m) (t.drop m)) : Shares (m + n) s t := by
  constructor
  · rw [List.take_add, List.take_add, h.1, h'.1]
  · rw [← List.drop_drop, ← List.drop_drop]
    exact h'.2

theorem Shares.cons {n : Nat} (c : Char) (h : Shares n s t) : Shares (n + 1) (c :: s) (c :: t) := by
  refine ⟨?_, h.2⟩
  rw [List.take_succ_cons, List.take_succ_cons, h.1]

/-! ### Looking ahead -/

theorem Agree.startsWithDigit_eq (h : Agree s t) : startsWithDigit s = startsWithDigit t := h.any_head?_eq rfl

theorem Agree.startsNumber_eq (h : Agree s t) : startsNumber s = startsNumber t := by
  cases h with
  | @marker m u v hu hv => cases m <;> rfl
  | equals hu hv => rfl
  | lineEnd u => rfl
  | cons c h =>
    by_cases hc : c = '.'
    · subst hc
      exact h.startsWithDigit_eq
    · simp [startsNumber, hc, startsWithDigit]

theorem Agree.ofText?_eq (h : Agree s t) : Marker.ofText? s = Marker.ofText? t := by
  cases h with
  | @marker m u v hu hv => exact hu.trans hv.symm
  | equals hu hv => simp [Marker.ofText?_cons]
  | lineEnd u => rfl
  | @cons c s t h =>
    rw [Marker.ofText?_cons, Marker.ofText?_cons, h.ite_head? (c := ':') (by decide), h.ite_head? (c := '-') (by decide),
      h.ite_head? (c := '>') (by decide)]
    by_cases hhead : t.head? = some '>'
    · obtain ⟨r, rfl⟩ := List.head?_eq_some_iff.mp hhead
      obtain ⟨r', rfl⟩ := List.head?_eq_some_iff.mp ((h.head?_eq_some (by decide)).mpr hhead)
      obtain ⟨r'', hr, hagree⟩ := h.uncons rfl
      obtain rfl := (List.cons.inj hr).2
      rw [List.tail_cons, List.tail_cons, hagree.ite_head? (by decide)]
    · simp only [hhead, if_false]

theorem operandFollows_head? (t : Text) : operandFollows t =
    (t.dropWhile isGap).head?.any fun c => Byte.isNamePart c || c == '(' || c == '.' || c == '$' := by
  unfold operandFollows
  cases (t.dropWhile isGap).head? <;> rfl

theorem Agree.operandFollows_eq (h : Agree s t) : operandFollows s = operandFollows t := by
  rw [operandFollows_head?, operandFollows_head?, (h.dropWhile (Inner.of_any rfl)).any_head?_eq rfl]

theorem Agree.suffixFollows_eq (h : Agree s t) : suffixFollows s = suffixFollows t := by
  have hrest := (h.dropWhile (p := Byte.isDigit) (Inner.of_any rfl)).dropWhile (p := isGap) (Inner.of_any rfl)
  have hbracket := Bool.eq_iff_iff.mpr (beq_iff_eq.trans ((hrest.head?_eq_some (c := '[') (by decide)).trans beq_iff_eq.symm))
  unfold suffixFollows
  dsimp only
  rw [hrest.ofText?_eq, hbracket]

/-! ### Numbers -/

theorem Agree.scanBased_eq (h : Agree s t) (digits : Text) : scanBased digits s = scanBased digits t := by
  unfold scanBased
  rw [h.takeWhile_eq (Inner.of_any rfl)]

theorem Agree.scanPrefixed_eq (h : Agree s t) (letter : Char) (base : Nat) :
    scanPrefixed letter base s = scanPrefixed letter base t := by
  unfold scanPrefixed
  rw [h.takeWhile_eq (Inner.of_any rfl)]

theorem Agree.amountDigits (h : Agree s t) :
    amountDigits s = amountDigits t ∧ Shares (amountDigits s).length s t := by
  induction h with
  | @marker m u v hu hv =>
    have hnone (w : Text) : Lexer.amountDigits (m.text ++ w) = [] := by cases m <;> rfl
    rw [hnone, hnone]
    exact ⟨rfl, (Agree.marker hu hv).shares_zero⟩
  | equals hu hv => exact ⟨rfl, (Agree.equals hu hv).shares_zero⟩
  | lineEnd u => exact ⟨rfl, (Agree.lineEnd u).shares_zero⟩
  | @cons c s t h ih =>
    simp only [Lexer.amountDigits, h.startsWithDigit_eq]
    split
    · exact ⟨by rw [ih.1], ih.2.cons c⟩
    · exact ⟨rfl, (Agree.cons c h).shares_zero⟩

/-- A sign and the digits behind it. -/
theorem Agree.signed (h : Agree s t) {sign digits : Text} (hsign : sign = (s.take 1).filter Decimal.isSign)
    (hdigits : digits = (s.drop sign.length).takeWhile Byte.isDigit) :
    (t.take 1).filter Decimal.isSign = sign ∧ (t.drop sign.length).takeWhile Byte.isDigit = digits ∧
      (digits ≠ [] → Shares (sign.length + digits.length) s t) := by
  subst hsign hdigits
  cases h with
  | @marker m u v hu hv => cases m <;> exact ⟨rfl, rfl, fun h => absurd rfl h⟩
  | equals hu hv => exact ⟨rfl, rfl, fun h => absurd rfl h⟩
  | lineEnd u => exact ⟨rfl, rfl, fun h => absurd rfl h⟩
  | @cons c s t h =>
    cases hc : Decimal.isSign c with
    | true =>
      simp only [List.take_succ_cons, List.take_zero, List.filter_cons, hc, if_true, List.filter_nil, List.length_singleton,
        List.drop_succ_cons, List.drop_zero, h.takeWhile_eq (p := Byte.isDigit) (Inner.of_any rfl), true_and]
      intro _
      have hrun := (h.shares_run (p := Byte.isDigit) (Inner.of_any rfl)).cons c
      rwa [h.takeWhile_eq (Inner.of_any rfl), Nat.add_comm] at hrun
    | false =>
      have hall := Agree.cons c h
      simp only [List.take_succ_cons, List.take_zero, List.filter_cons, hc, Bool.false_eq_true, if_false, List.filter_nil,
        List.length_nil, List.drop_zero, hall.takeWhile_eq (p := Byte.isDigit) (Inner.of_any rfl), true_and]
      intro _
      have hrun := hall.shares_run (p := Byte.isDigit) (Inner.of_any rfl)
      rwa [hall.takeWhile_eq (Inner.of_any rfl), ← Nat.zero_add (List.length _)] at hrun

theorem Agree.exponent (h : Agree s t) :
    Decimal.exponent? s = Decimal.exponent? t ∧ ∀ x n, Decimal.exponent? s = some (x, n) → Shares n s t := by
  cases h with
  | @marker m u v hu hv =>
    have hnone (w : Text) : Decimal.exponent? (m.text ++ w) = none := by cases m <;> rfl
    rw [hnone, hnone]
    exact ⟨rfl, fun x n h => nomatch h⟩
  | equals hu hv => exact ⟨rfl, fun x n h => nomatch h⟩
  | lineEnd u => exact ⟨rfl, fun x n h => nomatch h⟩
  | @cons c s t h =>
    obtain ⟨hsign, hdigits, hshares⟩ := h.signed rfl rfl
    unfold Decimal.exponent?
    dsimp only
    rw [hsign, hdigits]
    refine ⟨rfl, ?_⟩
    intro x n hx
    split at hx
    · split at hx
      · cases hx
      · rename_i hne
        obtain ⟨-, rfl⟩ := Prod.mk.inj (Option.some.inj hx)
        rw [Nat.add_assoc, Nat.add_comm 1]
        exact (hshares (by simpa using hne)).cons c
    · cases hx

/-- The length of a point with the digits behind it. -/
def fractionSpan : Text → Nat
  | '.' :: t => 1 + Text.span Byte.isDigit t
  | _ => 0

theorem numeralLength_eq (money : Bool) (t w : Text)
    (hw : (if money then Lexer.amountDigits t else t.takeWhile Byte.isDigit) = w) :
    numeralLength money t = w.length + fractionSpan (t.drop w.length) +
      ((Decimal.exponent? ((t.drop w.length).drop (fractionSpan (t.drop w.length)))).map (·.2)).getD 0 := by
  subst hw
  unfold numeralLength
  refine congrArg _ ?_
  split <;> exact (congrArg (fun o : Option (Int × Nat) => (o.map (·.2)).getD 0) ‹_›).symm

theorem Agree.fractionSpan (h : Agree s t) :
    fractionSpan s = fractionSpan t ∧ Shares (fractionSpan s) s t := by
  cases h with
  | @marker m u v hu hv => cases m <;> exact ⟨rfl, (Agree.marker hu hv).shares_zero⟩
  | equals hu hv => exact ⟨rfl, (Agree.equals hu hv).shares_zero⟩
  | lineEnd u => exact ⟨rfl, (Agree.lineEnd u).shares_zero⟩
  | @cons c s t h =>
    by_cases hc : c = '.'
    · subst hc
      constructor
      · simp only [Lexer.fractionSpan, Text.span, h.takeWhile_eq (p := Byte.isDigit) (Inner.of_any rfl)]
      · rw [Lexer.fractionSpan, Nat.add_comm]
        exact (h.shares_run (Inner.of_any rfl)).cons '.'
    · have hzero (x : Text) : Lexer.fractionSpan (c :: x) = 0 := by simp [Lexer.fractionSpan, hc]
      rw [hzero, hzero]
      exact ⟨rfl, (Agree.cons c h).shares_zero⟩

theorem Agree.numeralLength (h : Agree s t) (money : Bool) :
    numeralLength money s = numeralLength money t ∧ Shares (numeralLength money s) s t := by
  have hwhole : ∃ w : Text, (if money then Lexer.amountDigits s else s.takeWhile Byte.isDigit) = w ∧
      (if money then Lexer.amountDigits t else t.takeWhile Byte.isDigit) = w ∧ Shares w.length s t := by
    cases money with
    | true => exact ⟨_, rfl, h.amountDigits.1.symm, h.amountDigits.2⟩
    | false => exact ⟨_, rfl, (h.takeWhile_eq (Inner.of_any rfl)).symm, h.shares_run (Inner.of_any rfl)⟩
  obtain ⟨w, hs, ht, hw⟩ := hwhole
  obtain ⟨hfraction, hn⟩ := hw.2.fractionSpan
  obtain ⟨hexponent, hshares⟩ := hn.2.exponent
  rw [numeralLength_eq money s w hs, numeralLength_eq money t w ht, ← hfraction, ← hexponent]
  refine ⟨rfl, ?_⟩
  have hboth := hw.add hn
  cases hx : Decimal.exponent? ((s.drop w.length).drop (Lexer.fractionSpan (s.drop w.length))) with
  | none => exact hboth
  | some x =>
    refine hboth.add ?_
    rw [← List.drop_drop, ← List.drop_drop]
    exact hshares x.1 x.2 hx

theorem Agree.scanDecimal_eq (h : Agree s t) (money : Bool) : scanDecimal money s = scanDecimal money t := by
  obtain ⟨hlength, htake, hdrop⟩ := h.numeralLength money
  unfold scanDecimal
  dsimp only
  rw [← hlength, ← htake]
  revert hdrop
  generalize s.drop (Lexer.numeralLength money s) = u
  generalize t.drop (Lexer.numeralLength money s) = v
  intro hdrop
  cases hdrop with
  | @marker m u v hu hv => cases m <;> rfl
  | equals hu hv => rfl
  | lineEnd u => rfl
  | @cons c u v h =>
    by_cases hc : c = '%'
    · subst hc
      show (if (Marker.ofText? u).isNone && !operandFollows u then _ else _) =
        if (Marker.ofText? v).isNone && !operandFollows v then _ else _
      rw [h.ofText?_eq, h.operandFollows_eq]
    · split <;> simp_all

theorem Agree.scanDigits_eq (h : Agree s t) : scanDigits s = scanDigits t := by
  have hdigits : ∃ w : Text, (if startsWithDigit s then s.takeWhile Byte.isAlphanumeric else []) = w ∧
      (if startsWithDigit t then t.takeWhile Byte.isAlphanumeric else []) = w ∧ Agree (s.drop w.length) (t.drop w.length) := by
    rw [← h.startsWithDigit_eq]
    split
    · exact ⟨_, rfl, (h.takeWhile_eq (Inner.of_any rfl)).symm, (h.shares_run (Inner.of_any rfl)).2⟩
    · exact ⟨[], rfl, rfl, h⟩
  obtain ⟨w, hs, ht, hdrop⟩ := hdigits
  unfold scanDigits
  dsimp only
  rw [hs, ht, h.scanDecimal_eq]
  revert hdrop
  generalize s.drop w.length = u
  generalize t.drop w.length = v
  intro hdrop
  cases hdrop with
  | @marker m u v hu hv => cases m <;> rfl
  | equals hu hv => rfl
  | lineEnd u => rfl
  | @cons c u v h =>
    by_cases hc : c = '#'
    · subst hc
      show (if w.isEmpty || !startsWithDigit u then _ else _) = if w.isEmpty || !startsWithDigit v then _ else _
      rw [h.startsWithDigit_eq, h.scanBased_eq]
    · split <;> simp_all

theorem scanNumber_of_prefixBase? {p : Char} {base : Nat} (h : Literal.prefixBase? p = some base) (t : Text) :
    scanNumber ('0' :: p :: t) = scanPrefixed (Byte.lower p) base t := by
  simp only [scanNumber, h]

theorem Agree.scanNumber_eq (h : Agree s t) : scanNumber s = scanNumber t := by
  have hdigits := h.scanDigits_eq
  cases h with
  | @marker m u v hu hv => cases m <;> exact hdigits
  | equals hu hv => exact hdigits
  | lineEnd u => exact hdigits
  | @cons c s t h =>
    by_cases hc : c = '0'
    · subst hc
      cases h with
      | @marker m u v hu hv => cases m <;> exact hdigits
      | equals hu hv => exact hdigits
      | lineEnd u => exact hdigits
      | @cons p s t h =>
        cases hp : Literal.prefixBase? p with
        | some base =>
          rw [scanNumber_of_prefixBase? hp, scanNumber_of_prefixBase? hp]
          exact h.scanPrefixed_eq _ _
        | none =>
          have hplain (x : Text) : scanNumber ('0' :: p :: x) = scanDigits ('0' :: p :: x) := by simp only [scanNumber, hp]
          rw [hplain, hplain, hdigits]
    · have hplain (x : Text) : scanNumber (c :: x) = scanDigits (c :: x) := by
        unfold scanNumber
        split <;> simp_all
      rw [hplain, hplain, hdigits]

/-! ### Names, markers and operators -/

theorem Agree.scanName_eq (h : Agree s t) (before : Before) : scanName before s = scanName before t := by
  have hname := h.takeWhile_eq (p := Byte.isNamePart) (Inner.of_any rfl)
  have hdrop := (h.shares_run (p := Byte.isNamePart) (Inner.of_any rfl)).2
  unfold scanName
  dsimp only
  rw [← hname]
  revert hdrop
  generalize s.takeWhile Byte.isNamePart = w
  generalize s.drop w.length = u
  generalize t.drop w.length = v
  intro hdrop
  cases hdrop with
  | @marker m u v hu hv => cases m <;> rfl
  | equals hu hv => rfl
  | lineEnd u => rfl
  | @cons c u v h =>
    by_cases hc : c = '#'
    · subst hc
      show (if w = "Infinity".toList then _ else if w = "NaN".toList then _ else
          if startsWithDigit u && (before.operandDue || !suffixFollows u) then scanBased w u else _) =
        if w = "Infinity".toList then _ else if w = "NaN".toList then _ else
          if startsWithDigit v && (before.operandDue || !suffixFollows v) then scanBased w v else _
      rw [h.startsWithDigit_eq, h.suffixFollows_eq, h.scanBased_eq]
    · split
      · rfl
      · split
        · rfl
        · split <;> simp_all

theorem Agree.scanDollar_eq (h : Agree s t) : scanDollar s = scanDollar t := by
  unfold scanDollar
  rw [h.startsNumber_eq, h.scanDecimal_eq, h.ofText?_eq]

theorem Agree.scanPercent_eq (h : Agree s t) (before : Before) : scanPercent before s = scanPercent before t := by
  unfold scanPercent
  rw [h.ofText?_eq, h.operandFollows_eq]

theorem Agree.scanHash_eq (h : Agree s t) : scanHash s = scanHash t := by
  have hdrop := (h.shares_run (p := Byte.isDigit) (Inner.of_any rfl)).2
  rw [h.takeWhile_eq (Inner.of_any rfl)] at hdrop
  unfold scanHash
  dsimp only
  rw [h.takeWhile_eq (Inner.of_any rfl), hdrop.ofText?_eq]

/-- An equals sign before a blank is an operator of its own. -/
theorem scanOperator_equals {u : Text} (hu : Text.Ends u) : scanOperator ('=' :: u) = ⟨.operator, 0⟩ := by
  have htwo : doubleOperators.contains ('=' :: u.take 1) = false := by
    apply hu.elim
    · rfl
    · intro t
      simp [doubleOperators]
  unfold scanOperator
  rw [List.take_succ_cons, htwo]
  simp [Marker.ofText?_cons, singleOperators]

theorem Agree.scanOperator_eq (h : Agree s t) : scanOperator s = scanOperator t := by
  cases h with
  | @marker m u v hu hv =>
    unfold scanOperator
    rw [hu, hv]
  | equals hu hv => rw [scanOperator_equals hu, scanOperator_equals hv]
  | lineEnd u => simp [scanOperator, Marker.ofText?, doubleOperators, singleOperators]
  | @cons c s t h =>
    have htwo : doubleOperators.contains ((c :: s).take 2) = doubleOperators.contains ((c :: t).take 2) := by
      have hone (x : Text) : x.take 1 = x.head?.toList := by cases x <;> rfl
      rcases h.head?_cases with hhead | ⟨⟨u, rfl⟩, rfl⟩
      · rw [List.take_succ_cons, List.take_succ_cons, hone, hone, hhead]
      · simp [doubleOperators]
    unfold scanOperator
    rw [(Agree.cons c h).ofText?_eq, htwo]
    rfl

/-- A token that is no comment is the same in both texts. -/
theorem Agree.scan_eq {c : Char} (h : Agree (c :: s) (c :: t)) (hquote : c ≠ '"')
    (hslash : ¬(c = '/' ∧ s.head? = some '/')) (before : Before) : scan before c s = scan before c t := by
  have hrest (hc : isWall c = false) : Agree s t := by
    obtain ⟨r, hr, hagree⟩ := h.uncons hc
    obtain rfl := (List.cons.inj hr).2
    exact hagree
  have hslash' : ¬(c = '/' ∧ t.head? = some '/') := by
    rintro ⟨rfl, ht⟩
    exact hslash ⟨rfl, ((hrest rfl).head?_eq_some (by decide)).mpr ht⟩
  unfold scan
  split
  · rfl
  · exact absurd rfl hquote
  · rfl
  · rfl
  · rfl
  · rfl
  · rfl
  · rfl
  · rfl
  · rfl
  · exact (hrest rfl).scanDollar_eq
  · exact (hrest rfl).scanPercent_eq before
  · exact (hrest rfl).scanHash_eq
  · rw [if_neg hslash, if_neg hslash', h.startsNumber_eq, h.scanNumber_eq, h.scanName_eq, h.scanOperator_eq]

end Agree
end Lexer
end Worksheet
