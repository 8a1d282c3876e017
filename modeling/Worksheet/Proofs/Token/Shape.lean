import Worksheet.Proofs.Token.Locality

/-! What a token is made of. A token that is no comment has neither a blank nor a line end in it, a marker ends
    with its own characters, and everything else that begins with none of the signs of a line's structure is
    `Ordinary`. The characters of numbers, names and suffixes are `Quiet`: no marker, bracket or comment begins
    at one of them. -/

namespace Worksheet

/-- Neither a blank nor a line end. -/
def Byte.isSolid (c : Char) : Bool := !isBlank c && c != '\n'

namespace Lexer
open Token

/-! ### Solid characters -/

/-- The first `n` characters are solid. -/
def Solid (n : Nat) (t : Text) : Prop := ∀ c ∈ t.take n, Byte.isSolid c = true

section Solid
variable {n : Nat} {t : Text} {c : Char}

theorem solid_zero (t : Text) : Solid 0 t := by simp [Solid]

theorem Solid.cons (hc : Byte.isSolid c = true) (h : Solid n t) : Solid (n + 1) (c :: t) := by
  simpa [Solid, hc] using h

theorem Solid.tail (h : Solid (n + 1) (c :: t)) : Solid n t := by
  intro d hd
  exact h d (by simp [hd])

theorem solid_of_eq_append {x u : Text} (ht : t = x ++ u) (hx : ∀ c ∈ x, Byte.isSolid c = true) : Solid x.length t := by
  intro c hc
  rw [ht, List.take_left] at hc
  exact hx c hc

/-- Solid characters end before a blank. -/
theorem Solid.le_length {x u : Text} (h : Solid n (x ++ c :: u)) (hc : Byte.isBlank c = true) : n ≤ x.length := by
  refine Nat.le_of_not_lt fun hlt => ?_
  have hmem : c ∈ (x ++ c :: u).take n := by
    refine List.mem_of_mem_take (i := x.length + 1) ?_
    rw [List.take_take, Nat.min_eq_left hlt, List.take_append]
    simp
  have hbad := h c hmem
  simp [Byte.isSolid, hc] at hbad

theorem isSolid_of_mem_text {m : Marker} {c : Char} (h : c ∈ m.text) : Byte.isSolid c = true := by
  have hall : m.text.all Byte.isSolid = true := by cases m <;> rfl
  exact List.all_eq_true.mp hall c h

end Solid

/-! ### Quiet characters -/

/-- Blanks, and the characters that a marker, a bracket, a comment or a comparison may begin with. -/
def loud : List Char := [' ', '\t', '\r', '\n', '"', '/', '[', ']', ':', '<', '-', '>', '!', '=']

def isQuiet (c : Char) : Bool := !loud.contains c

theorem isQuiet_of {p : Char → Bool} (hp : loud.any p = false) {c : Char} (hc : p c = true) : isQuiet c = true := by
  cases h : isQuiet c with
  | true => rfl
  | false =>
    have hmem : c ∈ loud := by simpa [isQuiet] using h
    exact absurd hc (List.any_eq_false.mp hp c hmem)

theorem isSolid_of_isQuiet {c : Char} (h : isQuiet c = true) : Byte.isSolid c = true := by
  simp only [isQuiet, loud, List.contains_eq_mem, List.mem_cons, Bool.not_eq_true', decide_eq_false_iff_not, not_or] at h
  simp [Byte.isSolid, Byte.isBlank, h]

theorem isQuiet_of_isNamePart {c : Char} (h : Byte.isNamePart c = true) : isQuiet c = true := isQuiet_of rfl h

theorem isQuiet_of_isAlphanumeric {c : Char} (h : Byte.isAlphanumeric c = true) : isQuiet c = true := isQuiet_of rfl h

theorem isQuiet_of_isDigit {c : Char} (h : Byte.isDigit c = true) : isQuiet c = true := isQuiet_of rfl h

theorem isQuiet_of_digitOf? {base : Nat} {c : Char} (h : (Byte.digitOf? base c).isSome = true) : isQuiet c = true :=
  isQuiet_of (p := fun c => (Byte.digitOf? base c).isSome) rfl h

/-- The first `n` characters are quiet, but for a `-` that is not followed by `>`. -/
inductive Quiet : Nat → Text → Prop
  | zero (t : Text) : Quiet 0 t
  | char {c : Char} {n : Nat} {t : Text} (hc : isQuiet c = true) (h : Quiet n t) : Quiet (n + 1) (c :: t)
  | minus {n : Nat} {t : Text} (ht : t.head? ≠ some '>') (h : Quiet n t) : Quiet (n + 1) ('-' :: t)

section Quiet
variable {m n : Nat} {t : Text}

theorem Quiet.solid (h : Quiet n t) : Solid n t := by
  induction h with
  | zero t => exact solid_zero t
  | char hc h ih => exact ih.cons (isSolid_of_isQuiet hc)
  | minus ht h ih => exact ih.cons rfl

theorem Quiet.length_le (h : Quiet n t) : n ≤ t.length := by
  induction h with
  | zero t => exact Nat.zero_le _
  | char hc h ih => exact Nat.succ_le_succ ih
  | minus ht h ih => exact Nat.succ_le_succ ih

theorem Quiet.add (h : Quiet m t) (h' : Quiet n (t.drop m)) : Quiet (m + n) t := by
  induction h with
  | zero t => simpa using h'
  | @char c m t hc h ih =>
    rw [Nat.add_right_comm]
    exact (ih h').char hc
  | @minus m t ht h ih =>
    rw [Nat.add_right_comm]
    exact (ih h').minus ht

theorem quiet_of_eq_append {x u : Text} (ht : t = x ++ u) (hx : ∀ c ∈ x, isQuiet c = true) : Quiet x.length t := by
  subst ht
  induction x with
  | nil => exact .zero u
  | cons c x ih => exact (ih fun d hd => hx d (List.mem_cons_of_mem c hd)).char (hx c List.mem_cons_self)

theorem quiet_run {p : Char → Bool} (hp : ∀ c, p c = true → isQuiet c = true) (t : Text) :
    Quiet (t.takeWhile p).length t :=
  quiet_of_eq_append List.takeWhile_append_dropWhile.symm fun c hc => hp c (List.mem_takeWhile_imp hc)

theorem quiet_one_of_startsNumber (h : startsNumber t = true) : Quiet 1 t := by
  cases t with
  | nil => cases h
  | cons c t =>
    refine (Quiet.zero t).char ?_
    by_cases hc : c = '.'
    · subst hc
      rfl
    · have hdigit : startsWithDigit (c :: t) = true := by simpa [startsNumber, hc] using h
      exact isQuiet_of_isDigit hdigit

end Quiet

/-! ### Numbers are quiet -/

theorem quiet_amountDigits (t : Text) : Quiet (amountDigits t).length t := by
  induction t with
  | nil => exact .zero []
  | cons c t ih =>
    unfold amountDigits
    split
    · rename_i hc
      refine ih.char ?_
      simp only [Bool.or_eq_true, Bool.and_eq_true, beq_iff_eq] at hc
      rcases hc with hc | ⟨rfl, -⟩
      · exact isQuiet_of_isDigit hc
      · rfl
    · exact .zero _

theorem quiet_fractionSpan (t : Text) : Quiet (fractionSpan t) t := by
  unfold fractionSpan
  split
  · rename_i u
    rw [Nat.add_comm]
    exact (quiet_run (fun c => isQuiet_of_isDigit) u).char rfl
  · exact .zero t

/-- A sign and the digits behind it. -/
theorem quiet_signed {t sign digits : Text} (hsign : sign = (t.take 1).filter Decimal.isSign)
    (hdigits : digits = (t.drop sign.length).takeWhile Byte.isDigit) (hne : digits ≠ []) :
    Quiet (sign.length + digits.length) t := by
  have hrun : Quiet digits.length (t.drop sign.length) := hdigits ▸ quiet_run (fun c => isQuiet_of_isDigit) _
  refine Quiet.add ?_ hrun
  cases t with
  | nil => exact absurd (by rw [hdigits]; simp) hne
  | cons c t =>
    cases hc : Decimal.isSign c with
    | false =>
      have hnone : sign = [] := by simp [hsign, hc]
      rw [hnone]
      exact .zero _
    | true =>
      have hone : sign = [c] := by simp [hsign, hc]
      rw [hone] at hdigits ⊢
      rcases Bool.or_eq_true _ _ ▸ hc with hc | hc <;> rw [beq_iff_eq.mp hc]
      · exact (Quiet.zero t).char rfl
      · refine (Quiet.zero t).minus fun ht => hne ?_
        obtain ⟨u, rfl⟩ := List.head?_eq_some_iff.mp ht
        exact hdigits

theorem quiet_exponent {t : Text} {x : Int} {n : Nat} (h : Decimal.exponent? t = some (x, n)) : Quiet n t := by
  unfold Decimal.exponent? at h
  split at h
  · cases h
  · rename_i e t
    split at h
    · rename_i he
      dsimp only at h
      split at h
      · cases h
      · rename_i hne
        obtain ⟨-, rfl⟩ := Prod.mk.inj (Option.some.inj h)
        rw [Nat.add_assoc, Nat.add_comm 1]
        refine (quiet_signed rfl rfl (by simpa using hne)).char ?_
        rcases Bool.or_eq_true _ _ ▸ he with he | he <;> rw [beq_iff_eq.mp he] <;> rfl
    · cases h

theorem quiet_numeralLength (money : Bool) (t : Text) : Quiet (numeralLength money t) t := by
  rw [numeralLength_eq money t _ rfl]
  refine Quiet.add (Quiet.add ?_ (quiet_fractionSpan _)) ?_
  · split
    · exact quiet_amountDigits t
    · exact quiet_run (fun c => isQuiet_of_isDigit) t
  · rw [← List.drop_drop]
    cases hx : Decimal.exponent? _ with
    | none => exact .zero _
    | some x => exact quiet_exponent hx

/-! ### Kinds of tokens -/

/-- Numbers, names and signs that no rule counts or matches across a line. -/
def isOrdinary : Kind → Bool
  | .number _ _ _ | .name | .operator | .openParen | .closeParen | .semicolon | .comma | .suffix _ | .fault _ => true
  | _ => false

/-- The token `f` at the head of `t` is ordinary, and its characters are quiet. -/
structure IsPlain (f : Found) (t : Text) : Prop where
  isOrdinary : isOrdinary f.kind = true
  quiet : Quiet (f.more + 1) t

theorem isPlain_char {c : Char} (hc : isQuiet c = true) {k : Kind} (hk : isOrdinary k = true) (t : Text) :
    IsPlain ⟨k, 0⟩ (c :: t) := ⟨hk, (Quiet.zero t).char hc⟩

/-- A run of at least one character, where the first one is quiet in any case. -/
theorem quiet_pred {n : Nat} {t : Text} (h : Quiet n t) (hone : Quiet 1 t) : Quiet (n - 1 + 1) t := by
  cases n with
  | zero => exact hone
  | succ n => exact h

theorem isPlain_scanDecimal (money : Bool) {t : Text} (h : Quiet 1 t) : IsPlain (scanDecimal money t) t := by
  have hlength := quiet_numeralLength money t
  have hplain (k : Kind) (hk : isOrdinary k = true) : IsPlain ⟨k, numeralLength money t - 1⟩ t :=
    ⟨hk, quiet_pred hlength h⟩
  unfold scanDecimal
  dsimp only
  split
  · rename_i r hr
    split
    · refine ⟨rfl, hlength.add ?_⟩
      rw [hr]
      exact (Quiet.zero r).char rfl
    · exact hplain _ rfl
  · exact hplain _ rfl

theorem isPlain_scanBased {digits base t : Text} (ht : t = digits ++ '#' :: base)
    (hdigits : ∀ c ∈ digits, isQuiet c = true) : IsPlain (scanBased digits base) t := by
  have hquiet : Quiet (digits.length + ((base.takeWhile Byte.isDigit).length + 1)) t := by
    refine (quiet_of_eq_append ht hdigits).add ?_
    rw [ht, List.drop_left]
    exact (quiet_run (fun c => isQuiet_of_isDigit) base).char rfl
  unfold scanBased
  dsimp only
  split
  · exact ⟨rfl, hquiet⟩
  · split <;> exact ⟨rfl, hquiet⟩

theorem isPlain_scanPrefixed (letter : Char) (base : Nat) {c d : Char} (hc : isQuiet c = true) (hd : isQuiet d = true)
    (t : Text) : IsPlain (scanPrefixed letter base t) (c :: d :: t) := by
  have htwo : Quiet 2 (c :: d :: t) := ((Quiet.zero t).char hd).char hc
  have hrun : Quiet ((t.takeWhile fun c => (Byte.digitOf? base c).isSome).length + 1 + 1) (c :: d :: t) :=
    ((quiet_run (fun c => isQuiet_of_digitOf?) t).char hd).char hc
  unfold scanPrefixed
  dsimp only
  split
  · split
    · exact ⟨rfl, htwo⟩
    · exact ⟨rfl, hrun⟩
  · exact ⟨rfl, htwo⟩

theorem isPlain_scanDigits {t : Text} (h : Quiet 1 t) : IsPlain (scanDigits t) t := by
  have hdigits : ∃ w, (if startsWithDigit t then t.takeWhile Byte.isAlphanumeric else []) = w ∧
      t = w ++ t.drop w.length ∧ ∀ c ∈ w, isQuiet c = true := by
    split
    · refine ⟨_, rfl, ?_, fun c hc => isQuiet_of_isAlphanumeric (List.mem_takeWhile_imp hc)⟩
      rw [drop_length_takeWhile, List.takeWhile_append_dropWhile]
    · exact ⟨[], rfl, rfl, fun c hc => nomatch hc⟩
  obtain ⟨w, hw, ht, hquiet⟩ := hdigits
  unfold scanDigits
  dsimp only
  rw [hw]
  split
  · rename_i base hbase
    split
    · exact isPlain_scanDecimal false h
    · rw [hbase] at ht
      exact isPlain_scanBased ht hquiet
  · exact isPlain_scanDecimal false h

theorem isPlain_scanNumber {t : Text} (h : Quiet 1 t) : IsPlain (scanNumber t) t := by
  unfold scanNumber
  split
  · rename_i p r
    split
    · rename_i base hbase
      have hp : isQuiet p = true :=
        isQuiet_of (p := fun p => (Literal.prefixBase? p).isSome) rfl (by rw [hbase]; rfl)
      exact isPlain_scanPrefixed (Byte.lower p) base rfl hp r
    · exact isPlain_scanDigits h
  · exact isPlain_scanDigits h

theorem isPlain_scanName (before : Before) {t : Text} (h : Quiet 1 t) : IsPlain (scanName before t) t := by
  have hrun : Quiet (t.takeWhile Byte.isNamePart).length t := quiet_run (fun c => isQuiet_of_isNamePart) t
  have hplain (k : Kind) (hk : isOrdinary k = true) : IsPlain ⟨k, (t.takeWhile Byte.isNamePart).length - 1⟩ t :=
    ⟨hk, quiet_pred hrun h⟩
  unfold scanName
  dsimp only
  split
  · exact hplain _ rfl
  · split
    · exact hplain _ rfl
    · split
      · rename_i base hbase
        split
        · refine isPlain_scanBased ?_ fun c hc => isQuiet_of_isNamePart (List.mem_takeWhile_imp hc)
          rw [← hbase, drop_length_takeWhile, List.takeWhile_append_dropWhile]
        · exact hplain _ rfl
      · exact hplain _ rfl

/-- The token `f` at the head of `t` ends with the marker that it is, which what follows leaves as it is. -/
def EndsWithMarker (f : Found) (t : Text) : Prop :=
  ∃ z m d u, t = z ++ m.text ++ u ∧ f.more + 1 = (z ++ m.text).length ∧ f.kind = .marker m d ∧ m.Walled u ∧
    ∀ c ∈ z, isQuiet c = true

theorem endsWithMarker_foundMarker {z t : Text} {m : Marker} (d : Decoration) (hz : ∀ c ∈ z, isQuiet c = true)
    (h : Marker.ofText? t = some m) : EndsWithMarker (foundMarker z.length m d) (z ++ t) := by
  obtain ⟨u, rfl, hu⟩ := Marker.ofText?_eq_some h
  refine ⟨z, m, d, u, (List.append_assoc z m.text u).symm, ?_, rfl, hu, hz⟩
  have hlength : m.text.length ≠ 0 := by cases m <;> decide
  show z.length + m.text.length - 1 + 1 = (z ++ m.text).length
  rw [List.length_append]
  omega

theorem EndsWithMarker.solid {f : Found} {t : Text} (h : EndsWithMarker f t) : Solid (f.more + 1) t := by
  obtain ⟨z, m, d, u, rfl, hmore, -, -, hz⟩ := h
  rw [hmore]
  refine solid_of_eq_append rfl fun c hc => ?_
  exact (List.mem_append.mp hc).elim (fun hc => isSolid_of_isQuiet (hz c hc)) isSolid_of_mem_text

theorem scanDollar_cases (t : Text) : IsPlain (scanDollar t) ('$' :: t) ∨ EndsWithMarker (scanDollar t) ('$' :: t) := by
  unfold scanDollar
  split
  · rename_i h
    obtain ⟨hkind, hquiet⟩ := isPlain_scanDecimal true (quiet_one_of_startsNumber h)
    exact .inl ⟨hkind, hquiet.char rfl⟩
  · split
    · rename_i m hm
      exact .inr (endsWithMarker_foundMarker (z := ['$']) _ (List.forall_mem_singleton.mpr rfl) hm)
    · exact .inl (isPlain_char rfl rfl t)

theorem scanPercent_cases (before : Before) (t : Text) :
    IsPlain (scanPercent before t) ('%' :: t) ∨ EndsWithMarker (scanPercent before t) ('%' :: t) := by
  unfold scanPercent
  split
  · rename_i m hm
    exact .inr (endsWithMarker_foundMarker (z := ['%']) _ (List.forall_mem_singleton.mpr rfl) hm)
  · split <;> exact .inl (isPlain_char rfl rfl t)

theorem scanHash_cases (t : Text) : IsPlain (scanHash t) ('#' :: t) ∨ EndsWithMarker (scanHash t) ('#' :: t) := by
  unfold scanHash
  dsimp only
  split
  · exact .inl (isPlain_char rfl rfl t)
  · split
    · rename_i m hm
      have hquiet : ∀ c ∈ '#' :: t.takeWhile Byte.isDigit, isQuiet c = true := by
        intro c hc
        rcases List.mem_cons.mp hc with rfl | hc
        · rfl
        · exact isQuiet_of_isDigit (List.mem_takeWhile_imp hc)
      have h := endsWithMarker_foundMarker ⟨.plain, baseOf (t.takeWhile Byte.isDigit)⟩ hquiet hm
      rw [List.cons_append, drop_length_takeWhile, List.takeWhile_append_dropWhile, List.length_cons, Nat.add_comm] at h
      exact .inr h
    · exact .inl ⟨rfl, (quiet_run (fun c => isQuiet_of_isDigit) t).char rfl⟩

theorem scanOperator_kind (t : Text) : isOrdinary (scanOperator t).kind = true ∨ EndsWithMarker (scanOperator t) t := by
  unfold scanOperator
  split
  · rename_i m hm
    exact .inr (endsWithMarker_foundMarker (z := []) _ (by simp) hm)
  · split
    · exact .inl rfl
    · split <;> exact .inl rfl

theorem solid_scanOperator {t : Text} (h : Solid 1 t) : Solid ((scanOperator t).more + 1) t := by
  unfold scanOperator
  split
  · rename_i m hm
    exact (endsWithMarker_foundMarker (z := []) _ (by simp) hm).solid
  · split
    · rename_i htwo
      have hall : doubleOperators.all (·.all Byte.isSolid) = true := by decide
      have hmem : t.take 2 ∈ doubleOperators := List.contains_iff_mem.mp htwo
      exact fun c hc => List.all_eq_true.mp (List.all_eq_true.mp hall _ hmem) c hc
    · split <;> exact h

/-- The signs that structure a line. -/
def isStructural (c : Char) : Bool := ['\n', '"', '[', ']', '{', '}'].contains c

/-- A token that begins with none of the signs of a line's structure is plain, a marker or an operator. -/
theorem scan_cases {c : Char} {t : Text} (hc : isStructural c = false) (hslash : ¬(c = '/' ∧ t.head? = some '/'))
    (before : Before) : IsPlain (scan before c t) (c :: t) ∨ EndsWithMarker (scan before c t) (c :: t) ∨
      scan before c t = scanOperator (c :: t) := by
  unfold scan
  split
  · cases hc
  · cases hc
  · exact .inl (isPlain_char rfl rfl t)
  · exact .inl (isPlain_char rfl rfl t)
  · cases hc
  · cases hc
  · cases hc
  · cases hc
  · exact .inl (isPlain_char rfl rfl t)
  · exact .inl (isPlain_char rfl rfl t)
  · exact (scanDollar_cases t).imp_right .inl
  · exact (scanPercent_cases before t).imp_right .inl
  · exact (scanHash_cases t).imp_right .inl
  · rw [if_neg hslash]
    split
    · rename_i h
      exact .inl (isPlain_scanNumber (quiet_one_of_startsNumber h))
    · split
      · rename_i h
        have hname : isQuiet c = true := isQuiet_of_isNamePart (Byte.isNamePart_of_isNameStart h)
        exact .inl (isPlain_scanName before ((Quiet.zero t).char hname))
      · exact .inr (.inr rfl)

theorem scan_kind {c : Char} {t : Text} (hc : isStructural c = false) (hslash : ¬(c = '/' ∧ t.head? = some '/'))
    (before : Before) : isOrdinary (scan before c t).kind = true ∨ EndsWithMarker (scan before c t) (c :: t) := by
  rcases scan_cases hc hslash before with hplain | hmarker | hoperator
  · exact .inl hplain.isOrdinary
  · exact .inr hmarker
  · rw [hoperator]
    exact scanOperator_kind (c :: t)

/-- Comments and line ends are the only tokens that the rules of a line do not look at. -/
theorem isSilent_scan {c : Char} {t : Text} (hquote : c ≠ '"') (hslash : ¬(c = '/' ∧ t.head? = some '/'))
    (hline : c ≠ '\n') (before : Before) : (scan before c t).kind.isSilent = false := by
  cases hs : isStructural c with
  | true =>
    simp only [isStructural, List.contains_eq_mem, List.mem_cons, List.not_mem_nil, or_false, decide_eq_true_eq] at hs
    rcases hs with rfl | rfl | rfl | rfl | rfl | rfl
    · exact absurd rfl hline
    · exact absurd rfl hquote
    all_goals rfl
  | false =>
    rcases scan_kind hs hslash before with hordinary | ⟨z, m, d, u, -, -, hkind, -, -⟩
    · cases hk : (scan before c t).kind <;> simp_all [isOrdinary, Kind.isSilent]
    · rw [hkind]
      rfl

/-- A sign of a line's structure that begins no comment is a token by itself. -/
theorem scan_structural {c : Char} (hc : isStructural c = true) (hquote : c ≠ '"') (before : Before) (t : Text) :
    (scan before c t).more = 0 := by
  simp only [isStructural, List.contains_eq_mem, List.mem_cons, List.not_mem_nil, or_false, decide_eq_true_eq] at hc
  rcases hc with rfl | rfl | rfl | rfl | rfl | rfl
  · rfl
  · exact absurd rfl hquote
  · rfl
  · rfl
  · rfl
  · rfl

/-- A token that is no comment is solid. -/
theorem solid_scan {c : Char} {t : Text} (hc : Byte.isBlank c = false) (hquote : c ≠ '"')
    (hslash : ¬(c = '/' ∧ t.head? = some '/')) (before : Before) : Solid (scan before c t).more t := by
  cases hs : isStructural c with
  | true =>
    rw [scan_structural hs hquote]
    exact solid_zero t
  | false =>
    rcases scan_cases hs hslash before with hplain | hmarker | hoperator
    · exact hplain.quiet.solid.tail
    · exact hmarker.solid.tail
    · rw [hoperator]
      refine (solid_scanOperator ((solid_zero t).cons ?_)).tail
      have hne : c ≠ '\n' := by
        rintro rfl
        cases hs
      simp [Byte.isSolid, hc, hne]

section Markers
variable {c : Char} {t : Text} {before : Before} {m : Marker} {d : Decoration}

theorem not_structural_of_scan (h : (scan before c t).kind = .marker m d) : isStructural c = false := by
  cases hs : isStructural c with
  | false => rfl
  | true =>
    simp only [isStructural, List.contains_eq_mem, List.mem_cons, List.not_mem_nil, or_false, decide_eq_true_eq] at hs
    rcases hs with rfl | rfl | rfl | rfl | rfl | rfl <;> cases h

theorem not_slashes_of_scan (h : (scan before c t).kind = .marker m d) : ¬(c = '/' ∧ t.head? = some '/') := by
  rintro ⟨rfl, ht⟩
  simp [scan, ht] at h

theorem endsWithMarker_of_scan (h : (scan before c t).kind = .marker m d) :
    EndsWithMarker (scan before c t) (c :: t) := by
  rcases scan_kind (not_structural_of_scan h) (not_slashes_of_scan h) before with hordinary | hmarker
  · rw [h] at hordinary
    cases hordinary
  · exact hmarker

end Markers

end Lexer
end Worksheet
