import Worksheet.Proofs.Token.Numeral

/-! How the lexer reads literals. A numeral is one token, and so are a prefix with its digits and digits with their base,
    unless a prefix or the name of a special value ends the token before. Other tokens that begin like a literal end
    before a comma. -/

namespace Worksheet

theorem Byte.isLetter_of_isDigit {c : Char} (h : isDigit c = true) : isLetter c = false := by
  simp only [isDigit, Bool.and_eq_true, decide_eq_true_eq, Char.le_def, UInt32.le_iff_toNat_le] at h
  simp only [isLetter, Bool.or_eq_false_iff, Bool.and_eq_false_iff, decide_eq_false_iff_not, Char.le_def,
    UInt32.le_iff_toNat_le, Nat.not_le]
  have hlt (d : Char) (hd : 57 < d.toNat) : c.toNat < d.toNat := Nat.lt_of_le_of_lt h.2 hd
  exact ⟨.inl (hlt 'a' (by decide)), .inl (hlt 'A' (by decide))⟩

namespace Literal

/-- Only a letter marks a base. -/
theorem prefixBase?_eq_none {c : Char} (h : Byte.isLetter c = false) : prefixBase? c = none := by
  have hlower : Byte.lower c = c := by
    refine if_neg fun hupper => ?_
    rw [Byte.isLetter, hupper, Bool.or_true] at h
    cases h
  unfold prefixBase?
  rw [hlower]
  split
  · cases h
  · cases h
  · cases h
  · rfl

/-- The characters of a literal but for its sign, its `$`, its `%` and its commas. -/
def isPart (c : Char) : Bool := Byte.isAlphanumeric c || ['.', '+', '-', '#'].contains c

end Literal

namespace Lexer
open Token Text

/-! ### The token of a literal -/

section Scans
variable {before : Before} {c : Char} {t t' u w : Text} {v : Float} {percent : Bool}

/-- A character that is no sign of its own begins a number, a name or an operator. -/
theorem scan_of_any {p : Char → Bool}
    (hp : ['\n', '"', '(', ')', '[', ']', '{', '}', ';', ',', '$', '%', '#', '/'].any p = false) (hc : p c = true) :
    scan before c t = if startsNumber (c :: t) then scanNumber (c :: t)
      else if Byte.isNameStart c then scanName before (c :: t) else scanOperator (c :: t) := by
  have hne (d : Char) (hd : d ∈ ['\n', '"', '(', ')', '[', ']', '{', '}', ';', ',', '$', '%', '#', '/']) : c ≠ d := by
    rintro rfl
    exact List.any_eq_false.mp hp c hd hc
  unfold scan
  split
  case h_14 => rw [if_neg fun hslash => hne '/' (by decide) hslash.1]
  all_goals exact absurd rfl (hne _ (by decide))

theorem scan_of_startsNumber (h : startsNumber (c :: t) = true) : scan before c t = scanNumber (c :: t) := by
  have hc : (Byte.isDigit c || c == '.') = true := by
    by_cases hpoint : c = '.'
    · rw [hpoint]
      rfl
    · simpa [startsNumber, hpoint, startsWithDigit] using h
  rw [scan_of_any (p := fun c => Byte.isDigit c || c == '.') rfl hc, if_pos h]

theorem startsNumber_of_isNameStart (h : Byte.isNameStart c = true) (t : Text) : startsNumber (c :: t) = false := by
  have hpoint : c ≠ '.' := by
    rintro rfl
    cases h
  have hdigit : Byte.isDigit c = false := by
    refine Bool.eq_false_iff.mpr fun hdigit => ?_
    rw [Byte.isNameStart, Byte.isLetter_of_isDigit hdigit, Bool.false_or, beq_iff_eq] at h
    rw [h] at hdigit
    cases hdigit
  simpa [startsNumber, hpoint, startsWithDigit] using hdigit

theorem scan_of_isNameStart (h : Byte.isNameStart c = true) : scan before c t = scanName before (c :: t) := by
  rw [scan_of_any rfl h, startsNumber_of_isNameStart h, if_neg Bool.false_ne_true, if_pos h]

theorem prefixBase?_of_isPart (h : Decimal.isPart c = true) : Literal.prefixBase? c = none := by
  simp only [Decimal.isPart, Bool.or_eq_true, List.contains_eq_mem, List.mem_cons, List.not_mem_nil, or_false,
    decide_eq_true_eq] at h
  rcases h with hdigit | rfl | rfl | rfl | rfl | rfl
  · exact Literal.prefixBase?_eq_none (Byte.isLetter_of_isDigit hdigit)
  · rfl
  · rfl
  · rfl
  · rfl
  · rfl

/-- A number that begins with a digit is read behind its prefix, if it has one. -/
theorem scanNumber_cases (t : Text) : (∃ p r base, t = '0' :: p :: r ∧ Literal.prefixBase? p = some base ∧
    scanNumber t = scanPrefixed (Byte.lower p) base r) ∨ scanNumber t = scanDigits t := by
  unfold scanNumber
  split
  · rename_i p r
    split
    · rename_i base hbase
      exact .inl ⟨p, r, base, rfl, hbase, rfl⟩
    · exact .inr rfl
  · exact .inr rfl

/-- A numeral without an alphanumeric character or a `#` behind it is not read as the digits of a base. -/
theorem scanDigits_numeral (h : Decimal.isNumeral t = true) (halpha : Stops Byte.isAlphanumeric u)
    (hhash : Stops (· == '#') u) : scanDigits (t ++ u) = scanDecimal false (t ++ u) := by
  obtain ⟨n, hn, hle⟩ : ∃ n, (if startsWithDigit (t ++ u) then (t ++ u).takeWhile Byte.isAlphanumeric else []).length = n ∧
      n ≤ t.length := by
    refine ⟨_, rfl, ?_⟩
    split
    · rw [takeWhile_append_of_stops t halpha]
      exact (List.takeWhile_prefix _).length_le
    · exact Nat.zero_le _
  unfold scanDigits
  dsimp only
  rw [hn, List.drop_append_of_le_length hle]
  split
  · rename_i r hr
    exfalso
    cases hd : t.drop n with
    | nil =>
      rw [hd, List.nil_append] at hr
      rw [hr] at hhash
      cases stops_cons.mp hhash
    | cons d t' =>
      rw [hd, List.cons_append] at hr
      have hmem : '#' ∈ t := List.mem_of_mem_drop (i := n) (by rw [hd, (List.cons.inj hr).1]; exact List.mem_cons_self)
      cases isPart_of_mem_numeral h hmem
  · rfl

/-- Neither a prefix nor a base makes something else of a numeral. -/
theorem scanNumber_numeral (h : Decimal.isNumeral t = true) (halpha : Stops Byte.isAlphanumeric u)
    (hhash : Stops (· == '#') u) : scanNumber (t ++ u) = scanDecimal false (t ++ u) := by
  rcases scanNumber_cases (t ++ u) with ⟨p, r, base, htext, hbase, -⟩ | hplain
  · have hnone : Literal.prefixBase? p = none := by
      rcases t with - | ⟨c, - | ⟨d, t⟩⟩
      · cases h
      · obtain ⟨-, rfl⟩ := List.cons.inj htext
        exact Literal.prefixBase?_eq_none (Bool.or_eq_false_iff.mp (stops_cons.mp halpha)).1
      · obtain ⟨-, htext⟩ := List.cons.inj htext
        obtain ⟨rfl, -⟩ := List.cons.inj htext
        exact prefixBase?_of_isPart (isPart_of_mem_numeral h (by simp))
    rw [hbase] at hnone
    cases hnone
  · rw [hplain, scanDigits_numeral h halpha hhash]

theorem scan_numeral (h : Decimal.isNumeral t = true) (hw : Spaces w)
    (ht : t ++ (Literal.percentText percent ++ w) = c :: t') :
    scan before c t' = ⟨.number (if percent then Decimal.value t / 100.0 else Decimal.value t) 10
      (if percent then .percent else .plain), (t ++ Literal.percentText percent).length - 1⟩ := by
  have hstops {p : Char → Bool} (hp : ['%', ' ', '\t', '\r', '\n', '\x0b', '\x0c'].any p = false) :
      Stops p (Literal.percentText percent ++ w) := Literal.stops_percentText hw percent hp
  have hfirst := startsNumber_append (startsNumber_of_isNumeral h) (Literal.percentText percent ++ w)
  rw [ht] at hfirst
  rw [scan_of_startsNumber hfirst, ← ht, scanNumber_numeral h (hstops rfl) (hstops rfl)]
  obtain ⟨r, hr, hstop⟩ := exists_whole false t
  have hcomma : ',' ∉ t := fun hmem => nomatch isPart_of_mem_numeral h hmem
  have hplain := filter_comma hcomma
  have ha : whole false (whole false t ++ r) = whole false t := by rw [← hr]
  have hscan := scanDecimal_numeral percent ha hstop (fun hmem => hcomma (hr ▸ List.mem_append_right _ hmem))
    (by rw [← hr, hplain, h]) hw
  rw [← hr, hplain] at hscan
  exact hscan

theorem isAlphanumeric_of_digitOf? {base : Nat} (h : (Byte.digitOf? base c).isSome = true) :
    Byte.isAlphanumeric c = true := by
  unfold Byte.digitOf? at h
  cases hvalue : Byte.digitValue? c with
  | none =>
    rw [hvalue] at h
    cases h
  | some d =>
    unfold Byte.digitValue? at hvalue
    unfold Byte.isAlphanumeric Byte.isLetter
    split at hvalue
    · rename_i hc
      rw [hc, Bool.or_true]
    · split at hvalue
      · rename_i hc
        rw [hc]
        rfl
      · split at hvalue
        · rename_i hc
          rw [hc, Bool.or_true]
          rfl
        · cases hvalue

/-- The characters of a text that is read as digits of a base are such digits. -/
theorem digitOf?_of_read? {base : Nat} (h : Digits.read? base t = some v) (hc : c ∈ t) :
    (Byte.digitOf? base c).isSome = true := by
  obtain ⟨ds, hds, -⟩ := Option.map_eq_some_iff.mp h
  clear h
  induction t generalizing ds with
  | nil => cases hc
  | cons d t ih =>
    rw [List.mapM_cons] at hds
    obtain ⟨n, hn, hds⟩ := Option.bind_eq_some_iff.mp hds
    obtain ⟨ns, hns, -⟩ := Option.bind_eq_some_iff.mp hds
    rcases List.mem_cons.mp hc with rfl | hc
    · rw [hn]
      rfl
    · exact ih hc ns hns

theorem scan_prefixed (before : Before) (h : Literal.prefixed? t = some v) (hu : Stops Byte.isAlphanumeric u) (ht : t ++ u = c :: t') :
    ∃ base, scan before c t' = ⟨.number v base .plain, t.length - 1⟩ := by
  unfold Literal.prefixed? at h
  split at h
  · rename_i p d t
    obtain ⟨base, hbase, hread⟩ := Option.bind_eq_some_iff.mp h
    obtain ⟨rfl, rfl⟩ := List.cons.inj ht
    refine ⟨base, ?_⟩
    have hrun : (d :: t ++ u).takeWhile (fun c => (Byte.digitOf? base c).isSome) = d :: t :=
      takeWhile_run (fun c hc => digitOf?_of_read? hread hc) (hu.mono fun c => isAlphanumeric_of_digitOf?)
    rw [scan_of_startsNumber rfl]
    refine (scanNumber_of_prefixBase? hbase (d :: t ++ u)).trans ?_
    unfold scanPrefixed
    dsimp only
    rw [hrun, hread]
    rfl
  · cases h

/-- The token is a fault, or it is a number that a name or a `#` touches. -/
def Breaks (f : Found) (t : Text) : Prop :=
  (∃ cause, f.kind = .fault cause) ∨
    (∃ v base style, f.kind = .number v base style) ∧ ∃ c ∈ (t.drop f.more).head?, Byte.isNamePart c = true ∨ c = '#'

/-- The lexer and the literal agree about a base of at most two digits. -/
theorem baseOf_eq {base : Text} (hdigits : ∀ c ∈ base, Byte.isDigit c = true) (hlength : base.length ≤ 2) :
    baseOf base = Text.toNat base := by
  match base with
  | [] => rfl
  | [a] => simp [baseOf, Text.toNat]
  | [a, b] =>
    have ha : a.toNat ≤ 57 := by
      have hdigit := hdigits a List.mem_cons_self
      simp only [Byte.isDigit, Bool.and_eq_true, decide_eq_true_eq, Char.le_def, UInt32.le_iff_toNat_le] at hdigit
      exact hdigit.2
    have hsmall : a.toNat - 48 < 1000 := by omega
    simp [baseOf, Text.toNat, hsmall, Nat.mul_comm]
  | _ :: _ :: _ :: _ => simp at hlength

theorem exists_of_based? (h : Literal.based? t = some v) : ∃ digits base : Text, t = digits ++ '#' :: base ∧
    digits ≠ [] ∧ base ≠ [] ∧ (∀ c ∈ base, Byte.isDigit c = true) ∧ 2 ≤ baseOf base ∧ baseOf base ≤ 36 ∧
    Digits.read? (baseOf base) digits = some v := by
  have hsplit : t = t.takeWhile (· != '#') ++ t.dropWhile (· != '#') := List.takeWhile_append_dropWhile.symm
  unfold Literal.based? at h
  dsimp only at h
  split at h
  · cases h
  · rename_i hshape
    simp only [Bool.or_eq_true, not_or, List.isEmpty_iff, Bool.not_eq_true', Bool.not_eq_false,
      decide_eq_true_eq, Nat.not_lt] at hshape
    obtain ⟨⟨⟨hdigits, hbase⟩, hall⟩, hlength⟩ := hshape
    split at h
    · rename_i hrange
      rw [← baseOf_eq (List.all_eq_true.mp hall) hlength] at h hrange
      refine ⟨_, _, ?_, hdigits, hbase, List.all_eq_true.mp hall, hrange.1, hrange.2, h⟩
      cases hrest : t.dropWhile (· != '#') with
      | nil =>
        rw [hrest] at hbase
        exact absurd rfl hbase
      | cons c r =>
        have hhead := List.head?_dropWhile_not (· != '#') t
        rw [hrest] at hhead hsplit
        obtain rfl : c = '#' := by simpa using hhead
        exact hsplit
    · cases h

/-- What follows alphanumeric characters and stands before a `#` touches the one or the other. -/
theorem touches_of_run {x y : Text} {n : Nat} (hx : ∀ e ∈ x, Byte.isAlphanumeric e = true) (hn : n ≤ x.length) :
    ∃ c ∈ ((x ++ '#' :: y).drop n).head?, Byte.isNamePart c = true ∨ c = '#' := by
  rw [List.drop_append_of_le_length hn]
  cases hdrop : x.drop n with
  | nil => exact ⟨'#', rfl, .inr rfl⟩
  | cons e z =>
    have halnum := hx e (List.mem_of_mem_drop (i := n) (by rw [hdrop]; exact List.mem_cons_self))
    exact ⟨e, rfl, .inl (by rw [Byte.isNamePart, halnum, Bool.true_or])⟩

section Based
variable {d : Char} {ds y : Text}

/-- Digits of a base with a prefix before them are read without the base. -/
theorem breaks_scanPrefixed (letter : Char) (base : Nat) (hds : ∀ e ∈ ds, Byte.isAlphanumeric e = true) :
    Breaks (scanPrefixed letter base (ds ++ '#' :: y)) (d :: (ds ++ '#' :: y)) := by
  have hrun : (ds ++ '#' :: y).takeWhile (fun e => (Byte.digitOf? base e).isSome) =
      ds.takeWhile (fun e => (Byte.digitOf? base e).isSome) :=
    takeWhile_append_of_stops ds (stops_cons.mpr rfl)
  unfold scanPrefixed
  dsimp only
  rw [hrun]
  split
  · split
    · exact .inl ⟨_, rfl⟩
    · refine .inr ⟨⟨_, _, _, rfl⟩, ?_⟩
      exact touches_of_run hds (List.takeWhile_prefix _).length_le
  · exact .inl ⟨_, rfl⟩

theorem scanNumber_based (hd : Byte.isDigit d = true) (hds : ∀ e ∈ d :: ds, Byte.isAlphanumeric e = true)
    (hy : startsWithDigit y = true) : scanNumber (d :: (ds ++ '#' :: y)) = scanBased (d :: ds) y ∨
      Breaks (scanNumber (d :: (ds ++ '#' :: y))) (ds ++ '#' :: y) := by
  rcases scanNumber_cases (d :: (ds ++ '#' :: y)) with ⟨p, r, base, htext, hbase, hprefixed⟩ | hplain
  · refine .inr ?_
    obtain ⟨-, htext⟩ := List.cons.inj htext
    rw [hprefixed]
    cases ds with
    | nil =>
      obtain ⟨rfl, -⟩ := List.cons.inj htext
      cases hbase
    | cons e ds =>
      obtain ⟨rfl, rfl⟩ := List.cons.inj htext
      exact breaks_scanPrefixed _ base fun f hf => hds f (by simp [hf])
  · refine .inl ?_
    have hrun : (d :: ds ++ '#' :: y).takeWhile Byte.isAlphanumeric = d :: ds := takeWhile_run hds (stops_cons.mpr rfl)
    rw [hplain, ← List.cons_append]
    unfold scanDigits
    dsimp only
    rw [hrun, if_pos (show startsWithDigit (d :: ds ++ '#' :: y) = true from hd), List.drop_left]
    simp [hy]

theorem scanName_based (before : Before) (hds : ∀ e ∈ d :: ds, Byte.isAlphanumeric e = true)
    (hy : startsWithDigit y = true) (hsuffix : suffixFollows y = false) :
    scanName before (d :: (ds ++ '#' :: y)) = scanBased (d :: ds) y ∨
      Breaks (scanName before (d :: (ds ++ '#' :: y))) (ds ++ '#' :: y) := by
  have hname : (d :: ds ++ '#' :: y).takeWhile Byte.isNamePart = d :: ds :=
    takeWhile_run (fun e he => by rw [Byte.isNamePart, hds e he, Bool.true_or]) (stops_cons.mpr rfl)
  have htouches : ∃ c ∈ ((ds ++ '#' :: y).drop ds.length).head?, Byte.isNamePart c = true ∨ c = '#' :=
    touches_of_run (fun e he => hds e (List.mem_cons_of_mem d he)) (Nat.le_refl _)
  rw [← List.cons_append]
  unfold scanName
  dsimp only
  rw [hname, List.drop_left]
  split
  · exact .inr (.inr ⟨⟨_, _, _, rfl⟩, htouches⟩)
  · split
    · exact .inr (.inr ⟨⟨_, _, _, rfl⟩, htouches⟩)
    · simp [hy, hsuffix]

end Based

theorem suffixFollows_base {base : Text} (hbase : ∀ e ∈ base, Byte.isDigit e = true) (hw : Spaces w) :
    suffixFollows (base ++ (Literal.percentText percent ++ w)) = false := by
  have hrest {p : Char → Bool} (hp : ['%', ' ', '\t', '\r', '\n', '\x0b', '\x0c'].any p = false) :
      Stops p ((Literal.percentText percent ++ w).dropWhile isGap) := by
    cases percent with
    | false => exact Literal.stops_percentText (hw.dropWhile isGap) false hp
    | true => exact Literal.stops_percentText hw true hp
  unfold suffixFollows
  dsimp only
  rw [List.dropWhile_append_of_pos hbase, dropWhile_of_stops (Literal.stops_percentText hw percent rfl),
    Marker.ofText?_eq_none (hrest rfl), Option.isSome_none, Bool.false_or, beq_eq_false_iff_ne]
  intro hhead
  cases hrest (p := (· == '[')) rfl '[' hhead

/-- Digits with their base are one token, unless a prefix or the name of a special value ends it before. -/
theorem scan_based (before : Before) (h : Literal.based? t = some v) (hw : Spaces w)
    (ht : t ++ (Literal.percentText percent ++ w) = c :: t') :
    (∃ base, scan before c t' = ⟨.number v base .plain, t.length - 1⟩) ∨ Breaks (scan before c t') t' := by
  obtain ⟨digits, base, rfl, hne, hbase, hall, hleast, hmost, hread⟩ := exists_of_based? h
  obtain ⟨d, ds, rfl⟩ := List.exists_cons_of_ne_nil hne
  have hstops {p : Char → Bool} (hp : ['%', ' ', '\t', '\r', '\n', '\x0b', '\x0c'].any p = false) :
      Stops p (Literal.percentText percent ++ w) := Literal.stops_percentText hw percent hp
  have halnum : ∀ e ∈ d :: ds, Byte.isAlphanumeric e = true :=
    fun e he => isAlphanumeric_of_digitOf? (digitOf?_of_read? hread he)
  have hfound : scanBased (d :: ds) (base ++ (Literal.percentText percent ++ w)) =
      ⟨.number v (baseOf base) .plain, (d :: ds ++ '#' :: base).length - 1⟩ := by
    unfold scanBased
    dsimp only
    rw [takeWhile_run hall (hstops rfl), hread]
    simp only [Nat.not_lt.mpr hleast, Nat.not_lt.mpr hmost, decide_false, Bool.or_false, Bool.false_eq_true, if_false,
      Found.mk.injEq, true_and, List.length_append, List.length_cons]
    omega
  have hdigit : startsWithDigit (base ++ (Literal.percentText percent ++ w)) = true := by
    obtain ⟨e, b, rfl⟩ := List.exists_cons_of_ne_nil hbase
    exact hall e List.mem_cons_self
  rw [List.append_assoc, List.cons_append, List.cons_append] at ht
  obtain ⟨rfl, rfl⟩ := List.cons.inj ht
  cases hd : Byte.isDigit d with
  | true =>
    rw [scan_of_startsNumber (startsNumber_of_isDigit hd _)]
    exact (scanNumber_based hd halnum hdigit).imp_left fun heq => ⟨_, heq.trans hfound⟩
  | false =>
    have hletter : Byte.isNameStart d = true := by
      have hd' := halnum d List.mem_cons_self
      rw [Byte.isAlphanumeric, hd, Bool.or_false] at hd'
      rw [Byte.isNameStart, hd', Bool.true_or]
    rw [scan_of_isNameStart hletter]
    exact (scanName_based before halnum hdigit (suffixFollows_base hall hw)).imp_left fun heq => ⟨_, heq.trans hfound⟩

theorem isPart_of_isAlphanumeric (h : Byte.isAlphanumeric c = true) : Literal.isPart c = true := by
  rw [Literal.isPart, h, Bool.true_or]

theorem isPart_of_decimal (h : Decimal.isPart c = true) : Literal.isPart c = true := by
  simp only [Decimal.isPart, Bool.or_eq_true, List.contains_eq_mem, List.mem_cons, List.not_mem_nil, or_false,
    decide_eq_true_eq] at h
  rcases h with hdigit | rfl | rfl | rfl | rfl | rfl
  · exact isPart_of_isAlphanumeric (Byte.isAlphanumeric_of_isDigit hdigit)
  · rfl
  · rfl
  · rfl
  · rfl
  · rfl

/-- The characters of a literal behind its sign and its `$`, without its commas and its `%`. -/
theorem isPart_of_body? {money : Bool} (h : Literal.body? money t = some v) (hc : c ∈ t) : Literal.isPart c = true := by
  unfold Literal.body? at h
  split at h
  · rename_i hnumeral
    exact isPart_of_decimal (isPart_of_mem_numeral hnumeral hc)
  · split at h
    · cases h
    · cases hprefixed : Literal.prefixed? t with
      | some v' =>
        unfold Literal.prefixed? at hprefixed
        split at hprefixed
        · rename_i p d r
          obtain ⟨base, hbase, hread⟩ := Option.bind_eq_some_iff.mp hprefixed
          rcases List.mem_cons.mp hc with rfl | hc
          · rfl
          · rcases List.mem_cons.mp hc with rfl | hc
            · cases hletter : Byte.isLetter c with
              | true => exact isPart_of_isAlphanumeric (by rw [Byte.isAlphanumeric, hletter, Bool.true_or])
              | false =>
                rw [Literal.prefixBase?_eq_none hletter] at hbase
                cases hbase
            · exact isPart_of_isAlphanumeric (isAlphanumeric_of_digitOf? (digitOf?_of_read? hread hc))
        · cases hprefixed
      | none =>
        rw [hprefixed] at h
        obtain ⟨digits, base, rfl, -, -, hall, -, -, hread⟩ := exists_of_based? h
        rcases List.mem_append.mp hc with hc | hc
        · exact isPart_of_isAlphanumeric (isAlphanumeric_of_digitOf? (digitOf?_of_read? hread hc))
        · rcases List.mem_cons.mp hc with rfl | hc
          · rfl
          · exact isPart_of_isAlphanumeric (Byte.isAlphanumeric_of_isDigit (hall c hc))

theorem scan_nan (hw : Spaces w) : scan before 'N' ('a' :: 'N' :: w) = ⟨.number Binary.nan 10 .plain, 2⟩ := by
  have hname : ('N' :: 'a' :: 'N' :: w).takeWhile Byte.isNamePart = "NaN".toList :=
    takeWhile_run (t := "NaN".toList) (List.all_eq_true.mp rfl) (hw.stops rfl)
  rw [scan_of_isNameStart rfl]
  unfold scanName
  dsimp only
  rw [hname]
  rfl

theorem scan_infinity (hw : Spaces w) : scan before 'I' ("nfinity".toList ++ w) = ⟨.number Binary.infinity 10 .plain, 7⟩ := by
  have hname : ('I' :: ("nfinity".toList ++ w)).takeWhile Byte.isNamePart = "Infinity".toList :=
    takeWhile_run (t := "Infinity".toList) (List.all_eq_true.mp rfl) (hw.stops rfl)
  rw [scan_of_isNameStart rfl]
  unfold scanName
  dsimp only
  rw [hname]
  rfl

end Scans

/-! ### Before a comma -/

def noComma (c : Char) : Bool := c != ','

/-- Numbers and names, and what is no token because of its base. -/
def isWord : Kind → Bool
  | .number _ _ _ | .name | .fault _ => true
  | _ => false

/-- The token `f` at the head of `t` is a word, and there is no comma in it. -/
structure IsWord (f : Found) (t : Text) : Prop where
  uncut : Each noComma (f.more + 1) t
  isWord : isWord f.kind = true

/-- The token `f` at the head of `t` has nothing to do with calls: there is no comma in it, and it opens no
    parenthesis. -/
structure OutsideCalls (f : Found) (t : Text) : Prop where
  uncut : Each noComma (f.more + 1) t
  opens : f.kind ≠ .openParen

section OutsideCalls
variable {c d : Char} {t : Text}

theorem IsWord.outsideCalls {f : Found} (h : IsWord f t) : OutsideCalls f t := by
  refine ⟨h.uncut, fun hopen => ?_⟩
  have hword := h.isWord
  rw [hopen] at hword
  cases hword

theorem noComma_of {p : Char → Bool} (hp : p ',' = false) {c : Char} (hc : p c = true) : noComma c = true := by
  rw [noComma, bne_iff_ne]
  rintro rfl
  rw [hp] at hc
  cases hc

theorem isWord_scanDecimal (h : Each noComma 1 t) : IsWord (scanDecimal false t) t := by
  have hlength : Each noComma (numeralLength false t) t := by
    rw [numeralLength_eq_add]
    exact (each_run (q := Byte.isDigit) (fun c => noComma_of rfl) t).add
      ((each_tailSpan _).mono fun c => noComma_of rfl)
  unfold scanDecimal
  dsimp only
  split
  · rename_i r hr
    split
    · refine ⟨hlength.add ?_, rfl⟩
      rw [hr]
      exact (each_zero _ r).cons rfl
    · exact ⟨each_pred hlength h, rfl⟩
  · exact ⟨each_pred hlength h, rfl⟩

theorem isWord_scanBased {digits base : Text} (ht : t = digits ++ '#' :: base)
    (hdigits : ∀ c ∈ digits, noComma c = true) : IsWord (scanBased digits base) t := by
  have huncut : Each noComma (digits.length + ((base.takeWhile Byte.isDigit).length + 1)) t := by
    refine (each_of_eq_append ht hdigits).add ?_
    rw [ht, List.drop_left]
    exact (each_run (fun c => noComma_of rfl) base).cons rfl
  unfold scanBased
  dsimp only
  split
  · exact ⟨huncut, rfl⟩
  · split <;> exact ⟨huncut, rfl⟩

theorem isWord_scanPrefixed (letter : Char) (base : Nat) (hc : noComma c = true) (hd : noComma d = true) (t : Text) :
    IsWord (scanPrefixed letter base t) (c :: d :: t) := by
  have htwo : Each noComma 2 (c :: d :: t) := ((each_zero _ t).cons hd).cons hc
  have hrun : Each noComma ((t.takeWhile fun c => (Byte.digitOf? base c).isSome).length + 1 + 1) (c :: d :: t) :=
    ((each_run (fun e => noComma_of (p := fun e => (Byte.digitOf? base e).isSome) rfl) t).cons hd).cons hc
  unfold scanPrefixed
  dsimp only
  split
  · split
    · exact ⟨htwo, rfl⟩
    · exact ⟨hrun, rfl⟩
  · exact ⟨htwo, rfl⟩

theorem isWord_scanDigits (h : Each noComma 1 t) : IsWord (scanDigits t) t := by
  obtain ⟨w, hw, ht, hcomma⟩ : ∃ w, (if startsWithDigit t then t.takeWhile Byte.isAlphanumeric else []) = w ∧
      t = w ++ t.drop w.length ∧ ∀ c ∈ w, noComma c = true := by
    split
    · refine ⟨_, rfl, ?_, fun c hc => noComma_of rfl (List.mem_takeWhile_imp hc)⟩
      rw [drop_length_takeWhile, List.takeWhile_append_dropWhile]
    · exact ⟨[], rfl, rfl, nofun⟩
  unfold scanDigits
  dsimp only
  rw [hw]
  split
  · rename_i base hbase
    split
    · exact isWord_scanDecimal h
    · rw [hbase] at ht
      exact isWord_scanBased ht hcomma
  · exact isWord_scanDecimal h

theorem isWord_scanNumber (h : Each noComma 1 t) : IsWord (scanNumber t) t := by
  rcases scanNumber_cases t with ⟨p, r, base, rfl, hbase, hprefixed⟩ | hplain
  · have hp : noComma p = true :=
      noComma_of (p := fun p => (Literal.prefixBase? p).isSome) rfl (by rw [hbase]; rfl)
    rw [hprefixed]
    exact isWord_scanPrefixed (Byte.lower p) base rfl hp r
  · rw [hplain]
    exact isWord_scanDigits h

theorem isWord_scanName (before : Before) (h : Each noComma 1 t) : IsWord (scanName before t) t := by
  have hrun := each_pred (each_run (q := Byte.isNamePart) (fun c => noComma_of rfl) t) h
  unfold scanName
  dsimp only
  split
  · exact ⟨hrun, rfl⟩
  · split
    · exact ⟨hrun, rfl⟩
    · split
      · rename_i base hbase
        split
        · refine isWord_scanBased ?_ fun c hc => noComma_of rfl (List.mem_takeWhile_imp hc)
          rw [← hbase, drop_length_takeWhile, List.takeWhile_append_dropWhile]
        · exact ⟨hrun, rfl⟩
      · exact ⟨hrun, rfl⟩

theorem outside_foundMarker {z : Text} {m : Marker} (d : Decoration) (hz : ∀ c ∈ z, noComma c = true)
    (h : Marker.ofText? t = some m) : OutsideCalls (foundMarker z.length m d) (z ++ t) := by
  obtain ⟨u, rfl, -⟩ := Marker.ofText?_eq_some h
  have hmarker : m.text.all noComma = true := by cases m <;> rfl
  have huncut : Each noComma (z ++ m.text).length (z ++ (m.text ++ u)) := by
    refine each_of_eq_append (List.append_assoc z m.text u).symm fun c hc => ?_
    exact (List.mem_append.mp hc).elim (hz c) (List.all_eq_true.mp hmarker c)
  refine ⟨?_, nofun⟩
  have hlength : z.length + m.text.length - 1 + 1 = (z ++ m.text).length := by
    have hpos : 0 < m.text.length := List.length_pos_iff.mpr m.text_ne_nil
    rw [List.length_append]
    omega
  show Each noComma (z.length + m.text.length - 1 + 1) _
  rw [hlength]
  exact huncut

theorem outside_scanHash (t : Text) : OutsideCalls (scanHash t) ('#' :: t) := by
  have hdigits : ∀ c ∈ '#' :: t.takeWhile Byte.isDigit, noComma c = true := by
    intro c hc
    rcases List.mem_cons.mp hc with rfl | hc
    · rfl
    · exact noComma_of rfl (List.mem_takeWhile_imp hc)
  unfold scanHash
  dsimp only
  split
  · exact ⟨(each_zero _ t).cons rfl, nofun⟩
  · split
    · rename_i m hm
      have h := outside_foundMarker ⟨.plain, baseOf (t.takeWhile Byte.isDigit)⟩ hdigits hm
      rw [List.cons_append, drop_length_takeWhile, List.takeWhile_append_dropWhile, List.length_cons, Nat.add_comm] at h
      exact h
    · exact ⟨(each_run (fun c => noComma_of rfl) t).cons rfl, nofun⟩

theorem outside_scanOperator (h : Each noComma 1 t) : OutsideCalls (scanOperator t) t := by
  unfold scanOperator
  split
  · rename_i m hm
    exact outside_foundMarker (z := []) {} nofun hm
  · split
    · rename_i htwo
      have hall : doubleOperators.all (·.all noComma) = true := by decide
      exact ⟨List.all_eq_true.mp (List.all_eq_true.mp hall _ (List.contains_iff_mem.mp htwo)), nofun⟩
    · split <;> exact ⟨h, nofun⟩

/-- The token at a character of a literal. -/
theorem outside_scan (before : Before) (hc : Literal.isPart c = true) (t : Text) :
    OutsideCalls (scan before c t) (c :: t) := by
  have hone : Each noComma 1 (c :: t) := (each_zero _ t).cons (noComma_of rfl hc)
  by_cases hhash : c = '#'
  · subst hhash
    exact outside_scanHash t
  · rw [scan_of_any (p := fun c => Literal.isPart c && c != '#') rfl (by simp [hc, hhash])]
    split
    · exact (isWord_scanNumber hone).outsideCalls
    · split
      · exact (isWord_scanName before hone).outsideCalls
      · exact outside_scanOperator hone

/-- A word begins at every character that may be part of a name. -/
theorem isWord_scan (before : Before) (hc : Byte.isNamePart c = true) (t : Text) :
    Lexer.isWord (scan before c t).kind = true := by
  have hone : Each noComma 1 (c :: t) := (each_zero _ t).cons (noComma_of rfl hc)
  cases hdigit : Byte.isDigit c with
  | true =>
    rw [scan_of_startsNumber (startsNumber_of_isDigit hdigit t)]
    exact (isWord_scanNumber hone).isWord
  | false =>
    have hstart : Byte.isNameStart c = true := by
      rwa [Byte.isNamePart, Byte.isAlphanumeric, hdigit, Bool.or_false] at hc
    rw [scan_of_isNameStart hstart]
    exact (isWord_scanName before hone).isWord

end OutsideCalls

end Lexer
end Worksheet
