import Worksheet.Proofs.Token.LineByLine
import Worksheet.Proofs.Token.Literal

/-! What a colon or a closing bracket behind a text changes. A closing bracket ends the text as its end does. A colon
    is a marker and takes what may decorate one: a suffix, the `%` of a percentage, and the base of a literal that
    begins with a letter where no operand is due. No token but the last one of the text depends on it. -/

namespace Worksheet

namespace Text

/-- Nothing stands here, or a character that neither a number nor a name goes on with. -/
def Cut (z : Text) : Prop := ∀ c ∈ z.head?, c = ':' ∨ c = ']' ∨ c = ' ' ∨ c = '"' ∨ c = '/'

section Cut
variable {z : Text}

theorem cut_nil : Cut [] := by simp [Cut]

theorem Cut.stops (h : Cut z) {p : Char → Bool} (hp : [':', ']', ' ', '"', '/'].any p = false) : Stops p z :=
  fun c hc => Bool.eq_false_iff.mpr (List.any_eq_false.mp hp c (by simpa using h c hc))

end Cut

/-- Nothing stands here, or a colon, or a closing bracket. -/
def Fenced (z : Text) : Prop := ∀ c ∈ z.head?, c = ':' ∨ c = ']'

section Fenced
variable {z : Text}

theorem fenced_nil : Fenced [] := by simp [Fenced]

theorem fenced_colon (z : Text) : Fenced (':' :: z) := by simp [Fenced]

theorem fenced_close (z : Text) : Fenced (']' :: z) := by simp [Fenced]

theorem Fenced.cut (h : Fenced z) : Cut z := fun c hc => (h c hc).imp_right .inl

theorem Fenced.stops (h : Fenced z) {p : Char → Bool} (hp : [':', ']'].any p = false) : Stops p z := by
  intro c hc
  simp only [List.any_cons, List.any_nil, Bool.or_false, Bool.or_eq_false_iff] at hp
  rcases h c hc with rfl | rfl
  · exact hp.1
  · exact hp.2

/-- A test of the next character that neither sign passes. -/
theorem Fenced.any_head? (h : Fenced z) {p : Char → Bool} (hp : [':', ']'].any p = false) (t : Text) :
    (t ++ z).head?.any p = t.head?.any p := by
  cases t with
  | nil =>
    cases z with
    | nil => rfl
    | cons c z => exact stops_cons.mp (h.stops hp)
  | cons c t => rfl

theorem Fenced.head?_eq_some (h : Fenced z) {c : Char} (hc : [':', ']'].contains c = false) (t : Text) :
    (t ++ z).head? = some c ↔ t.head? = some c := by
  have htest (x : Text) : x.head? = some c ↔ x.head?.any (· == c) = true := by simp [Option.any_eq_true]
  have hp : [':', ']'].any (· == c) = false := by
    simp only [List.contains_eq_mem, decide_eq_false_iff_not] at hc
    refine List.any_eq_false.mpr fun d hd => ?_
    rw [beq_iff_eq]
    rintro rfl
    exact hc hd
  rw [htest, htest, h.any_head? hp]

theorem Fenced.ite_head? {α : Type} (h : Fenced z) {c : Char} (hc : [':', ']'].contains c = false) (t : Text)
    (x y : α) :
    (if (t ++ z).head? = some c then x else y) = if t.head? = some c then x else y :=
  if_congr (h.head?_eq_some hc t) rfl rfl

theorem Fenced.beq_head? (h : Fenced z) {c : Char} (hc : [':', ']'].contains c = false) (t : Text) :
    ((t ++ z).head? == some c) = (t.head? == some c) :=
  Bool.eq_iff_iff.mpr (beq_iff_eq.trans ((h.head?_eq_some hc t).trans beq_iff_eq.symm))

end Fenced
end Text

namespace Lexer
open Token Text

/-! ### Looking ahead -/

section Ahead
variable {t z : Text}

theorem ofText?_isSome_fenced (hz : Fenced z) : (Marker.ofText? z).isSome = true ↔ z.head? = some ':' := by
  cases z with
  | nil => simp [Marker.ofText?]
  | cons c z => rcases hz c rfl with rfl | rfl <;> simp [Marker.ofText?_cons]

theorem ofText?_fenced (hz : Fenced z) (hcolon : ':' ∉ t) (h : t ≠ [] ∨ z.head? ≠ some ':') :
    Marker.ofText? (t ++ z) = Marker.ofText? t := by
  rcases t with - | ⟨c, t⟩
  · have hnone : Marker.ofText? z = none := by
      simpa using mt (ofText?_isSome_fenced hz).mp (h.resolve_left fun h => h rfl)
    rw [List.nil_append, hnone]
    rfl
  have hc : c ≠ ':' := fun hc => hcolon (hc ▸ List.mem_cons_self)
  rw [List.cons_append, Marker.ofText?_cons, Marker.ofText?_cons, if_neg hc, if_neg hc, hz.ite_head? (c := '-') rfl,
    hz.ite_head? (c := '>') rfl]
  by_cases harrow : t.head? = some '>'
  · obtain ⟨u, rfl⟩ := List.head?_eq_some_iff.mp harrow
    rw [List.cons_append, List.tail_cons, List.tail_cons, hz.ite_head? (c := '>') rfl]
  · rw [if_neg harrow, if_neg harrow]

theorem operandFollows_fenced (hz : Fenced z) (t : Text) : operandFollows (t ++ z) = operandFollows t := by
  rw [operandFollows_head?, operandFollows_head?, dropWhile_append_of_stops t (hz.stops rfl), hz.any_head? rfl]

theorem isBlank_of_isGap {c : Char} (h : isGap c = true) : Byte.isBlank c = true := by
  rw [Byte.isBlank, ← isGap, h, Bool.true_or]

/-- What stands behind the digits of a base and behind blanks. -/
def behindBase (t : Text) : Text := (t.dropWhile Byte.isDigit).dropWhile isGap

theorem behindBase_fenced (hz : Fenced z) (t : Text) : behindBase (t ++ z) = behindBase t ++ z := by
  rw [behindBase, dropWhile_append_of_stops t (hz.stops rfl), dropWhile_append_of_stops _ (hz.stops rfl), behindBase]

theorem suffixFollows_fenced (hz : Fenced z) (hcolon : ':' ∉ t) (h : behindBase t ≠ [] ∨ z.head? ≠ some ':') :
    suffixFollows (t ++ z) = suffixFollows t := by
  show ((Marker.ofText? (behindBase (t ++ z))).isSome || (behindBase (t ++ z)).head? == some '[') =
    ((Marker.ofText? (behindBase t)).isSome || (behindBase t).head? == some '[')
  rw [behindBase_fenced hz, hz.beq_head? (c := '[') rfl]
  have hsub : ':' ∉ behindBase t := fun hmem =>
    hcolon ((List.dropWhile_suffix _).subset ((List.dropWhile_suffix _).subset hmem))
  rw [ofText?_fenced hz hsub h]

end Ahead

/-! ### Numbers -/

section Numbers
variable {t z : Text}

theorem numeralLength_cut (hz : Cut z) (money : Bool) (t : Text) :
    numeralLength money (t ++ z) = numeralLength money t := by
  have hle : (whole money t).length ≤ t.length := by
    obtain ⟨r, ht, -⟩ := exists_whole money t
    rw [ht, List.length_append, ← ht]
    exact Nat.le_add_right _ _
  rw [numeralLength_eq_add, numeralLength_eq_add, whole_append money t (hz.stops rfl) (hz.stops rfl),
    List.drop_append_of_le_length hle, tailSpan_append _ (hz.stops rfl)]

/-- A `%` that belongs to the number before it. -/
def isPercentage (t : Text) : Bool := t.head? == some '%' && (Marker.ofText? t.tail).isNone && !operandFollows t.tail

/-- The number that the characters of a decimal numeral denote. -/
def amount (money : Bool) (t : Text) : Float :=
  Decimal.value ((t.take (numeralLength money t)).filter (· != ','))

theorem scanDecimal_eq (money : Bool) (t : Text) : scanDecimal money t =
    if isPercentage (t.drop (numeralLength money t)) then
      ⟨.number (amount money t / 100.0) 10 .percent, numeralLength money t⟩
    else ⟨.number (amount money t) 10 (if money then .money else .plain), numeralLength money t - 1⟩ := by
  unfold scanDecimal amount
  dsimp only
  split
  · rename_i r hr
    rw [hr]
    rfl
  · rename_i hne
    have hnone : isPercentage (t.drop (numeralLength money t)) = false := by
      refine Bool.eq_false_iff.mpr fun h => ?_
      simp only [isPercentage, Bool.and_eq_true, beq_iff_eq] at h
      obtain ⟨r, hr⟩ := List.head?_eq_some_iff.mp h.1.1
      exact hne r hr
    rw [hnone, if_neg Bool.false_ne_true]

theorem isPercentage_fenced (hz : Fenced z) (hcolon : ':' ∉ t) (h : t ≠ ['%'] ∨ z.head? ≠ some ':') :
    isPercentage (t ++ z) = isPercentage t := by
  rcases t with - | ⟨c, t⟩
  · cases z with
    | nil => rfl
    | cons d z => rcases hz d rfl with rfl | rfl <;> rfl
  · have hmarker : (c == '%' && (Marker.ofText? (t ++ z)).isNone) = (c == '%' && (Marker.ofText? t).isNone) := by
      by_cases hc : c = '%'
      · rw [ofText?_fenced hz (fun hmem => hcolon (List.mem_cons_of_mem c hmem)) (h.imp_left (by simp [hc]))]
      · rw [beq_false_of_ne hc, Bool.false_and, Bool.false_and]
    show (c == '%' && (Marker.ofText? (t ++ z)).isNone && !operandFollows (t ++ z)) =
      (c == '%' && (Marker.ofText? t).isNone && !operandFollows t)
    rw [hmarker, operandFollows_fenced hz]

theorem scanDecimal_fenced {money : Bool} (hz : Fenced z) (hcolon : ':' ∉ t)
    (h : t.drop (numeralLength money t) ≠ ['%'] ∨ z.head? ≠ some ':') :
    scanDecimal money (t ++ z) = scanDecimal money t := by
  have hle : numeralLength money t ≤ t.length := (quiet_numeralLength money t).length_le
  have hsub : ':' ∉ t.drop (numeralLength money t) := fun hmem => hcolon (List.mem_of_mem_drop hmem)
  rw [scanDecimal_eq, scanDecimal_eq, amount, amount, numeralLength_cut hz.cut, List.take_append_of_le_length hle,
    List.drop_append_of_le_length hle, isPercentage_fenced hz hsub h]

theorem scanBased_cut (hz : Cut z) (digits t : Text) : scanBased digits (t ++ z) = scanBased digits t := by
  unfold scanBased
  rw [takeWhile_append_of_stops t (hz.stops rfl)]

/-- A suffix, or a percentage. -/
def isDressed (k : Kind) : Bool := k.isSuffix || k.style == .percent

theorem isDressed_scanBased (digits t : Text) : isDressed (scanBased digits t).kind = false := by
  unfold scanBased
  dsimp only
  split
  · rfl
  · split <;> rfl

theorem isDressed_scanPrefixed (letter : Char) (base : Nat) (t : Text) :
    isDressed (scanPrefixed letter base t).kind = false := by
  unfold scanPrefixed
  dsimp only
  split
  · split <;> rfl
  · rfl

theorem scanPrefixed_cut (hz : Cut z) (letter : Char) (base : Nat) (t : Text) :
    scanPrefixed letter base (t ++ z) = scanPrefixed letter base t := by
  unfold scanPrefixed
  rw [takeWhile_append_of_stops t (hz.stops (p := fun c => (Byte.digitOf? base c).isSome) rfl)]

/-- A `#` with a base. -/
def isBase (t : Text) : Bool := t.head? == some '#' && startsWithDigit t.tail

theorem isBase_cut (hz : Cut z) (t : Text) : isBase (t ++ z) = isBase t := by
  rcases t with - | ⟨c, t⟩
  · cases z with
    | nil => rfl
    | cons d z => rcases hz d rfl with rfl | rfl | rfl | rfl | rfl <;> rfl
  · show (c == '#' && startsWithDigit (t ++ z)) = (c == '#' && startsWithDigit t)
    rw [startsWithDigit_append t (hz.stops rfl)]

/-- The letters and digits at the head of a number. -/
def leadingDigits (t : Text) : Text := if startsWithDigit t then t.takeWhile Byte.isAlphanumeric else []

theorem scanDigits_eq (t : Text) : scanDigits t =
    if !(leadingDigits t).isEmpty && isBase (t.drop (leadingDigits t).length) then
      scanBased (leadingDigits t) (t.drop (leadingDigits t).length).tail
    else scanDecimal false t := by
  unfold scanDigits leadingDigits
  dsimp only
  generalize (if startsWithDigit t then t.takeWhile Byte.isAlphanumeric else []) = w
  split
  · rename_i r hr
    rw [hr]
    show (if w.isEmpty || !startsWithDigit r then _ else _) = if !w.isEmpty && startsWithDigit r then _ else _
    cases w.isEmpty <;> cases startsWithDigit r <;> rfl
  · rename_i hne
    have hnone : isBase (t.drop w.length) = false := by
      refine Bool.eq_false_iff.mpr fun h => ?_
      simp only [isBase, Bool.and_eq_true, beq_iff_eq] at h
      obtain ⟨r, hr⟩ := List.head?_eq_some_iff.mp h.1
      exact hne r hr
    rw [hnone, Bool.and_false, if_neg Bool.false_ne_true]

theorem leadingDigits_cut (hz : Cut z) (t : Text) : leadingDigits (t ++ z) = leadingDigits t := by
  rw [leadingDigits, leadingDigits, startsWithDigit_append t (hz.stops rfl),
    takeWhile_append_of_stops t (hz.stops rfl)]

theorem isPrefix_leadingDigits (t : Text) : leadingDigits t <+: t := by
  unfold leadingDigits
  split
  · exact List.takeWhile_prefix _
  · exact List.nil_prefix

/-- Whatever cuts it off, the number is the same, or it is a decimal number. -/
theorem scanDigits_cut (t : Text) : (∀ z, Cut z → scanDigits (t ++ z) = scanDecimal false (t ++ z)) ∨
    isDressed (scanDigits t).kind = false ∧ ∀ z, Cut z → scanDigits (t ++ z) = scanDigits t := by
  have hle : (leadingDigits t).length ≤ t.length := (isPrefix_leadingDigits t).length_le
  have hsplit {z : Text} (hz : Cut z) : scanDigits (t ++ z) =
      if !(leadingDigits t).isEmpty && isBase (t.drop (leadingDigits t).length) then
        scanBased (leadingDigits t) (t.drop (leadingDigits t).length ++ z).tail
      else scanDecimal false (t ++ z) := by
    rw [scanDigits_eq, leadingDigits_cut hz, List.drop_append_of_le_length hle, isBase_cut hz]
  cases hbase : !(leadingDigits t).isEmpty && isBase (t.drop (leadingDigits t).length) with
  | false => exact .inl fun z hz => by rw [hsplit hz, hbase, if_neg Bool.false_ne_true]
  | true =>
    have hne : t.drop (leadingDigits t).length ≠ [] := by
      intro hnil
      rw [hnil, Bool.and_eq_true] at hbase
      exact absurd hbase.2 (by decide)
    have hnil := hsplit cut_nil
    rw [List.append_nil, List.append_nil, hbase, if_pos rfl] at hnil
    refine .inr ⟨?_, fun z hz => ?_⟩
    · rw [hnil]
      exact isDressed_scanBased _ _
    · rw [hsplit hz, hnil, hbase, if_pos rfl, List.tail_append_of_ne_nil hne, scanBased_cut hz]

/-- No cut marks a base. -/
theorem scanNumber_cut (t : Text) : (∀ z, Cut z → scanNumber (t ++ z) = scanDecimal false (t ++ z)) ∨
    isDressed (scanNumber t).kind = false ∧ ∀ z, Cut z → scanNumber (t ++ z) = scanNumber t := by
  by_cases hprefixed : ∃ p r base, t = '0' :: p :: r ∧ Literal.prefixBase? p = some base
  · obtain ⟨p, r, base, rfl, hbase⟩ := hprefixed
    refine .inr ⟨?_, fun z hz => ?_⟩
    · rw [scanNumber_of_prefixBase? hbase]
      exact isDressed_scanPrefixed _ _ _
    · rw [List.cons_append, List.cons_append, scanNumber_of_prefixBase? hbase, scanNumber_of_prefixBase? hbase,
        scanPrefixed_cut hz]
  · have hplain {z : Text} (hz : Cut z) : scanNumber (t ++ z) = scanDigits (t ++ z) := by
      rcases scanNumber_cases (t ++ z) with ⟨p, r, base, ht, hbase, -⟩ | hdigits
      · rcases t with - | ⟨c, - | ⟨d, t⟩⟩
        · rw [List.nil_append] at ht
          rcases hz '0' (by rw [ht]; rfl) with h | h | h | h | h <;> cases h
        · obtain ⟨rfl, rfl⟩ := List.cons.inj ht
          rcases hz p rfl with rfl | rfl | rfl | rfl | rfl <;> cases hbase
        · obtain ⟨rfl, hrest⟩ := List.cons.inj ht
          obtain ⟨rfl, -⟩ := List.cons.inj hrest
          exact absurd ⟨d, t, base, rfl, hbase⟩ hprefixed
      · exact hdigits
    have hnil := hplain cut_nil
    rw [List.append_nil] at hnil
    rw [hnil]
    refine (scanDigits_cut t).imp (fun h z hz => (hplain hz).trans (h z hz)) ?_
    exact fun ⟨hstyle, h⟩ => ⟨hstyle, fun z hz => (hplain hz).trans (h z hz)⟩

end Numbers

/-! ### Names and signs -/

section Signs
variable {before : Before} {c : Char} {t z : Text}

/-- The characters of a name. -/
def nameSpan (t : Text) : Text := t.takeWhile Byte.isNamePart

/-- The numbers that are written as names. -/
def specialNames : List Text := ["Infinity".toList, "NaN".toList]

/-- Behind a name, the base of a literal. -/
def takesBase (before : Before) (t : Text) : Bool := isBase t && (before.operandDue || !suffixFollows t.tail)

theorem scanName_eq (h : nameSpan t ∉ specialNames) : scanName before t =
    if takesBase before (t.drop (nameSpan t).length) then scanBased (nameSpan t) (t.drop (nameSpan t).length).tail
    else ⟨.name, (nameSpan t).length - 1⟩ := by
  simp only [specialNames, List.mem_cons, List.not_mem_nil, or_false, not_or] at h
  unfold nameSpan at h ⊢
  unfold scanName
  dsimp only
  rw [if_neg h.1, if_neg h.2]
  split
  · rename_i r hr
    rw [hr]
    rfl
  · rename_i hne
    have hnone : takesBase before (t.drop (t.takeWhile Byte.isNamePart).length) = false := by
      refine Bool.eq_false_iff.mpr fun h => ?_
      simp only [takesBase, isBase, Bool.and_eq_true, beq_iff_eq] at h
      obtain ⟨r, hr⟩ := List.head?_eq_some_iff.mp h.1.1
      exact hne r hr
    rw [hnone, if_neg Bool.false_ne_true]

theorem nameSpan_cut (hz : Cut z) (t : Text) : nameSpan (t ++ z) = nameSpan t :=
  takeWhile_append_of_stops t (hz.stops rfl)

/-- What the name of a special value denotes. -/
def specialValue (name : Text) : Float := if name = "Infinity".toList then Binary.infinity else Binary.nan

theorem scanName_special (h : nameSpan t ∈ specialNames) :
    scanName before t = ⟨.number (specialValue (nameSpan t)) 10 .plain, (nameSpan t).length - 1⟩ := by
  simp only [specialNames, List.mem_cons, List.not_mem_nil, or_false] at h
  unfold nameSpan at h ⊢
  unfold scanName specialValue
  dsimp only
  rcases h with h | h
  · rw [if_pos h, if_pos h]
  · have hne : t.takeWhile Byte.isNamePart ≠ "Infinity".toList := by
      rw [h]
      decide
    rw [if_neg hne, if_pos h, if_neg hne]

/-- A base literal that begins with a letter, where no operand is due, with nothing but blanks behind its base. -/
structure EndsBased (before : Before) (t : Text) : Prop where
  name : nameSpan t ∉ specialNames
  base : isBase (t.drop (nameSpan t).length) = true
  due : before.operandDue = false
  ends : behindBase (t.drop (nameSpan t).length).tail = []

theorem scanName_fenced (hz : Fenced z) (hcolon : ':' ∉ t) (h : ¬EndsBased before t ∨ z.head? ≠ some ':') :
    scanName before (t ++ z) = scanName before t := by
  have hspan := nameSpan_cut hz.cut t
  by_cases hspecial : nameSpan t ∈ specialNames
  · rw [scanName_special hspecial, scanName_special (by rwa [hspan]), hspan]
  have hle : (nameSpan t).length ≤ t.length := (List.takeWhile_prefix _).length_le
  have hsame : takesBase before (t.drop (nameSpan t).length ++ z) = takesBase before (t.drop (nameSpan t).length) := by
    rw [takesBase, takesBase, isBase_cut hz.cut]
    cases hbase : isBase (t.drop (nameSpan t).length) with
    | false => rfl
    | true =>
      have hne : t.drop (nameSpan t).length ≠ [] := by
        intro hnil
        rw [hnil] at hbase
        cases hbase
      rw [List.tail_append_of_ne_nil hne]
      cases hdue : before.operandDue with
      | true => rfl
      | false =>
        have hsub : ':' ∉ (t.drop (nameSpan t).length).tail := fun hmem =>
          hcolon (List.mem_of_mem_drop (List.mem_of_mem_tail hmem))
        rw [suffixFollows_fenced hz hsub (h.imp_left fun h hends => h ⟨hspecial, hbase, hdue, hends⟩)]
  rw [scanName_eq hspecial, scanName_eq (by rwa [hspan]), hspan, List.drop_append_of_le_length hle, hsame]
  split
  · rename_i htakes
    have hne : t.drop (nameSpan t).length ≠ [] := by
      intro hnil
      rw [hnil] at htakes
      cases htakes
    rw [List.tail_append_of_ne_nil hne, scanBased_cut hz.cut]
  · rfl

theorem startsNumber_cut (hz : Cut z) (t : Text) : startsNumber (t ++ z) = startsNumber t := by
  rcases t with - | ⟨c, t⟩
  · cases z with
    | nil => rfl
    | cons d z => rcases hz d rfl with rfl | rfl | rfl | rfl | rfl <;> rfl
  · by_cases hc : c = '.'
    · subst hc
      exact startsWithDigit_append t (hz.stops rfl)
    · simp [startsNumber, hc, startsWithDigit]

theorem scanDollar_fenced (hz : Fenced z) (hcolon : ':' ∉ t)
    (h : t ≠ [] ∧ ¬(startsNumber t = true ∧ t.drop (numeralLength true t) = ['%']) ∨ z.head? ≠ some ':') :
    scanDollar (t ++ z) = scanDollar t := by
  unfold scanDollar
  rw [startsNumber_cut hz.cut, ofText?_fenced hz hcolon (h.imp_left And.left)]
  cases hnumber : startsNumber t with
  | false => rw [if_neg Bool.false_ne_true, if_neg Bool.false_ne_true]
  | true => rw [scanDecimal_fenced hz hcolon (h.imp_left fun h hpercent => h.2 ⟨hnumber, hpercent⟩)]

theorem scanPercent_fenced (hz : Fenced z) (hcolon : ':' ∉ t) (h : t ≠ [] ∨ z.head? ≠ some ':') :
    scanPercent before (t ++ z) = scanPercent before t := by
  unfold scanPercent
  rw [ofText?_fenced hz hcolon h, operandFollows_fenced hz]

theorem scanHash_fenced (hz : Fenced z) (hcolon : ':' ∉ t)
    (h : t = [] ∨ t.dropWhile Byte.isDigit ≠ [] ∨ z.head? ≠ some ':') : scanHash (t ++ z) = scanHash t := by
  unfold scanHash
  dsimp only
  rw [takeWhile_append_of_stops t (hz.stops rfl), List.drop_append_of_le_length (List.takeWhile_prefix _).length_le,
    drop_length_takeWhile]
  rcases h with rfl | h
  · rfl
  · rw [ofText?_fenced hz (fun hmem => hcolon ((List.dropWhile_suffix _).subset hmem)) h]

theorem scanOperator_fenced (hz : Fenced z) (hcolon : ':' ∉ c :: t) :
    scanOperator (c :: t ++ z) = scanOperator (c :: t) := by
  have hdouble : doubleOperators.contains ((c :: t ++ z).take 2) = doubleOperators.contains ((c :: t).take 2) := by
    cases t with
    | nil =>
      cases z with
      | nil => rfl
      | cons d z => rcases hz d rfl with rfl | rfl <;> simp [doubleOperators]
    | cons d t => rfl
  unfold scanOperator
  rw [ofText?_fenced hz hcolon (.inl (List.cons_ne_nil c t)), hdouble]
  rfl

/-- A sign, or `#` with a base. -/
def IsDecoration (c : Char) (t : Text) : Prop :=
  (c = '$' ∨ c = '%') ∧ t = [] ∨ c = '#' ∧ t ≠ [] ∧ ∀ d ∈ t, Byte.isDigit d = true

/-- The last token `c :: t` of a text has something that a colon right behind it takes. -/
inductive Yields (before : Before) (c : Char) (t : Text) : Prop
  | decoration (h : IsDecoration c t)
  | amount (hc : c = '$') (hnumber : startsNumber t = true) (ht : t.drop (numeralLength true t) = ['%'])
  | percentage (hnumber : startsNumber (c :: t) = true)
    (hdecimal : ∀ z, Fenced z → scanNumber (c :: t ++ z) = scanDecimal false (c :: t ++ z))
    (ht : (c :: t).drop (numeralLength false (c :: t)) = ['%'])
  | based (hc : Byte.isNameStart c = true) (ht : EndsBased before (c :: t))

/-- No other token depends on the fence behind it. -/
theorem scan_fenced (hz : Fenced z) (hquote : c ≠ '"') (hslash : ¬(c = '/' ∧ t.head? = some '/'))
    (hcolon : ':' ∉ c :: t)
    (h : ¬Yields before c t ∨ z.head? ≠ some ':') : scan before c (t ++ z) = scan before c t := by
  have hslash' : ¬(c = '/' ∧ (t ++ z).head? = some '/') := by rwa [hz.head?_eq_some (c := '/') rfl]
  have hrest : ':' ∉ t := fun hmem => hcolon (List.mem_cons_of_mem c hmem)
  unfold scan
  split
  · rfl
  · exact absurd rfl hquote
  · rfl
  · rfl
  · rfl
  · rfl
  · rfl
  · rfl
  · rfl
  · rfl
  · refine scanDollar_fenced hz hrest
      (h.imp_left fun h => ⟨fun ht => h (.decoration (.inl ⟨.inl rfl, ht⟩)), ?_⟩)
    exact fun ⟨hnumber, ht⟩ => h (.amount rfl hnumber ht)
  · exact scanPercent_fenced hz hrest (h.imp_left fun h ht => h (.decoration (.inl ⟨.inr rfl, ht⟩)))
  · refine scanHash_fenced hz hrest ?_
    by_cases ht : t = []
    · exact .inl ht
    · refine .inr (h.imp_left fun h hdigits => h (.decoration (.inr ⟨rfl, ht, ?_⟩)))
      exact List.dropWhile_eq_nil_iff.mp hdigits
  · rw [if_neg hslash, if_neg hslash', ← List.cons_append, startsNumber_cut hz.cut]
    split
    · rename_i hstarts
      rcases scanNumber_cut (c :: t) with hdecimal | ⟨-, hsame⟩
      · have hown := hdecimal [] cut_nil
        rw [List.append_nil] at hown
        rw [hdecimal z hz.cut, hown]
        exact scanDecimal_fenced hz hcolon
          (h.imp_left fun h ht => h (.percentage hstarts (fun z hz => hdecimal z hz.cut) ht))
      · exact hsame z hz.cut
    · split
      · rename_i hname
        exact scanName_fenced hz hcolon (h.imp_left fun h ht => h (.based hname ht))
      · exact scanOperator_fenced hz hcolon

end Signs

end Lexer
end Worksheet
