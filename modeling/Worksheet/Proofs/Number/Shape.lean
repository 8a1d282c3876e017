import Worksheet.Number.Writing
import Worksheet.Proofs.Text

/-! What the characters of a written value are. A `Proper` numeral has digits where digits belong, or `inf` or
    `nan` in place of its whole part; everything that is done to a numeral keeps it proper, and so every value
    is written as a proper one. -/

namespace Worksheet
open Text

namespace Decimal

theorem isDigit_of_mem_padded {width n : Nat} {c : Char} (h : c ∈ padded width n) : Byte.isDigit c = true := by
  rcases List.mem_append.mp h with h | h
  · obtain rfl := List.eq_of_mem_replicate h
    rfl
  · exact isDigit_of_mem_ofNat h

theorem padded_ne_nil (width n : Nat) : padded width n ≠ [] := by
  simp [padded, ofNat_ne_nil]

end Decimal

namespace Numeral

/-- The digits of a numeral are digits, unless it stands for no finite number. -/
structure Proper (n : Numeral) : Prop where
  whole_ne_nil : n.whole ≠ []
  whole : (∀ c ∈ n.whole, Byte.isDigit c = true) ∨ n.whole = "inf".toList ∨ n.whole = "nan".toList
  fraction : ∀ c ∈ n.fraction, Byte.isDigit c = true

/-- The numeral stands for a finite number. -/
def isFinite (n : Numeral) : Bool := n.whole.all Byte.isDigit

section Proper
variable {n : Numeral}

/-- The sign, `$`, grouping, exponent and `%` do not matter. -/
theorem Proper.dress {m : Numeral} (h : n.Proper) (hwhole : m.whole = n.whole) (hfraction : m.fraction = n.fraction) :
    m.Proper :=
  ⟨hwhole ▸ h.whole_ne_nil, hwhole ▸ h.whole, hfraction ▸ h.fraction⟩

theorem Proper.stripZeros (h : n.Proper) : n.stripZeros.Proper where
  whole_ne_nil := h.whole_ne_nil
  whole := h.whole
  fraction c hc := by
    rw [Numeral.stripZeros, List.mem_reverse] at hc
    exact h.fraction c (List.mem_reverse.mp ((List.dropWhile_suffix _).subset hc))

theorem Proper.padFraction (h : n.Proper) (count : Nat) : (n.padFraction count).Proper := by
  unfold Numeral.padFraction
  split
  · refine ⟨h.whole_ne_nil, h.whole, fun c hc => ?_⟩
    rcases List.mem_append.mp hc with hc | hc
    · exact h.fraction c hc
    · obtain rfl := List.eq_of_mem_replicate hc
      rfl
  · exact h

theorem Proper.group (h : n.Proper) : n.group.Proper := h.dress rfl rfl

theorem Proper.dropNegativeZero (h : n.Proper) : n.dropNegativeZero.Proper := h.dress rfl rfl

theorem proper_fixed (x : Float) (places : Int) : (fixed x places).Proper := by
  unfold fixed
  split
  · refine ⟨ofNat_ne_nil _, .inl fun c hc => isDigit_of_mem_ofNat hc, fun c hc => ?_⟩
    simp only [Decimal.fixedDigits] at hc
    split at hc
    · cases hc
    · exact Decimal.isDigit_of_mem_padded hc
  · refine ⟨?_, .inr ?_, by simp⟩ <;> split <;> simp

theorem proper_scientific (x : Float) (places : Int) : (scientific x places).Proper where
  whole_ne_nil := by
    have hne := Decimal.padded_ne_nil (boundedPlaces places + 1)
      (Decimal.leadingDigits (boundedPlaces places) (Binary.units x)).1
    simpa [scientific] using hne
  whole := .inl fun _ hc => Decimal.isDigit_of_mem_padded (List.mem_of_mem_take hc)
  fraction _ hc := Decimal.isDigit_of_mem_padded (List.mem_of_mem_drop hc)

end Proper
end Numeral

namespace Written

theorem proper_positional (x : Float) (places : Int) : (positional x places).Proper := by
  unfold positional
  dsimp only
  split
  · exact Numeral.proper_scientific x places
  · exact Numeral.proper_fixed x places

theorem proper_engineeringWith (x : Float) (places exponent : Int) (libm : Libm := .native) :
    (engineeringWith x places exponent libm).Proper :=
  (Numeral.proper_fixed (x / libm.pow 10.0 (Binary.ofInt exponent)) places).dress rfl rfl

theorem proper_engineering (x : Float) (places : Int) (libm : Libm := .native) : (engineering x places libm).Proper := by
  unfold engineering
  split
  · exact Numeral.proper_fixed 0.0 places
  · dsimp only
    split <;> exact proper_engineeringWith x places _ libm

theorem proper_numeral (x : Float) (places : Int) (stripZeros : Bool) (notated : Notation) (groupDigits : Bool)
    (libm : Libm := .native) : (numeral x places stripZeros notated groupDigits libm).Proper := by
  unfold numeral
  refine Numeral.Proper.dropNegativeZero ?_
  have hstripped {n : Numeral} (h : n.Proper) : (if stripZeros then n.stripZeros else n).Proper := by
    split
    · exact h.stripZeros
    · exact h
  have hgrouped {n : Numeral} (h : n.Proper) : (if groupDigits then n.group else n).Proper := by
    split
    · exact h.group
    · exact h
  refine hgrouped (hstripped ?_)
  cases notated with
  | positional => exact proper_positional x places
  | scientific => exact Numeral.proper_scientific x places
  | engineering => exact proper_engineering x places libm

/-- A written value has digits where digits belong. -/
def Proper : Written → Prop
  | nan => True
  | infinite _ _ => True
  | based _ digits _ => digits ≠ [] ∧ ∀ c ∈ digits, Byte.isAlphanumeric c = true
  | decimal n => n.Proper

theorem isAlphanumeric_ofDigit {n : Nat} (h : n < 36) : Byte.isAlphanumeric (Byte.ofDigit n) = true := by
  have hall : ∀ d : Fin 36, Byte.isAlphanumeric (Byte.ofDigit d) = true := by decide
  exact hall ⟨n, h⟩

theorem isAlphanumeric_of_mem_go {base : Nat} (hpos : 0 < base) (hbase : base ≤ 36) {fuel n : Nat} {acc : Text}
    (hacc : ∀ c ∈ acc, Byte.isAlphanumeric c = true) :
    ∀ c ∈ baseDigits.go base fuel n acc, Byte.isAlphanumeric c = true := by
  have hcons (n : Nat) {acc : Text} (hacc : ∀ c ∈ acc, Byte.isAlphanumeric c = true) :
      ∀ c ∈ Byte.ofDigit (n % base) :: acc, Byte.isAlphanumeric c = true := by
    intro c hc
    rcases List.mem_cons.mp hc with rfl | hc
    · exact isAlphanumeric_ofDigit (Nat.lt_of_lt_of_le (Nat.mod_lt _ hpos) hbase)
    · exact hacc c hc
  induction fuel generalizing n acc with
  | zero => exact hcons n hacc
  | succ fuel ih =>
    unfold baseDigits.go
    dsimp only
    split
    · exact hcons n hacc
    · exact ih (hcons n hacc)

theorem go_ne_nil (base fuel n : Nat) (acc : Text) : baseDigits.go base fuel n acc ≠ [] := by
  induction fuel generalizing n acc with
  | zero => simp [baseDigits.go]
  | succ fuel ih =>
    unfold baseDigits.go
    dsimp only
    split
    · simp
    · exact ih _ _

theorem proper_number (x : Float) (places : Int) (stripZeros : Bool) (notated : Notation) (base : Nat)
    (groupDigits : Bool) : (number x places stripZeros notated base groupDigits).Proper := by
  unfold number
  split
  · trivial
  · split
    · trivial
    · split
      · rename_i hbase
        simp only [hasBase, Bool.and_eq_true, decide_eq_true_eq] at hbase
        obtain ⟨⟨⟨⟨-, hlow⟩, hhigh⟩, -⟩, -⟩ := hbase
        exact ⟨go_ne_nil _ _ _ _, isAlphanumeric_of_mem_go (by omega) hhigh (by simp)⟩
      · exact proper_numeral x places stripZeros notated groupDigits

theorem proper_money (x : Float) (full : Bool) (s : Settings) : (money x full s).Proper := by
  unfold money
  dsimp only
  refine Numeral.Proper.dropNegativeZero ?_
  split
  · exact ((proper_numeral x.abs fullPlaces s.stripZeros s.notated s.groupDigits).padFraction 2).dress rfl rfl
  · exact (Numeral.proper_fixed x.abs 2).dress rfl rfl

theorem proper_percentage (x : Float) (full : Bool) (s : Settings) : (percentage x full s).Proper := by
  unfold percentage
  dsimp only
  split
  · split
    · trivial
    · exact (proper_numeral (x * 100.0) fullPlaces s.stripZeros s.notated false).dress rfl rfl
  · exact (Numeral.proper_fixed (x * 100.0) 2).stripZeros.dropNegativeZero.dress rfl rfl

theorem proper_value (x : Float) (style : Style) (full : Bool) (base : Nat) (s : Settings) :
    (value x style full base s).Proper := by
  unfold value
  split
  · cases style with
    | money => exact proper_money x full s
    | percent => exact proper_percentage x full s
    | plain => exact proper_number _ _ _ _ _ _
  · exact proper_number _ _ _ _ _ _

end Written

namespace Numeral

/-! ### The characters of a numeral -/

def signText (n : Numeral) : Text := if n.negative then ['-'] else []

def dollarText (n : Numeral) : Text := if n.dollar then ['$'] else []

def wholeText (n : Numeral) : Text := if n.grouped then groupThousands n.whole else n.whole

def fractionText (n : Numeral) : Text := if n.fraction.isEmpty then [] else '.' :: n.fraction

def exponentText (n : Numeral) : Text := match n.exponent with | none => [] | some e => renderExponent e

def percentText (n : Numeral) : Text := if n.percent then ['%'] else []

/-- Everything before the exponent. -/
def body (n : Numeral) : Text := n.signText ++ n.dollarText ++ n.wholeText ++ n.fractionText

theorem render_eq (n : Numeral) : n.render = n.body ++ n.exponentText ++ n.percentText := rfl

/-- A digit, or the comma between thousands. -/
def isWhole (c : Char) : Bool := Byte.isDigit c || c == ','

/-- Grouping puts commas between the characters and changes nothing else. -/
theorem mem_groupThousands {t : Text} {c : Char} :
    (c ∈ groupThousands t → c ∈ t ∨ c = ',') ∧ (c ∈ t → c ∈ groupThousands t) := by
  unfold groupThousands
  induction t with
  | nil => simp
  | cons d t ih =>
    rw [List.foldr_cons]
    generalize List.foldr _ _ t = grouped at ih ⊢
    split <;> grind

section Proper
variable {n : Numeral}

theorem isWhole_of_mem_wholeText (hn : n.isFinite = true) {c : Char} (hc : c ∈ n.wholeText) : isWhole c = true := by
  have hdigits : ∀ c ∈ n.whole, Byte.isDigit c = true := by simpa [isFinite] using hn
  unfold wholeText at hc
  split at hc
  · rcases mem_groupThousands.1 hc with h | rfl
    · simp [isWhole, hdigits c h]
    · rfl
  · simp [isWhole, hdigits c hc]

theorem mem_wholeText {c : Char} (hc : c ∈ n.whole) : c ∈ n.wholeText := by
  unfold wholeText
  split
  · exact mem_groupThousands.2 hc
  · exact hc

theorem any_isDigit_wholeText (hn : n.isFinite = true) (hne : n.whole ≠ []) : n.wholeText.any Byte.isDigit = true := by
  have hdigits : ∀ c ∈ n.whole, Byte.isDigit c = true := by simpa [isFinite] using hn
  obtain ⟨c, t, hwhole⟩ := List.exists_cons_of_ne_nil hne
  have hc : c ∈ n.whole := by simp [hwhole]
  exact List.any_eq_true.mpr ⟨c, mem_wholeText hc, hdigits c hc⟩

/-- The characters of numerals, with those of `inf` and `nan`. -/
def isShown (c : Char) : Bool := Byte.isDigit c || [',', '.', '-', '+', '$', '%', 'e', 'i', 'n', 'f', 'a'].contains c

theorem isShown_of_isDigit {c : Char} (h : Byte.isDigit c = true) : isShown c = true := by simp [isShown, h]

theorem Proper.isShown_of_mem_whole (hn : n.Proper) {c : Char} (hc : c ∈ n.whole) : isShown c = true ∧ c ≠ '-' := by
  rcases hn.whole with h | h | h
  · refine ⟨isShown_of_isDigit (h c hc), ?_⟩
    rintro rfl
    simpa [Byte.isDigit] using h _ hc
  · have hall : ("inf".toList.all fun c => isShown c && c != '-') = true := by decide
    rw [h] at hc
    simpa using List.all_eq_true.mp hall c hc
  · have hall : ("nan".toList.all fun c => isShown c && c != '-') = true := by decide
    rw [h] at hc
    simpa using List.all_eq_true.mp hall c hc

theorem Proper.isShown_of_mem_render (hn : n.Proper) {c : Char} (hc : c ∈ n.render) : isShown c = true := by
  simp only [render_eq, body, List.mem_append] at hc
  rcases hc with ((((hc | hc) | hc) | hc) | hc) | hc
  · unfold signText at hc
    split at hc <;> simp_all [isShown]
  · unfold dollarText at hc
    split at hc <;> simp_all [isShown]
  · unfold wholeText at hc
    split at hc
    · rcases mem_groupThousands.1 hc with hc | rfl
      · exact (hn.isShown_of_mem_whole hc).1
      · rfl
    · exact (hn.isShown_of_mem_whole hc).1
  · unfold fractionText at hc
    split at hc
    · cases hc
    · rcases List.mem_cons.mp hc with rfl | hc
      · rfl
      · exact isShown_of_isDigit (hn.fraction c hc)
  · unfold exponentText at hc
    split at hc
    · cases hc
    · simp only [renderExponent, List.mem_cons] at hc
      rcases hc with rfl | rfl | hc
      · rfl
      · split <;> rfl
      · exact isShown_of_isDigit (isDigit_of_mem_ofNat hc)
  · unfold percentText at hc
    split at hc <;> simp_all [isShown]

/-- A numeral is more than a sign. -/
theorem Proper.exists_mem_render (hn : n.Proper) : ∃ c ∈ n.render, c ≠ '-' := by
  obtain ⟨c, t, hwhole⟩ := List.exists_cons_of_ne_nil hn.whole_ne_nil
  have hc : c ∈ n.whole := by simp [hwhole]
  refine ⟨c, ?_, (hn.isShown_of_mem_whole hc).2⟩
  simp only [render_eq, body, List.mem_append]
  exact .inl (.inl (.inl (.inr (mem_wholeText hc))))

end Proper
end Numeral

end Worksheet
