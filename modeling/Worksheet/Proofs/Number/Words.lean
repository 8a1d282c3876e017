import Worksheet.Proofs.Expr.Reads
import Worksheet.Proofs.Number.Whole

/-! Doubles as words of 64 bits. A double is rounded toward zero for its word, but from `9.2e18` on it is replaced by
    an extreme word, although the words go on to `2 ^ 63`. Apart from those in between, the operators on bits give the
    double nearest to what they make of the two integers in two's complement. -/

namespace Worksheet
namespace Binary

/-- The integer that a number is rounded to toward zero. -/
def towardZero (q : ℚ) : ℤ := if q < 0 then ⌈q⌉ else ⌊q⌋

/-- The integer has 64 bits, with its sign. -/
def FitsWord (n : ℤ) : Prop := -2 ^ 63 ≤ n ∧ n < 2 ^ 63

/-- `x` is the double nearest to the integer `n`: the one that `n` is rounded to, and no other one is nearer. -/
structure IsNearest (x : Float) (n : ℤ) : Prop where
  rounded : x = ofInt n
  nearest : ∀ y : Float, y.isFinite = true → |value x - n| ≤ |value y - n|

/-- The numbers that no extreme word replaces, and the least word, which replaces itself. -/
def KeepsWord (q : ℚ) : Prop := |q| < 92 * 10 ^ 17 ∨ q = -2 ^ 63

section Words
variable {x : Float} {n : ℤ}

theorem truncated_eq (hx : x.isFinite = true) : truncated x = towardZero (value x) := by
  obtain ⟨hle, hlt⟩ := wholePart_bounds hx
  have hsign := value_eq_units hx
  rw [← abs_value hx] at hsign
  unfold truncated towardZero
  cases hnegative : isNegative x with
  | true =>
    rw [hnegative, if_pos rfl, neg_one_mul] at hsign
    rw [if_pos rfl]
    split
    · refine (Int.ceil_eq_iff.mpr ?_).symm
      rw [hsign]
      push_cast
      exact ⟨by linarith, by linarith⟩
    · rename_i hnonneg
      have hzero : value x = 0 := by linarith [abs_nonneg (value x)]
      rw [hzero, abs_zero] at hle
      have hpart : wholePart x = 0 := Nat.le_zero.mp (by exact_mod_cast hle)
      rw [hzero, hpart]
      simp
  | false =>
    rw [hnegative, if_neg Bool.false_ne_true, one_mul] at hsign
    rw [if_neg Bool.false_ne_true, if_neg (by linarith [abs_nonneg (value x)])]
    refine (Int.floor_eq_iff.mpr ?_).symm
    rw [hsign]
    exact ⟨by exact_mod_cast hle, by exact_mod_cast hlt⟩

/-- Every integer of 64 bits has a nearest double. -/
theorem isNearest_ofInt (h : |n| ≤ 2 ^ 63) : IsNearest (ofInt n) n := by
  refine ⟨rfl, fun y hy => ?_⟩
  have hsize : (n.natAbs : ℚ) ≤ 2 ^ 63 := by
    rw [Int.abs_eq_natAbs] at h
    exact_mod_cast h
  have hsmall : ((n.natAbs : ℕ) : ℚ) / (1 : ℕ) < overflow := by
    rw [Nat.cast_one, div_one]
    linarith [two_pow_lt_overflow]
  have hlt := nearestBits_lt Nat.one_pos hsmall
  have hfinite : (ofRatio false n.natAbs 1).isFinite = true := (withSign_spec false hlt).1
  have hnearest (z : Float) (hz : z.isFinite = true) := (ofRatio_nearest Nat.one_pos hfinite hz).2
  simp only [Nat.cast_one, div_one] at hnearest
  by_cases hneg : n < 0
  · have hvalue : value (ofInt n) = -value (ofRatio false n.natAbs 1) := by
      have htrue := (withSign_spec true hlt).2
      have hfalse := (withSign_spec false hlt).2
      unfold ofInt
      rw [decide_eq_true hneg]
      unfold ofRatio
      rw [htrue, hfalse]
      simp
    have hn : (n : ℚ) = -n.natAbs := by
      rw [Nat.cast_natAbs, abs_of_neg hneg, Int.cast_neg, neg_neg]
    have hopposite := hnearest (-y) ((isFinite_neg y).trans hy)
    rw [value_neg] at hopposite
    rw [hvalue, hn, ← abs_neg, ← abs_neg (value y - _)]
    convert hopposite using 2 <;> ring
  · have hn : (n : ℚ) = n.natAbs := by rw [Nat.cast_natAbs, abs_of_nonneg (not_lt.mp hneg)]
    have hofInt : ofInt n = ofRatio false n.natAbs 1 := by
      unfold ofInt
      rw [decide_eq_false hneg]
    rw [hofInt, hn]
    exact hnearest y hy

theorem value_saturation : value 9.2e18 = 92 * 10 ^ 17 := by
  show ((8984375000000000 : ℕ) : ℚ) * 2 ^ (10 : ℤ) = _
  norm_num

theorem value_two_pow_63 : value 9223372036854775808.0 = 2 ^ 63 := by
  show ((2 ^ 52 : ℕ) : ℚ) * 2 ^ (11 : ℤ) = _
  norm_num

theorem value_ofInt_least : value (ofInt (-2 ^ 63)) = -2 ^ 63 := by
  have hfinite : (-9223372036854775808.0 : Float).isFinite = true := rfl
  rw [← value_two_pow_63, ← value_neg]
  refine (beq_iff_value ?_ hfinite).mp ?_
  · decide +kernel
  · decide +kernel

theorem value_ofInt_greatest : value (ofInt (2 ^ 63 - 1)) = 2 ^ 63 := by
  have hfinite : (9223372036854775808.0 : Float).isFinite = true := rfl
  rw [← value_two_pow_63]
  refine (beq_iff_value ?_ hfinite).mp ?_
  · decide +kernel
  · decide +kernel

theorem towardZero_intCast (n : ℤ) : towardZero n = n := by
  unfold towardZero
  rw [Int.ceil_intCast, Int.floor_intCast, ite_self]

theorem ge_saturation_iff (hx : x.isFinite = true) : x ≥ 9.2e18 ↔ 92 * 10 ^ 17 ≤ value x := by
  rw [ge_iff_le, le_iff_value rfl hx, value_saturation]

theorem le_saturation_iff (hx : x.isFinite = true) : x ≤ -9.2e18 ↔ value x ≤ -(92 * 10 ^ 17) := by
  rw [le_iff_value hx rfl, value_neg, value_saturation]

/-- A number that is kept gives the word of its integer. -/
theorem toWord_of_keepsWord (hx : x.isFinite = true) (h : KeepsWord (value x)) :
    toWord x = Int64.ofInt (towardZero (value x)) := by
  unfold toWord
  rw [hx, Bool.not_true, if_neg Bool.false_ne_true]
  rcases h with hsmall | hleast
  · rw [abs_lt] at hsmall
    have hhigh : ¬x ≥ 9.2e18 := (ge_saturation_iff hx).not.mpr (by linarith)
    have hlow : ¬x ≤ -9.2e18 := (le_saturation_iff hx).not.mpr (by linarith)
    rw [if_neg hhigh, if_neg hlow, truncated_eq hx]
  · have hhigh : ¬x ≥ 9.2e18 := (ge_saturation_iff hx).not.mpr (by rw [hleast]; norm_num)
    have hlow : x ≤ -9.2e18 := (le_saturation_iff hx).mpr (by rw [hleast]; norm_num)
    have hcast : (-2 ^ 63 : ℚ) = ((-2 ^ 63 : ℤ) : ℚ) := by norm_num
    rw [if_neg hhigh, if_pos hlow, hleast, hcast, towardZero_intCast]
    rfl

/-- A number that is not kept is at least one place of the doubles away from the extreme word that replaces it. -/
theorem toWord_of_not_keepsWord (hx : x.isFinite = true) (hfits : FitsWord (towardZero (value x)))
    (h : ¬KeepsWord (value x)) : ∃ m : ℤ, value x = m ∧
      (92 * 10 ^ 17 ≤ m ∧ m ≤ 2 ^ 63 - 1024 ∧ toWord x = Int64.maxValue ∨
        m ≤ -(92 * 10 ^ 17) ∧ -2 ^ 63 + 1024 ≤ m ∧ toWord x = Int64.minValue) := by
  unfold KeepsWord at h
  rw [not_or, not_lt] at h
  obtain ⟨hlarge, hleast⟩ := h
  obtain ⟨k, hk⟩ := exists_mul_two_pow hx 10 (by norm_num; linarith)
  have hfits : -2 ^ 63 ≤ towardZero (value x) ∧ towardZero (value x) < 2 ^ 63 := hfits
  unfold toWord
  rw [hx, Bool.not_true, if_neg Bool.false_ne_true]
  rcases le_total 0 (value x) with hsign | hsign
  · rw [abs_of_nonneg hsign] at hk hlarge
    have hm : value x = ((k * 1024 : ℤ) : ℚ) := by
      rw [hk]
      norm_num
    rw [hm, towardZero_intCast] at hfits
    refine ⟨k * 1024, hm, Or.inl ⟨?_, ?_, ?_⟩⟩
    · rw [hm] at hlarge
      exact_mod_cast hlarge
    · omega
    · rw [if_pos ((ge_saturation_iff hx).mpr hlarge)]
  · rw [abs_of_nonpos hsign] at hk hlarge
    have hm : value x = ((-(k * 1024) : ℤ) : ℚ) := by
      rw [← neg_neg (value x), hk]
      norm_num
    rw [hm, towardZero_intCast] at hfits
    have hne : -((k : ℤ) * 1024) ≠ -2 ^ 63 := fun heq => hleast (by rw [hm, heq]; norm_num)
    refine ⟨-(k * 1024), hm, Or.inr ⟨?_, ?_, ?_⟩⟩
    · have hlarge : value x ≤ -(92 * 10 ^ 17) := by linarith
      rw [hm] at hlarge
      exact_mod_cast hlarge
    · omega
    · rw [if_neg ((ge_saturation_iff hx).not.mpr (by linarith)), if_pos ((le_saturation_iff hx).mpr (by linarith))]

theorem toInt_complement (h : FitsWord n) : (~~~ BitVec.ofInt 64 n).toInt = -n - 1 := by
  obtain ⟨hlow, hhigh⟩ := h
  rw [BitVec.toInt_not, BitVec.toNat_ofInt, Int.bmod_def]
  omega

/-- The complement of a number that is not kept is off by a thousand, although the opposite number is off by one. -/
theorem not_isNearest_complement (hx : x.isFinite = true) (hfits : FitsWord (towardZero (value x)))
    (h : ¬KeepsWord (value x)) :
    ¬IsNearest (ofWord (~~~ toWord x)) (~~~ BitVec.ofInt 64 (towardZero (value x))).toInt := by
  intro hnearest
  obtain ⟨m, hm, hword⟩ := toWord_of_not_keepsWord hx hfits h
  have hopposite := hnearest.nearest (-x) ((isFinite_neg x).trans hx)
  have hfits : -2 ^ 63 ≤ towardZero (value x) ∧ towardZero (value x) < 2 ^ 63 := hfits
  rw [hm, towardZero_intCast] at hfits hopposite
  rw [value_neg, hm, toInt_complement hfits] at hopposite
  rcases hword with ⟨hlow, hhigh, hword⟩ | ⟨hhigh, hlow, hword⟩
  · have hextreme : value (ofWord (~~~ toWord x)) = ((-2 ^ 63 : ℤ) : ℚ) := by
      rw [hword]
      exact value_ofInt_least.trans (by norm_num)
    rw [hextreme] at hopposite
    have hopposite : |-2 ^ 63 - (-m - 1)| ≤ |-m - (-m - 1)| := by exact_mod_cast hopposite
    rw [sub_sub_cancel, abs_one, abs_le] at hopposite
    omega
  · have hextreme : value (ofWord (~~~ toWord x)) = ((2 ^ 63 : ℤ) : ℚ) := by
      rw [hword]
      exact value_ofInt_greatest.trans (by norm_num)
    rw [hextreme] at hopposite
    have hopposite : |2 ^ 63 - (-m - 1)| ≤ |-m - (-m - 1)| := by exact_mod_cast hopposite
    rw [sub_sub_cancel, abs_one, abs_le] at hopposite
    omega

end Words

/-- Every word has a nearest double. -/
theorem isNearest_ofWord (w : Int64) : IsNearest (ofWord w) w.toInt :=
  isNearest_ofInt (abs_le.mpr ⟨Int64.le_toInt w, (Int64.toInt_lt w).le⟩)

end Binary

open Binary

namespace Expr

/-- The expression has the double that is nearest to the integer `n`. -/
def HasNearest (c : Context) (e : Expr) (n : ℤ) : Prop := ∃ v, (e.eval c).result = .ok v ∧ IsNearest v n

/-- The operators on bits, applied to two expressions, act on the integers `a` and `b` in two's complement. -/
structure ActsOnBits (c : Context) (e₁ e₂ : Expr) (a b : ℤ) : Prop where
  and : HasNearest c (.binary .bitAnd e₁ e₂) (BitVec.ofInt 64 a &&& BitVec.ofInt 64 b).toInt
  or : HasNearest c (.binary .bitOr e₁ e₂) (BitVec.ofInt 64 a ||| BitVec.ofInt 64 b).toInt
  xor : HasNearest c (.binary .bitXor e₁ e₂) (BitVec.ofInt 64 a ^^^ BitVec.ofInt 64 b).toInt
  complementLeft : HasNearest c (.unary .complement e₁) (~~~ BitVec.ofInt 64 a).toInt
  complementRight : HasNearest c (.unary .complement e₂) (~~~ BitVec.ofInt 64 b).toInt

section Bits
variable {c : Context} {e e₁ e₂ : Expr} {l r v : Float}

theorem result_unary (h : (e.eval c).result = .ok v) (op : PrefixOp) :
    ((unary op e).eval c).result = (Evaluation.ofOption (.unknownOperator op.symbol) (op.value? v)).result := by
  unfold eval at h ⊢
  rw [evalWith, Evaluation.result_bind, h]
  rfl

theorem result_binary {op : BinaryOp} (hand : op ≠ .and) (hor : op ≠ .or) (hl : (e₁.eval c).result = .ok l)
    (hr : (e₂.eval c).result = .ok r) : ((binary op e₁ e₂).eval c).result = (op.evaluate l r).result := by
  unfold eval at hl hr ⊢
  rw [evalWith_binary _ c hand hor, Evaluation.result_bind, hl]
  refine (Evaluation.result_bind _ _).trans ?_
  rw [hr]
  rfl

theorem hasNearest_of_word {w : Int64} {n : ℤ} (hv : (e.eval c).result = .ok (ofWord w)) (hn : w.toInt = n) :
    HasNearest c e n :=
  ⟨_, hv, hn ▸ isNearest_ofWord w⟩

/-- A complement that has the nearest double is that of an operand that is kept. -/
theorem keepsWord_of_complement (hv : (e.eval c).result = .ok v) (hfinite : v.isFinite = true)
    (hfits : FitsWord (towardZero (value v)))
    (h : HasNearest c (.unary .complement e) (~~~ BitVec.ofInt 64 (towardZero (value v))).toInt) :
    KeepsWord (value v) := by
  obtain ⟨w, hw, hnearest⟩ := h
  rw [result_unary hv] at hw
  obtain rfl := Except.ok.inj hw
  by_contra hkeeps
  exact not_isNearest_complement hfinite hfits hkeeps hnearest

/-- The operators on bits act on the truncated operands just if neither operand is replaced by an extreme word without
    being one. -/
theorem actsOnBits_iff (hl : (e₁.eval c).result = .ok l) (hr : (e₂.eval c).result = .ok r)
    (hfiniteLeft : l.isFinite = true) (hfiniteRight : r.isFinite = true) (hfitsLeft : FitsWord (towardZero (value l)))
    (hfitsRight : FitsWord (towardZero (value r))) :
    ActsOnBits c e₁ e₂ (towardZero (value l)) (towardZero (value r)) ↔ KeepsWord (value l) ∧ KeepsWord (value r) := by
  constructor
  · intro h
    exact ⟨keepsWord_of_complement hl hfiniteLeft hfitsLeft h.complementLeft,
      keepsWord_of_complement hr hfiniteRight hfitsRight h.complementRight⟩
  · rintro ⟨hkeepsLeft, hkeepsRight⟩
    have hleft := toWord_of_keepsWord hfiniteLeft hkeepsLeft
    have hright := toWord_of_keepsWord hfiniteRight hkeepsRight
    -- Words are bit vectors, so what is left of each operator is that the operands are the words of the two integers.
    have hwords (op : BinaryOp) (f : Int64 → Int64 → Int64) (hand : op ≠ .and) (hor : op ≠ .or)
        (hop : op.evaluate l r = pure (BinaryOp.onWords f l r)) : ((binary op e₁ e₂).eval c).result =
          .ok (ofWord (f (Int64.ofInt (towardZero (value l))) (Int64.ofInt (towardZero (value r))))) := by
      rw [result_binary hand hor hl hr, hop, ← hleft, ← hright]
      rfl
    have hcomplement {e : Expr} {v : Float} (hv : (e.eval c).result = .ok v)
        (hword : toWord v = Int64.ofInt (towardZero (value v))) : ((unary .complement e).eval c).result =
          .ok (ofWord (~~~ Int64.ofInt (towardZero (value v)))) := by
      rw [result_unary hv, ← hword]
      rfl
    exact
      { and := hasNearest_of_word (hwords .bitAnd (· &&& ·) (by decide) (by decide) rfl) rfl
        or := hasNearest_of_word (hwords .bitOr (· ||| ·) (by decide) (by decide) rfl) rfl
        xor := hasNearest_of_word (hwords .bitXor (· ^^^ ·) (by decide) (by decide) rfl) rfl
        complementLeft := hasNearest_of_word (hcomplement hl hleft) rfl
        complementRight := hasNearest_of_word (hcomplement hr hright) rfl }

end Bits

/-- `-7.75` counts as `-7`, and `2 ^ 62` as it is. -/
theorem actsOnBits_quarters : (FitsWord (-7) ∧ FitsWord (2 ^ 62)) ∧
    ActsOnBits {} (.number (-7.75) 10) (.number 4611686018427387904.0 10) (-7) (2 ^ 62) := by
  have hleft : value (-7.75) = -(31 / 4) := by
    rw [value_neg]
    show -(((31 * 2 ^ 48 : ℕ) : ℚ) * 2 ^ (-50 : ℤ)) = _
    norm_num
  have hright : value 4611686018427387904.0 = 2 ^ 62 := by
    show ((2 ^ 52 : ℕ) : ℚ) * 2 ^ (10 : ℤ) = _
    norm_num
  have htruncatedLeft : towardZero (value (-7.75)) = -7 := by
    rw [← truncated_eq rfl]
    decide +kernel
  have htruncatedRight : towardZero (value 4611686018427387904.0) = 2 ^ 62 := by
    rw [← truncated_eq rfl]
    decide +kernel
  have hfitsLeft : FitsWord (-7) := ⟨by norm_num, by norm_num⟩
  have hfitsRight : FitsWord (2 ^ 62) := ⟨by norm_num, by norm_num⟩
  have hkeeps : KeepsWord (value (-7.75)) ∧ KeepsWord (value 4611686018427387904.0) := by
    rw [hleft, hright]
    exact ⟨Or.inl (by norm_num [abs_of_neg]), Or.inl (by norm_num)⟩
  have hacts := (@actsOnBits_iff {} (.number (-7.75) 10) (.number 4611686018427387904.0 10) _ _ rfl rfl rfl rfl
    (by rwa [htruncatedLeft]) (by rwa [htruncatedRight])).mpr hkeeps
  rw [htruncatedLeft, htruncatedRight] at hacts
  exact ⟨⟨hfitsLeft, hfitsRight⟩, hacts⟩

/-- `9.2e18` is an integer of 64 bits and a double, but it is replaced by the greatest word. -/
theorem not_actsOnBits_saturated : (9.2e18 : Float).isFinite = true ∧ FitsWord (towardZero (value 9.2e18)) ∧
    ¬ActsOnBits {} (.number 9.2e18 10) (.number 9.2e18 10) (towardZero (value 9.2e18)) (towardZero (value 9.2e18)) := by
  have htruncated : towardZero (value 9.2e18) = 92 * 10 ^ 17 := by
    rw [← truncated_eq rfl]
    decide +kernel
  refine ⟨rfl, by rw [htruncated]; exact ⟨by norm_num, by norm_num⟩, fun h => ?_⟩
  obtain ⟨v, hv, hnearest⟩ := h.and
  obtain rfl : ofWord (toWord 9.2e18 &&& toWord 9.2e18) = v := Except.ok.inj hv
  have hresult : ofWord (toWord 9.2e18 &&& toWord 9.2e18) = ofInt (2 ^ 63 - 1) := by decide +kernel
  have hexact := hnearest.nearest 9.2e18 rfl
  have hword : (BitVec.ofInt 64 (92 * 10 ^ 17) &&& BitVec.ofInt 64 (92 * 10 ^ 17)).toInt = 92 * 10 ^ 17 := by decide
  rw [hresult, value_ofInt_greatest, htruncated, hword, value_saturation] at hexact
  norm_num at hexact

end Expr
end Worksheet
