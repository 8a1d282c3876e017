import Worksheet.Proofs.Token.Fence
import Worksheet.Proofs.Token.Signs

/-! What a colon takes from the text before it. A sign or a base becomes its decoration, and so does the `%` of a
    percentage; of a base literal that begins with a letter the name is left. Whatever ends a text as a suffix, a
    percentage or such a literal is taken from. -/

namespace Worksheet
namespace Lexer
open Token Text

/-! ### Tokens before a colon -/

section Colon
variable {before : Before} {p : Position} {c : Char} {t u r : Text}

/-- The token `x` at `p`. -/
def tokenAt (k : Kind) (x : Text) (p : Position) : Token := ⟨k, x, p.line, p.col, p.offset⟩

/-- A colon at `p` with the decoration `z`. -/
def colonAt (z : Text) (d : Decoration) (p : Position) : Token := tokenAt (.marker .colon d) (z ++ [':']) p

theorem lexFrom_found {a w : Text} {k : Kind} (hc : Byte.isBlank c = false)
    (h : scan before c (a ++ w) = ⟨k, a.length⟩) :
    lexFrom 0 before p (c :: (a ++ w)) = tokenAt k (c :: a) p :: lexFrom 0 (.ofKind k) (p.advance (c :: a)) w := by
  rw [lexFrom_token hc, h, List.take_left, lexFrom_skip, Position.advance_cons]
  rfl

theorem lexFrom_blanks {g : Text} (hg : ∀ d ∈ g, Byte.isBlank d = true) (before : Before) (p : Position)
    (u : Text) :
    ∃ before', before'.operandDue = before.operandDue ∧
      lexFrom 0 before p (g ++ u) = lexFrom 0 before' (p.advance g) u := by
  induction g generalizing before p with
  | nil => exact ⟨before, rfl, rfl⟩
  | cons d g ih =>
    obtain ⟨hd, hg⟩ := List.forall_mem_cons.mp hg
    obtain ⟨before', hdue, htokens⟩ := ih hg { before with touchesName := false } (p.after d)
    exact ⟨before', hdue, by rw [List.cons_append, lexFrom_blank hd, htokens, Position.advance_cons]⟩

theorem walled_colon (hr : r.head? ≠ some ':') : Marker.colon.Walled r := by
  rw [Marker.Walled, Marker.text, List.singleton_append, Marker.ofText?_cons, if_pos rfl, if_neg hr]

theorem ofText?_colon (hr : r.head? ≠ some ':') : Marker.ofText? (':' :: r) = some .colon := walled_colon hr

/-- Behind blanks a colon is not decorated. -/
theorem lexFrom_plain_colon {g : Text} (hg : ∀ d ∈ g, Byte.isBlank d = true) (hr : r.head? ≠ some ':')
    (before : Before) (p : Position) : lexFrom 0 before p (g ++ ':' :: r) =
      colonAt [] {} (p.advance g) :: lexFrom 0 {} (p.advance (g ++ [':'])) r := by
  obtain ⟨before', -, htokens⟩ := lexFrom_blanks hg before p (':' :: r)
  rw [htokens, Position.advance_append]
  exact lexFrom_text (walled_colon hr) before' (p.advance g)

theorem lexFrom_decorated {d : Decoration} (hc : Byte.isBlank c = false)
    (h : scan before c (t ++ ':' :: r) = ⟨.marker .colon d, t.length + 1⟩) :
    lexFrom 0 before p (c :: (t ++ ':' :: r)) =
      colonAt (c :: t) d p :: lexFrom 0 {} (p.advance (c :: t ++ [':'])) r := by
  have hfound := lexFrom_found (p := p) (a := t ++ [':']) (w := r) hc (by simpa using h)
  rwa [List.append_assoc, List.singleton_append] at hfound

end Colon

/-! ### What a colon takes -/

section Yields
variable {before : Before} {c : Char} {t r : Text}

theorem scan_decoration (h : IsDecoration c t) (before : Before) (hr : r.head? ≠ some ':') :
    ∃ d, scan before c (t ++ ':' :: r) = ⟨.marker .colon d, t.length + 1⟩ := by
  have hcolon := ofText?_colon hr
  rcases h with ⟨rfl | rfl, rfl⟩ | ⟨rfl, hne, hdigits⟩
  · refine ⟨⟨.money, 10⟩, ?_⟩
    show scanDollar (':' :: r) = _
    have hnumber : startsNumber (':' :: r) = false := rfl
    rw [scanDollar, hnumber, hcolon, if_neg Bool.false_ne_true]
    rfl
  · refine ⟨⟨.percent, 10⟩, ?_⟩
    show scanPercent before (':' :: r) = _
    rw [scanPercent, hcolon]
    rfl
  · refine ⟨⟨.plain, baseOf t⟩, ?_⟩
    show scanHash (t ++ ':' :: r) = _
    have hrun : (t ++ ':' :: r).takeWhile Byte.isDigit = t := takeWhile_run hdigits (stops_cons.mpr rfl)
    unfold scanHash
    dsimp only
    rw [hrun, List.drop_left, hcolon, if_neg (by simpa using hne)]
    simp [foundMarker, Marker.text, Nat.add_comm]

/-- By itself it is a suffix, or else the operator `%`. -/
theorem scan_decoration_alone (h : IsDecoration c t) (before : Before) : (scan before c t).more = t.length ∧
    ((scan before c t).kind.isSuffix = true ∨ (scan before c t).kind = .operator) := by
  rcases h with ⟨rfl | rfl, rfl⟩ | ⟨rfl, hne, hdigits⟩
  · exact ⟨rfl, .inl rfl⟩
  · show (scanPercent before []).more = 0 ∧
      ((scanPercent before []).kind.isSuffix = true ∨ (scanPercent before []).kind = .operator)
    unfold scanPercent
    dsimp only [Marker.ofText?]
    split
    · exact ⟨rfl, .inl rfl⟩
    · exact ⟨rfl, .inr rfl⟩
  · have hrun : t.takeWhile Byte.isDigit = t := by
      simpa using takeWhile_run hdigits stops_nil
    have hscan : scan before '#' t = ⟨.suffix ⟨.plain, baseOf t⟩, t.length⟩ := by
      show scanHash t = _
      unfold scanHash
      dsimp only
      rw [hrun, List.drop_length, if_neg (by simpa using hne)]
      rfl
    rw [hscan]
    exact ⟨rfl, .inl rfl⟩

theorem numeralLength_pos {money : Bool} (hnumber : startsNumber t = true)
    (ht : t.drop (numeralLength money t) = ['%']) : 0 < numeralLength money t := by
  refine Nat.pos_of_ne_zero fun hzero => ?_
  rw [hzero, List.drop_zero] at ht
  rw [ht] at hnumber
  cases hnumber

theorem scanDecimal_percentage (money : Bool) (r : Text) (ht : t.drop (numeralLength money t) = ['%']) :
    (∃ v, scanDecimal money t = ⟨.number v 10 .percent, numeralLength money t⟩) ∧
      ∃ v s, scanDecimal money (t ++ ':' :: r) = ⟨.number v 10 s, numeralLength money t - 1⟩ := by
  have hle : numeralLength money t ≤ t.length := (quiet_numeralLength money t).length_le
  have hlength := numeralLength_cut (fenced_colon r).cut money t
  have halone : isPercentage ['%'] = true := rfl
  have hbefore : isPercentage (['%'] ++ ':' :: r) = false := by
    have hsome : (Marker.ofText? (':' :: r)).isSome = true := (ofText?_isSome_fenced (fenced_colon r)).mpr rfl
    have hnone : (Marker.ofText? (':' :: r)).isNone = false := by rw [← Option.not_isSome, hsome]; rfl
    show ('%' == '%' && (Marker.ofText? (':' :: r)).isNone && !operandFollows (':' :: r)) = false
    rw [hnone, Bool.and_false, Bool.false_and]
  constructor
  · rw [scanDecimal_eq, ht, if_pos halone]
    exact ⟨_, rfl⟩
  · rw [scanDecimal_eq, hlength, List.drop_append_of_le_length hle, ht, hbefore, if_neg Bool.false_ne_true]
    exact ⟨_, _, rfl⟩

/-- A percentage by itself, and the number that is left of it before a colon. -/
def IsPercentage (before : Before) (c : Char) (y : Text) : Prop :=
  (∃ v, scan before c (y ++ ['%']) = ⟨.number v 10 .percent, y.length + 1⟩) ∧
    ∀ r, ∃ v s, scan before c (y ++ '%' :: ':' :: r) = ⟨.number v 10 s, y.length⟩

theorem isPercentage_amount (before : Before) (hnumber : startsNumber t = true)
    (ht : t.drop (numeralLength true t) = ['%']) : ∃ y, t = y ++ ['%'] ∧ IsPercentage before '$' y := by
  have hpos := numeralLength_pos hnumber ht
  have hsplit : t.take (numeralLength true t) ++ ['%'] = t := by rw [← ht, List.take_append_drop]
  have hlength : (t.take (numeralLength true t)).length = numeralLength true t :=
    List.length_take_of_le (quiet_numeralLength true t).length_le
  refine ⟨_, hsplit.symm, ?_, fun r => ?_⟩
  · obtain ⟨⟨v, hv⟩, -⟩ := scanDecimal_percentage true [] ht
    refine ⟨v, ?_⟩
    rw [hsplit, hlength]
    show scanDollar t = _
    rw [scanDollar, if_pos hnumber, hv]
  · obtain ⟨-, v, s, hv⟩ := scanDecimal_percentage true r ht
    refine ⟨v, s, ?_⟩
    rw [← List.singleton_append, ← List.append_assoc, hsplit, hlength]
    show scanDollar (t ++ ':' :: r) = _
    have hnumber' : startsNumber (t ++ ':' :: r) = true := startsNumber_append hnumber _
    rw [scanDollar, if_pos hnumber', hv]
    show (⟨_, numeralLength true t - 1 + 1⟩ : Found) = _
    rw [Nat.sub_add_cancel hpos]

theorem isPercentage_number (before : Before) (hnumber : startsNumber (c :: t) = true)
    (hdecimal : ∀ z, Fenced z → scanNumber (c :: t ++ z) = scanDecimal false (c :: t ++ z))
    (ht : (c :: t).drop (numeralLength false (c :: t)) = ['%']) :
    ∃ y, t = y ++ ['%'] ∧ IsPercentage before c y := by
  have hpos := numeralLength_pos hnumber ht
  have hle := (quiet_numeralLength false (c :: t)).length_le
  have hown (r : Text) := scanDecimal_percentage (t := c :: t) false r
  generalize numeralLength false (c :: t) = n at ht hpos hle hown
  obtain ⟨n, rfl⟩ : ∃ m, n = m + 1 := ⟨n - 1, (Nat.sub_add_cancel hpos).symm⟩
  rw [List.drop_succ_cons] at ht
  have hsplit : t.take n ++ ['%'] = t := by rw [← ht, List.take_append_drop]
  have hlength : (t.take n).length = n := List.length_take_of_le (Nat.le_of_succ_le_succ hle)
  refine ⟨_, hsplit.symm, ?_, fun r => ?_⟩
  · obtain ⟨⟨v, hv⟩, -⟩ := hown [] ht
    have hnumeral := hdecimal [] fenced_nil
    rw [List.append_nil] at hnumeral
    refine ⟨v, ?_⟩
    rw [hsplit, hlength, scan_of_startsNumber hnumber, hnumeral, hv]
  · obtain ⟨-, v, s, hv⟩ := hown r ht
    have hnumeral := hdecimal (':' :: r) (fenced_colon r)
    refine ⟨v, s, ?_⟩
    rw [← List.singleton_append, ← List.append_assoc, hsplit, hlength]
    have hnumber' : startsNumber (c :: (t ++ ':' :: r)) = true := startsNumber_append hnumber _
    rw [scan_of_startsNumber hnumber', ← List.cons_append, hnumeral, hv]
    rfl

theorem more_scanBased (digits t : Text) :
    (scanBased digits t).more = digits.length + (t.takeWhile Byte.isDigit).length := by
  unfold scanBased
  dsimp only
  split
  · rfl
  · split <;> rfl

/-- A base literal by itself, and the name that is left of it before a colon. -/
structure IsBased (before : Before) (c : Char) (v ds g : Text) : Prop where
  digits : ds ≠ [] ∧ ∀ d ∈ ds, Byte.isDigit d = true
  gaps : ∀ d ∈ g, isGap d = true
  alone : (scan before c (v ++ '#' :: (ds ++ g))).more = v.length + 1 + ds.length
  name : ∀ r, scan before c (v ++ '#' :: (ds ++ (g ++ ':' :: r))) = ⟨.name, v.length⟩

theorem EndsBased.exists_base (hc : Byte.isNameStart c = true) (h : EndsBased before (c :: t)) : ∃ v w,
    t = v ++ '#' :: w ∧ nameSpan (c :: t) = c :: v ∧ startsWithDigit w = true ∧ behindBase w = [] := by
  have hspan : nameSpan (c :: t) = c :: t.takeWhile Byte.isNamePart := by
    simp [nameSpan, Byte.isNamePart_of_isNameStart hc]
  have hdrop : (c :: t).drop (nameSpan (c :: t)).length = t.dropWhile Byte.isNamePart := by
    rw [hspan, List.length_cons, List.drop_succ_cons, drop_length_takeWhile]
  have hbase := h.base
  have hends := h.ends
  rw [hdrop] at hbase hends
  simp only [isBase, Bool.and_eq_true, beq_iff_eq] at hbase
  obtain ⟨w, hw⟩ := List.head?_eq_some_iff.mp hbase.1
  rw [hw, List.tail_cons] at hbase hends
  exact ⟨_, w, by rw [← hw, List.takeWhile_append_dropWhile], hspan, hbase.2, hends⟩

/-- A name with a base behind it is read as a base literal or as a name. -/
theorem scan_base (before : Before) {v w z : Text} (hc : Byte.isNameStart c = true)
    (hspan : nameSpan (c :: (v ++ '#' :: w)) = c :: v)
    (hspecial : c :: v ∉ specialNames) (hdigit : startsWithDigit w = true) (hz : Fenced z) :
    scan before c (v ++ '#' :: (w ++ z)) =
      if before.operandDue || !suffixFollows (w ++ z) then scanBased (c :: v) (w ++ z) else ⟨.name, v.length⟩ := by
  have hspan' : nameSpan (c :: (v ++ '#' :: (w ++ z))) = c :: v := by
    have hsame := nameSpan_cut hz.cut (c :: (v ++ '#' :: w))
    rw [hspan] at hsame
    rw [← hsame]
    simp
  have hdrop : (c :: (v ++ '#' :: (w ++ z))).drop (c :: v).length = '#' :: (w ++ z) := by
    rw [List.length_cons, List.drop_succ_cons, List.drop_left]
  have htakes : takesBase before ('#' :: (w ++ z)) = (before.operandDue || !suffixFollows (w ++ z)) := by
    show ('#' == '#' && startsWithDigit (w ++ z) && (before.operandDue || !suffixFollows (w ++ z))) = _
    rw [startsWithDigit_append w (hz.stops rfl), hdigit, Bool.and_true, beq_self_eq_true, Bool.true_and]
  rw [scan_of_isNameStart hc, scanName_eq (by rwa [hspan']), hspan', hdrop, htakes]
  rfl

theorem isBased_of_endsBased (hc : Byte.isNameStart c = true) (h : EndsBased before (c :: t)) :
    ∃ v ds g, t = v ++ '#' :: (ds ++ g) ∧ IsBased before c v ds g := by
  obtain ⟨v, w, rfl, hspan, hdigit, hends⟩ := h.exists_base hc
  have hspecial := h.name
  rw [hspan] at hspecial
  have hscan {z : Text} (hz : Fenced z) := scan_base before hc hspan hspecial hdigit hz
  have hfollows (z : Text) (hz : Fenced z) : suffixFollows (w ++ z) = (z.head? == some ':') := by
    show ((Marker.ofText? (behindBase (w ++ z))).isSome || (behindBase (w ++ z)).head? == some '[') = _
    rw [behindBase_fenced hz, hends, hz.beq_head? (c := '[') rfl]
    exact (Bool.or_false _).trans (Bool.eq_iff_iff.mpr ((ofText?_isSome_fenced hz).trans beq_iff_eq.symm))
  have hw : w.takeWhile Byte.isDigit ++ w.dropWhile Byte.isDigit = w := List.takeWhile_append_dropWhile
  refine ⟨v, w.takeWhile Byte.isDigit, w.dropWhile Byte.isDigit, by rw [hw], ?_⟩
  constructor
  case digits =>
    refine ⟨fun hnil => ?_, fun d hd => List.mem_takeWhile_imp hd⟩
    obtain ⟨d, hd, hd'⟩ := (Option.any_eq_true _ _).mp hdigit
    obtain ⟨w, rfl⟩ := List.head?_eq_some_iff.mp hd
    simp [hd'] at hnil
  case gaps => exact List.dropWhile_eq_nil_iff.mp hends
  case alone =>
    have halone := hscan fenced_nil
    rw [hfollows [] fenced_nil, List.append_nil] at halone
    rw [hw, halone, if_pos (by simp), more_scanBased]
    rfl
  case name =>
    intro r
    have hbefore := hscan (fenced_colon r)
    rw [hfollows _ (fenced_colon r), if_neg (by simp [h.due])] at hbefore
    rw [← List.append_assoc, hw, hbefore]

/-- The token `c :: t` that ends a text is a suffix, a percentage, or a base literal that begins with a letter where no
    operand is due. -/
def Cedes (before : Before) (c : Char) (t : Text) : Prop :=
  (scan before c t).more = t.length ∧ (isDressed (scan before c t).kind = true ∨
    before.operandDue = false ∧ Byte.isNameStart c = true ∧ '#' ∈ t)

theorem isDressed_scanName (before : Before) (t : Text) : isDressed (scanName before t).kind = false := by
  unfold scanName
  dsimp only
  split
  · rfl
  · split
    · rfl
    · split
      · split
        · exact isDressed_scanBased _ _
        · rfl
      · rfl

theorem isDressed_scanOperator (t : Text) : isDressed (scanOperator t).kind = false := by
  unfold scanOperator
  split
  · rfl
  · split
    · rfl
    · split <;> rfl

theorem isPercentage_of_scanDecimal {money : Bool} (h : isDressed (scanDecimal money t).kind = true) :
    (scanDecimal money t).more = numeralLength money t ∧ isPercentage (t.drop (numeralLength money t)) = true := by
  rw [scanDecimal_eq] at h ⊢
  split
  · rename_i hpercentage
    exact ⟨rfl, hpercentage⟩
  · rename_i hplain
    rw [if_neg hplain] at h
    cases money <;> cases h

/-- A percentage that ends the text. -/
theorem drop_eq_of_isPercentage {n : Nat} (h : isPercentage (t.drop n) = true) (hlength : t.length = n + 1) :
    t.drop n = ['%'] := by
  simp only [isPercentage, Bool.and_eq_true, beq_iff_eq] at h
  obtain ⟨r, hr⟩ := List.head?_eq_some_iff.mp h.1.1
  have hdrop : (t.drop n).length = 1 := by
    rw [List.length_drop]
    omega
  rw [hr, List.length_cons] at hdrop
  rw [hr, List.eq_nil_of_length_eq_zero (Nat.succ.inj hdrop)]

theorem yields_of_dressed (hmarker : (scan before c t).kind.isMarker = false)
    (h : isDressed (scan before c t).kind = true) (hmore : (scan before c t).more = t.length) : Yields before c t := by
  revert hmarker h hmore
  unfold scan
  split
  case h_11 =>
    unfold scanDollar
    split
    · rename_i hnumber
      intro _ h hmore
      obtain ⟨hlength, hpercentage⟩ := isPercentage_of_scanDecimal h
      exact .amount rfl hnumber (drop_eq_of_isPercentage hpercentage (by rw [← hmore, ← hlength]))
    · split
      · exact fun hmarker => nomatch hmarker
      · exact fun _ _ hmore => .decoration (.inl ⟨.inl rfl, List.eq_nil_of_length_eq_zero hmore.symm⟩)
  case h_12 =>
    unfold scanPercent
    split
    · exact fun hmarker => nomatch hmarker
    · split
      · exact fun _ _ hmore => .decoration (.inl ⟨.inr rfl, List.eq_nil_of_length_eq_zero hmore.symm⟩)
      · exact fun _ h => nomatch h
  case h_13 =>
    unfold scanHash
    dsimp only
    split
    · exact fun _ h => nomatch h
    · rename_i hne
      split
      · exact fun hmarker => nomatch hmarker
      · intro _ _ hmore
        have hall : t.takeWhile Byte.isDigit = t := (List.takeWhile_prefix _).eq_of_length hmore
        rw [hall, List.isEmpty_iff] at hne
        exact .decoration (.inr ⟨rfl, hne, List.takeWhile_eq_self_iff.mp hall⟩)
  case h_14 =>
    split
    · exact fun _ h => nomatch h
    · split
      · rename_i hnumber
        intro _ h hmore
        rcases scanNumber_cut (c :: t) with hdecimal | ⟨hplain, -⟩
        · have hown := hdecimal [] cut_nil
          rw [List.append_nil] at hown
          rw [hown] at h hmore
          obtain ⟨hlength, hpercentage⟩ := isPercentage_of_scanDecimal h
          refine .percentage hnumber (fun z hz => hdecimal z hz.cut) (drop_eq_of_isPercentage hpercentage ?_)
          rw [← hlength, hmore, List.length_cons]
        · rw [h] at hplain
          cases hplain
      · split
        · exact fun _ h => absurd h (by simp [isDressed_scanName])
        · exact fun _ h => absurd h (by simp [isDressed_scanOperator])
  all_goals exact fun _ h => nomatch h

theorem yields_of_based (hc : Byte.isNameStart c = true) (hdue : before.operandDue = false) (hhash : '#' ∈ t)
    (hmore : (scan before c t).more = t.length) : Yields before c t := by
  have hle : (nameSpan (c :: t)).length ≤ (c :: t).length := (List.takeWhile_prefix _).length_le
  have hsplit : nameSpan (c :: t) ++ (c :: t).drop (nameSpan (c :: t)).length = c :: t := by
    rw [nameSpan, drop_length_takeWhile, List.takeWhile_append_dropWhile]
  -- A name is no token up to the end of the text, because there is a base behind it.
  have hshort : (nameSpan (c :: t)).length - 1 ≠ t.length := by
    intro hlength
    have hall : nameSpan (c :: t) = c :: t := by
      refine (List.takeWhile_prefix _).eq_of_length ?_
      show (nameSpan (c :: t)).length = t.length + 1
      have hpos : nameSpan (c :: t) ≠ [] := by simp [nameSpan, Byte.isNamePart_of_isNameStart hc]
      have := List.length_pos_iff.mpr hpos
      omega
    have hpart := List.takeWhile_eq_self_iff.mp hall '#' (List.mem_cons_of_mem c hhash)
    cases hpart
  rw [scan_of_isNameStart hc] at hmore
  by_cases hspecial : nameSpan (c :: t) ∈ specialNames
  · rw [scanName_special hspecial] at hmore
    exact absurd hmore hshort
  · rw [scanName_eq hspecial] at hmore
    split at hmore
    · rename_i htakes
      simp only [takesBase, hdue, Bool.false_or, Bool.and_eq_true] at htakes
      refine .based hc ⟨hspecial, htakes.1, hdue, ?_⟩
      simp only [isBase, Bool.and_eq_true, beq_iff_eq] at htakes
      obtain ⟨w, hw⟩ := List.head?_eq_some_iff.mp htakes.1.1
      rw [hw] at hsplit hmore ⊢
      rw [more_scanBased, List.tail_cons] at hmore
      have hlength := congrArg List.length hsplit
      rw [List.length_append, List.length_cons, List.length_cons] at hlength
      have hall : w.takeWhile Byte.isDigit = w := (List.takeWhile_prefix _).eq_of_length (by omega)
      rw [List.tail_cons, behindBase, List.dropWhile_eq_nil_iff.mpr (List.takeWhile_eq_self_iff.mp hall)]
      rfl
    · exact absurd hmore hshort

end Yields

end Lexer
end Worksheet
