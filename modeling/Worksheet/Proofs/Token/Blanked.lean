import Mathlib.Data.List.DropRight
import Worksheet.Proofs.Token.Colon
import Worksheet.Proofs.Token.Equals

/-! Blanks in place of comments. A token may depend on what stands behind it, over blanks but not over a comment: a
    percentage on an operand, a base behind a name on a marker. So with blanks in place of the comments of a line its
    other tokens are the same, unless one of them comes to see over a comment what it did not see before. -/

namespace Worksheet

namespace Token

/-- The number is a percentage, or the suffix asks for one. -/
def Kind.isPercent : Kind → Bool
  | number _ _ s => s == .percent
  | suffix d => d.style == .percent
  | _ => false

end Token

namespace Classify
open Token Lexer Text

/-! ### Looking ahead -/

section Ahead
variable {t b : Text} {cs : List Text} {n : Nat}

theorem cut_blank (t : Text) : Cut (' ' :: t) := by simp [Cut]

/-- A line and the same with blanks in place of its comments differ from the first comment on. -/
theorem Commented.exists_cut (h : Commented t b cs) : ∃ x u v, t = x ++ u ∧ b = x ++ v ∧ Cut u ∧ Cut v := by
  have hcomment {c : Char} {x : Text} {n : Nat} (hnote : note? c x = some n) (y : Text) : Cut (c :: y) := by
    rintro d ⟨⟩
    rcases eq_of_note? hnote with rfl | rfl <;> simp
  induction h with
  | nil => exact ⟨[], [], [], rfl, rfl, cut_nil, cut_nil⟩
  | @char c t b cs hc h ih =>
    obtain ⟨x, u, v, rfl, rfl, hu, hv⟩ := ih
    exact ⟨c :: x, u, v, rfl, rfl, hu, hv⟩
  | comment hx h => exact ⟨[], _, _, rfl, rfl, hcomment (hx []) _, cut_blank _⟩
  | last hx => exact ⟨[], _, _, rfl, rfl, hcomment hx _, cut_blank _⟩

/-- What is read before a cut only is the same in both texts. -/
theorem Commented.eq_of_cut {α : Type} (h : Commented t b cs) {f : Text → α} (hf : ∀ x u, Cut u → f (x ++ u) = f x) :
    f t = f b := by
  obtain ⟨x, u, v, rfl, rfl, hu, hv⟩ := h.exists_cut
  rw [hf x u hu, hf x v hv]

/-- Characters that begin no comment stand in both texts, and the texts are such a pair behind them. -/
theorem Commented.drop (h : Commented t b cs) (hn : Free n t) :
    t.take n = b.take n ∧ ∃ cs', Commented (t.drop n) (b.drop n) cs' := by
  induction h generalizing n with
  | nil => exact ⟨rfl, [], by simpa using Commented.nil⟩
  | @char c t b cs hc h ih =>
    cases n with
    | zero => exact ⟨rfl, cs, h.char hc⟩
    | succ n =>
      obtain ⟨htake, hdrop⟩ := ih hn.tail
      exact ⟨congrArg (List.cons c) htake, hdrop⟩
  | comment hx h ih =>
    cases n with
    | zero => exact ⟨rfl, _, .comment hx h⟩
    | succ n => exact (hn.not_note (hx _)).elim
  | last hx =>
    cases n with
    | zero => exact ⟨rfl, _, .last hx⟩
    | succ n => exact (hn.not_note hx).elim

theorem free_of_all {x u : Text} (hx : ∀ c ∈ x, c ≠ '"' ∧ c ≠ '/') : Free x.length (x ++ u) := by
  intro c hc
  rw [List.take_left] at hc
  exact hx c hc

/-- A run of characters that cannot stand where a comment begins is the same in both texts. -/
theorem Commented.run (h : Commented t b cs) {p : Char → Bool} (hp : [':', ']', ' ', '"', '/'].any p = false) :
    t.takeWhile p = b.takeWhile p ∧ Free (t.takeWhile p).length t ∧
      ∃ cs', Commented (t.dropWhile p) (b.dropWhile p) cs' := by
  have hfree : Free (t.takeWhile p).length t := by
    have hmem : ∀ c ∈ t.takeWhile p, c ≠ '"' ∧ c ≠ '/' := by
      intro c hc
      have hpc := List.mem_takeWhile_imp hc
      constructor <;> rintro rfl <;> simp [hpc] at hp
    simpa using free_of_all (u := t.dropWhile p) hmem
  have hrun : t.takeWhile p = b.takeWhile p := h.eq_of_cut fun x u hu => takeWhile_append_of_stops x (hu.stops hp)
  obtain ⟨-, hrest⟩ := h.drop hfree
  rw [drop_length_takeWhile, hrun, drop_length_takeWhile] at hrest
  exact ⟨hrun, hfree, hrest⟩

theorem Commented.startsNumber_eq (h : Commented t b cs) : startsNumber t = startsNumber b :=
  h.eq_of_cut fun x _ hu => startsNumber_cut hu x

/-- A test of the next character that neither a blank nor the beginning of a comment passes. -/
theorem Commented.any_head? (h : Commented t b cs) {p : Char → Bool} (hp : [' ', '"', '/'].any p = false) :
    t.head?.any p = b.head?.any p := by
  rw [Bool.eq_iff_iff, Option.any_eq_true, Option.any_eq_true]
  refine exists_congr fun c => and_congr_left fun hc => h.head?_iff ?_ ⟨?_, ?_⟩ <;> rintro rfl <;> simp [hc] at hp

theorem Commented.ofText?_eq (h : Commented t b cs) : Marker.ofText? t = Marker.ofText? b := by
  have hcomment {c : Char} {x : Text} {n : Nat} (hnote : note? c x = some n) (y : Text) :
      Marker.ofText? (c :: y) = none := by
    rcases eq_of_note? hnote with rfl | rfl <;> rfl
  cases h with
  | nil => rfl
  | char hc h => exact ofText?_congr (Commented.heads h) (Commented.second_head h)
  | comment hx h => exact hcomment (hx []) _
  | last hx => exact hcomment hx _

/-- Behind its blanks the text goes on with a comment, or both texts go on as such a pair. -/
theorem Commented.dropWhile_isGap (h : Commented t b cs) : (∃ c ∈ (t.dropWhile isGap).head?, c = '"' ∨ c = '/') ∨
    ∃ cs', Commented (t.dropWhile isGap) (b.dropWhile isGap) cs' := by
  have hcomment {c : Char} {x : Text} {n : Nat} (hnote : note? c x = some n) (y : Text) :
      ∃ d ∈ ((c :: y).dropWhile isGap).head?, d = '"' ∨ d = '/' := by
    refine ⟨c, ?_, eq_of_note? hnote⟩
    rcases eq_of_note? hnote with rfl | rfl <;> rfl
  induction h with
  | nil => exact .inr ⟨[], .nil⟩
  | @char c t b cs hc h ih =>
    cases hgap : isGap c with
    | true =>
      rw [List.dropWhile_cons_of_pos hgap, List.dropWhile_cons_of_pos hgap]
      exact ih
    | false =>
      rw [List.dropWhile_cons_of_neg (by simp [hgap]), List.dropWhile_cons_of_neg (by simp [hgap])]
      exact .inr ⟨cs, h.char hc⟩
  | comment hx h => exact .inl (hcomment (hx []) _)
  | last hx => exact .inl (hcomment hx _)

/-- What follows over blanks follows over comments with blanks in place of them. -/
theorem Commented.operandFollows (h : Commented t b cs) (ht : Lexer.operandFollows t = true) :
    Lexer.operandFollows b = true := by
  rw [operandFollows_head?] at ht ⊢
  rcases h.dropWhile_isGap with ⟨c, hc, rfl | rfl⟩ | ⟨cs', hrest⟩
  · rw [Option.mem_def.mp hc] at ht
    cases ht
  · rw [Option.mem_def.mp hc] at ht
    cases ht
  · rwa [← hrest.any_head? rfl]

theorem suffixFollows_eq (t : Text) : Lexer.suffixFollows t =
    ((Marker.ofText? (behindBase t)).isSome || (behindBase t).head?.any (· == '[')) := by
  show (_ || (behindBase t).head? == some '[') = _
  cases (behindBase t).head? <;> rfl

theorem Commented.suffixFollows (h : Commented t b cs) (ht : Lexer.suffixFollows t = true) :
    Lexer.suffixFollows b = true := by
  obtain ⟨-, -, cs', hdigits⟩ := h.run (p := Byte.isDigit) rfl
  rw [suffixFollows_eq] at ht ⊢
  unfold behindBase at ht ⊢
  rcases hdigits.dropWhile_isGap with ⟨c, hc, hcomment⟩ | ⟨cs', hrest⟩
  · obtain ⟨r, hr⟩ := List.head?_eq_some_iff.mp hc
    rw [hr] at ht
    rcases hcomment with rfl | rfl <;> cases ht
  · rwa [← hrest.ofText?_eq, ← hrest.any_head? rfl]

/-- A percentage stays one unless an operand comes to follow it. -/
theorem Commented.isPercentage_eq (h : Commented t b cs) :
    isPercentage b = (isPercentage t && !Lexer.operandFollows b.tail) := by
  have hcomment {c : Char} {x : Text} {n : Nat} (hnote : note? c x = some n) (y : Text) : isPercentage (c :: y) = false := by
    rcases eq_of_note? hnote with rfl | rfl <;> rfl
  cases h with
  | nil => rfl
  | @char c t b cs hc h =>
    have hmono := h.operandFollows
    show (c == '%' && (Marker.ofText? b).isNone && !Lexer.operandFollows b) =
      (c == '%' && (Marker.ofText? t).isNone && !Lexer.operandFollows t && !Lexer.operandFollows b)
    rw [h.ofText?_eq]
    cases hb : Lexer.operandFollows b with
    | true => simp
    | false =>
      have ht : Lexer.operandFollows t = false := Bool.eq_false_iff.mpr fun ht => by simp [hmono ht] at hb
      rw [ht, Bool.not_false, Bool.and_true, Bool.and_true]
  | comment hx h =>
    rw [hcomment (hx [])]
    rfl
  | last hx =>
    rw [hcomment hx]
    rfl

end Ahead

/-! ### One token -/

/-- The token is read in another way before `rest`, where an operand is `due` or not. A percentage is none before an
    operand; a name takes a base where an operand is due; and a base literal that begins with a letter leaves the base to a
    marker or to limits, where no operand is due. -/
def turns (due : Bool) (kind : Kind) (lexeme rest : Text) : Bool :=
  kind.isPercent && operandFollows rest || kind.isName && due && isBase rest ||
    lexeme.head?.any Byte.isNameStart && lexeme.contains '#' && !due && suffixFollows rest

/-- What is found behind `c` in the two texts is the same, or it is read in another way in the second one. -/
def Agrees (due : Bool) (c : Char) (t b : Text) (f g : Found) : Prop :=
  if turns due f.kind (c :: t.take f.more) (b.drop f.more) then g.kind ≠ f.kind else g = f

section Scan
variable {c : Char} {t b : Text} {cs : List Text} {due : Bool} {f g : Found}

/-- A token that is no percentage, no name and no base literal with a letter first does not look ahead. -/
theorem agrees_refl (hpercent : f.kind.isPercent = false) (hname : f.kind.isName = false)
    (hstart : Byte.isNameStart c = false ∨ '#' ∉ c :: t.take f.more) : Agrees due c t b f f := by
  have hnone : turns due f.kind (c :: t.take f.more) (b.drop f.more) = false := by
    unfold turns
    rw [hpercent, hname]
    rcases hstart with hstart | hhash
    · simp [hstart]
    · simp [List.contains_eq_mem, hhash]
  rw [Agrees, hnone]
  rfl

theorem ne_of_isQuiet (hc : isQuiet c = true) : c ≠ '"' ∧ c ≠ '/' := by
  constructor <;> rintro rfl <;> cases hc

theorem free_of_quiet {n : Nat} (h : Quiet n t) : Free n t := by
  induction h with
  | zero t => exact free_zero t
  | char hc h ih =>
    intro d hd
    rcases List.mem_cons.mp hd with rfl | hd
    · exact ne_of_isQuiet hc
    · exact ih d hd
  | minus ht h ih =>
    intro d hd
    rcases List.mem_cons.mp hd with rfl | hd
    · decide
    · exact ih d hd

theorem isName_scanDecimal (money : Bool) (t : Text) : (scanDecimal money t).kind.isName = false := by
  rw [scanDecimal_eq]
  split <;> rfl

theorem isName_scanBased (digits t : Text) : (scanBased digits t).kind.isName = false := by
  unfold scanBased
  dsimp only
  split
  · rfl
  · split <;> rfl

theorem isName_scanNumber (t : Text) : (scanNumber t).kind.isName = false := by
  rcases scanNumber_cases t with ⟨p, r, base, -, -, hprefixed⟩ | hdigits
  · rw [hprefixed, scanPrefixed]
    split
    · split <;> rfl
    · rfl
  · rw [hdigits, scanDigits_eq]
    split
    · exact isName_scanBased _ _
    · exact isName_scanDecimal _ _

theorem isPercent_of_not_isDressed {k : Kind} (h : isDressed k = false) : k.isPercent = false := by
  simp only [isDressed, Bool.or_eq_false_iff] at h
  cases k <;> first | rfl | exact h.2

/-- A decimal number that is a percentage in the first text is none in the second one before an operand. -/
theorem scanDecimal_blanked (money : Bool) (h : Commented t b cs) :
    if (scanDecimal money t).kind.isPercent && operandFollows (b.drop ((scanDecimal money t).more + 1)) then
      (scanDecimal money b).kind ≠ (scanDecimal money t).kind
    else scanDecimal money b = scanDecimal money t := by
  obtain ⟨htake, cs', hrest⟩ := h.drop (free_of_quiet (quiet_numeralLength money t))
  have hlength : numeralLength money b = numeralLength money t :=
    (h.eq_of_cut fun x u hu => numeralLength_cut hu money x).symm
  have hamount : amount money b = amount money t := by rw [amount, amount, hlength, htake]
  have htail : (b.drop (numeralLength money t)).tail = b.drop (numeralLength money t + 1) := List.tail_drop
  rw [scanDecimal_eq, scanDecimal_eq money b, hlength, hamount, hrest.isPercentage_eq, htail]
  cases isPercentage (t.drop (numeralLength money t)) with
  | false => cases money <;> exact rfl
  | true =>
    cases hfollows : operandFollows (b.drop (numeralLength money t + 1)) with
    | false => simp [hfollows]
    | true => cases money <;> simp [hfollows, Kind.isPercent]

theorem scanDecimal_amount (h : Commented t b cs) :
    if (scanDecimal true t).kind.isPercent && operandFollows (b.drop ((scanDecimal true t).more + 1)) then
      (scanDecimal true b).kind ≠ (scanDecimal true t).kind
    else (⟨(scanDecimal true b).kind, (scanDecimal true b).more + 1⟩ : Found) =
      ⟨(scanDecimal true t).kind, (scanDecimal true t).more + 1⟩ := by
  have hdecimal := scanDecimal_blanked true h
  split at hdecimal
  · rwa [if_pos ‹_›]
  · rw [if_neg ‹_›, hdecimal]

/-- Neither a name nor a letter first: only a percentage looks ahead. -/
theorem agrees_of_percent (hname : f.kind.isName = false) (hc : Byte.isNameStart c = false)
    (h : if f.kind.isPercent && operandFollows (b.drop f.more) then g.kind ≠ f.kind else g = f) : Agrees due c t b f g := by
  have hturns : turns due f.kind (c :: t.take f.more) (b.drop f.more) =
      (f.kind.isPercent && operandFollows (b.drop f.more)) := by
    simp [turns, hname, hc]
  rwa [Agrees, hturns]

theorem agrees_scanNumber (hnote : note? c t = none) (h : Commented t b cs) (hnumber : startsNumber (c :: t) = true) :
    Agrees due c t b (scanNumber (c :: t)) (scanNumber (c :: b)) := by
  have hc : Byte.isNameStart c = false := Bool.eq_false_iff.mpr fun hc => by
    rw [startsNumber_of_isNameStart hc] at hnumber
    cases hnumber
  refine agrees_of_percent (isName_scanNumber _) hc ?_
  have hdecimal := scanDecimal_blanked false (h.char hnote)
  obtain ⟨x, u, v, rfl, rfl, hu, hv⟩ := h.exists_cut
  rcases scanNumber_cut (c :: x) with heq | ⟨hdressed, hsame⟩
  · rw [← List.cons_append, ← List.cons_append] at hdecimal ⊢
    rw [heq u hu, heq v hv]
    exact hdecimal
  · rw [← List.cons_append, ← List.cons_append, hsame u hu, hsame v hv, isPercent_of_not_isDressed hdressed]
    rfl

/-! ### Names -/

theorem nameSpan_cons (hc : Byte.isNameStart c = true) (t : Text) :
    nameSpan (c :: t) = c :: t.takeWhile Byte.isNamePart :=
  List.takeWhile_cons_of_pos (Byte.isNamePart_of_isNameStart hc)

theorem Commented.isBase_eq (h : Commented t b cs) : isBase t = isBase b := h.eq_of_cut fun x _ hu => isBase_cut hu x

/-- Where a base stands, it stands in both texts. -/
theorem Commented.exists_base (h : Commented t b cs) (hbase : isBase t = true) :
    ∃ r r' cs', t = '#' :: r ∧ b = '#' :: r' ∧ Commented r r' cs' := by
  have hbase' := h.isBase_eq ▸ hbase
  simp only [isBase, Bool.and_eq_true, beq_iff_eq] at hbase hbase'
  obtain ⟨r, rfl⟩ := List.head?_eq_some_iff.mp hbase.1
  obtain ⟨r', rfl⟩ := List.head?_eq_some_iff.mp hbase'.1
  obtain ⟨-, cs', hrest⟩ := h.drop (n := 1) (by simp [Free])
  exact ⟨r, r', cs', rfl, rfl, hrest⟩

theorem Commented.scanBased_eq (h : Commented t b cs) (digits : Text) : scanBased digits t = scanBased digits b := by
  unfold scanBased
  rw [(h.run (p := Byte.isDigit) rfl).1]

theorem more_scanBased (digits t : Text) :
    (scanBased digits t).more = digits.length + (t.takeWhile Byte.isDigit).length := by
  unfold scanBased
  dsimp only
  split
  · rfl
  · split <;> rfl

theorem isPercent_scanBased (digits t : Text) : (scanBased digits t).kind.isPercent = false :=
  isPercent_of_not_isDressed (isDressed_scanBased digits t)

theorem suffixFollows_dropWhile (t : Text) : suffixFollows (t.dropWhile Byte.isDigit) = suffixFollows t := by
  unfold suffixFollows
  rw [List.dropWhile_idempotent]

theorem hash_not_mem_takeWhile (hc : Byte.isNameStart c = true) (t : Text) : '#' ∉ c :: t.takeWhile Byte.isNamePart := by
  intro hmem
  rcases List.mem_cons.mp hmem with rfl | hmem
  · cases hc
  · cases List.mem_takeWhile_imp hmem

theorem agrees_scanName {before before' : Before} (h : Commented t b cs) (hc : Byte.isNameStart c = true) :
    Agrees before'.operandDue c t b (scanName before (c :: t)) (scanName before' (c :: b)) := by
  obtain ⟨hrun, hfree, cs', hrest⟩ := h.run (p := Byte.isNamePart) rfl
  have hspan := nameSpan_cons hc t
  have hspan' : nameSpan (c :: b) = c :: t.takeWhile Byte.isNamePart := by rw [nameSpan_cons hc, hrun]
  have hhash := hash_not_mem_takeWhile hc t
  have hdrop : t.drop (t.takeWhile Byte.isNamePart).length = t.dropWhile Byte.isNamePart := drop_length_takeWhile _ t
  have hdrop' : b.drop (t.takeWhile Byte.isNamePart).length = b.dropWhile Byte.isNamePart := by
    rw [hrun, drop_length_takeWhile]
  have htake : t.take (t.takeWhile Byte.isNamePart).length = t.takeWhile Byte.isNamePart :=
    (List.prefix_iff_eq_take.mp (List.takeWhile_prefix _)).symm
  by_cases hspecial : c :: t.takeWhile Byte.isNamePart ∈ specialNames
  · rw [scanName_special (by rwa [hspan]), scanName_special (by rwa [hspan']), hspan, hspan']
    exact agrees_refl rfl rfl (.inr (by simpa [htake] using hhash))
  rw [scanName_eq (by rwa [hspan]), scanName_eq (by rwa [hspan']), hspan, hspan', List.length_cons, List.drop_succ_cons,
    List.drop_succ_cons, Nat.add_sub_cancel, hdrop, hdrop']
  generalize hw : t.takeWhile Byte.isNamePart = w at *
  -- What a plain name turns into.
  have hname : turns before'.operandDue .name (c :: t.take w.length) (b.drop w.length) =
      (before'.operandDue && isBase (b.dropWhile Byte.isNamePart)) := by
    rw [htake, hdrop']
    simp [turns, Kind.isPercent, Kind.isName, List.contains_eq_mem, hhash]
  cases hbase : isBase (t.dropWhile Byte.isNamePart) with
  | false =>
    have hbase' := hrest.isBase_eq ▸ hbase
    rw [takesBase, takesBase, hbase, hbase']
    show Agrees _ c t b ⟨.name, w.length⟩ ⟨.name, w.length⟩
    rw [Agrees, hname, hbase', Bool.and_false]
    rfl
  | true =>
    have hbase' := hrest.isBase_eq ▸ hbase
    obtain ⟨r, r', cs', hr, hr', hbehind⟩ := hrest.exists_base hbase
    have hmono := hbehind.suffixFollows
    have hscan := hbehind.scanBased_eq (c :: w)
    -- What a base literal turns into; its characters are the name and the base.
    have hbased : turns before'.operandDue (scanBased (c :: w) r).kind (c :: t.take (scanBased (c :: w) r).more)
        (b.drop (scanBased (c :: w) r).more) = (!before'.operandDue && suffixFollows r') := by
      have hmore : (scanBased (c :: w) r).more = w.length + (1 + (r.takeWhile Byte.isDigit).length) := by
        rw [more_scanBased, List.length_cons, Nat.add_assoc]
      have hmem : '#' ∈ c :: t.take (scanBased (c :: w) r).more := by
        rw [hmore, List.take_add, hdrop, hr, Nat.add_comm 1, List.take_succ_cons]
        simp
      have hbehind' : b.drop (scanBased (c :: w) r).more = r'.dropWhile Byte.isDigit := by
        rw [hmore, ← List.drop_drop, hdrop', hr', Nat.add_comm 1, List.drop_succ_cons, (hbehind.run rfl).1,
          drop_length_takeWhile]
      rw [turns, isPercent_scanBased, isName_scanBased, hbehind', suffixFollows_dropWhile, List.contains_eq_mem]
      simp [hmem, hc]
    rw [takesBase, takesBase, hbase, hbase', hr, hr', List.tail_cons, List.tail_cons, ← hscan]
    have hne : (scanBased (c :: w) r).kind ≠ .name := by
      intro hkind
      have hnone := isName_scanBased (c :: w) r
      rw [hkind] at hnone
      cases hnone
    cases htakes : before.operandDue || !suffixFollows r with
    | true =>
      rw [Bool.true_and, if_pos rfl, Agrees, hbased]
      cases before'.operandDue <;> cases suffixFollows r' <;> first | rfl | exact Ne.symm hne
    | false =>
      rw [Bool.or_eq_false_iff, Bool.not_eq_false'] at htakes
      rw [Bool.true_and, if_neg Bool.false_ne_true, Agrees, hname, hbase', hmono htakes.2]
      cases before'.operandDue <;> first | rfl | exact hne

/-! ### Signs -/

theorem agrees_foundMarker (hc : Byte.isNameStart c = false) (taken : Nat) (m : Marker) (d : Decoration) :
    Agrees due c t b (foundMarker taken m d) (foundMarker taken m d) := agrees_refl rfl rfl (.inl hc)

theorem agrees_scanDollar (h : Commented t b cs) : Agrees due '$' t b (scanDollar t) (scanDollar b) := by
  have hnumber : startsNumber t = startsNumber b := h.startsNumber_eq
  unfold scanDollar
  rw [← hnumber, ← h.ofText?_eq]
  split
  · exact agrees_of_percent (isName_scanDecimal true t) rfl (scanDecimal_amount h)
  · split
    · exact agrees_foundMarker rfl _ _ _
    · exact agrees_refl rfl rfl (.inl rfl)

theorem agrees_scanPercent {before before' : Before} (h : Commented t b cs)
    (htouches : before'.touchesName = before.touchesName) :
    Agrees due '%' t b (scanPercent before t) (scanPercent before' b) := by
  have hmono := h.operandFollows
  unfold scanPercent
  rw [← h.ofText?_eq, htouches]
  cases Marker.ofText? t with
  | some m => exact agrees_foundMarker rfl _ _ _
  | none =>
    dsimp only
    cases before.touchesName with
    | false => exact agrees_refl rfl rfl (.inl rfl)
    | true =>
      cases ht : operandFollows t with
      | true =>
        rw [hmono ht]
        exact agrees_refl rfl rfl (.inl rfl)
      | false =>
        refine agrees_of_percent rfl rfl ?_
        cases hb : operandFollows b <;> simp [hb, Kind.isPercent]

theorem agrees_scanHash (h : Commented t b cs) : Agrees due '#' t b (scanHash t) (scanHash b) := by
  obtain ⟨hrun, -, cs', hrest⟩ := h.run (p := Byte.isDigit) rfl
  have hdrop : b.drop (t.takeWhile Byte.isDigit).length = b.dropWhile Byte.isDigit := by rw [hrun, drop_length_takeWhile]
  unfold scanHash
  dsimp only
  rw [← hrun, hdrop, drop_length_takeWhile, ← hrest.ofText?_eq]
  split
  · exact agrees_refl rfl rfl (.inl rfl)
  · split
    · exact agrees_foundMarker rfl _ _ _
    · exact agrees_refl rfl rfl (.inl rfl)

theorem scanOperator_blanked (hnote : note? c t = none) (h : Commented t b cs) :
    scanOperator (c :: b) = scanOperator (c :: t) := by
  have hdouble (u : Text) : doubleOperators.contains ((c :: u).take 2) =
      u.head?.any fun d => doubleOperators.contains [c, d] := by
    cases u with
    | nil => simp [doubleOperators]
    | cons d u => rfl
  have hsecond : doubleOperators.contains ((c :: t).take 2) = doubleOperators.contains ((c :: b).take 2) := by
    rw [hdouble, hdouble, h.any_head?]
    simp [doubleOperators]
  unfold scanOperator
  rw [(h.char hnote).ofText?_eq, hsecond]
  rfl

theorem agrees_scanOperator (hc : Byte.isNameStart c = false) :
    Agrees due c t b (scanOperator (c :: t)) (scanOperator (c :: t)) := by
  unfold scanOperator
  split
  · exact agrees_foundMarker hc _ _ _
  · split
    · exact agrees_refl rfl rfl (.inl hc)
    · split <;> exact agrees_refl rfl rfl (.inl hc)

/-- The token at the head of the two texts. -/
theorem agrees_scan {before before' : Before} (hnote : note? c t = none) (h : Commented t b cs)
    (htouches : before'.touchesName = before.touchesName) :
    Agrees before'.operandDue c t b (scan before c t) (scan before' c b) := by
  obtain ⟨hquote, hslash⟩ := note?_eq_none.mp hnote
  have hslash' : ¬(c = '/' ∧ b.head? = some '/') := fun hb => hslash ⟨hb.1, h.head?_slash hb.2⟩
  unfold scan
  split
  case h_2 => exact absurd rfl hquote
  case h_11 => exact agrees_scanDollar h
  case h_12 => exact agrees_scanPercent h htouches
  case h_13 => exact agrees_scanHash h
  case h_14 =>
    rw [if_neg hslash, if_neg hslash', ← (h.char hnote).startsNumber_eq]
    split
    · exact agrees_scanNumber hnote h ‹_›
    · split
      · exact agrees_scanName h ‹_›
      · rename_i hstart
        rw [scanOperator_blanked hnote h]
        exact agrees_scanOperator (Bool.eq_false_iff.mpr hstart)
  all_goals exact agrees_refl rfl rfl (.inl rfl)

/-! ### The walk -/

theorem ne_of_mem_text {m : Marker} (hc : c ∈ m.text) : c ≠ '"' ∧ c ≠ '/' := by
  have hall : m.text.all (fun c => c != '"' && c != '/') = true := by cases m <;> rfl
  simpa using List.all_eq_true.mp hall c hc

theorem free_of_endsWithMarker (h : EndsWithMarker f t) : Free (f.more + 1) t := by
  obtain ⟨z, m, d, u, rfl, hmore, -, -, hz⟩ := h
  rw [hmore]
  refine free_of_all fun e he => ?_
  rcases List.mem_append.mp he with he | he
  · exact ne_of_isQuiet (hz e he)
  · exact ne_of_mem_text he

theorem free_scanOperator (c : Char) (t : Text) : Free (scanOperator (c :: t)).more t := by
  unfold scanOperator
  split
  · rename_i m hm
    exact (free_of_endsWithMarker (endsWithMarker_foundMarker (z := []) _ (by simp) hm)).tail
  · split
    · rename_i hdouble
      have hall : doubleOperators.all (fun x => x.tail.all fun e => e != '"' && e != '/') = true := by decide
      have hmem := List.all_eq_true.mp (List.all_eq_true.mp hall _ (List.contains_iff_mem.mp hdouble))
      intro e he
      simpa using hmem e he
    · split <;> exact free_zero t

/-- No comment begins inside of a token. -/
theorem free_scan (hnote : note? c t = none) (before : Before) : Free (scan before c t).more t := by
  obtain ⟨hquote, hslash⟩ := note?_eq_none.mp hnote
  cases hs : isStructural c with
  | true =>
    rw [scan_structural hs hquote]
    exact free_zero t
  | false =>
    rcases scan_cases hs hslash before with hplain | hmarker | hoperator
    · exact (free_of_quiet hplain.quiet).tail
    · exact (free_of_endsWithMarker hmarker).tail
    · rw [hoperator]
      exact free_scanOperator c t

theorem isComment_scan (hnote : note? c t = none) (hline : c ≠ '\n') (before : Before) :
    (scan before c t).kind.isComment = false := by
  obtain ⟨hquote, hslash⟩ := note?_eq_none.mp hnote
  have hloud := isSilent_scan hquote hslash hline before
  cases hk : (scan before c t).kind <;> simp_all [Kind.isComment, Kind.isSilent]

end Scan

/-- Comments aside, no token of a line is read in another way with blanks in place of the comments. `clean` is the line
    with the blanks; what is `due` behind a comment is what was due before it. -/
def steady (clean : Text) (due : Bool) : List Token → Bool
  | [] => true
  | t :: ts =>
    if t.kind.isComment then steady clean due ts
    else !turns due t.kind t.lexeme (clean.drop t.endOffset) && steady clean (Before.ofKind t.kind).operandDue ts

theorem steady_comment {clean : Text} {due : Bool} {tok : Token} {ts : List Token} (h : tok.kind.isComment = true) :
    steady clean due (tok :: ts) = steady clean due ts := by
  rw [steady, h]
  rfl

theorem steady_cons {clean : Text} {due : Bool} {tok : Token} {ts : List Token} (h : tok.kind.isComment = false) :
    steady clean due (tok :: ts) = (!turns due tok.kind tok.lexeme (clean.drop tok.endOffset) &&
      steady clean (Before.ofKind tok.kind).operandDue ts) := by
  rw [steady, h]
  rfl

/-- How the tokens read that are no comments, and where they stand. -/
def reading (ts : List Token) : List (Kind × Text × Nat × Nat) :=
  (ts.filter (!·.kind.isComment)).map fun t => (t.kind, t.text, t.offset, t.length)

theorem reading_cons {tok : Token} {ts : List Token} (h : tok.kind.isComment = false) :
    reading (tok :: ts) = (tok.kind, tok.text, tok.offset, tok.length) :: reading ts := by
  rw [reading, List.filter_cons_of_pos (by simp [h])]
  rfl

/-- The two texts at `p` have the same tokens but for comments, or the tokens read in another way. -/
def ReadsOn (clean : Text) (skip : Nat) (before before' : Before) (p : Position) (t b : Text) : Prop :=
  if steady clean before'.operandDue (lexFrom skip before p t) then
    lexFrom skip before' p b = (lexFrom skip before p t).filter (!·.kind.isComment)
  else reading (lexFrom skip before' p b) ≠ reading (lexFrom skip before p t)

section Walk
variable {c : Char} {x t b clean : Text} {cs : List Text} {before before' : Before} {p : Position}

theorem advance_of_not_mem (h : '\n' ∉ x) (p : Position) :
    p.advance x = ⟨p.line, p.col + x.length, p.offset + x.length⟩ := by
  induction x generalizing p with
  | nil => rfl
  | cons c x ih =>
    obtain ⟨hc, hx⟩ := not_or.mp (mt List.mem_cons.mpr h)
    rw [Position.advance_cons, ih hx, Position.after, if_neg (Ne.symm hc), List.length_cons]
    simp only [Position.mk.injEq, true_and]
    omega

theorem lexFrom_apart (htouches : before.touchesName = false) (n : Nat) (p : Position) (t : Text) :
    lexFrom 0 before p (blanks n ++ t) = lexFrom 0 before (p.advance (blanks n)) t := by
  induction n generalizing p with
  | zero => rfl
  | succ n ih =>
    have hsame : { before with touchesName := false } = before := by rw [← htouches]
    show lexFrom 0 before p (' ' :: (blanks n ++ t)) = _
    rw [lexFrom_blank rfl, hsame, ih]
    rfl

/-- A comment is passed over as the blanks in place of it are. -/
theorem readsOn_comment (hnote : note? c (x ++ t) = some x.length) (hline : '\n' ∉ c :: x)
    (h : ReadsOn clean 0 {} { before' with touchesName := false } (p.advance (c :: x)) t b) :
    ReadsOn clean 0 before before' p (c :: (x ++ t)) (blanks (x.length + 1) ++ b) := by
  have hblank : Byte.isBlank c = false := by
    rcases eq_of_note? hnote with rfl | rfl <;> rfl
  have hplace : p.advance (c :: x) = p.advance (blanks (x.length + 1)) := by
    rw [advance_of_not_mem hline, advance_of_not_mem (by simp [blanks])]
    simp [blanks]
  have hcomment : lexFrom 0 before p (c :: (x ++ t)) =
      ⟨.comment, c :: x, p.line, p.col, p.offset⟩ :: lexFrom 0 {} (p.advance (c :: x)) t := by
    rw [lexFrom_token hblank, scan_note hnote, List.take_left, lexFrom_skip, Position.advance_cons]
    rfl
  have hblanks : lexFrom 0 before' p (blanks (x.length + 1) ++ b) =
      lexFrom 0 { before' with touchesName := false } (p.advance (c :: x)) b := by
    rw [hplace]
    show lexFrom 0 before' p (' ' :: (blanks x.length ++ b)) = _
    rw [lexFrom_blank rfl, lexFrom_apart rfl]
    rfl
  unfold ReadsOn at h ⊢
  rw [hcomment, hblanks]
  exact h

/-- A token that is no comment either reads in another way, or it is the same one and the walk goes on behind it. -/
theorem readsOn_token (hnote : note? c t = none) (hblank : Byte.isBlank c = false) (hline : c ≠ '\n')
    (h : Commented t b cs) (htouches : before'.touchesName = before.touchesName) (hclean : clean.drop p.offset = c :: b)
    (hrest : ReadsOn clean (scan before c t).more (.ofKind (scan before c t).kind) (.ofKind (scan before c t).kind)
      (p.after c) t b) :
    ReadsOn clean 0 before before' p (c :: t) (c :: b) := by
  have hagrees := agrees_scan hnote h htouches
  have hcomment := isComment_scan hnote hline before
  have hnote' : note? c b = none := by
    obtain ⟨hquote, hslash⟩ := note?_eq_none.mp hnote
    exact note?_eq_none.mpr ⟨hquote, fun hb => hslash ⟨hb.1, h.head?_slash hb.2⟩⟩
  have hcomment' := isComment_scan hnote' hline before'
  have hbehind : clean.drop (p.offset + (c :: t.take (scan before c t).more).length) = b.drop (scan before c t).more := by
    rw [← List.drop_drop, hclean, List.length_cons, List.drop_succ_cons, List.length_take, Nat.min_eq_left (more_scan_le before c t)]
  unfold ReadsOn at hrest ⊢
  unfold Agrees at hagrees
  rw [lexFrom_token hblank, lexFrom_token hblank, steady_cons hcomment]
  unfold endOffset Token.length
  rw [hbehind]
  cases hturns : turns before'.operandDue (scan before c t).kind (c :: t.take (scan before c t).more)
      (b.drop (scan before c t).more) with
  | true =>
    rw [hturns, if_pos rfl] at hagrees
    rw [Bool.not_true, Bool.false_and, if_neg Bool.false_ne_true]
    intro heq
    rw [reading_cons hcomment', reading_cons hcomment] at heq
    exact hagrees (Prod.mk.inj (List.cons.inj heq).1).1
  | false =>
    rw [hturns, if_neg Bool.false_ne_true] at hagrees
    have hlexeme := (h.drop (free_scan hnote before)).1
    rw [hagrees, ← hlexeme, Bool.not_false, Bool.true_and]
    split at hrest
    · rw [if_pos ‹_›, hrest, List.filter_cons_of_pos (by simp [hcomment])]
    · rw [if_neg ‹_›]
      intro heq
      rw [reading_cons hcomment, reading_cons hcomment] at heq
      exact hrest (List.cons.inj heq).2

theorem readsOn_nil : ReadsOn clean 0 before before' p [] [] := by
  unfold ReadsOn
  rw [lexFrom_nil, lexFrom_nil]
  rfl

theorem Commented.readsOn (h : Commented t b cs) {skip : Nat} (hskip : Free skip t) (hline : '\n' ∉ t)
    (htouches : before'.touchesName = before.touchesName) (hclean : clean.drop p.offset = b) :
    ReadsOn clean skip before before' p t b := by
  induction h generalizing skip before before' p with
  | nil =>
    unfold ReadsOn
    rw [lexFrom_nil, lexFrom_nil]
    rfl
  | @char c t b cs hc h ih =>
    obtain ⟨hne, hline⟩ := not_or.mp (mt List.mem_cons.mpr hline)
    have hnext : clean.drop (p.after c).offset = b := by
      rw [Position.after_offset, ← List.drop_drop, hclean]
      rfl
    cases skip with
    | succ skip =>
      have hrest := ih hskip.tail hline htouches hnext
      unfold ReadsOn at hrest ⊢
      rwa [lexFrom_skip_cons, lexFrom_skip_cons]
    | zero =>
      cases hblank : Byte.isBlank c with
      | true =>
        have hrest : ReadsOn clean 0 { before with touchesName := false } { before' with touchesName := false }
            (p.after c) t b := ih (free_zero t) hline rfl hnext
        unfold ReadsOn at hrest ⊢
        rwa [lexFrom_blank hblank, lexFrom_blank hblank]
      | false =>
        exact readsOn_token hc hblank (Ne.symm hne) h htouches hclean (ih (free_scan hc before) hline rfl hnext)
  | @comment c x t b cs hx h ih =>
    cases skip with
    | succ skip => exact (hskip.not_note (hx _)).elim
    | zero =>
      rw [← List.cons_append, List.mem_append, not_or] at hline
      refine readsOn_comment (hx t) hline.1 (ih (free_zero t) hline.2 rfl ?_)
      rw [Position.advance_offset, ← List.drop_drop, hclean]
      exact List.drop_left' (by simp [blanks])
  | @last c x hx =>
    cases skip with
    | succ skip => exact (hskip.not_note hx).elim
    | zero =>
      have hend : ReadsOn clean 0 before before' p (c :: (x ++ [])) (blanks (x.length + 1) ++ []) :=
        readsOn_comment (by rwa [List.append_nil]) hline readsOn_nil
      rwa [List.append_nil, List.append_nil] at hend

end Walk

/-! ### A whole line -/

section Line
variable {line : Text}

theorem steady_or_reads (h : '\n' ∉ line) :
    if steady (blankComments line) false (tokenize line) then
      tokenize (blankComments line) = (tokenize line).filter (!·.kind.isComment)
    else reading (tokenize (blankComments line)) ≠ reading (tokenize line) := by
  obtain ⟨b, cs, hb⟩ := exists_commented line h
  rw [hb.blankComments_eq]
  have hreads : ReadsOn b 0 {} {} {} line b := hb.readsOn (free_zero line) h rfl rfl
  exact hreads

/-- With blanks in place of its comments a steady line has the same tokens, but for the comments. -/
theorem tokenize_blankComments (h : '\n' ∉ line) (hsteady : steady (blankComments line) false (tokenize line) = true) :
    tokenize (blankComments line) = (tokenize line).filter (!·.kind.isComment) := by
  have hreads := steady_or_reads h
  rwa [if_pos hsteady] at hreads

/-- The tokens of a line read the same with blanks in place of its comments just when the line is steady. -/
theorem reading_blankComments_iff (h : '\n' ∉ line) : reading (tokenize (blankComments line)) = reading (tokenize line) ↔
    steady (blankComments line) false (tokenize line) = true := by
  constructor
  · intro heq
    refine Decidable.byContradiction fun hunsteady => ?_
    have hreads := steady_or_reads h
    rw [if_neg hunsteady] at hreads
    exact hreads heq
  · intro hsteady
    rw [tokenize_blankComments h hsteady, reading, reading, List.filter_filter]
    simp

/-- Behind a percentage there may be a comment and a sign, and behind a base a comment and the end of the line. -/
theorem reading_blankComments_percentage :
    '\n' ∉ ['5', '%', '"', 'a', '"', '+', ' ', 'F', '#', '1', '6', ' ', '/', '/', 'b'] ∧
      reading (tokenize ['5', '%', ' ', ' ', ' ', '+', ' ', 'F', '#', '1', '6', ' ', ' ', ' ', ' ']) =
        reading (tokenize ['5', '%', '"', 'a', '"', '+', ' ', 'F', '#', '1', '6', ' ', '/', '/', 'b']) := by
  have hline : '\n' ∉ ['5', '%', '"', 'a', '"', '+', ' ', 'F', '#', '1', '6', ' ', '/', '/', 'b'] := by decide
  exact ⟨hline, (reading_blankComments_iff hline).mpr (by rfl)⟩

/-- With an operand behind the comment the percentage becomes a division of remainders. -/
theorem not_reading_blankComments : ¬∀ line, '\n' ∉ line → reading (tokenize (blankComments line)) = reading (tokenize line) := by
  intro hall
  have hline : '\n' ∉ ['5', '%', ' ', '"', 'c', '"', ' ', '3'] := by decide
  have hreads := steady_or_reads hline
  rw [show steady (blankComments ['5', '%', ' ', '"', 'c', '"', ' ', '3']) false
    (tokenize ['5', '%', ' ', '"', 'c', '"', ' ', '3']) = false from rfl, if_neg Bool.false_ne_true] at hreads
  exact hreads (hall _ hline)

end Line

end Classify
end Worksheet
