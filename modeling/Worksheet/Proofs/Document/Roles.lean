import Worksheet.Proofs.Document.Cleared
import Worksheet.Proofs.Document.Standing

/-! The two roles of a line. An equation is told by the first of its equals signs and markers, a value line by the
    marker that counts, wherever that is. So a line may have both roles, and an equation has both unless its line shows
    no marker outside square brackets, or an input marker without a name before it. -/

namespace Worksheet

/-! ### The subject before a marker -/

namespace Classify
variable {line : Text}

theorem takeSuffixes_snd (d d' : Decoration) (ts : List Token) : (takeSuffixes d ts).2 = (takeSuffixes d' ts).2 := by
  induction ts generalizing d d' with
  | nil => rfl
  | cons t ts ih =>
    unfold takeSuffixes
    split
    · exact ih _ _
    · rfl

/-- What stands before the limits does not depend on the decoration of the marker. -/
theorem readHead_rest (line : Text) (d d' : Decoration) (before : List Token) :
    (readHead line d before).rest = (readHead line d' before).rest := by
  have hrest := takeSuffixes_snd d d' before
  unfold readHead
  generalize takeSuffixes d before = passed at hrest
  generalize takeSuffixes d' before = passed' at hrest
  obtain ⟨e, rest⟩ := passed
  obtain ⟨e', rest'⟩ := passed'
  obtain rfl : rest = rest' := hrest
  dsimp only
  split
  · rfl
  · split
    · exact takeSuffixes_snd _ _ _
    · rfl

theorem withName_ne_nil (t : Token) (ts : List Token) : withName t ts ≠ [] := by
  unfold withName
  split
  · split <;> exact List.cons_ne_nil _ _
  · exact List.cons_ne_nil _ _

theorem operandStart_ne_nil {ts : List Token} (h : ts ≠ []) : operandStart ts ≠ [] := by
  unfold operandStart
  split
  · exact absurd rfl h
  · split
    · exact withName_ne_nil _ _
    · split
      · exact withName_ne_nil _ _
      · exact List.cons_ne_nil _ _
    · exact List.cons_ne_nil _ _

theorem extend_ne_nil (fuel : Nat) {ts : List Token} (h : ts ≠ []) : extend fuel ts ≠ [] := by
  induction fuel generalizing ts with
  | zero => exact h
  | succ fuel ih =>
    unfold extend
    split
    · rename_i t op rest
      split
      · exact List.cons_ne_nil _ _
      · split
        · exact ih (List.cons_ne_nil _ _)
        · split
          · rename_i hends
            refine ih (operandStart_ne_nil ?_)
            rintro rfl
            cases hends
          · split
            · split
              · exact ih (List.cons_ne_nil _ _)
              · split <;> exact List.cons_ne_nil _ _
            · exact List.cons_ne_nil _ _
    · exact h

/-- Behind some tokens every output marker has a subject, and an input marker has one if a name is before it. -/
theorem subjectBefore_eq_none {m : Marker} {d : Decoration} {before : List Token} (h : before ≠ []) :
    subjectBefore line m d before = none ↔
      m = .leftArrow ∧ ∀ name ∈ (readHead line {} before).rest.head?, name.kind.isName = false := by
  have hexpression : expressionBefore line d before ≠ none := by
    unfold expressionBefore
    have hstart := extend_ne_nil before.length (operandStart_ne_nil h)
    cases before with
    | nil => exact absurd rfl h
    | cons last rest =>
      unfold expressionStart
      cases hs : extend (last :: rest).length (operandStart (last :: rest)) with
      | nil => exact absurd hs hstart
      | cons first more => exact Option.some_ne_none _
  unfold subjectBefore
  dsimp only
  rw [readHead_rest line d {}]
  cases (readHead line {} before).rest with
  | nil => by_cases hm : m = .leftArrow <;> simp [hm, hexpression]
  | cons name rest =>
    dsimp only
    cases hname : name.kind.isName with
    | false => by_cases hm : m = .leftArrow <;> simp [hm, hexpression, hname]
    | true =>
      rw [if_pos rfl]
      by_cases hm : m = .leftArrow
      · simp [hm, hname]
      · cases endsExpression name rest <;> simp [hm, hexpression]

end Classify

/-! ### Equations and comments -/

section Plain
open Token Lexer Classify
variable {t l : Text} {pre post : List Token} {tok : Token}

/-- The sign is a marker. -/
def Sign.isMarker : Sign → Bool
  | .marker _ => true
  | _ => false

theorem countP_signs {ts : List Token} :
    (signs ts).countP Sign.isMarker = 0 ↔ ∀ x ∈ ts, x.kind.isMarker = false := by
  have hone (x : Token) : (∀ s ∈ x.sign?, s.isMarker = false) ↔ x.kind.isMarker = false := by
    unfold sign?
    cases x.kind <;> simp [Sign.isMarker, Kind.isMarker, Kind.marker?]
  rw [List.countP_eq_zero, signs]
  simp only [List.mem_filterMap, Bool.not_eq_true, forall_exists_index, and_imp]
  constructor
  · intro h x hx
    exact (hone x).mp fun s hs => h s x hx hs
  · intro h s x hx hs
    exact (hone x).mpr (h x hx) s hs

/-- A line holds an equation if no marker stands before its first equals sign. -/
theorem Equation.isPlain_of_tokens (h : tokenize t = pre ++ tok :: post)
    (hpre : ∀ x ∈ pre, x.isOperator ['='] = false) (htok : tok.isOperator ['='] = true) :
    isPlain t = true ↔ (signs pre).countP Sign.isMarker = 0 := by
  have hkind := kind_of_isOperator htok
  have hsignificant := significant_append htok pre post
  unfold isPlain Lines.significantTokens
  rw [h, hsignificant, List.find?_append, countP_signs]
  cases hfind : (significant pre).find? fun x => x.kind.isMarker || x.isOperator ['='] with
  | none =>
    refine iff_of_true (by simp [htok, hkind, Kind.isMarker, Kind.marker?]) fun x hx => ?_
    cases hsilent : x.kind.isSilent with
    | true => cases hk : x.kind <;> simp_all [Kind.isSilent, Kind.isMarker, Kind.marker?]
    | false =>
      have hx' := List.find?_eq_none.mp hfind x (List.mem_filter.mpr ⟨hx, by simp [hsilent]⟩)
      simpa [hpre x hx] using hx'
  | some x =>
    have hx := List.mem_of_mem_filter (List.mem_of_find?_eq_some hfind)
    have hmarker : x.kind.isMarker = true := by simpa [hpre x hx] using List.find?_some hfind
    refine iff_of_false (by simp [hmarker]) fun hnone => ?_
    rw [hnone x hx] at hmarker
    cases hmarker

theorem Equation.isPlain_of_forall (h : ∀ tok ∈ tokenize t, tok.isOperator ['='] = false) : isPlain t = false := by
  unfold isPlain
  cases hfind : (Lines.significantTokens t).find? fun x => x.kind.isMarker || x.isOperator ['='] with
  | none => rfl
  | some x =>
    have hx := List.find?_some hfind
    rw [h x (List.mem_of_mem_filter (List.mem_of_find?_eq_some hfind)), Bool.or_false] at hx
    simp [hx]

/-- The first equals sign among the tokens of a text, and where the text goes on behind it. -/
theorem equals_tokenize (t : Text) :
    (∀ tok ∈ tokenize t, tok.isOperator ['='] = false) ∧ equals 0 t = [] ∨
      ∃ pre tok post s offset, tokenize t = pre ++ tok :: post ∧ (∀ x ∈ pre, x.isOperator ['='] = false) ∧
        tok.isOperator ['='] = true ∧ equals 0 t = s :: equals 0 s ∧ signs post = outline 0 offset s := by
  cases hfind : (tokenize t).find? (·.isOperator ['=']) with
  | none =>
    have hnone : ∀ tok ∈ tokenize t, tok.isOperator ['='] = false := by simpa using hfind
    exact .inl ⟨hnone, equals_eq_nil hnone⟩
  | some tok =>
    obtain ⟨htok, pre, post, hsplit, hpre⟩ := List.find?_eq_some_iff_append.mp hfind
    have hpre' : ∀ x ∈ pre, x.isOperator ['='] = false := fun x hx => by simpa using hpre x hx
    obtain ⟨s, before, q, hs, -, hpost⟩ := equals_lexFrom hsplit hpre' htok
    exact .inr ⟨pre, tok, post, s, q.offset, hsplit, hpre', htok, hs, hpost ▸ signs_lexFrom 0 before q s⟩

/-- Blanks in place of comments make no difference to the number of markers. -/
theorem Commented.countP_marker {b : Text} {cs : List Text} (h : Commented t b cs) (offset offset' : Nat) :
    (outline 0 offset t).countP Sign.isMarker = (outline 0 offset' b).countP Sign.isMarker := by
  have hfilter (ss : List Sign) : (ss.filter isStructure).countP Sign.isMarker = ss.countP Sign.isMarker := by
    rw [List.countP_filter]
    refine List.countP_congr fun s _ => ?_
    cases s <;> simp [Sign.isMarker, isStructure]
  rw [← hfilter, h.structure_outline (free_zero t) offset offset', hfilter]

/-- They make no difference to whether a line holds an equation. -/
theorem Equation.isPlain_blankComments (hl : '\n' ∉ l) : isPlain (blankComments l) = isPlain l := by
  obtain ⟨b, cs, hb⟩ := exists_commented l hl
  have hpaired := Lexer.Commented.equals hb (free_zero l)
  rw [hb.blankComments_eq]
  rcases equals_tokenize l with ⟨hnone, hnil⟩ | ⟨pre, tok, post, s, o, htokens, hpre, htok, hs, hpost⟩ <;>
    rcases equals_tokenize b with ⟨hnone', hnil'⟩ | ⟨pre', tok', post', s', o', htokens', hpre', htok', hs', hpost'⟩
  · rw [isPlain_of_forall hnone, isPlain_of_forall hnone']
  · rw [hnil, hs'] at hpaired
    cases hpaired
  · rw [hs, hnil'] at hpaired
    cases hpaired
  · -- There are as many markers behind the equals signs, and in all, so there are as many before them.
    rw [hs, hs'] at hpaired
    obtain ⟨⟨cs', hbehind⟩, -⟩ := List.forall₂_cons.mp hpaired
    have hall := Commented.countP_marker hb 0 0
    have hrest := Commented.countP_marker hbehind o o'
    have hcount {t : Text} {pre post : List Token} {tok : Token} (h : tokenize t = pre ++ tok :: post)
        (htok : tok.isOperator ['='] = true) : (outline 0 0 t).countP Sign.isMarker =
          (signs pre).countP Sign.isMarker + (signs post).countP Sign.isMarker := by
      have hnone : tok.sign? = none := by simp [sign?, kind_of_isOperator htok]
      rw [← signs_tokenize, h, signs_append, signs_cons, hnone, List.countP_append]
      rfl
    rw [hcount htokens htok, hcount htokens' htok', hpost, hpost', hrest, Nat.add_right_cancel_iff] at hall
    rw [Bool.eq_iff_iff, isPlain_of_tokens htokens hpre htok, isPlain_of_tokens htokens' hpre' htok', hall]

end Plain

/-! ### A line with an equation -/

namespace Classify
open Token
variable {line : Text} {index : Nat} {m : Marker} {t : Token}

/-- Nothing on the line is read for a value: no marker stands outside square brackets, or the first input marker there
    has no name before it. -/
def Mute (line : Text) : Prop :=
  ∀ index m, choose (candidates 0 0 (Lines.significantTokens line)) = some (index, m) → m = .leftArrow ∧
    ∀ name ∈ (readHead line {} ((Lines.significantTokens line).take index).reverse).rest.head?, name.kind.isName = false

/-- Before the markers of a line with an equation stands at least the equals sign. -/
theorem index_ne_zero (hplain : Equation.isPlain line = true) (ht : (Lines.significantTokens line)[index]? = some t)
    (hm : t.kind.marker? = some m) : index ≠ 0 := by
  rintro rfl
  have hmarker : t.kind.isMarker = true := by simp [Kind.isMarker, hm]
  unfold Equation.isPlain at hplain
  cases hsig : Lines.significantTokens line with
  | nil =>
    rw [hsig] at ht
    cases ht
  | cons x xs =>
    rw [hsig] at ht hplain
    obtain rfl := Option.some.inj ht
    simp [hmarker] at hplain

/-- A marker opens a block only if a brace stands on the line. -/
theorem opensBlock_eq_false (hline : '\n' ∉ line) (hbrace : '{' ∉ blankComments line)
    (ht : (Lines.significantTokens line)[index]? = some t) (hm : t.kind.marker? = some m) :
    opensBlock (Lines.significantTokens line) index = false := by
  obtain ⟨d, hd⟩ : ∃ d, t.kind = .marker m d := by
    cases hk : t.kind <;> simp_all [Kind.marker?]
  have hmem : t ∈ Lexer.lexFrom 0 {} {} line := List.mem_of_mem_filter (List.mem_of_getElem? ht)
  obtain ⟨x, z, u, rfl, hlexeme, hoffset, -⟩ := Lexer.marker_of_mem_lexFrom hmem hd
  rw [← List.append_assoc] at hline hbrace ht ⊢
  have hend : t.endOffset = (x ++ (z ++ m.text)).length := by
    have hbegin : t.offset = x.length := by simpa using hoffset
    simp only [Token.endOffset, Token.length, hlexeme, hbegin, List.length_append]
  obtain ⟨pre, hr, hu, hloud, rfl⟩ := readsUpTo_of_significant ht hend hm
  have hu' : '\n' ∉ u := fun hmem => hline (List.mem_append_right _ hmem)
  obtain ⟨b, cs, hb⟩ := exists_commented u hu'
  have hnone : (Text.trimLeft b).head?.any (· == '{') = false := by
    rw [Bool.eq_false_iff]
    intro hopen
    obtain ⟨c, hc, hc'⟩ := (Option.any_eq_true _ _).mp hopen
    obtain rfl : c = '{' := by simpa using hc'
    refine hbrace (List.mem_of_mem_drop (i := (x ++ (z ++ m.text)).length) ?_)
    rw [hr.blankComments_drop hu, hb.blankComments_eq]
    exact (List.dropWhile_suffix _).mem (List.mem_of_mem_head? hc)
  exact (hr.opensBlock_eq hu hloud).trans ((hb.opensBlock hu' _ _).trans hnone)

/-- A line that holds an equation is read for a value as well, unless it is mute. -/
theorem classifyLine_eq_none_iff (hline : '\n' ∉ line) (hbrace : '{' ∉ blankComments line)
    (hplain : Equation.isPlain line = true) : classifyLine line = none ↔ Mute line := by
  have hfound {index : Nat} {m : Marker} {t : Token}
      (hchoose : choose (candidates 0 0 (Lines.significantTokens line)) = some (index, m))
      (ht : (Lines.significantTokens line)[index]? = some t) (d : Decoration) :
      subjectBefore line m d ((Lines.significantTokens line).take index).reverse = none ↔ m = .leftArrow ∧
        ∀ name ∈ (readHead line {} ((Lines.significantTokens line).take index).reverse).rest.head?,
          name.kind.isName = false := by
    obtain ⟨-, t', ht', hm⟩ := candidates_spec (choose_mem hchoose)
    have hindex := index_ne_zero hplain ht' hm
    refine subjectBefore_eq_none fun hnil => ?_
    have hlength := congrArg List.length hnil
    obtain ⟨hlt, -⟩ := List.getElem?_eq_some_iff.mp ht
    rw [List.length_reverse, List.length_take, List.length_nil] at hlength
    omega
  constructor
  · intro hnone index m hchoose
    obtain ⟨-, t, ht, hm⟩ := candidates_spec (choose_mem hchoose)
    rw [← hfound hchoose ht ⟨t.kind.style, t.kind.base⟩]
    by_contra hsome
    obtain ⟨found, hsome⟩ := Option.ne_none_iff_exists'.mp hsome
    have hclassify : classifyLine line = some (lineAt line (tokenize line) m t found) :=
      ofTokens_eq_some_iff.mpr ⟨index, m, t, found, hchoose, ht, index_ne_zero hplain ht hm,
        opensBlock_eq_false hline hbrace ht hm, hsome, rfl⟩
    rw [hnone] at hclassify
    cases hclassify
  · intro hmute
    refine Option.eq_none_iff_forall_ne_some.mpr fun l hl => ?_
    obtain ⟨index, m, t, found, hchoose, ht, -, -, hsome, -⟩ := ofTokens_eq_some_iff.mp hl
    have hnone := (hfound hchoose ht ⟨t.kind.style, t.kind.base⟩).mpr (hmute index m hchoose)
    cases hnone.symm.trans hsome

end Classify

/-! ### Lines that are read together -/

namespace Lines

/-- The lines from the one with index `i` to the one with index `j` are read together, for limits. -/
def Joins (ls : List Text) (i j : Nat) : Prop := ∃ n, (spans 0 ls)[i]? = some (some n) ∧ i + n = j

section Joins
variable {ls init tail rest : List Text} {line last : Text} {found : ValueLine} {i j : Nat}

theorem Joins.le (h : Joins ls i j) : i ≤ j := by
  obtain ⟨n, -, rfl⟩ := h
  exact Nat.le_add_right i n

theorem joins_alone (h : joined? line rest = none) :
    Joins (line :: rest) i j ↔ ∃ i' j', i = i' + 1 ∧ j = j' + 1 ∧ Joins rest i' j' := by
  unfold Joins
  rw [spans_alone h]
  cases i with
  | zero => simp
  | succ i =>
    rw [List.getElem?_cons_succ]
    constructor
    · rintro ⟨n, hn, rfl⟩
      exact ⟨i, i + n, rfl, by omega, n, hn, rfl⟩
    · rintro ⟨i', j', hi, rfl, n, hn, rfl⟩
      obtain rfl : i = i' := by omega
      exact ⟨n, hn, by omega⟩

theorem joins_joined (h : joined? line (init ++ last :: tail) = some (init.length + 1, found)) :
    Joins (line :: (init ++ last :: tail)) i j ↔ i = 0 ∧ j = init.length + 1 ∨
      ∃ i' j', i = i' + (init.length + 2) ∧ j = j' + (init.length + 2) ∧ Joins tail i' j' := by
  have hspans : spans 0 (line :: (init ++ last :: tail)) =
      some (init.length + 1) :: ((init ++ [last]).map (fun _ => none) ++ spans 0 tail) := by
    have hskip := spans_skip (init ++ [last]) tail
    rw [List.length_append, List.length_singleton, List.append_assoc, List.singleton_append] at hskip
    rw [spans_joined h, hskip]
  unfold Joins
  rw [hspans]
  cases i with
  | zero => simp [eq_comm]
  | succ i =>
    rw [List.getElem?_cons_succ]
    by_cases hi : i < init.length + 1
    · rw [List.getElem?_append_left (by simpa using hi)]
      refine iff_of_false ?_ ?_
      · rintro ⟨n, hn, -⟩
        have hmem := List.mem_of_getElem? hn
        simp at hmem
      · rintro (⟨hzero, -⟩ | ⟨i', j', hi', -⟩) <;> omega
    · rw [List.getElem?_append_right (by simpa using hi)]
      constructor
      · rintro ⟨n, hn, rfl⟩
        refine .inr ⟨i - (init.length + 1), i - (init.length + 1) + n, by omega, by omega, n, ?_, rfl⟩
        simpa using hn
      · rintro (⟨hzero, -⟩ | ⟨i', j', hi', rfl, n, hn, rfl⟩)
        · omega
        · refine ⟨n, ?_, by omega⟩
          have hindex : i - (init.length + 1) = i' := by omega
          simpa [hindex] using hn

/-- What `found` is for the line with index `i`: some value line if it is the last one of lines that are read together,
    none if it is another one of them, and what the line is classified as alone if it is none of them. -/
def Shares (ls : List Text) (i : Nat) (line : Text) (found : Option (Option ValueLine)) : Prop :=
  (∃ l, found = some (some l)) ∧ (∃ k, Joins ls k i) ∨
    found = some none ∧ (∃ k j, Joins ls k j ∧ k ≤ i ∧ i ≤ j) ∧ (∀ k, ¬Joins ls k i) ∨
    found = some (classifyLine line) ∧ ∀ k j, Joins ls k j → ¬(k ≤ i ∧ i ≤ j)

/-- It is the same with more lines before, as long as none of them are read together with the others. -/
theorem Shares.shift {ls' : List Text} {n : Nat} {found : Option (Option ValueLine)} (h : Shares ls i line found)
    (hto : ∀ k j, Joins ls k j → Joins ls' (k + n) (j + n))
    (hof : ∀ k j, Joins ls' k j → n ≤ j → ∃ k' j', k = k' + n ∧ j = j' + n ∧ Joins ls k' j') :
    Shares ls' (i + n) line found := by
  rcases h with ⟨hfound, k, hk⟩ | ⟨hnone, ⟨k, j, hkj, hle, hle'⟩, hlast⟩ | ⟨halone, hout⟩
  · exact .inl ⟨hfound, k + n, hto k i hk⟩
  · refine .inr (.inl ⟨hnone, ⟨k + n, j + n, hto k j hkj, by omega, by omega⟩, fun k hk => ?_⟩)
    obtain ⟨k', j', -, hj', hk'⟩ := hof k (i + n) hk (by omega)
    obtain rfl : i = j' := by omega
    exact hlast k' hk'
  · refine .inr (.inr ⟨halone, fun k j hkj ⟨hle, hle'⟩ => ?_⟩)
    obtain ⟨k', j', rfl, rfl, hkj'⟩ := hof k j hkj (by omega)
    exact hout k' j' hkj' ⟨by omega, by omega⟩

/-- A line that is read together with others has their value line if it is the last one of them, and none otherwise. -/
theorem shares_classify (ls : List Text) : ∀ i line, ls[i]? = some line → Shares ls i line (classify ls)[i]? := by
  induction ls using span_induction with
  | nil => exact fun i line h => nomatch h
  | alone first rest hjoined ih =>
    have hclassify : classify (first :: rest) = classifyLine first :: classify rest := classifyFrom_alone hjoined
    intro i line hline
    rw [hclassify]
    cases i with
    | zero =>
      obtain rfl := Option.some.inj hline
      refine .inr (.inr ⟨rfl, fun k j hkj hcovers => ?_⟩)
      obtain ⟨k', j', rfl, -⟩ := (joins_alone hjoined).mp hkj
      omega
    | succ i =>
      rw [List.getElem?_cons_succ] at hline ⊢
      exact (ih i line hline).shift (fun k j hkj => (joins_alone hjoined).mpr ⟨k, j, rfl, rfl, hkj⟩)
        fun k j hkj _ => (joins_alone hjoined).mp hkj
  | joined first init last tail found hjoined ih =>
    intro i line hline
    rw [classify_joined hjoined]
    rcases Nat.lt_trichotomy i (init.length + 1) with hi | rfl | hi
    · have hnone : (none :: (init.map (fun _ => none) ++ some found :: classify tail))[i]? = some none := by
        cases i with
        | zero => rfl
        | succ i =>
          have hi' : i < init.length := Nat.lt_of_succ_lt_succ hi
          rw [List.getElem?_cons_succ, List.getElem?_append_left (by simpa using hi'), List.getElem?_map,
            List.getElem?_eq_getElem hi']
          rfl
      refine .inr (.inl ⟨hnone, ⟨0, init.length + 1, (joins_joined hjoined).mpr (.inl ⟨rfl, rfl⟩), Nat.zero_le i, hi.le⟩,
        fun k hk => ?_⟩)
      rcases (joins_joined hjoined).mp hk with ⟨-, hlast⟩ | ⟨k', j', -, hj', -⟩ <;> omega
    · refine .inl ⟨⟨found, ?_⟩, 0, (joins_joined hjoined).mpr (.inl ⟨rfl, rfl⟩)⟩
      rw [List.getElem?_cons_succ, List.getElem?_append_right (by simp)]
      simp
    · obtain ⟨i, rfl⟩ := Nat.exists_eq_add_of_le' hi
      have hindex : i + (init.length + 1).succ = (i + 1 + init.length) + 1 := by omega
      have hbehind {α : Type} (x y : α) (xs ys : List α) (h : xs.length = init.length) :
          (x :: (xs ++ y :: ys))[i + (init.length + 1).succ]? = ys[i]? := by
        rw [hindex, List.getElem?_cons_succ, List.getElem?_append_right (by omega), h, Nat.add_sub_cancel,
          List.getElem?_cons_succ]
      rw [hbehind _ _ _ _ rfl] at hline
      rw [hbehind _ _ _ _ (by simp)]
      refine (ih i line hline).shift (fun k j hkj => (joins_joined hjoined).mpr (.inr ⟨k, j, rfl, rfl, hkj⟩))
        fun k j hkj hle => ((joins_joined hjoined).mp hkj).resolve_left fun hfirst => ?_
      omega

end Joins
end Lines

/-! ### The two roles -/

/-- No line has a value line and is the first line of an equation outside braces. -/
def HasOneRole (lines : List Text) : Prop :=
  ∀ i found, (Lines.classify lines)[i]? = some (some found) → ∀ eq ∈ Equation.find lines, eq.braced = false →
    eq.firstLine ≠ i

/-- An equation outside braces stands on a line without a brace and with an equals sign before any marker. -/
theorem Equation.plain_of_mem_find {lines : List Text} {eq : Equation} (h : eq ∈ find lines)
    (hbraced : eq.braced = false) : ∃ line, lines[eq.firstLine]? = some line ∧
      '{' ∉ Classify.blankComments line ∧ isPlain (Classify.blankComments line) = true := by
  obtain ⟨A, line, B, rfl, hfirst, hat, -⟩ := exists_of_mem_findFrom h
  refine ⟨line, ?_, ?_⟩
  · rw [hfirst, Nat.zero_add]
    simp
  · unfold at? at hat
    dsimp only at hat
    split at hat
    · cases hblock : block? eq.firstLine (Classify.blankComments line) B with
      | none =>
        rw [hblock] at hat
        cases hat
      | some x =>
        rw [hblock] at hat
        have htrue := (braced_of_block? hblock (Option.mem_toList.mpr hat)).2
        rw [hbraced] at htrue
        cases htrue
    · rename_i hbrace
      split at hat
      · rename_i hplain
        exact ⟨by simpa using hbrace, hplain⟩
      · cases hat

/-- Lines have one role each exactly if no equation stands on the last of some lines that are read together, and every
    equation on a line that is read by itself is on a mute one. -/
theorem hasOneRole_iff {lines : List Text} (hlines : ∀ line ∈ lines, '\n' ∉ line) :
    HasOneRole lines ↔ ∀ eq ∈ Equation.find lines, eq.braced = false →
      (∀ i, ¬Lines.Joins lines i eq.firstLine) ∧
      ∀ line, lines[eq.firstLine]? = some line →
        (∀ i j, Lines.Joins lines i j → ¬(i ≤ eq.firstLine ∧ eq.firstLine ≤ j)) → Classify.Mute line := by
  constructor
  · intro hone eq heq hbraced
    obtain ⟨line, hline, hbrace, hplain⟩ := Equation.plain_of_mem_find heq hbraced
    have hnewline := hlines line (List.mem_of_getElem? hline)
    rw [Equation.isPlain_blankComments hnewline] at hplain
    rcases Lines.shares_classify lines eq.firstLine line hline with
      ⟨⟨found, hfound⟩, -⟩ | ⟨-, ⟨i, j, hjoins, hin⟩, hlast⟩ | ⟨halone, hout⟩
    · exact absurd rfl (hone _ found hfound eq heq hbraced)
    · refine ⟨hlast, fun line' hline' hout => ?_⟩
      exact absurd hin (hout i j hjoins)
    · refine ⟨fun i hjoins => hout i _ hjoins ⟨hjoins.le, Nat.le_refl _⟩, fun line' hline' _ => ?_⟩
      obtain rfl := Option.some.inj (hline.symm.trans hline')
      refine (Classify.classifyLine_eq_none_iff hnewline hbrace hplain).mp ?_
      by_contra hsome
      obtain ⟨found, hfound⟩ := Option.ne_none_iff_exists'.mp hsome
      rw [hfound] at halone
      exact hone _ found halone eq heq hbraced rfl
  · rintro hall i found hfound eq heq hbraced rfl
    obtain ⟨hlast, hmute⟩ := hall eq heq hbraced
    obtain ⟨line, hline, hbrace, hplain⟩ := Equation.plain_of_mem_find heq hbraced
    have hnewline := hlines line (List.mem_of_getElem? hline)
    rw [Equation.isPlain_blankComments hnewline] at hplain
    rcases Lines.shares_classify lines eq.firstLine line hline with ⟨-, i, hjoins⟩ | ⟨hnone, -⟩ | ⟨halone, hout⟩
    · exact hlast i hjoins
    · cases hnone.symm.trans hfound
    · rw [(Classify.classifyLine_eq_none_iff hnewline hbrace hplain).mpr (hmute line hline hout)] at halone
      cases halone.symm.trans hfound

/-- Two equations, one of them with an input marker behind a number, and a value line. -/
theorem hasOneRole_pair :
    (∀ line ∈ ["y = x * 2".toList, "x = 4 <- 5".toList, "y->".toList], '\n' ∉ line) ∧
      HasOneRole ["y = x * 2".toList, "x = 4 <- 5".toList, "y->".toList] := by
  have hlines : ∀ line ∈ ["y = x * 2".toList, "x = 4 <- 5".toList, "y->".toList], '\n' ∉ line := by decide
  have hfind : Equation.find ["y = x * 2".toList, "x = 4 <- 5".toList, "y->".toList] =
      [⟨"y = x * 2".toList, false, 0, 0⟩, ⟨"x = 4 <- 5".toList, false, 1, 1⟩] := by rfl
  have hjoins : ∀ i j, ¬Lines.Joins ["y = x * 2".toList, "x = 4 <- 5".toList, "y->".toList] i j := by
    rintro i j ⟨n, hn, -⟩
    have hspans : Lines.spans 0 ["y = x * 2".toList, "x = 4 <- 5".toList, "y->".toList] = [none, none, none] := by rfl
    have hmem := List.mem_of_getElem? (hspans ▸ hn)
    simp at hmem
  refine ⟨hlines, (hasOneRole_iff hlines).mpr fun eq heq _ => ⟨fun i => hjoins i _, fun line hline _ => ?_⟩⟩
  rw [hfind] at heq
  rcases List.mem_pair.mp heq with rfl | rfl <;> obtain rfl := Option.some.inj hline <;> intro index m hchoose
  · have hnone : Classify.choose (Classify.candidates 0 0 (Lines.significantTokens "y = x * 2".toList)) = none := by rfl
    cases hnone.symm.trans hchoose
  · have hsome : Classify.choose (Classify.candidates 0 0 (Lines.significantTokens "x = 4 <- 5".toList)) =
        some (3, .leftArrow) := by rfl
    obtain ⟨rfl, rfl⟩ := Prod.mk.inj (Option.some.inj (hsome.symm.trans hchoose))
    exact ⟨rfl, by decide⟩

/-- A line that is an equation and declares `x`. -/
theorem not_hasOneRole : ¬HasOneRole ["y = x: 5".toList] := by
  intro h
  have hfind : Equation.find ["y = x: 5".toList] = [⟨"y = x: 5".toList, false, 0, 0⟩] := by rfl
  obtain ⟨found, hfound⟩ : ∃ found, (Lines.classify ["y = x: 5".toList])[0]? = some (some found) := ⟨_, rfl⟩
  exact h 0 found hfound _ (hfind ▸ List.mem_singleton_self _) rfl rfl

end Worksheet
