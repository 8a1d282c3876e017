import Mathlib.Data.List.Forall2
import Worksheet.Proofs.Document.Clear
import Worksheet.Proofs.Document.Emptied
import Worksheet.Proofs.Token.Balance

/-! A cleared document, read again. The lines that are read together are seen first; as long as they stay together,
    each line that has lost its value is what its own text makes of it, and each other line is what it was. So
    clearing leaves nothing to clear exactly if the units that move up to the markers are not read for values. -/

namespace Worksheet
open Text

namespace Lines

/-! ### Lines that are read together -/

/-- For every line that begins limits over several lines the number of further lines; the first `skip` lines are
    those that go on such limits. -/
def spans (skip : Nat) : List Text → List (Option Nat)
  | [] => []
  | l :: ls =>
    match skip with
    | skip + 1 => none :: spans skip ls
    | 0 =>
      match joined? l ls with
      | some (n, _) => some n :: spans n ls
      | none => none :: spans 0 ls

section Spans
variable {line last : Text} {init tail rest : List Text} {found : ValueLine} {n : Nat}

theorem spans_alone (h : joined? line rest = none) : spans 0 (line :: rest) = none :: spans 0 rest := by
  rw [spans, h]

theorem spans_joined (h : joined? line rest = some (n, found)) : spans 0 (line :: rest) = some n :: spans n rest := by
  rw [spans, h]

theorem spans_skip (init tail : List Text) :
    spans init.length (init ++ tail) = init.map (fun _ => none) ++ spans 0 tail := by
  induction init with
  | nil => rfl
  | cons line init ih => exact congrArg (none :: ·) ih

/-- The value line that is held belongs to the last of the lines it is held for. -/
theorem classifyFrom_held (init tail : List Text) (last : Text) (found : ValueLine) :
    classifyFrom (some (init.length, found)) (init ++ last :: tail) =
      init.map (fun _ => none) ++ some found :: classifyFrom none tail := by
  induction init with
  | nil => rfl
  | cons line init ih => exact congrArg (none :: ·) ih

theorem classify_joined (h : joined? line (init ++ last :: tail) = some (init.length + 1, found)) :
    classify (line :: (init ++ last :: tail)) = none :: (init.map (fun _ => none) ++ some found :: classify tail) := by
  unfold classify
  rw [classifyFrom_joined h, Nat.add_sub_cancel, classifyFrom_held]

/-- The value line of the last one of some lines, read together with those ahead of it. -/
theorem exists_of_joined?_append (h : joined? line (init ++ last :: tail) = some (init.length + 1, found)) :
    ∃ l, classifyLine (ahead (line :: init) ++ last) = some l ∧ (ahead (line :: init)).length ≤ l.markerBegin ∧
      found = l.shift (ahead (line :: init)).length := by
  obtain ⟨init', last', tail', l, hsplit, hlength, hl, hbegin, hfound, -⟩ := joined?_eq_some h
  obtain ⟨rfl, hlast⟩ := List.append_inj hsplit (by simpa using hlength)
  obtain ⟨rfl, rfl⟩ := List.cons.inj hlast
  exact ⟨l, hl, hbegin, hfound⟩

/-- Lines are gone through by the lines that are read together. -/
theorem span_induction {P : List Text → Prop} (nil : P [])
    (alone : ∀ line rest, joined? line rest = none → P rest → P (line :: rest))
    (joined : ∀ line init last tail found, joined? line (init ++ last :: tail) = some (init.length + 1, found) →
      P tail → P (line :: (init ++ last :: tail))) : ∀ ls, P ls
  | [] => nil
  | line :: rest => by
    cases h : joined? line rest with
    | none => exact alone line rest h (span_induction nil alone joined rest)
    | some x =>
      obtain ⟨n, found⟩ := x
      obtain ⟨init, last, tail, -, hrest, hn, -⟩ := joined?_eq_some h
      have htail : tail.length < (line :: rest).length := by
        rw [hrest, List.length_cons, List.length_append, List.length_cons]
        omega
      rw [hrest]
      rw [hrest, hn] at h
      exact joined line init last tail found h (span_induction nil alone joined tail)
  termination_by ls => ls.length

end Spans

/-! ### Lines without brackets -/

theorem mem_of_opening_mem {skip offset : Nat} {t : Text} (h : Sign.opening ∈ Lexer.outline skip offset t) : '[' ∈ t := by
  induction t generalizing skip offset with
  | nil => simp at h
  | cons c t ih =>
    cases skip with
    | succ skip => exact List.mem_cons_of_mem c (ih (Lexer.outline_succ (c := c) (t := t) skip offset ▸ h))
    | zero =>
      cases hnote : Lexer.note? c t with
      | some n =>
        rw [Lexer.outline_note hnote, List.mem_cons] at h
        exact List.mem_cons_of_mem c (ih (h.resolve_left (by simp)))
      | none =>
        rw [Lexer.outline_glance hnote, List.mem_append] at h
        rcases h with h | h
        · have hc : c = '[' := by
            by_contra hne
            unfold Lexer.glance at h
            rw [if_neg hne] at h
            split at h
            · simp at h
            · split at h <;> simp at h
          exact hc ▸ List.mem_cons_self
        · exact List.mem_cons_of_mem c (ih h)

theorem bracketBalance_nonpos {line : Text} (h : '[' ∉ line) : bracketBalance line ≤ 0 := by
  rw [bracketBalance_eq, Lexer.signs_tokenize]
  have hnone : Sign.opening ∉ Lexer.outline 0 0 line := mt mem_of_opening_mem h
  unfold Sign.balance
  generalize Lexer.outline 0 0 line = ss at hnone
  induction ss with
  | nil => exact Int.le_refl 0
  | cons s ss ih =>
    rw [List.mem_cons, not_or] at hnone
    have hrest := ih hnone.2
    have hone : s.weight ≤ 0 := by
      cases s with
      | opening => exact absurd rfl hnone.1
      | closing => decide
      | marker m => exact Int.le_refl 0
      | comment lexeme offset => exact Int.le_refl 0
    rw [List.map_cons, List.sum_cons]
    omega

end Lines

/-! ### A line, cleared -/

namespace Clearing

/-- The value is taken out of the line. -/
def wipes (c : Clearing) (l : ValueLine) : Bool := !l.valueText.isEmpty && c.takes l

/-- What a line is read for, and what it is read for cleared: the same, if nothing is taken out; otherwise the same
    value line without a value if the unit rests, and only then no value. -/
inductive Emptied (c : Clearing) : Option ValueLine → Option ValueLine → Prop where
  | kept {found : Option ValueLine} (h : ∀ l ∈ found, c.wipes l = false) : Emptied c found found
  | wiped {l : ValueLine} {found' : Option ValueLine} (h : c.wipes l = true)
      (hrests : l.Rests → ∃ quoted, found' = some { l with valueText := [], quoted })
      (hvalue : ∀ l' ∈ found', l'.valueText = [] → l.Rests) : Emptied c (some l) found'

section Line
variable (c : Clearing) {line : Text} {l : ValueLine}

theorem clearLine_of_wipes (h : c.wipes l = true) (line : Text) : c.clearLine line (some l) = l.write line [] := if_pos h

theorem clearLine_of_not_wipes {found : Option ValueLine} (h : ∀ l ∈ found, c.wipes l = false) (line : Text) :
    c.clearLine line found = line := by
  cases found with
  | none => rfl
  | some l => exact if_neg (by simpa [wipes] using h l rfl)

theorem not_wipes_of_valueText (h : l.valueText = []) : c.wipes l = false := by simp [wipes, h]

/-- A line that is read behind others, cleared. -/
theorem emptied_behind {before last : Text} (hnewline : '\n' ∉ before ++ last) (hl : classifyLine (before ++ last) = some l)
    (hbegin : before.length ≤ l.markerBegin) :
    Emptied c (some (l.shift before.length)) ((classifyLine (before ++ c.clearLine last (some (l.shift before.length)))).map
      (ValueLine.shift before.length)) := by
  cases hwipes : c.wipes (l.shift before.length) with
  | false =>
    have hkept : ∀ l' ∈ some (l.shift before.length), c.wipes l' = false := by
      rintro _ ⟨⟩
      exact hwipes
    rw [c.clearLine_of_not_wipes hkept, hl]
    exact .kept hkept
  | true =>
    have hend := hbegin.trans (ValueLine.markerBegin_le hl)
    rw [c.clearLine_of_wipes hwipes, ← ValueLine.write_shift hend]
    obtain ⟨hrests, hvalue⟩ := Classify.classifyLine_emptied hnewline hl
    refine .wiped hwipes (fun h => ?_) fun l' hl' hnil => ?_
    · obtain ⟨quoted, hquoted⟩ := hrests ⟨h.valueLength, h.brace⟩
      exact ⟨quoted, by rw [hquoted]; rfl⟩
    · obtain ⟨l₀, hl₀, rfl⟩ := Option.map_eq_some_iff.mp hl'
      obtain ⟨hlength, hbrace⟩ := hvalue l₀ hl₀ hnil
      exact ⟨hlength, hbrace⟩

/-- A line that is read by itself, cleared. -/
theorem emptied_alone (hnewline : '\n' ∉ line) :
    Emptied c (classifyLine line) (classifyLine (c.clearLine line (classifyLine line))) := by
  have hshift (found : Option ValueLine) : found.map (ValueLine.shift 0) = found := by cases found <;> rfl
  cases hl : classifyLine line with
  | none =>
    show Emptied c none (classifyLine line)
    rw [hl]
    exact .kept fun _ h => nomatch h
  | some l =>
    rw [← hshift (classifyLine (c.clearLine line (some l)))]
    exact c.emptied_behind (show '\n' ∉ [] ++ line from hnewline) hl (Nat.zero_le _)

end Line

/-! ### All lines -/

section Lines
open Worksheet.Lines
variable (c : Clearing) {line last : Text} {init tail rest ls : List Text} {found : ValueLine}

theorem clearLines_alone (h : joined? line rest = none) :
    c.clearLines (line :: rest) = c.clearLine line (classifyLine line) :: c.clearLines rest := by
  unfold clearLines classify
  rw [classifyFrom_alone h]
  rfl

theorem clearLines_joined (h : joined? line (init ++ last :: tail) = some (init.length + 1, found)) :
    c.clearLines (line :: (init ++ last :: tail)) = line :: (init ++ c.clearLine last (some found) :: c.clearLines tail) := by
  have hinit : List.zipWith c.clearLine init (init.map fun _ => none) = init := by
    rw [List.zipWith_map_right, List.zipWith_self]
    exact List.map_id _
  unfold clearLines
  rw [classify_joined h, List.zipWith_cons_cons, List.zipWith_append (by simp), hinit]
  rfl

/-- Lines that stay together are, cleared, what each of them is cleared. -/
theorem forall₂_emptied (hls : ∀ l ∈ ls, '\n' ∉ l) (hspans : spans 0 (c.clearLines ls) = spans 0 ls) :
    List.Forall₂ (Emptied c) (classify ls) (classify (c.clearLines ls)) := by
  induction ls using span_induction with
  | nil => exact .nil
  | alone line rest hjoined ih =>
    obtain ⟨hline, hrest⟩ := List.forall_mem_cons.mp hls
    rw [c.clearLines_alone hjoined, spans_alone hjoined] at hspans
    cases hjoined' : joined? (c.clearLine line (classifyLine line)) (c.clearLines rest) with
    | some x =>
      rw [spans_joined hjoined'] at hspans
      cases (List.cons.inj hspans).1
    | none =>
      rw [spans_alone hjoined'] at hspans
      rw [c.clearLines_alone hjoined]
      unfold classify at ih ⊢
      rw [classifyFrom_alone hjoined, classifyFrom_alone hjoined']
      exact .cons (c.emptied_alone hline) (ih hrest (List.cons.inj hspans).2)
  | joined line init last tail found hjoined ih =>
    rw [c.clearLines_joined hjoined] at hspans ⊢
    rw [spans_joined hjoined] at hspans
    cases hjoined' : joined? line (init ++ c.clearLine last (some found) :: c.clearLines tail) with
    | none =>
      rw [spans_alone hjoined'] at hspans
      cases (List.cons.inj hspans).1
    | some x =>
      obtain ⟨n, found'⟩ := x
      rw [spans_joined hjoined'] at hspans
      obtain ⟨hn, hspans⟩ := List.cons.inj hspans
      obtain rfl := Option.some.inj hn
      have hskip (last : Text) (tail : List Text) : spans (init.length + 1) (init ++ last :: tail) =
          (init ++ [last]).map (fun _ => none) ++ spans 0 tail := by
        rw [← spans_skip, List.append_assoc, List.length_append]
        rfl
      rw [hskip, hskip] at hspans
      have htail : spans 0 (c.clearLines tail) = spans 0 tail :=
        List.append_inj_right hspans (by simp)
      have hmem : ∀ l ∈ tail, '\n' ∉ l := fun l hl => hls l (by simp [hl])
      obtain ⟨l, hl, hbegin, rfl⟩ := exists_of_joined?_append hjoined
      obtain ⟨l', hl', -, rfl⟩ := exists_of_joined?_append hjoined'
      have hnewline : '\n' ∉ ahead (line :: init) ++ last := by
        rw [List.mem_append, not_or]
        refine ⟨fun hmem => ?_, hls last (by simp)⟩
        obtain ⟨first, hfirst, hmem⟩ := List.mem_flatMap.mp hmem
        have hnot := hls first (List.mem_append_left (last :: tail) hfirst)
        simp [hnot] at hmem
      have hemptied := c.emptied_behind hnewline hl hbegin
      rw [hl'] at hemptied
      rw [classify_joined hjoined, classify_joined hjoined']
      refine .cons (.kept fun _ h => nomatch h) (List.rel_append ?_ (.cons hemptied (ih hmem htail)))
      exact List.forall₂_map_left_iff.mpr (List.forall₂_map_right_iff.mpr
        (List.forall₂_same.mpr fun _ _ => .kept fun _ h => nomatch h))

/-- Lines without brackets are read one by one, also cleared. -/
theorem spans_clearLines_of_not_mem (hls : ∀ l ∈ ls, '[' ∉ l) : spans 0 (c.clearLines ls) = spans 0 ls := by
  induction ls with
  | nil => rfl
  | cons line rest ih =>
    obtain ⟨hline, hrest⟩ := List.forall_mem_cons.mp hls
    have hcleared : '[' ∉ c.clearLine line (classifyLine line) := by
      cases hl : classifyLine line with
      | none => exact hline
      | some l =>
        unfold clearLine
        dsimp only
        split
        · rw [l.write_nil, List.mem_append, not_or]
          exact ⟨fun hmem => hline (List.mem_of_mem_take hmem),
            fun hmem => (Classify.mem_behind hl hmem).elim hline fun h => nomatch h⟩
        · exact hline
    have hjoined (rest : List Text) := joined?_of_balance (bracketBalance_nonpos hline) rest
    have hjoined' (rest : List Text) := joined?_of_balance (bracketBalance_nonpos hcleared) rest
    rw [c.clearLines_alone (hjoined _), spans_alone (hjoined' _), spans_alone (hjoined _), ih hrest]

theorem exists_emptied {fs fs' : List (Option ValueLine)} (h : List.Forall₂ (Emptied c) fs fs') {i : Nat}
    {found : Option ValueLine} (hi : fs[i]? = some found) : ∃ found', fs'[i]? = some found' ∧ Emptied c found found' := by
  induction h generalizing i with
  | nil => cases hi
  | cons hone h ih =>
    cases i with
    | zero =>
      obtain rfl := Option.some.inj hi
      exact ⟨_, rfl, hone⟩
    | succ i => exact ih hi

/-- If all units rest there is nothing more to take out. -/
theorem zipWith_clearLine_of_rests {fs fs' : List (Option ValueLine)} (h : List.Forall₂ (Emptied c) fs fs')
    (hrests : ∀ l, some l ∈ fs → c.wipes l = true → l.Rests) (ls : List Text) :
    List.zipWith c.clearLine (List.zipWith c.clearLine ls fs) fs' = List.zipWith c.clearLine ls fs := by
  induction h generalizing ls with
  | nil => simp
  | @cons found found' fs fs' hone h ih =>
    cases ls with
    | nil => rfl
    | cons line ls =>
      have hrest := ih (fun l hl => hrests l (List.mem_cons_of_mem _ hl)) ls
      refine congrArg₂ List.cons ?_ hrest
      cases hone with
      | kept hkept => rw [c.clearLine_of_not_wipes hkept, c.clearLine_of_not_wipes hkept]
      | wiped hwipes hemptied =>
        obtain ⟨quoted, rfl⟩ := hemptied (hrests _ List.mem_cons_self hwipes)
        exact c.clearLine_of_not_wipes (by rintro _ ⟨⟩; exact c.not_wipes_of_valueText rfl) _

end Lines

/-! ### Texts -/

/-- Clearing really clears: each line that loses its value is still a value line for the same subject with the same
    marker, now without a value, so that clearing once more changes nothing. -/
structure Clears (c : Clearing) (t : Text) : Prop where
  emptied : ∀ (i : Nat) (l : ValueLine), (Lines.classify (lines t))[i]? = some (some l) → c.wipes l = true →
    ∃ l' : ValueLine, (Lines.classify (lines (c.clear t)))[i]? = some (some l') ∧
      l'.subject = l.subject ∧ l'.marker = l.marker ∧ l'.valueText = []
  again : c.clear (c.clear t) = c.clear t

/-- In a text without square brackets there are no lines that are read together. -/
theorem spans_clear_of_not_mem (c : Clearing) {t : Text} (h : '[' ∉ t) :
    Lines.spans 0 (lines (c.clear t)) = Lines.spans 0 (lines t) := by
  rw [c.lines_clear]
  exact c.spans_clearLines_of_not_mem fun _ hl => mt (mem_of_mem_lines hl) h

/-- As long as the lines that are read together stay together, clearing really clears exactly if the units of all
    lines that lose their values rest. -/
theorem clears_iff_rests (c : Clearing) (t : Text)
    (hspans : Lines.spans 0 (lines (c.clear t)) = Lines.spans 0 (lines t)) :
    c.Clears t ↔ ∀ l, some l ∈ Lines.classify (lines t) → c.wipes l = true → l.Rests := by
  rw [c.lines_clear] at hspans
  have hemptied := c.forall₂_emptied (fun _ hl => newline_not_mem_of_mem_lines hl) hspans
  constructor
  · rintro ⟨hwiped, -⟩ l hl hwipes
    obtain ⟨i, hi⟩ := List.mem_iff_getElem?.mp hl
    obtain ⟨l', hl', -, -, hnil⟩ := hwiped i l hi hwipes
    rw [c.lines_clear] at hl'
    obtain ⟨found', hfound', hone⟩ := c.exists_emptied hemptied hi
    obtain rfl := Option.some.inj (hl'.symm.trans hfound')
    cases hone with
    | kept hkept => exact absurd hwipes (by simp [hkept l rfl])
    | wiped hwipes hrests hvalue => exact hvalue l' rfl hnil
  · intro hrests
    refine ⟨fun i l hi hwipes => ?_, ?_⟩
    · obtain ⟨found', hfound', hone⟩ := c.exists_emptied hemptied hi
      rw [c.lines_clear, hfound']
      cases hone with
      | kept hkept => exact absurd hwipes (by simp [hkept l rfl])
      | wiped hwipes hone =>
        obtain ⟨quoted, rfl⟩ := hone (hrests l (List.mem_of_getElem? hi) hwipes)
        exact ⟨_, rfl, rfl, rfl, rfl⟩
    · show unlines (c.clearLines (lines (c.clear t))) = unlines (c.clearLines (lines t))
      rw [c.lines_clear]
      exact congrArg unlines (c.zipWith_clearLine_of_rests hemptied hrests (lines t))

/-- A document with limits over two lines, and two values behind one marker that only `output` leaves alone. -/
theorem clears_iff_rests_limits :
    Lines.spans 0 (lines (output.clear "x [1\n:9]-> 5 km // far\ny: 7 8\n2*x->> 1.5 \"rough\"".toList)) =
        Lines.spans 0 (lines "x [1\n:9]-> 5 km // far\ny: 7 8\n2*x->> 1.5 \"rough\"".toList) ∧
      output.Clears "x [1\n:9]-> 5 km // far\ny: 7 8\n2*x->> 1.5 \"rough\"".toList := by
  have hspans : Lines.spans 0 (lines (output.clear "x [1\n:9]-> 5 km // far\ny: 7 8\n2*x->> 1.5 \"rough\"".toList)) =
      Lines.spans 0 (lines "x [1\n:9]-> 5 km // far\ny: 7 8\n2*x->> 1.5 \"rough\"".toList) := by
    decide +kernel
  have hrests : ((Lines.classify (lines "x [1\n:9]-> 5 km // far\ny: 7 8\n2*x->> 1.5 \"rough\"".toList)).all
      fun found => found.all fun l => !output.wipes l || decide l.Rests) = true := by
    decide +kernel
  refine ⟨hspans, (clears_iff_rests _ _ hspans).mpr fun l hl hwipes => ?_⟩
  have hl := List.all_eq_true.mp hrests _ hl
  simpa [hwipes] using hl

/-- The second of two numbers behind an output marker is not cleared but becomes the value. -/
theorem not_clears_number_in_unit : ¬output.Clears "x-> 5 6 apples".toList := by
  intro h
  have hagain : output.clear (output.clear "x-> 5 6 apples".toList) ≠ output.clear "x-> 5 6 apples".toList := by
    decide +kernel
  exact hagain h.again

end Clearing
end Worksheet
