import Mathlib.Data.List.Forall2
import Worksheet.Proofs.Document.Cleared
import Worksheet.Proofs.Document.Uncommented

/-! A document read with blanks in place of its comments. Brackets are counted line by line, but limits over several
    lines are read as one text, where a comment goes on over the line ends unless it ends with a quote. As long as each
    comment is that of one line, all value lines are the same but for the comments in their limits and expressions. -/

namespace Worksheet
open Token Text Lexer

namespace Classify

/-! ### Comments of joined lines -/

section Joined
variable {c : Char} {t u b b' x : Text} {cs cs' : List Text}

/-- The comment ends with a quote of its own. -/
def isClosed (y : Text) : Bool := y.head? == some '"' && y.tail.getLast? == some '"'

/-- A comment with a quote at its end does not depend on what stands behind it. -/
theorem note?_of_isClosed (hx : note? c x = some x.length) (hclosed : isClosed (c :: x) = true) (u : Text) :
    note? c (x ++ u) = some x.length := by
  simp only [isClosed, List.head?_cons, List.tail_cons, Bool.and_eq_true, beq_iff_eq, Option.some.injEq] at hclosed
  obtain ⟨rfl, hlast⟩ := hclosed
  obtain ⟨z, rfl⟩ := List.getLast?_eq_some_iff.mp hlast
  have hrun (u : Text) : (z ++ '"' :: u).takeWhile (fun c => c != '"' && c != '\n') =
      z.takeWhile fun c => c != '"' && c != '\n' := takeWhile_append_of_stops z (by simp)
  have hle : (z.takeWhile fun c => c != '"' && c != '\n').length ≤ z.length := (List.takeWhile_prefix _).length_le
  rw [← hx, List.append_assoc]
  simp only [note?, scanQuoted, Text.span, List.singleton_append, hrun, if_true, List.drop_append_of_le_length hle,
    List.head?_append, List.head?_cons]

/-- If the comments of the first text are closed, the comments of two texts with a blank between them are those of each. -/
theorem Commented.append (h : Commented t b cs) (hclosed : ∀ y ∈ cs, isClosed y = true) (hu : Commented u b' cs') :
    Commented (t ++ ' ' :: u) (b ++ ' ' :: b') (cs ++ cs') := by
  have hblank : Commented (' ' :: u) (' ' :: b') cs' := hu.char (note?_eq_none.mpr ⟨by decide, by simp⟩)
  induction h with
  | nil => exact hblank
  | @char c t b cs hc h ih =>
    obtain ⟨hquote, hslash⟩ := note?_eq_none.mp hc
    refine (ih hclosed).char (note?_eq_none.mpr ⟨hquote, fun ⟨hfirst, hhead⟩ => ?_⟩)
    cases t with
    | nil => cases hhead
    | cons d t => exact hslash ⟨hfirst, hhead⟩
  | comment hx h ih =>
    rw [List.cons_append, List.append_assoc, List.append_assoc]
    exact .comment hx (ih fun y hy => hclosed y (List.mem_cons_of_mem _ hy))
  | last hx => exact .comment (note?_of_isClosed hx (hclosed _ List.mem_cons_self)) hblank

theorem joinBlank_singleton (t : Text) : joinBlank [t] = t := by simp [joinBlank]

theorem joinBlank_cons_cons (t u : Text) (ts : List Text) : joinBlank (t :: u :: ts) = t ++ ' ' :: joinBlank (u :: ts) := by
  unfold joinBlank
  rw [List.intercalate_cons_cons, List.append_assoc]
  rfl

/-- Lines whose comments are closed, but for the last line, have the same comments when they are joined. -/
theorem blankComments_joinBlank {ls : List Text} (hls : ∀ l ∈ ls, '\n' ∉ l)
    (hclosed : ∀ l ∈ ls.dropLast, ∀ c ∈ comments (tokenize l), isClosed c.lexeme = true) :
    blankComments (joinBlank ls) = joinBlank (ls.map blankComments) := by
  have hcommented : ∃ cs, Commented (joinBlank ls) (joinBlank (ls.map blankComments)) cs := by
    induction ls with
    | nil => exact ⟨[], .nil⟩
    | cons l ls ih =>
      obtain ⟨hl, hls⟩ := List.forall_mem_cons.mp hls
      obtain ⟨b, cs, hb⟩ := exists_commented l hl
      cases ls with
      | nil => exact ⟨cs, by simpa [joinBlank_singleton, hb.blankComments_eq] using hb⟩
      | cons m ls =>
        obtain ⟨hfirst, hrest⟩ := List.forall_mem_cons.mp hclosed
        obtain ⟨cs', hjoined⟩ := ih hls hrest
        refine ⟨cs ++ cs', ?_⟩
        rw [List.map_cons, List.map_cons, joinBlank_cons_cons, joinBlank_cons_cons, hb.blankComments_eq]
        refine hb.append ?_ hjoined
        rw [← hb.comments_eq, commentsOf_signs, List.map_map]
        exact List.forall_mem_map.mpr hfirst
  obtain ⟨cs, hcs⟩ := hcommented
  exact hcs.blankComments_eq

end Joined
end Classify

namespace Lines
open Classify

/-! ### Stretches -/

/-- The lines that are tried together: one that leaves a bracket open, and those that close it. -/
def attempt? (line : Text) (rest : List Text) : Option (List Text) :=
  if bracketBalance line ≤ 0 then none
  else (closing? (bracketBalance line) (maxLimitSpan - 1) rest).map (line :: ·)

/-- The value line of some lines read together, if its marker stands in the last one. -/
def together? (s : List Text) : Option ValueLine := do
  let found ← classifyLine (joinBlank s)
  if (ahead s.dropLast).length ≤ found.markerBegin then return found.shift (ahead s.dropLast).length else none

/-- The lines that are read together, and those that are read alone. A line that is tried with others in vain is read
    alone then. The first `skip` lines have been read already. -/
def stretches (skip : Nat) : List Text → List (List Text)
  | [] => []
  | l :: ls =>
    match skip with
    | skip + 1 => stretches skip ls
    | 0 =>
      (attempt? l ls).toList ++
        match joined? l ls with
        | some (n, _) => stretches n ls
        | none => [l] :: stretches 0 ls

/-- Blanks in place of comments do no harm to the lines: they make no value line with or without their comments, or the
    comments of the joined lines are those of each line and no token before the marker is read in another way without
    them. -/
inductive Sound (s : List Text) : Prop
  | unread (h : together? s = none) (h' : together? (s.map blankComments) = none)
  | steady (hcomments : blankComments (joinBlank s) = joinBlank (s.map blankComments))
      (hsteady : Classify.steady (blankComments (joinBlank s)) false (leading (joinBlank s)) = true)

section Stretches
variable {line last : Text} {init tail rest ls s : List Text} {found : ValueLine} {n : Nat}

theorem joinBlank_concat (init : List Text) (last : Text) : joinBlank (init ++ [last]) = ahead init ++ last := by
  induction init with
  | nil => exact joinBlank_singleton last
  | cons l init ih =>
    have hcons : joinBlank (l :: (init ++ [last])) = l ++ ' ' :: joinBlank (init ++ [last]) := by
      cases init <;> exact joinBlank_cons_cons _ _ _
    rw [List.cons_append, hcons, ih]
    simp [ahead]

theorem joined?_eq (line : Text) (rest : List Text) : joined? line rest =
    (attempt? line rest).bind fun s => (together? s).map fun found => (s.length - 1, found) := by
  unfold joined? attempt?
  dsimp only
  split
  · rfl
  · cases hmore : closing? (bracketBalance line) (maxLimitSpan - 1) rest with
    | none => rfl
    | some more =>
      obtain ⟨init, last, tail, -, rfl, -⟩ := closing?_eq_some hmore
      have hjoin : joinBlank (line :: (init ++ [last])) = ahead (line :: init) ++ last := joinBlank_concat (line :: init) last
      have hdrop : (line :: (init ++ [last])).dropLast = line :: init := by rw [← List.cons_append, List.dropLast_concat]
      have hlast : (init ++ [last]).getLast?.getD [] = last := by simp
      rw [Option.bind_eq_bind, Option.bind_some, Option.map_some, Option.bind_some]
      unfold together?
      rw [hjoin, hdrop, hlast]
      change Option.bind (classifyLine (ahead (line :: init) ++ last)) _ = _
      cases classifyLine (ahead (line :: init) ++ last) with
      | none => rfl
      | some l =>
        show (if (ahead (line :: init)).length ≤ l.markerBegin then _ else none) = Option.map _ (if _ then _ else none)
        split <;> rfl

theorem together?_singleton (line : Text) : together? [line] = classifyLine line := by
  unfold together?
  rw [joinBlank_singleton]
  cases classifyLine line <;> rfl

theorem attempt?_subset (h : attempt? line rest = some s) : s ⊆ line :: rest := by
  unfold attempt? at h
  split at h
  · cases h
  · obtain ⟨more, hmore, rfl⟩ := Option.map_eq_some_iff.mp h
    obtain ⟨init, last, tail, rfl, rfl, -⟩ := closing?_eq_some hmore
    refine List.cons_subset_cons line ?_
    rw [List.append_cons init last tail]
    exact List.subset_append_left _ tail

theorem stretches_skip (init tail : List Text) : stretches init.length (init ++ tail) = stretches 0 tail := by
  induction init with
  | nil => rfl
  | cons line init ih => exact ih

theorem stretches_alone (h : joined? line rest = none) :
    stretches 0 (line :: rest) = (attempt? line rest).toList ++ [line] :: stretches 0 rest := by
  rw [stretches, h]

theorem stretches_joined (h : joined? line rest = some (n, found)) :
    stretches 0 (line :: rest) = (attempt? line rest).toList ++ stretches n rest := by
  rw [stretches, h]

/-! ### Blanks in place of comments -/

theorem bracketBalance_blankComments (h : '\n' ∉ line) : bracketBalance (blankComments line) = bracketBalance line := by
  have hfilter (ss : List Sign) : Sign.balance (ss.filter isStructure) = Sign.balance ss := by
    induction ss with
    | nil => rfl
    | cons s ss ih =>
      unfold Sign.balance at ih ⊢
      cases s <;> simp [List.filter_cons, isStructure, Sign.weight, ih]
  obtain ⟨b, cs, hb⟩ := exists_commented line h
  rw [hb.blankComments_eq, bracketBalance_eq, bracketBalance_eq, signs_tokenize, signs_tokenize, ← hfilter,
    ← hb.structure_outline (free_zero line) 0 0, hfilter]

theorem closing?_blankComments (h : ∀ l ∈ ls, '\n' ∉ l) (depth : Int) (room : Nat) :
    closing? depth room (ls.map blankComments) = (closing? depth room ls).map (List.map blankComments) := by
  induction ls generalizing depth room with
  | nil => cases room <;> rfl
  | cons l ls ih =>
    obtain ⟨hl, hls⟩ := List.forall_mem_cons.mp h
    cases room with
    | zero => rfl
    | succ room =>
      rw [List.map_cons]
      unfold closing?
      dsimp only
      rw [bracketBalance_blankComments hl, ih hls]
      split
      · rfl
      · cases closing? (depth + bracketBalance l) room ls <;> rfl

theorem attempt?_blankComments (h : ∀ l ∈ line :: rest, '\n' ∉ l) :
    attempt? (blankComments line) (rest.map blankComments) = (attempt? line rest).map (List.map blankComments) := by
  obtain ⟨hline, hrest⟩ := List.forall_mem_cons.mp h
  unfold attempt?
  rw [bracketBalance_blankComments hline, closing?_blankComments hrest]
  split
  · rfl
  · cases closing? (bracketBalance line) (maxLimitSpan - 1) rest <;> rfl

theorem length_ahead_map (s : List Text) : (ahead (s.map blankComments)).length = (ahead s).length := by
  unfold ahead
  simp [List.length_flatMap, length_blankComments, Function.comp_def]

theorem newline_not_mem_joinBlank (h : ∀ l ∈ s, '\n' ∉ l) : '\n' ∉ joinBlank s := fun hmem =>
  (mem_joinBlank hmem).elim (fun ⟨l, hl, hmem⟩ => h l hl hmem) fun heq => nomatch heq

/-- Sound lines make the same value line together, but for its comments. -/
theorem together?_blankComments (h : ∀ l ∈ s, '\n' ∉ l) (hsound : Sound s) :
    Option.Rel ValueLine.Uncovers (together? s) (together? (s.map blankComments)) := by
  cases hsound with
  | unread hnone hnone' =>
    rw [hnone, hnone']
    exact .none
  | steady hcomments hsteady =>
    have hline := classifyLine_blankComments (newline_not_mem_joinBlank h) hsteady
    unfold together?
    rw [hcomments] at hline
    rw [← List.map_dropLast, length_ahead_map]
    generalize classifyLine (joinBlank s) = found at hline ⊢
    generalize classifyLine (joinBlank (s.map blankComments)) = found' at hline ⊢
    cases hline with
    | none => exact .none
    | some h =>
      dsimp only [Option.bind_eq_bind, Option.bind_some]
      rw [h.markerBegin_eq]
      split
      · exact .some (h.shift _)
      · exact .none

theorem joined?_blankComments (h : ∀ l ∈ line :: rest, '\n' ∉ l) (hsound : ∀ s ∈ attempt? line rest, Sound s) :
    Option.Rel (fun x y => y.1 = x.1 ∧ x.2.Uncovers y.2) (joined? line rest)
      (joined? (blankComments line) (rest.map blankComments)) := by
  rw [joined?_eq, joined?_eq, attempt?_blankComments h]
  cases hs : attempt? line rest with
  | none => exact .none
  | some s =>
    have hsub := attempt?_subset hs
    have hrel := together?_blankComments (fun l hl => h l (hsub hl)) (hsound s hs)
    rw [Option.map_some, Option.bind_some, Option.bind_some, List.length_map]
    generalize together? (s.map blankComments) = found' at hrel ⊢
    generalize together? s = found at hrel ⊢
    cases hrel with
    | none => exact .none
    | some h => exact .some ⟨rfl, h⟩

/-- In sound stretches every value line is the same but for its comments. -/
theorem forall₂_uncovers (hls : ∀ l ∈ ls, '\n' ∉ l) (hsound : ∀ s ∈ stretches 0 ls, Sound s) :
    List.Forall₂ (Option.Rel ValueLine.Uncovers) (classify ls) (classify (ls.map blankComments)) := by
  induction ls using span_induction with
  | nil => exact .nil
  | alone line rest hjoined ih =>
    rw [stretches_alone hjoined] at hsound
    obtain ⟨hattempt, hsound⟩ := List.forall_mem_append.mp hsound
    obtain ⟨hself, hsound⟩ := List.forall_mem_cons.mp hsound
    obtain ⟨hline, hrest⟩ := List.forall_mem_cons.mp hls
    have hrel := joined?_blankComments hls fun s hs => hattempt s (Option.mem_toList.mpr hs)
    have hjoined' : joined? (blankComments line) (rest.map blankComments) = none := by
      rw [hjoined] at hrel
      generalize joined? (blankComments line) _ = found' at hrel
      cases hrel
      rfl
    have hclassify := together?_blankComments (List.forall_mem_singleton.mpr hline) hself
    rw [List.map_singleton, together?_singleton, together?_singleton] at hclassify
    unfold classify at ih ⊢
    rw [List.map_cons, classifyFrom_alone hjoined, classifyFrom_alone hjoined']
    exact .cons hclassify (ih hrest hsound)
  | joined line init last tail found hjoined ih =>
    have hskip : stretches (init.length + 1) (init ++ last :: tail) = stretches 0 tail := by
      have hconcat := stretches_skip (init ++ [last]) tail
      rwa [List.append_assoc, List.length_append] at hconcat
    rw [stretches_joined hjoined, hskip] at hsound
    obtain ⟨hattempt, hsound⟩ := List.forall_mem_append.mp hsound
    have hrel := joined?_blankComments hls fun s hs => hattempt s (Option.mem_toList.mpr hs)
    rw [hjoined, List.map_append, List.map_cons] at hrel
    rw [List.map_cons, List.map_append, List.map_cons]
    cases hjoined' : joined? (blankComments line) (init.map blankComments ++ blankComments last :: tail.map blankComments) with
    | none =>
      rw [hjoined'] at hrel
      cases hrel
    | some x =>
      obtain ⟨n, found'⟩ := x
      rw [hjoined'] at hrel
      obtain ⟨hn, hfound⟩ : n = init.length + 1 ∧ found.Uncovers found' := by
        cases hrel with
        | some h => exact h
      have hlength : (init.map blankComments).length = init.length := List.length_map _
      rw [hn, ← hlength] at hjoined'
      rw [classify_joined hjoined, classify_joined hjoined']
      have hmem : ∀ l ∈ tail, '\n' ∉ l := fun l hl => hls l (by simp [hl])
      refine .cons .none (List.rel_append ?_ (.cons (.some hfound) (ih hmem hsound)))
      rw [List.map_map]
      exact List.forall₂_map_left_iff.mpr (List.forall₂_map_right_iff.mpr (List.forall₂_same.mpr fun _ _ => .none))

/-- Without their comments value lines are the same just when their subjects have none. -/
theorem map_withoutComments_eq_iff {fs fs' : List (Option ValueLine)} (h : List.Forall₂ (Option.Rel ValueLine.Uncovers) fs fs') :
    fs'.map (Option.map ValueLine.withoutComments) = fs.map (Option.map ValueLine.withoutComments) ↔
      ∀ l, some l ∈ fs → l.subject.IsBare := by
  induction h with
  | nil => simp
  | @cons found found' fs fs' hone h ih =>
    rw [List.map_cons, List.map_cons, List.cons.injEq, ih]
    cases hone with
    | none => simp
    | some hone => simp [hone.eq_iff]

/-- In sound stretches blanks in place of comments leave every value line as it is, comments aside, just when no comment
    stands in the limits or the expression of one. -/
theorem classify_blankComments_iff (hls : ∀ l ∈ ls, '\n' ∉ l) (hsound : ∀ s ∈ stretches 0 ls, Sound s) :
    (classify (ls.map blankComments)).map (Option.map ValueLine.withoutComments) =
        (classify ls).map (Option.map ValueLine.withoutComments) ↔
      ∀ l, some l ∈ classify ls → l.subject.IsBare :=
  map_withoutComments_eq_iff (forall₂_uncovers hls hsound)

/-- A comment before limits over two lines, one at the end, and one between a percentage and its unit. -/
theorem classify_blankComments_limits :
    (∀ l ∈ ["x \"low\" [0:".toList, "10]: 5 // far".toList, "2 * x-> 10% \"m\" km".toList], '\n' ∉ l) ∧
      (∀ s ∈ stretches 0 ["x \"low\" [0:".toList, "10]: 5 // far".toList, "2 * x-> 10% \"m\" km".toList], Sound s) ∧
      (classify (["x \"low\" [0:".toList, "10]: 5 // far".toList, "2 * x-> 10% \"m\" km".toList].map blankComments)).map
          (Option.map ValueLine.withoutComments) =
        (classify ["x \"low\" [0:".toList, "10]: 5 // far".toList, "2 * x-> 10% \"m\" km".toList]).map
          (Option.map ValueLine.withoutComments) := by
  have hls : ∀ l ∈ ["x \"low\" [0:".toList, "10]: 5 // far".toList, "2 * x-> 10% \"m\" km".toList], '\n' ∉ l := by decide
  have hstretches : stretches 0 ["x \"low\" [0:".toList, "10]: 5 // far".toList, "2 * x-> 10% \"m\" km".toList] =
      [["x \"low\" [0:".toList, "10]: 5 // far".toList], ["2 * x-> 10% \"m\" km".toList]] := by decide +kernel
  have hsound : ∀ s ∈ stretches 0 ["x \"low\" [0:".toList, "10]: 5 // far".toList, "2 * x-> 10% \"m\" km".toList], Sound s := by
    rw [hstretches]
    refine List.forall_mem_cons.mpr ⟨.steady (blankComments_joinBlank (by decide) (by decide +kernel)) (by decide +kernel), ?_⟩
    exact List.forall_mem_singleton.mpr (.steady (by decide +kernel) (by decide +kernel))
  have hbare : ((classify ["x \"low\" [0:".toList, "10]: 5 // far".toList, "2 * x-> 10% \"m\" km".toList]).all
      fun found => found.all fun l => decide l.subject.IsBare) = true := by decide +kernel
  refine ⟨hls, hsound, (classify_blankComments_iff hls hsound).mpr fun l hl => ?_⟩
  simpa using List.all_eq_true.mp hbare _ hl

/-- A comment that goes on to the end of the first line takes the limits of the second one with it. -/
theorem not_classify_blankComments : ¬∀ ls : List Text, (∀ l ∈ ls, '\n' ∉ l) →
    (classify (ls.map blankComments)).map (Option.map ValueLine.withoutComments) =
      (classify ls).map (Option.map ValueLine.withoutComments) := by
  intro hall
  have heq := hall ["rate[0: // low".toList, "1]: 0.5".toList] (by decide)
  have hnames := congrArg (List.map (Option.map ValueLine.name?)) heq
  revert hnames
  decide +kernel

end Stretches
end Lines
end Worksheet
