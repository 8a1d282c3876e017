import Mathlib.Data.List.Forall2
import Worksheet.Proofs.Document.Clear
import Worksheet.Proofs.Token.Balance

/-! Values written into the lines of a document. The value lines are found again where they were, also those whose
    limits run over several lines, and taking the values out gives back the lines. -/

namespace Worksheet
open Text

/-! ### One line -/

/-- A line with a value of `P` in its open output, or a line that stays and has no value to lose. -/
inductive Filled (P : ValueLine → Text → Prop) (line : Text) (found : Option ValueLine) : Text → Prop where
  | kept (hclear : Clearing.output.clearLine line found = line) : Filled P line found line
  | written {l : ValueLine} {v : Text} (hfound : found = some l) (hopen : l.IsOpen line)
      (hword : OutputText.Word v) (hv : P l v) : Filled P line found (l.write line v)

section Filled
variable {P : ValueLine → Text → Prop} {line line' : Text} {found : Option ValueLine}

theorem Filled.eq_of_none (h : Filled P line none line') : line' = line := by
  cases h with
  | kept => rfl
  | written hfound => cases hfound

end Filled

namespace Lines

/-- The second lines are the first ones, some of them with values written into them. -/
def AllFilled (P : ValueLine → Text → Prop) (held : Option (Nat × ValueLine)) (ls ls' : List Text) : Prop :=
  List.Forall₂ (fun x line' => Filled P x.1 x.2 line') (ls.zip (classifyFrom held ls)) ls'

theorem AllFilled.held {P : ValueLine → Text → Prop} {found : ValueLine} {init tail ls' : List Text} {last : Text}
    (h : AllFilled P (some (init.length, found)) (init ++ last :: tail) ls') :
    ∃ last' tail', ls' = init ++ last' :: tail' ∧ Filled P last (some found) last' := by
  induction init generalizing ls' with
  | nil =>
    obtain ⟨last', tail', hlast, -, rfl⟩ := List.forall₂_cons_left_iff.mp h
    exact ⟨last', tail', rfl, hlast⟩
  | cons line init ih =>
    obtain ⟨line', ls', hline, hrest, rfl⟩ := List.forall₂_cons_left_iff.mp h
    obtain ⟨last', tail', rfl, hlast⟩ := ih hrest
    exact ⟨last', tail', by rw [hline.eq_of_none, List.cons_append], hlast⟩

/-- Every bracket that a line leaves open belongs to limits that run over the next lines; the first `skip` lines are
    part of such limits. -/
def closed (skip : Nat) : List Text → Bool
  | [] => true
  | l :: ls =>
    match skip with
    | skip + 1 => closed skip ls
    | 0 =>
      match joined? l ls with
      | some (n, _) => closed n ls
      | none => decide (bracketBalance l ≤ 0) && closed 0 ls

section Made
variable {P Q : ValueLine → Text → Prop} {ls ls' : List Text}

/-- The values that stand in the lines may be looked at one by one. -/
theorem AllFilled.imp (h : AllFilled P none ls ls')
    (hPQ : ∀ x ∈ (ls.zip (classify ls)).zip ls', ∀ l ∈ x.1.2, l.IsOpen x.1.1 →
      ∀ v, x.2 = l.write x.1.1 v → P l v → Q l v) : AllFilled Q none ls ls' := by
  obtain ⟨hlength, hall⟩ := List.forall₂_iff_zip.mp h
  refine List.forall₂_iff_zip.mpr ⟨hlength, fun {x line'} hmem => ?_⟩
  cases hall hmem with
  | kept hclear => exact .kept hclear
  | written hfound hopen hword hv => exact .written hfound hopen hword (hPQ _ hmem _ hfound hopen _ rfl hv)

theorem AllFilled.exists_of_mem (h : AllFilled P none ls ls') {line' : Text} (hmem : line' ∈ ls') :
    ∃ line found, (line, found) ∈ ls.zip (classify ls) ∧ Filled P line found line' := by
  obtain ⟨i, hi, rfl⟩ := List.getElem_of_mem hmem
  have hi' : i < (ls.zip (classify ls)).length := h.length_eq ▸ hi
  exact ⟨_, _, List.getElem_mem hi', h.get hi' hi⟩

theorem AllFilled.proper (h : AllFilled P none ls ls') (hls : Proper ls) : Proper ls' := by
  have hline : ∀ line' ∈ ls', '\n' ∉ line' ∧ Reference.header.isPrefixOf line' = false := by
    intro line' hmem
    obtain ⟨line, found, hzip, hfilled⟩ := h.exists_of_mem hmem
    cases hfilled with
    | kept =>
      have hmem := (List.of_mem_zip hzip).1
      exact ⟨hls.newline_not_mem _ hmem, hls.isPrefixOf_header _ hmem⟩
    | written hfound hopen hword =>
      subst hfound
      exact hls.write hzip hopen.isOutput fun hc => absurd (hword.isWordPart _ hc) (by decide)
  exact ⟨fun l hl => (hline l hl).1, fun l hl => (hline l hl).2⟩

theorem AllFilled.ne_nil (h : AllFilled P none ls ls') (hne : ls ≠ []) : ls' ≠ [] := by
  rintro rfl
  have hlength := h.length_eq
  rw [List.length_zip, length_classifyFrom, Nat.min_self] at hlength
  exact hne (List.length_eq_zero_iff.mp hlength)

theorem AllFilled.concat {xs : List Text} {line : Text} (h : AllFilled P none (xs ++ [line]) ls') :
    ∃ xs' line' found, ls' = xs' ++ [line'] ∧ xs'.length = xs.length ∧ Filled P line found line' := by
  have hlength := length_classifyFrom none (xs ++ [line])
  unfold AllFilled at h
  generalize classifyFrom none (xs ++ [line]) = fs at h hlength
  rcases List.eq_nil_or_concat fs with rfl | ⟨fs, found, rfl⟩
  · simp at hlength
  · have hsame : xs.length = fs.length := by simpa using hlength.symm
    rw [List.concat_eq_append, List.zip_append hsame, ← List.forall₂_reverse_iff, List.reverse_append] at h
    obtain ⟨line', rest, hline, hrest, hrev⟩ := List.forall₂_cons_left_iff.mp h
    refine ⟨rest.reverse, line', found, by rw [← List.reverse_cons, ← hrev, List.reverse_reverse], ?_, hline⟩
    have hzip : (xs.zip fs).reverse.length = rest.length := hrest.length_eq
    rw [List.length_reverse, List.length_zip, ← hsame, Nat.min_self] at hzip
    rw [List.length_reverse, hzip]

end Made
end Lines
end Worksheet
