import Worksheet.Document.Reference
import Worksheet.Proofs.Text

/-! The reference section of a document begins at its header. What is left without it has no such section, and a
    section that is put behind some lines is the one that is found. -/

namespace Worksheet.Reference
open Text

section Header
variable {l t p : Text} {ls : List Text}

theorem newline_not_mem_header : '\n' ∉ header := by decide

/-- A character that the header does not have ends what may be the header. -/
theorem header_prefix_of_append_cons {c : Char} (hc : c ∉ header) (h : header <+: l ++ c :: t) : header <+: l := by
  -- Otherwise the header would go on with `c`.
  rcases List.prefix_or_prefix_of_prefix h (List.prefix_append l (c :: t)) with hinit | ⟨r, hr⟩
  · exact hinit
  · cases r with
    | nil => exact ⟨[], by rw [List.append_nil, ← hr, List.append_nil]⟩
    | cons d r =>
      rw [← hr, List.prefix_append_right_inj] at h
      obtain rfl := (List.cons_prefix_cons.mp h).1
      exact absurd (hr ▸ List.mem_append_right l List.mem_cons_self) hc

theorem isPrefixOf_append_newline (l t : Text) : header.isPrefixOf (l ++ '\n' :: t) = header.isPrefixOf l := by
  rw [Bool.eq_iff_iff, List.isPrefixOf_iff_prefix, List.isPrefixOf_iff_prefix]
  exact ⟨header_prefix_of_append_cons newline_not_mem_header, fun h => h.trans (List.prefix_append l _)⟩

/-- The header is not found within a line. -/
theorem before?_false (h : '\n' ∉ l) : before? false l = none := by
  induction l with
  | nil => rfl
  | cons c l ih =>
    obtain ⟨hc, hl⟩ := not_or.mp (mt List.mem_cons.mpr h)
    unfold before?
    rw [Bool.false_and, if_neg (by simp), decide_eq_false (Ne.symm hc), ih hl]
    rfl

theorem before?_false_append (h : '\n' ∉ l) (t : Text) :
    before? false (l ++ '\n' :: t) = (before? true t).map (l ++ '\n' :: ·) := by
  induction l with
  | nil => rfl
  | cons c l ih =>
    obtain ⟨hc, hl⟩ := not_or.mp (mt List.mem_cons.mpr h)
    rw [List.cons_append, before?, Bool.false_and, if_neg (by simp), decide_eq_false (Ne.symm hc), ih hl, Option.map_map]
    rfl

/-- The header is looked for line by line. -/
theorem before?_append_newline (h : '\n' ∉ l) (t : Text) : before? true (l ++ '\n' :: t) =
    if header.isPrefixOf l then some [] else (before? true t).map (l ++ '\n' :: ·) := by
  cases l with
  | nil => rfl
  | cons c l =>
    obtain ⟨hc, hl⟩ := not_or.mp (mt List.mem_cons.mpr h)
    rw [List.cons_append, before?, Bool.true_and, ← List.cons_append, isPrefixOf_append_newline]
    split
    · rfl
    · rw [decide_eq_false (Ne.symm hc), before?_false_append hl, Option.map_map]
      rfl

theorem before?_line (h : '\n' ∉ l) : before? true l = if header.isPrefixOf l then some [] else none := by
  cases l with
  | nil => rfl
  | cons c l =>
    obtain ⟨hc, hl⟩ := not_or.mp (mt List.mem_cons.mpr h)
    rw [before?, Bool.true_and, decide_eq_false (Ne.symm hc), before?_false hl]
    rfl

/-- A text has no section if none of its lines begins with the header. -/
theorem before?_unlines_eq_none_iff (h : ∀ l ∈ ls, '\n' ∉ l) :
    before? true (unlines ls) = none ↔ ∀ l ∈ ls, header.isPrefixOf l = false := by
  induction ls with
  | nil => simp [unlines, before?]
  | cons l ls ih =>
    have hl := h l List.mem_cons_self
    have hls := ih fun m hm => h m (List.mem_cons_of_mem l hm)
    cases ls with
    | nil =>
      show before? true l = none ↔ _
      rw [before?_line hl, List.forall_mem_singleton]
      cases header.isPrefixOf l <;> simp
    | cons m ms =>
      rw [unlines_cons (List.cons_ne_nil m ms), before?_append_newline hl, List.forall_mem_cons, ← hls]
      cases header.isPrefixOf l <;> simp

/-- The first line that begins with the header is found. -/
theorem before?_unlines_append (h : ∀ l ∈ ls, '\n' ∉ l ∧ header.isPrefixOf l = false) (refs : List Text) :
    before? true (unlines (ls ++ header :: refs)) = some (ls.flatMap (· ++ ['\n'])) := by
  induction ls with
  | nil =>
    have hself : header.isPrefixOf header = true := List.isPrefixOf_iff_prefix.mpr (List.prefix_refl header)
    cases refs with
    | nil =>
      show before? true header = some []
      rw [before?_line newline_not_mem_header, if_pos hself]
    | cons m ms =>
      show before? true (header ++ '\n' :: unlines (m :: ms)) = some []
      rw [before?_append_newline newline_not_mem_header, if_pos hself]
  | cons l ls ih =>
    obtain ⟨hl, hheader⟩ := h l List.mem_cons_self
    rw [List.cons_append, unlines_cons (by simp), before?_append_newline hl, if_neg (by simp [hheader]),
      ih fun m hm => h m (List.mem_cons_of_mem l hm)]
    simp

end Header

/-! ### Without the section -/

section Remove
variable {t p : Text} {lineStart : Bool}

theorem prefix_of_before? (h : before? lineStart t = some p) : p <+: t := by
  induction t generalizing lineStart p with
  | nil => cases h
  | cons c t ih =>
    rw [before?] at h
    split at h
    · obtain rfl := Option.some.inj h
      exact List.nil_prefix
    · obtain ⟨q, hq, rfl⟩ := Option.map_eq_some_iff.mp h
      exact List.cons_prefix_cons.mpr ⟨rfl, ih hq⟩

theorem before?_of_prefix (hp : p <+: t) (h : before? lineStart t = none) : before? lineStart p = none := by
  induction p generalizing lineStart t with
  | nil => rfl
  | cons c p ih =>
    obtain ⟨r, rfl⟩ := hp
    rw [List.cons_append, before?] at h
    split at h
    · cases h
    · rename_i hheader
      rw [before?, if_neg, ih (List.prefix_append p r) (Option.map_eq_none_iff.mp h)]
      · rfl
      · simp only [Bool.and_eq_true, List.isPrefixOf_iff_prefix] at hheader ⊢
        exact fun ⟨hstart, hinit⟩ => hheader ⟨hstart, hinit.trans (List.prefix_append (c :: p) r)⟩

theorem before?_before (h : before? lineStart t = some p) : before? lineStart p = none := by
  induction t generalizing lineStart p with
  | nil => cases h
  | cons c t ih =>
    rw [before?] at h
    split at h
    · obtain rfl := Option.some.inj h
      rfl
    · rename_i hheader
      obtain ⟨q, hq, rfl⟩ := Option.map_eq_some_iff.mp h
      rw [before?, if_neg, ih hq]
      · rfl
      · simp only [Bool.and_eq_true, List.isPrefixOf_iff_prefix] at hheader ⊢
        have hinit : c :: q <+: c :: t := List.cons_prefix_cons.mpr ⟨rfl, prefix_of_before? hq⟩
        exact fun ⟨hstart, hq⟩ => hheader ⟨hstart, hq.trans hinit⟩

theorem isPrefix_trimEnd (t : Text) : trimEnd t <+: t := by
  have hsuffix := List.dropWhile_suffix (l := t.reverse) fun c => c == '\n' || Byte.isBlank c
  simpa [trimEnd] using List.reverse_prefix.mpr hsuffix

/-- What is left of a document has no section. -/
theorem before?_remove (t : Text) : before? true (remove t) = none := by
  unfold remove
  split
  · rename_i p hp
    exact before?_of_prefix (isPrefix_trimEnd p) (before?_before hp)
  · assumption

theorem remove_of_before? (h : before? true t = none) : remove t = t := by
  unfold remove
  rw [h]

end Remove
/-! ### The end of the lines -/

section TrimEnd
variable {l t : Text} {ls : List Text}

end TrimEnd
end Worksheet.Reference
