import Mathlib.Data.List.DropRight
import Mathlib.Data.List.Induction
import Worksheet.Proofs.Solve.Shown

/-! The references that a solve puts behind a document are taken off again before the next solve. -/

namespace Worksheet
open Text

namespace Reference

theorem trimEnd_append_of_blank {t u : Text} (h : ∀ c ∈ u, (c == '\n' || Byte.isBlank c) = true) :
    trimEnd (t ++ u) = trimEnd t := by
  unfold trimEnd
  rw [List.reverse_append, List.dropWhile_append_of_pos fun c hc => h c (List.mem_reverse.mp hc)]

theorem dropWhile_of_newline_not_mem {t : Text} (h : '\n' ∉ t) :
    t.dropWhile (fun c => c == '\n' || Byte.isBlank c) = t.dropWhile Byte.isBlank := by
  induction t with
  | nil => rfl
  | cons c t ih =>
    obtain ⟨hc, ht⟩ := not_or.mp (mt List.mem_cons.mpr h)
    rw [List.dropWhile_cons, List.dropWhile_cons, ih ht, beq_false_of_ne (Ne.symm hc), Bool.false_or]

/-- Of a line that is not blank only the blanks at its end are trimmed. -/
theorem trimEnd_append {t l : Text} (hl : '\n' ∉ l) (hblank : isBlank l = false) :
    trimEnd (t ++ l) = t ++ trimRight l := by
  have hdrop := dropWhile_of_newline_not_mem (mt List.mem_reverse.mp hl)
  have hne : l.reverse.dropWhile Byte.isBlank ≠ [] := by
    intro hnil
    have hall : isBlank l = true :=
      List.all_eq_true.mpr fun c hc => List.dropWhile_eq_nil_iff.mp hnil c (List.mem_reverse.mpr hc)
    rw [hblank] at hall
    cases hall
  unfold trimEnd trimRight
  rw [List.reverse_append, List.dropWhile_append, hdrop, if_neg (by simpa using hne), List.reverse_append,
    List.reverse_reverse]

/-- Line ends behind some lines are trimmed with the blanks before them. -/
theorem trimEnd_flatMap (ls : List Text) : trimEnd (ls.flatMap (· ++ ['\n'])) = trimEnd (unlines ls) := by
  rcases List.eq_nil_or_concat ls with rfl | ⟨ms, m, rfl⟩
  · rfl
  · rw [List.concat_eq_append, List.flatMap_append, unlines_concat, List.flatMap_singleton, ← List.append_assoc,
      trimEnd_append_of_blank (by simp)]

theorem trimEnd_trimEnd (t : Text) : trimEnd (trimEnd t) = trimEnd t := by
  unfold trimEnd
  rw [List.reverse_reverse, List.dropWhile_idempotent]

end Reference

namespace SolveState

/-- Trimming the lines trims the text that they make. -/
theorem unlines_trimLines {ls : List Text} (h : ∀ l ∈ ls, '\n' ∉ l) :
    unlines (trimLines ls) = Reference.trimEnd (unlines ls) := by
  induction ls using List.reverseRecOn with
  | nil => rfl
  | append_singleton ls l ih =>
    cases hblank : isBlank l with
    | true =>
      have hskip : trimLines (ls ++ [l]) = trimLines ls := by
        unfold trimLines
        rw [List.reverse_append, List.reverse_singleton, List.singleton_append, List.dropWhile_cons_of_pos hblank]
      have hall : ∀ c ∈ l, (c == '\n' || Byte.isBlank c) = true := fun c hc =>
        Bool.or_eq_true_iff.mpr (.inr (List.all_eq_true.mp hblank c hc))
      rw [hskip, ih fun m hm => h m (List.mem_append_left _ hm), unlines_concat, Reference.trimEnd_append_of_blank hall,
        Reference.trimEnd_flatMap]
    | false =>
      have hkeep : trimLines (ls ++ [l]) = ls ++ [trimRight l] := by
        unfold trimLines
        rw [List.reverse_append, List.reverse_singleton, List.singleton_append,
          List.dropWhile_cons_of_neg (by simp [hblank])]
        simp
      rw [hkeep, unlines_concat, unlines_concat, Reference.trimEnd_append (h l (by simp)) hblank]

theorem mem_trimLines {ls : List Text} {l : Text} (h : l ∈ trimLines ls) : ∃ m ∈ ls, l <+: m := by
  unfold trimLines at h
  split at h
  · cases h
  · rename_i m ms heq
    have hsub {k : Text} (hk : k ∈ m :: ms) : k ∈ ls :=
      List.mem_reverse.mp (List.dropWhile_subset _ (heq ▸ hk))
    rcases List.mem_cons.mp (List.mem_reverse.mp h) with rfl | hmem
    · refine ⟨m, hsub List.mem_cons_self, ?_⟩
      have hsuffix := List.dropWhile_suffix (l := m.reverse) Byte.isBlank
      simpa [trimRight] using List.reverse_prefix.mpr hsuffix
    · exact ⟨l, hsub (List.mem_cons_of_mem m hmem), List.prefix_refl l⟩

/-- A section behind proper lines is taken off again, and with it what may be trimmed in front of it. -/
theorem remove_unlines_trimLines {ls : List Text} (h : Lines.Proper ls) (refs : List Text) :
    Reference.remove (unlines (trimLines ls ++ (if (trimLines ls).isEmpty then [] else [[]]) ++
      Reference.header :: refs)) = Reference.trimEnd (unlines ls) := by
  have hbody : ∀ l ∈ trimLines ls ++ (if (trimLines ls).isEmpty then [] else [[]]),
      '\n' ∉ l ∧ Reference.header.isPrefixOf l = false := by
    intro l hl
    rcases List.mem_append.mp hl with hl | hl
    · obtain ⟨m, hm, hinit⟩ := mem_trimLines hl
      refine ⟨fun hc => h.newline_not_mem m hm (hinit.subset hc), ?_⟩
      have hheader := h.isPrefixOf_header m hm
      rw [Bool.eq_false_iff, ne_eq, List.isPrefixOf_iff_prefix] at hheader ⊢
      exact fun hl => hheader (hl.trans hinit)
    · split at hl
      · cases hl
      · obtain rfl := List.mem_singleton.mp hl
        exact ⟨List.not_mem_nil, rfl⟩
  have htrim : Reference.trimEnd (unlines (trimLines ls)) = Reference.trimEnd (unlines ls) := by
    rw [unlines_trimLines h.newline_not_mem, Reference.trimEnd_trimEnd]
  unfold Reference.remove
  rw [Reference.before?_unlines_append hbody]
  dsimp only
  rw [Reference.trimEnd_flatMap]
  split
  · rw [List.append_nil, htrim]
  · rw [unlines_concat, List.append_nil, Reference.trimEnd_flatMap, htrim]

/-- What is left of a solved text without its references is what was there before they were appended, up to blanks and
    line ends behind it. -/
theorem trimEnd_remove_appendReferences {s : SolveState} (h : Lines.Proper s.lines) :
    Reference.trimEnd (Reference.remove (unlines s.appendReferences.lines)) = Reference.trimEnd (unlines s.lines) := by
  unfold appendReferences
  dsimp only
  split
  · rw [h.remove_unlines]
  · rw [remove_unlines_trimLines h, Reference.trimEnd_trimEnd]

end SolveState

/-- A solve that lists references leaves, without its list, the text of a solve that lists none, up to blanks and line
    ends behind it. Taking off the section a second time takes nothing, and a solve looks only at what is left without
    it, so solving again replaces the section. -/
theorem remove_solve (text : Text) (c : Context) (settings : Settings) :
    Reference.trimEnd (Reference.remove (solve text c { settings with appendReferences := true }).text) =
        Reference.trimEnd (solve text c { settings with appendReferences := false }).text ∧
      (∀ t, Reference.remove (Reference.remove t) = Reference.remove t) ∧
      ∀ t, (solve t c settings).text = (solve (Reference.remove t) c settings).text := by
  have hidempotent (t : Text) : Reference.remove (Reference.remove t) = Reference.remove t :=
    Reference.remove_of_before? (Reference.before?_remove t)
  refine ⟨?_, hidempotent, fun t => (solve_eq_of_clear_eq c settings (by rw [hidempotent])).1⟩
  have halike : SolveState.Alike (SolveState.start text c { settings with appendReferences := false })
      (SolveState.start text c { settings with appendReferences := true }) := ⟨_, _, true, rfl⟩
  have hlines := halike.checked.lines_eq
  have hproper := SolveState.proper_checked text c { settings with appendReferences := true }
  have hoff := SolveState.settings_checked text c { settings with appendReferences := false }
  rw [SolveState.text_solve, SolveState.text_solve, SolveState.trimEnd_remove_appendReferences hproper, hlines,
    SolveState.appendReferences_of_off (by rw [hoff])]

end Worksheet
