import Worksheet.Document.Clear
import Worksheet.Proofs.Line.Rewrite

/-! Where the value lines of a document stand. A line whose limits run over several lines is read together with the
    lines ahead of it, but its marker, its unit and its comments stand in the last one. -/

namespace Worksheet

namespace Lines

/-! ### Joined lines -/

/-- Lines in front of another one that is read together with them. -/
def ahead (ls : List Text) : Text := ls.flatMap (· ++ [' '])

/-- The lines that close some brackets are found by the balances alone. -/
theorem closing?_eq_some {depth : Int} {room : Nat} {ls more : List Text} (h : closing? depth room ls = some more) :
    ∃ init last tail, ls = init ++ last :: tail ∧ more = init ++ [last] ∧
      ∀ last' tail', bracketBalance last' = bracketBalance last →
        closing? depth room (init ++ last' :: tail') = some (init ++ [last']) := by
  induction room generalizing depth ls more with
  | zero => cases h
  | succ room ih =>
    cases ls with
    | nil => cases h
    | cons l ls =>
      unfold closing? at h
      dsimp only at h
      split at h
      · rename_i hle
        obtain rfl := Option.some.inj h
        refine ⟨[], l, ls, rfl, rfl, fun last' tail' hbalance => ?_⟩
        show (if depth + bracketBalance last' ≤ 0 then some [last'] else _) = _
        rw [hbalance, if_pos hle]
        rfl
      · rename_i hlt
        obtain ⟨more', hmore', rfl⟩ := Option.map_eq_some_iff.mp h
        obtain ⟨init, last, tail, rfl, rfl, hsame⟩ := ih hmore'
        refine ⟨l :: init, last, tail, rfl, rfl, fun last' tail' hbalance => ?_⟩
        show (if depth + bracketBalance l ≤ 0 then some [l] else
          (closing? (depth + bracketBalance l) room (init ++ last' :: tail')).map (l :: ·)) = _
        rw [if_neg hlt, hsame last' tail' hbalance]
        rfl

/-- A value line over several lines, and what it is when the last of these is another one. -/
theorem joined?_eq_some {line : Text} {rest : List Text} {n : Nat} {found : ValueLine}
    (h : joined? line rest = some (n, found)) :
    ∃ init last tail l, rest = init ++ last :: tail ∧ n = init.length + 1 ∧
      classifyLine (ahead (line :: init) ++ last) = some l ∧ (ahead (line :: init)).length ≤ l.markerBegin ∧
      found = l.shift (ahead (line :: init)).length ∧
      ∀ last' tail' l', bracketBalance last' = bracketBalance last →
        classifyLine (ahead (line :: init) ++ last') = some l' → (ahead (line :: init)).length ≤ l'.markerBegin →
          joined? line (init ++ last' :: tail') = some (n, l'.shift (ahead (line :: init)).length) := by
  unfold joined? at h
  dsimp only at h
  split at h
  · cases h
  · rename_i hdepth
    obtain ⟨more, hmore, h⟩ := Option.bind_eq_some_iff.mp h
    obtain ⟨init, last, tail, rfl, rfl, hsame⟩ := closing?_eq_some hmore
    have hbefore (last : Text) : ((line :: (init ++ [last])).dropLast).flatMap (· ++ [' ']) = ahead (line :: init) := by
      rw [← List.cons_append, List.dropLast_concat]
      rfl
    have hlast (last : Text) : ((init ++ [last]).getLast?).getD [] = last := by simp
    rw [hbefore, hlast] at h
    obtain ⟨l, hl, h⟩ := Option.bind_eq_some_iff.mp h
    split at h
    · rename_i hbegin
      obtain ⟨rfl, rfl⟩ := Prod.mk.inj (Option.some.inj h)
      refine ⟨init, last, tail, l, rfl, by simp, hl, hbegin, rfl, fun last' tail' l' hbalance hl' hbegin' => ?_⟩
      unfold joined?
      dsimp only
      rw [if_neg hdepth, hsame last' tail' hbalance, Option.bind_eq_bind, Option.bind_some, hbefore, hlast, hl',
        Option.bind_eq_bind, Option.bind_some, if_pos hbegin']
      simp
    · cases h

theorem classifyFrom_joined {line : Text} {rest : List Text} {n : Nat} {found : ValueLine}
    (h : joined? line rest = some (n, found)) :
    classifyFrom none (line :: rest) = none :: classifyFrom (some (n - 1, found)) rest := by
  rw [classifyFrom, h]

theorem classifyFrom_alone {line : Text} {rest : List Text} (h : joined? line rest = none) :
    classifyFrom none (line :: rest) = classifyLine line :: classifyFrom none rest := by
  rw [classifyFrom, h]

theorem length_classifyFrom (held : Option (Nat × ValueLine)) (ls : List Text) :
    (classifyFrom held ls).length = ls.length := by
  induction ls generalizing held with
  | nil => rfl
  | cons line ls ih =>
    unfold classifyFrom
    split
    · exact congrArg (· + 1) (ih none)
    · exact congrArg (· + 1) (ih _)
    · split
      · exact congrArg (· + 1) (ih _)
      · exact congrArg (· + 1) (ih none)

theorem joined?_of_balance {line : Text} (h : bracketBalance line ≤ 0) (rest : List Text) : joined? line rest = none :=
  if_pos h

end Lines

/-! ### Markers of joined lines -/

namespace ValueLine
variable {l : ValueLine} {before last v : Text}

/-- A value is written into the last of some joined lines as it is into all of them. -/
theorem write_shift (h : before.length ≤ l.markerEnd) :
    l.write (before ++ last) v = before ++ (l.shift before.length).write last v := by
  unfold write shift
  dsimp only
  rw [List.take_append, List.take_of_length_le h, List.append_assoc]

theorem markerBegin_le {line : Text} (hl : classifyLine line = some l) : l.markerBegin ≤ l.markerEnd := by
  obtain ⟨x, z, u, -, hbegin, hend⟩ := Classify.exists_marker hl
  rw [hbegin, hend, List.length_append]
  exact Nat.le_add_right _ _

/-- What stands up to the marker in the last of some joined lines ends in the marker. -/
theorem endsInMarker_take (hl : classifyLine (before ++ last) = some l) (hbegin : before.length ≤ l.markerBegin) :
    l.marker.text <:+ last.take (l.markerEnd - before.length) := by
  obtain ⟨x, z, u, hline, hmarker, hend⟩ := Classify.exists_marker hl
  have hle := markerBegin_le hl
  have htake : (before ++ last).take l.markerEnd = x ++ (z ++ l.marker.text) := by
    rw [hline, hend, ← List.append_assoc x (z ++ l.marker.text) u, List.take_left]
  rw [List.take_append, List.take_of_length_le (hbegin.trans hle)] at htake
  have hsuffix : l.marker.text <:+ before ++ last.take (l.markerEnd - before.length) := by
    rw [htake]
    exact (List.suffix_append z _).trans (List.suffix_append x _)
  refine List.suffix_of_suffix_length_le hsuffix (List.suffix_append _ _) ?_
  have hlength := congrArg List.length htake
  simp only [List.length_append] at hlength
  omega

end ValueLine

/-! ### Characters behind a marker -/

namespace Lexer

/-- A token is made of characters of the text. -/
theorem mem_of_mem_lexeme {skip : Nat} {before : Before} {p : Position} {t : Text} {tok : Token}
    (h : tok ∈ lexFrom skip before p t) {c : Char} (hc : c ∈ tok.lexeme) : c ∈ t := by
  induction t generalizing skip before p with
  | nil =>
    rw [lexFrom_nil, List.mem_singleton] at h
    rw [h] at hc
    cases hc
  | cons d t ih =>
    cases skip with
    | succ skip => exact List.mem_cons_of_mem d (ih (lexFrom_skip_cons skip ▸ h))
    | zero =>
      cases hd : Byte.isBlank d with
      | true => exact List.mem_cons_of_mem d (ih (lexFrom_blank hd ▸ h))
      | false =>
        rw [lexFrom_token hd] at h
        rcases List.mem_cons.mp h with rfl | h
        · rcases List.mem_cons.mp hc with rfl | hc
          · exact List.mem_cons_self
          · exact List.mem_cons_of_mem d (List.mem_of_mem_take hc)
        · exact List.mem_cons_of_mem d (ih h)

end Lexer

namespace Classify
variable {t : Text} {c : Char}

theorem mem_blankOut {offset length : Nat} (h : c ∈ blankOut t offset length) : c ∈ t ∨ c = ' ' := by
  unfold blankOut Text.blanks at h
  simp only [List.mem_append, List.mem_replicate] at h
  rcases h with (h | h) | h
  · exact .inl (List.mem_of_mem_take h)
  · exact .inr h.2
  · exact .inl (List.mem_of_mem_drop h)

theorem mem_blankComments (h : c ∈ blankComments t) : c ∈ t ∨ c = ' ' := by
  rw [blankComments_eq] at h
  unfold blankAll at h
  generalize commentsOf (Token.signs (tokenize t)) = cs at h
  induction cs generalizing t with
  | nil => exact .inl h
  | cons d cs ih =>
    rcases ih h with h | h
    · exact mem_blankOut h
    · exact .inr h

theorem mem_joinBlank {ts : List Text} (h : c ∈ joinBlank ts) : (∃ t ∈ ts, c ∈ t) ∨ c = ' ' := by
  induction ts with
  | nil => cases h
  | cons t ts ih =>
    cases ts with
    | nil => exact .inl ⟨t, List.mem_cons_self, by simpa [joinBlank] using h⟩
    | cons u ts =>
      unfold joinBlank at h
      rw [List.intercalate_cons_cons, List.mem_append, List.mem_append, List.mem_singleton] at h
      rcases h with (h | h) | h
      · exact .inl ⟨t, List.mem_cons_self, h⟩
      · exact .inr h
      · rcases ih h with ⟨v, hv, hc⟩ | h
        · exact .inl ⟨v, List.mem_cons_of_mem t hv, hc⟩
        · exact .inr h

theorem mem_of_mem_trim (h : c ∈ Text.trim t) : c ∈ t := by
  unfold Text.trim Text.trimRight Text.trimLeft at h
  exact (List.dropWhile_subset _) (List.mem_reverse.mp ((List.dropWhile_subset _) (List.mem_reverse.mp h)))

theorem mem_of_mem_split (h : c ∈ (OutputText.split t).2) : c ∈ t := by
  unfold OutputText.split at h
  dsimp only at h
  split at h
  · exact mem_of_mem_trim h
  · exact mem_of_mem_trim (List.mem_of_mem_drop (mem_of_mem_trim h))

/-- The unit and the comments of a line are made of its characters. -/
theorem mem_behind {line : Text} {l : ValueLine} (hl : classifyLine line = some l) (hc : c ∈ l.behind) :
    c ∈ line ∨ c = ' ' := by
  obtain ⟨index, m, t, found, -, -, -, -, -, rfl⟩ := ofTokens_eq_some_iff.mp hl
  obtain ⟨part, hpart, hc⟩ := List.mem_flatMap.mp hc
  rcases List.mem_cons.mp hc with rfl | hc
  · exact .inr rfl
  rcases List.mem_cons.mp (List.mem_of_mem_filter hpart) with rfl | hpart
  · have hunit : c ∈ Text.trim ((blankComments line).drop t.endOffset) := by
      simp only [lineAt, valueBehind] at hc
      split at hc
      · exact mem_of_mem_split hc
      · cases hc
    exact mem_blankComments (List.mem_of_mem_drop (mem_of_mem_trim hunit))
  · obtain rfl := List.mem_singleton.mp hpart
    rcases mem_joinBlank hc with ⟨lexeme, hlexeme, hc⟩ | rfl
    · obtain ⟨tok, htok, rfl⟩ := List.mem_map.mp hlexeme
      have hmem : tok ∈ tokenize line := List.mem_of_mem_filter (List.mem_of_mem_filter htok)
      exact .inl (Lexer.mem_of_mem_lexeme hmem hc)
    · exact .inr rfl

end Classify

/-! ### Lines of text and their value lines -/

/-- A value line with its marker in a line of text, which is perhaps read together with lines ahead of it. -/
def Stands (line : Text) (found : ValueLine) : Prop :=
  ∃ before l, '\n' ∉ before ∧ classifyLine (before ++ line) = some l ∧ before.length ≤ l.markerBegin ∧
    found = l.shift before.length

section Stands
variable {line : Text} {l : ValueLine}

theorem Stands.marker_suffix (h : Stands line l) : l.marker.text <:+ line.take l.markerEnd := by
  obtain ⟨before, l, -, hl, hbegin, rfl⟩ := h
  exact ValueLine.endsInMarker_take hl hbegin

/-- A value that is written into a line does not break it. -/
theorem Stands.newline_not_mem_write (h : Stands line l) {v : Text} (hline : '\n' ∉ line) (hv : '\n' ∉ v) :
    '\n' ∉ l.write line v := by
  obtain ⟨before, l, hbefore, hl, -, rfl⟩ := h
  have hbehind : '\n' ∉ l.behind := by
    intro hmem
    rcases Classify.mem_behind hl hmem with hmem | hmem
    · rcases List.mem_append.mp hmem with hmem | hmem
      · exact hbefore hmem
      · exact hline hmem
    · cases hmem
  have htake : '\n' ∉ line.take (l.shift before.length).markerEnd := fun hmem => hline (List.mem_of_mem_take hmem)
  by_cases hne : v = []
  · rw [hne, ValueLine.write_nil, List.mem_append]
    exact not_or.mpr ⟨htake, hbehind⟩
  · rw [ValueLine.write_of_ne_nil _ _ hne]
    simp only [List.mem_append, List.mem_cons]
    exact not_or.mpr ⟨htake, not_or.mpr ⟨by decide, not_or.mpr ⟨hv, hbehind⟩⟩⟩

end Stands

namespace Lines

/-- What holds of a value line in the last of the lines that it is read from together, which may be one line, holds of
    every value line of some lines. -/
theorem of_mem_classifyFrom {P : Text → ValueLine → Prop} {held : Option (Nat × ValueLine)} {ls : List Text}
    (hread : ∀ init last l, (∀ m ∈ init, m ∈ ls) → classifyLine (ahead init ++ last) = some l →
      (ahead init).length ≤ l.markerBegin → P last (l.shift (ahead init).length))
    (hheld : ∀ n found, held = some (n, found) → ∀ line ∈ ls[n]?, P line found)
    {line : Text} {found : ValueLine} (h : (line, some found) ∈ ls.zip (classifyFrom held ls)) : P line found := by
  induction ls generalizing held with
  | nil => cases h
  | cons l ls ih =>
    have hrest := fun init last l' (hinit : ∀ m ∈ init, m ∈ ls) =>
      hread init last l' fun m hm => List.mem_cons_of_mem l (hinit m hm)
    cases held with
    | some x =>
      obtain ⟨n, found'⟩ := x
      cases n with
      | zero =>
        rcases List.mem_cons.mp h with heq | h
        · obtain ⟨rfl, hfound⟩ := Prod.mk.inj heq
          obtain rfl := Option.some.inj hfound
          exact hheld 0 found rfl line rfl
        · exact ih hrest (fun n found h => by cases h) h
      | succ n =>
        rcases List.mem_cons.mp h with heq | h
        · cases heq
        · refine ih hrest (fun m found'' heq line hline => ?_) h
          obtain ⟨rfl, rfl⟩ := Prod.mk.inj (Option.some.inj heq)
          exact hheld (n + 1) found' rfl line (by simpa using hline)
    | none =>
      cases hjoined : joined? l ls with
      | some x =>
        obtain ⟨n, found'⟩ := x
        rw [classifyFrom_joined hjoined] at h
        -- The value line is held for the last of the lines that are read together.
        obtain ⟨init, last, tail, l', rfl, rfl, hl', hbegin, rfl, -⟩ := joined?_eq_some hjoined
        rcases List.mem_cons.mp h with heq | h
        · cases heq
        · refine ih hrest (fun m found'' heq line hline => ?_) h
          obtain ⟨rfl, rfl⟩ := Prod.mk.inj (Option.some.inj heq)
          obtain rfl : last = line := by simpa using hline
          refine hread (l :: init) last l' (fun m hm => ?_) hl' hbegin
          rw [← List.cons_append]
          exact List.mem_append_left _ hm
      | none =>
        rw [classifyFrom_alone hjoined] at h
        rcases List.mem_cons.mp h with heq | h
        · obtain ⟨rfl, hfound⟩ := Prod.mk.inj heq
          exact hread [] line found (fun m hm => nomatch hm) hfound.symm (Nat.zero_le _)
        · exact ih hrest (fun n found h => by cases h) h

/-- Every value line of some lines stands in its line. -/
theorem stands_of_mem {held : Option (Nat × ValueLine)} {ls : List Text} (hls : ∀ l ∈ ls, '\n' ∉ l)
    (hheld : ∀ n found, held = some (n, found) → ∀ line ∈ ls[n]?, Stands line found)
    {line : Text} {found : ValueLine} (h : (line, some found) ∈ ls.zip (classifyFrom held ls)) : Stands line found := by
  refine of_mem_classifyFrom (fun init last l hinit hl hbegin => ?_) hheld h
  refine ⟨ahead init, l, fun hmem => ?_, hl, hbegin, rfl⟩
  obtain ⟨m, hm, hmem⟩ := List.mem_flatMap.mp hmem
  have hnot := hls m (hinit m hm)
  simp [hnot] at hmem

end Lines
end Worksheet
