import Worksheet.Proofs.Document.Clear
import Worksheet.Proofs.Token.Tiling
import Worksheet.Solve.Equations

/-! Text in front of what is written. A value stands behind a marker, behind an equals sign or between backslashes, so
    whatever is written into a line, the line goes on as before up to the first character that can begin one of these.
    A header in front of it can be neither made nor lost. -/

namespace Worksheet
open Text

/-- A marker, an equals sign or an inline expression has the character, so a value may be written behind it. -/
def isOpening (c : Char) : Bool := [':', '<', '>', '=', '\\'].contains c

/-- The line up to its first opening character. -/
def lead (l : Text) : Text := l.takeWhile (!isOpening ·)

/-- The second line is the first one, or goes on in another way behind an opening character. -/
def Continues (l l' : Text) : Prop := l' = l ∨ ∃ p, p <+: l ∧ p <+: l' ∧ ∃ c ∈ p, isOpening c = true

section Continues
variable {l l' l'' p t : Text}

theorem Continues.refl (l : Text) : Continues l l := .inl rfl

theorem Continues.trans (h : Continues l l') (h' : Continues l' l'') : Continues l l'' := by
  rcases h with rfl | ⟨p, hp, hp', hopen⟩
  · exact h'
  rcases h' with rfl | ⟨q, hq, hq', hopen'⟩
  · exact .inr ⟨p, hp, hp', hopen⟩
  -- The shorter one of the two common parts is common to all three lines.
  rcases List.prefix_or_prefix_of_prefix hp' hq with hpq | hqp
  · exact .inr ⟨p, hp, hpq.trans hq', hopen⟩
  · exact .inr ⟨q, hqp.trans hp, hq', hopen'⟩

/-- Behind a part with an opening character anything may stand. -/
theorem continues_of_prefix (hp : p <+: l) (hp' : p <+: l') {c : Char} (hc : c ∈ p) (hopen : isOpening c = true) :
    Continues l l' := .inr ⟨p, hp, hp', c, hc, hopen⟩

theorem lead_initial (l : Text) : lead l <+: l := List.takeWhile_prefix _

theorem not_isOpening_of_mem_lead {c : Char} (hc : c ∈ lead l) : isOpening c = false := by
  simpa using List.mem_takeWhile_imp hc

theorem lead_prefix_of_opening (hp : p <+: l) {c : Char} (hc : c ∈ p) (hopen : isOpening c = true) : lead l <+: p := by
  rcases List.prefix_or_prefix_of_prefix (lead_initial l) hp with hlead | hlead
  · exact hlead
  · rw [not_isOpening_of_mem_lead (hlead.subset hc)] at hopen
    cases hopen

/-- The part in front of every opening character stays, and so does a line that has no such character. -/
theorem Continues.lead (h : Continues l l') : Worksheet.lead l <+: l' ∧ (Worksheet.lead l = l → l' = l) := by
  rcases h with rfl | ⟨p, hp, hp', c, hc, hopen⟩
  · exact ⟨lead_initial _, fun _ => rfl⟩
  · refine ⟨(lead_prefix_of_opening hp hc hopen).trans hp', fun hwhole => ?_⟩
    rw [not_isOpening_of_mem_lead (hwhole.symm ▸ hp.subset hc)] at hopen
    cases hopen

/-- A text without opening characters begins both lines or none of them. -/
theorem Continues.prefix_of (h : Continues l l') (ht : ∀ c ∈ t, isOpening c = false) (hinit : t <+: l') : t <+: l := by
  rcases h with rfl | ⟨p, hp, hp', c, hc, hopen⟩
  · exact hinit
  · rcases List.prefix_or_prefix_of_prefix hinit hp' with htp | hpt
    · exact htp.trans hp
    · rw [ht c (hpt.subset hc)] at hopen
      cases hopen

end Continues

/-! ### What is written into a line -/

section Write
variable {line line' v : Text}

/-- A value line is rewritten behind its marker. -/
theorem Stands.continues {l : ValueLine} (h : Stands line l) (v : Text) : Continues line (l.write line v) := by
  have hmarker : ∃ c ∈ l.marker.text, isOpening c = true := by
    cases l.marker <;> simp [Marker.text, isOpening]
  obtain ⟨c, hc, hopen⟩ := hmarker
  exact continues_of_prefix (List.take_prefix _ _) (List.prefix_append _ _) (h.marker_suffix.subset hc) hopen

/-- An incomplete equation is completed behind its equals sign. -/
theorem continues_fill (h : SolveState.fillAfterEquals line v = some line') : Continues line line' := by
  obtain ⟨tok, hfind, rfl⟩ := Option.map_eq_some_iff.mp h
  have hequals : tok.lexeme = ['='] := by
    have hoperator := List.find?_some hfind
    rw [Token.isOperator, Bool.and_eq_true, beq_iff_eq] at hoperator
    exact hoperator.2
  obtain ⟨x, u, hline, hplace⟩ := Lexer.placed_of_mem_lexFrom (List.mem_of_find?_eq_some hfind)
  rw [Position.advance_start] at hplace
  have hoffset : tok.offset = x.length := (Position.mk.inj hplace).2.2
  have hend : tok.endOffset = (x ++ ['=']).length := by
    rw [Token.endOffset, Token.length, hequals, hoffset, List.length_append]
  have htake : line.take tok.endOffset = x ++ ['='] := by
    rw [hline, hequals, ← List.append_assoc, hend, List.take_left]
  refine continues_of_prefix (p := x ++ ['=']) (htake ▸ List.take_prefix _ _) ?_ (c := '=') (by simp) (by decide)
  rw [htake, List.append_assoc]
  exact List.prefix_append _ _

namespace Inline
variable {l : Text}

/-- An inline expression begins with a backslash. -/
theorem getElem?_of_mem_scan {i : Nat} {quoted : Bool} {opened : Option Nat} {rest : Text} {e : Inline}
    (hrest : l.drop i = rest) (hopened : ∀ o ∈ opened, l[o]? = some '\\')
    (h : e ∈ scan l i quoted opened rest) : l[e.first]? = some '\\' := by
  induction rest generalizing i quoted opened with
  | nil => cases h
  | cons c rest ih =>
    have hc : l[i]? = some c := by
      rw [← Nat.add_zero i, ← List.getElem?_drop, hrest]
      rfl
    have hnext : l.drop (i + 1) = rest := by rw [← List.drop_drop, hrest]; rfl
    unfold scan at h
    dsimp only at h
    generalize (if c = '"' then !quoted else quoted) = quoted' at h
    split at h
    · exact ih hnext hopened h
    · rename_i hslash
      have hi : l[i]? = some '\\' := by
        simp only [Bool.or_eq_true, decide_eq_true_eq, not_or, not_not] at hslash
        rw [hc, hslash.2]
      have hhere : ∀ o ∈ some i, l[o]? = some '\\' := fun o ho => Option.some.inj ho ▸ hi
      cases opened with
      | none => exact ih hnext hhere h
      | some o =>
        dsimp only at h
        split at h
        · exact ih hnext hhere h
        · rcases List.mem_cons.mp h with rfl | h
          · exact hopened o rfl
          · exact ih hnext (fun _ ho => by cases ho) h

/-- The first backslash of a line stands at its first inline expression or ahead of it. -/
theorem exists_first {e : Inline} (h : e ∈ find l) :
    ∃ p, p ++ ['\\'] <+: l ∧ ∀ e ∈ find l, p.length ≤ e.first := by
  have hfirst {e : Inline} (h : e ∈ find l) : l[e.first]? = some '\\' :=
    getElem?_of_mem_scan (i := 0) rfl (fun _ ho => by cases ho) h
  obtain ⟨p, rest, hline, hp⟩ := List.eq_append_cons_of_mem (List.mem_of_getElem? (hfirst h))
  refine ⟨p, ⟨rest, by rw [hline]; simp⟩, fun e he => Nat.le_of_not_lt fun hlt => hp ?_⟩
  have hat := hfirst he
  rw [hline, List.getElem?_append_left hlt] at hat
  exact List.mem_of_getElem? hat

/-- An expression that does not begin ahead of the first backslash is replaced behind it. -/
theorem prefix_replace {p : Text} {e : Inline} (hp : p ++ ['\\'] <+: l) (hle : p.length ≤ e.first) (v : Text) :
    p ++ ['\\'] <+: e.replace l ('\\' :: v) := by
  unfold replace
  rw [List.append_assoc]
  rcases Nat.eq_or_lt_of_le hle with heq | hlt
  · have htake : l.take e.first = p := by
      rw [← heq]
      exact (List.prefix_iff_eq_take.mp ((List.prefix_append p ['\\']).trans hp)).symm
    rw [htake, List.prefix_append_right_inj]
    exact List.prefix_append ['\\'] _
  · have htake : p ++ ['\\'] <+: l.take e.first :=
      List.prefix_take_iff.mpr ⟨hp, by rw [List.length_append]; exact hlt⟩
    exact htake.trans (List.prefix_append _ _)

end Inline
end Write
end Worksheet
