import Worksheet.Proofs.Document.Standing

/-! The lines that definitions and equations take. Either kind takes ranges of lines one behind the other. The two are
    kept apart where an equation begins, but a block in braces goes on to its closing brace over whatever stands on the
    lines between: what keeps definitions and equations apart is that each block closes before the next definition. -/

namespace Worksheet
open Classify

/-! ### Ranges of lines -/

/-- The entries of a list take ranges of lines, each from its `first` to its `last`, one behind the other from line `lo` on
    and before line `hi`. -/
structure InOrder {α : Type} (first last : α → Nat) (lo hi : Nat) (xs : List α) : Prop where
  within : ∀ x ∈ xs, lo ≤ first x ∧ first x ≤ last x ∧ last x < hi
  ordered : xs.Pairwise fun x y => last x < first y

namespace InOrder
variable {α : Type} {first last : α → Nat} {lo lo' hi : Nat} {x : α} {xs : List α}

theorem nil (first last : α → Nat) (lo hi : Nat) : InOrder first last lo hi [] :=
  ⟨fun _ hx => absurd hx List.not_mem_nil, List.Pairwise.nil⟩

theorem cons (hlo : lo ≤ first x) (hle : first x ≤ last x) (hhi : last x < hi)
    (h : InOrder first last (last x + 1) hi xs) : InOrder first last lo hi (x :: xs) where
  within y hy := by
    rcases List.mem_cons.mp hy with rfl | hy
    · exact ⟨hlo, hle, hhi⟩
    · obtain ⟨hfirst, hrest⟩ := h.within y hy
      exact ⟨by omega, hrest⟩
  ordered := List.Pairwise.cons (fun y hy => (h.within y hy).1) h.ordered

theorem mono (h : InOrder first last lo hi xs) (hle : lo' ≤ lo) : InOrder first last lo' hi xs where
  within y hy := ⟨hle.trans (h.within y hy).1, (h.within y hy).2⟩
  ordered := h.ordered

end InOrder

/-! ### Definitions -/

namespace FunctionSource

theorem inOrder_findFrom (skip index : Nat) (ls : List Text) :
    InOrder firstLine lastLine (index + skip) (index + ls.length) (findFrom skip index ls) := by
  induction ls generalizing skip index with
  | nil => exact .nil _ _ _ _
  | cons l ls ih =>
    have hnext (skip : Nat) : InOrder firstLine lastLine (index + 1 + skip) (index + (l :: ls).length)
        (findFrom skip (index + 1) ls) := by
      have hlength : index + (l :: ls).length = index + 1 + ls.length := by rw [List.length_cons]; omega
      rw [hlength]
      exact ih skip (index + 1)
    unfold findFrom
    split
    · rename_i skip
      exact (hnext skip).mono (by omega)
    · split
      · rename_i f hf
        obtain ⟨more, hmore, hfirst, hlast⟩ := at?_eq_some hf
        exact .cons (by omega) (by omega) (by rw [List.length_cons]; omega) ((hnext _).mono (by omega))
      · exact (hnext 0).mono (by omega)

end FunctionSource

/-! ### Blocks -/

namespace Lines

/-- A block goes on for no more lines than there are up to the next closing brace. -/
theorem le_of_untilBrace {t body : Text} {ls : List Text} {more : Nat} (h : untilBrace t ls = some (body, more)) (n : Nat) :
    more ≤ n ↔ '}' ∈ t ∨ ∃ k < n, ∃ l, ls[k]? = some l ∧ '}' ∈ blankComments l := by
  induction ls generalizing t body more n with
  | nil =>
    by_cases ht : '}' ∈ t
    · rw [untilBrace_of_mem ht] at h
      obtain ⟨-, rfl⟩ := Prod.mk.inj (Option.some.inj h)
      exact iff_of_true (Nat.zero_le n) (.inl ht)
    · rw [untilBrace_of_not_mem ht] at h
      cases h
  | cons l ls ih =>
    by_cases ht : '}' ∈ t
    · rw [untilBrace_of_mem ht] at h
      obtain ⟨-, rfl⟩ := Prod.mk.inj (Option.some.inj h)
      exact iff_of_true (Nat.zero_le n) (.inl ht)
    rw [untilBrace_of_not_mem ht] at h
    obtain ⟨⟨body', more'⟩, huntil, h⟩ := Option.map_eq_some_iff.mp h
    obtain ⟨-, rfl⟩ := Prod.mk.inj h
    cases n with
    | zero => simp [ht]
    | succ n =>
      rw [Nat.add_le_add_iff_right, ih huntil n, or_iff_right ht]
      constructor
      · rintro (hl | ⟨k, hk, m, hm, hclose⟩)
        · exact ⟨0, Nat.succ_pos n, l, rfl, hl⟩
        · exact ⟨k + 1, Nat.succ_lt_succ hk, m, hm, hclose⟩
      · rintro ⟨k, hk, m, hm, hclose⟩
        cases k with
        | zero =>
          obtain rfl := Option.some.inj hm
          exact .inl hclose
        | succ k => exact .inr ⟨k, Nat.lt_of_succ_lt_succ hk, m, hm, hclose⟩

/-- Before line `j` stands a brace that closes the block which begins behind the first brace of line `i`. -/
def ClosedBefore (ls : List Text) (i j : Nat) : Prop :=
  (∃ l, ls[i]? = some l ∧ '}' ∈ ((blankComments l).dropWhile (· != '{')).drop 1) ∨
    ∃ k, i < k ∧ k < j ∧ ∃ l, ls[k]? = some l ∧ '}' ∈ blankComments l

end Lines

/-! ### Equations -/

namespace Equation
variable {functions : List FunctionSource} {eq : Equation} {index : Nat} {l : Text} {ls : List Text}

/-- An equation takes one line outside braces, and otherwise those of its block. -/
theorem at?_fst_eq_some (h : (at? index l ls).1 = some eq) :
    eq.firstLine = index ∧ eq.lastLine = index + (at? index l ls).2 ∧
      (eq.braced = false ∧ (at? index l ls).2 = 0 ∨ eq.braced = true ∧ ∃ body,
        Lines.untilBrace (((blankComments l).dropWhile (· != '{')).drop 1) ls = some (body, (at? index l ls).2)) := by
  unfold at? at h ⊢
  dsimp only at h ⊢
  split at h
  · rename_i hbrace
    rw [if_pos hbrace]
    cases hblock : block? index (blankComments l) ls with
    | none =>
      rw [hblock] at h
      cases h
    | some x =>
      rw [hblock] at h
      rw [block?_eq] at hblock
      obtain ⟨⟨body, more⟩, huntil, rfl⟩ := Option.map_eq_some_iff.mp hblock
      dsimp only [Option.getD_some] at h ⊢
      split at h
      · cases h
      · obtain rfl := Option.some.inj h
        exact ⟨rfl, rfl, .inr ⟨rfl, body, huntil⟩⟩
  · rename_i hbrace
    rw [if_neg hbrace]
    split at h
    · rename_i hplain
      rw [if_pos hplain]
      obtain rfl := Option.some.inj h
      exact ⟨rfl, rfl, .inl ⟨rfl, rfl⟩⟩
    · cases h

theorem inOrder_findFrom (functions : List FunctionSource) (skip index : Nat) (ls : List Text) :
    InOrder firstLine lastLine (index + skip) (index + ls.length) (findFrom functions skip index ls) := by
  induction ls generalizing skip index with
  | nil => exact .nil _ _ _ _
  | cons l ls ih =>
    have hnext (skip : Nat) : InOrder firstLine lastLine (index + 1 + skip) (index + (l :: ls).length)
        (findFrom functions skip (index + 1) ls) := by
      rw [List.length_cons, Nat.add_comm ls.length, ← Nat.add_assoc]
      exact ih skip (index + 1)
    unfold findFrom
    split
    · rename_i skip
      exact (hnext skip).mono (by omega)
    · split
      · exact (hnext 0).mono (by omega)
      · have hmore := at?_snd_le index l ls
        dsimp only
        cases hfound : (at? index l ls).1 with
        | none => exact (hnext _).mono (by omega)
        | some eq =>
          obtain ⟨hfirst, hlast, -⟩ := at?_fst_eq_some hfound
          exact .cons (by omega) (by omega) (by rw [List.length_cons]; omega) ((hnext _).mono (by omega))

/-- The line is part of the equation. -/
def Covers (eq : Equation) (line : Nat) : Prop := eq.firstLine ≤ line ∧ line ≤ eq.lastLine

/-- No line is part of a definition and of an equation. -/
def KeptApart (ls : List Text) : Prop :=
  ∀ f ∈ FunctionSource.find ls, ∀ eq ∈ find ls, ∀ line, f.covers line = true → ¬eq.Covers line

/-- The block of each equation is closed before the next definition begins. -/
def BlocksClosed (ls : List Text) : Prop :=
  ∀ eq ∈ find ls, eq.braced = true → ∀ f ∈ FunctionSource.find ls, eq.firstLine < f.firstLine →
    Lines.ClosedBefore ls eq.firstLine f.firstLine

/-- The block of an equation is closed before a later line if that is not part of it. -/
theorem closedBefore_iff (h : eq ∈ find ls) (hbraced : eq.braced = true) {j : Nat} (hj : eq.firstLine < j) :
    Lines.ClosedBefore ls eq.firstLine j ↔ eq.lastLine < j := by
  obtain ⟨A, l, B, rfl, hfirst, hat, -⟩ := exists_of_mem_findFrom h
  obtain ⟨-, hlast, ⟨hno, -⟩ | ⟨-, body, huntil⟩⟩ := at?_fst_eq_some hat
  · rw [hbraced] at hno
    cases hno
  rw [Nat.zero_add] at hfirst
  have hline : (A ++ l :: B)[eq.firstLine]? = some l := by simp [hfirst]
  have hbehind (k : Nat) : (A ++ l :: B)[eq.firstLine + 1 + k]? = B[k]? := by
    rw [hfirst, Nat.add_assoc, Nat.add_comm 1, List.getElem?_append_right (Nat.le_add_right _ _), Nat.add_sub_cancel_left,
      List.getElem?_cons_succ]
  have hmore : (at? eq.firstLine l B).2 ≤ j - (eq.firstLine + 1) ↔ eq.lastLine < j := by omega
  rw [← hmore, Lines.le_of_untilBrace huntil]
  unfold Lines.ClosedBefore
  rw [hline]
  refine or_congr (by simp) ⟨?_, ?_⟩
  · rintro ⟨k, hk, hkj, m, hm, hclose⟩
    obtain ⟨k, rfl⟩ := Nat.exists_eq_add_of_lt hk
    rw [Nat.add_right_comm, hbehind] at hm
    exact ⟨k, by omega, m, hm, hclose⟩
  · rintro ⟨k, hk, m, hm, hclose⟩
    exact ⟨eq.firstLine + 1 + k, by omega, by omega, m, (hbehind k).trans hm, hclose⟩

/-- Definitions and equations each take ranges of lines one behind the other, and a line is part of both a definition and
    an equation only where the block of an equation is not closed before a definition begins. -/
theorem keptApart_iff (ls : List Text) :
    InOrder FunctionSource.firstLine FunctionSource.lastLine 0 ls.length (FunctionSource.find ls) ∧
      InOrder firstLine lastLine 0 ls.length (find ls) ∧ (KeptApart ls ↔ BlocksClosed ls) := by
  have hfunctions := FunctionSource.inOrder_findFrom 0 0 ls
  have hequations := inOrder_findFrom (FunctionSource.find ls) 0 0 ls
  rw [Nat.zero_add, Nat.zero_add] at hfunctions hequations
  refine ⟨hfunctions, hequations, fun hapart eq heq hbraced f hf hlt => ?_, fun hclosed f hf eq heq line hf' heq' => ?_⟩
  · -- otherwise the first line of the definition is part of both
    rw [closedBefore_iff heq hbraced hlt]
    by_contra hle
    have hcovers : f.covers f.firstLine = true := by simp [FunctionSource.covers, (hfunctions.within f hf).2.1]
    exact hapart f hf eq heq f.firstLine hcovers ⟨hlt.le, not_lt.mp hle⟩
  · -- the equation does not begin in the definition, so the definition begins in the equation
    obtain ⟨A, l, B, -, -, hat, hfree⟩ := exists_of_mem_findFrom heq
    have hout : f.covers eq.firstLine = false := by simpa using List.any_eq_false.mp hfree f hf
    simp only [FunctionSource.covers, Bool.and_eq_true, decide_eq_true_eq] at hf'
    simp only [FunctionSource.covers, Bool.and_eq_false_iff, decide_eq_false_iff_not, not_le] at hout
    obtain ⟨hfirst, hlast⟩ := heq'
    have hlt : eq.firstLine < f.firstLine := by omega
    obtain ⟨-, hend, ⟨-, hzero⟩ | ⟨hbraced, -⟩⟩ := at?_fst_eq_some hat
    · omega
    · have hbefore := (closedBefore_iff heq hbraced hlt).mp (hclosed eq heq hbraced f hf hlt)
      omega

/-- A brace that is left open on the line before a definition is closed by the one that closes the definition. -/
theorem not_keptApart : ¬KeptApart ["S = \x7b1; 2".toList, "f(x) = \x7bx + 1\x7d".toList] := by
  intro h
  have hfunctions : FunctionSource.find ["S = \x7b1; 2".toList, "f(x) = \x7bx + 1\x7d".toList] =
      [⟨"f".toList, ["x".toList], "x + 1".toList, "f(x) = \x7bx + 1\x7d".toList, 1, 1⟩] := by rfl
  have hequations : find ["S = \x7b1; 2".toList, "f(x) = \x7bx + 1\x7d".toList] =
      [⟨"1; 2 f(x) = \x7bx + 1".toList, true, 0, 1⟩] := by rfl
  exact h _ (hfunctions ▸ List.mem_singleton_self _) _ (hequations ▸ List.mem_singleton_self _) 1 rfl
    ⟨Nat.zero_le 1, Nat.le_refl 1⟩

end Equation
end Worksheet
