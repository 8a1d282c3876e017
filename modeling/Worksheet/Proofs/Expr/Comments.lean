import Worksheet.Proofs.Expr.Makes

/-! Comments and line ends among the tokens of an expression. They are passed over, but what stands behind one no longer
    stands right behind a name: a parenthesis opens no call there, and a suffix belongs to nothing. Where none of them
    comes between a name and what belongs to it the parser does the same with them as without; where one does, the
    tokens are no expression. -/

namespace Worksheet
namespace Grammar
open Token Worksheet.Parser

/-- Comments and line ends. -/
def isPassed (t : Token) : Bool :=
  match t.kind with
  | .comment | .newline => true
  | _ => false

/-- The tokens without comments and line ends. -/
def uncommented (ts : List Token) : List Token := ts.filter (!isPassed ·)

/-- The token belongs to a name that ends in `last`: it opens its call, or it is a suffix. -/
def belongs (last : Last) (t : Token) : Bool :=
  match t.kind, last with
  | .openParen, .name => true
  | .suffix _, .name | .suffix _, .suffix => true
  | _, _ => false

/-- Nothing is passed over between a name and what belongs to it. Before the tokens stands `last`, comments and line
    ends left out, and `apart` says whether one of these comes between. -/
def unbroken (last : Last) (apart : Bool) : List Token → Bool
  | [] => true
  | t :: ts =>
    if isPassed t then unbroken last true ts
    else !(apart && belongs last t) && unbroken (follow last t) false ts

/-- No comment or line end before the end of the text comes between a name and what belongs to it. -/
def Unbroken (ts : List Token) : Prop := unbroken .other false (ts.takeWhile (!·.kind.isFinish)) = true

/-- The parser makes the same tree of the tokens with comments and line ends as of the others alone, or none of
    either. -/
def PassesOver (ts : List Token) : Prop := ∀ e, parseTokens ts = .ok e ↔ parseTokens (uncommented ts) = .ok e

/-! ### Steps -/

section Steps
variable {s s' : State} {t : Token} {last : Last}

theorem step_passed (ht : isPassed t = true) : step s t = .ok { s with last := .other } := by
  unfold isPassed at ht
  unfold step
  split at ht <;> simp_all

theorem isDress_of_not_passed (ht : isPassed t = false) (hb : belongs last t = false) : isDress last t = false := by
  cases hk : t.kind <;> cases last <;> simp_all [isPassed, belongs, isDress]

/-- What belongs to no name is read without a look at what stands before it. -/
theorem step_of_not_belongs (ht : isPassed t = false) (hb : belongs s.last t = false) :
    step s t = read { s with last := .other, reached := placeBehind t } t := by
  refine step_eq_read (isDress_of_not_passed ht hb) ?_
  rintro ⟨hopen, hname⟩
  simp [belongs, hopen, hname] at hb

theorem belongs_other (t : Token) : belongs .other t = false := by
  unfold belongs
  split <;> simp_all

/-- A token that is not parted from a name it belongs to is read as if nothing were passed over. -/
theorem step_kept {apart : Bool} (hlast : s.last = if apart then .other else last) (ht : isPassed t = false)
    (h : (apart && belongs last t) = false) : step s t = step { s with last } t := by
  cases apart with
  | false => rw [← show s.last = last from hlast]
  | true =>
    have hother : s.last = .other := hlast
    rw [step_of_not_belongs ht (hother ▸ belongs_other t), step_of_not_belongs (s := { s with last }) ht h]

/-- A name is an operand. -/
theorem operandDue_of_last (hs : step s t = .ok s') (hname : s'.last = .name) : s'.operandDue = false := by
  have hkind : t.kind = .name := by
    rw [step_last hs] at hname
    unfold follow at hname
    split at hname <;> first | assumption | cases hname
  rw [step_read (by simp [isDress, hkind]) (by simp [hkind])] at hs
  unfold Parser.read at hs
  rw [hkind] at hs
  dsimp only at hs
  split at hs
  · cases hs
    rfl
  · cases hs

/-- What is parted from the name that it belongs to has no place in an expression. -/
theorem not_step_parted (hother : s.last = .other) (hname : last = .name → s.operandDue = false)
    (h : belongs last t = true) : step s t ≠ .ok s' := by
  intro hs
  unfold belongs at h
  split at h
  · rename_i hopen
    rw [step_eq_read (by simp [isDress, hopen]) (by simp [hother])] at hs
    simp [Parser.read, hopen, hname rfl, fail] at hs
  · rename_i hsuffix
    exact not_step_decoration (.inr (by simp [Kind.isSuffix, hsuffix])) hother hs
  · rename_i hsuffix
    exact not_step_decoration (.inr (by simp [Kind.isSuffix, hsuffix])) hother hs
  · cases h

end Steps

/-! ### Runs -/

/-- The state apart from what the last token was. -/
def forget (s : State) : State := { s with last := .other }

section Runs
variable {s : State} {ts : List Token}

/-- While no name is parted from what belongs to it a run over all tokens ends like one over those that count. -/
theorem run_uncommented {last : Last} (apart : Bool) (hlast : s.last = if apart then .other else last)
    (h : unbroken last apart ts = true) :
    forget <$> ts.foldlM step s = forget <$> (uncommented ts).foldlM step { s with last } := by
  induction ts generalizing s last apart with
  | nil => rfl
  | cons t ts ih =>
    unfold unbroken at h
    unfold uncommented at ih ⊢
    cases ht : isPassed t with
    | true =>
      rw [ht, if_pos rfl] at h
      rw [List.filter_cons_of_neg (by simp [ht]), foldlM_cons_ok (step_passed ht)]
      exact ih (s := { s with last := .other }) true rfl h
    | false =>
      rw [ht, if_neg Bool.false_ne_true, Bool.and_eq_true, Bool.not_eq_true'] at h
      have hstep := step_kept hlast ht h.1
      rw [List.filter_cons_of_pos (by simp [ht]), List.foldlM_cons, List.foldlM_cons, ← hstep]
      cases hs : step s t with
      | error err => rfl
      | ok s' =>
        have hfollow : s'.last = follow last t := step_last (hstep ▸ hs)
        rw [← hfollow] at h
        exact ih (s := s') false rfl h.2

/-- A name that is parted from what belongs to it ends the run. -/
theorem not_run_of_broken {r : State} (last : Last) (apart : Bool) (hlast : s.last = if apart then .other else last)
    (hname : last = .name → s.operandDue = false) (h : unbroken last apart ts = false) : ts.foldlM step s ≠ .ok r := by
  induction ts generalizing s last apart with
  | nil => cases h
  | cons t ts ih =>
    intro hrun
    obtain ⟨s', hs, hrest⟩ := foldlM_cons_eq_ok hrun
    unfold unbroken at h
    cases ht : isPassed t with
    | true =>
      rw [ht, if_pos rfl] at h
      rw [step_passed ht] at hs
      obtain rfl := Except.ok.inj hs
      exact ih (s := { s with last := .other }) last true rfl hname h hrest
    | false =>
      rw [ht, if_neg Bool.false_ne_true, Bool.and_eq_false_iff, Bool.not_eq_false'] at h
      cases hparted : apart && belongs last t with
      | false =>
        have hbroken := h.resolve_left (by simp [hparted])
        have hfollow : s'.last = follow last t := step_last (step_kept hlast ht hparted ▸ hs)
        exact ih _ false hfollow (fun hname' => operandDue_of_last hs (hfollow.trans hname')) hbroken hrest
      | true =>
        obtain ⟨rfl, hbelongs⟩ := Bool.and_eq_true_iff.mp hparted
        exact not_step_parted hlast hname hbelongs hs

end Runs

/-! ### The parser -/

variable {ts : List Token}

theorem isFinish_of_passed {t : Token} (ht : isPassed t = true) : t.kind.isFinish = false := by
  unfold isPassed at ht
  split at ht <;> simp_all [Kind.isFinish]

theorem takeWhile_uncommented (ts : List Token) :
    (uncommented ts).takeWhile (!·.kind.isFinish) = uncommented (ts.takeWhile (!·.kind.isFinish)) := by
  unfold uncommented
  induction ts with
  | nil => rfl
  | cons t ts ih =>
    cases ht : isPassed t with
    | true => simp [ht, isFinish_of_passed ht, ih]
    | false => cases hfinish : t.kind.isFinish <;> simp [ht, hfinish, ih]

/-- What a run concludes with does not hang on what its last token was. -/
theorem conclude_congr {x y : Except ParseError State} (h : forget <$> x = forget <$> y) :
    x.bind conclude = y.bind conclude := by
  have hconclude (z : Except ParseError State) : z.bind conclude = (forget <$> z).bind conclude := by cases z <;> rfl
  rw [hconclude x, h, ← hconclude y]

theorem parseTokens_eq (ts : List Token) :
    parseTokens ts = ((ts.takeWhile (!·.kind.isFinish)).foldlM step {}).bind conclude := by
  unfold parseTokens
  split <;> simp_all [Except.bind]

/-- While no name is parted from what belongs to it comments and line ends change nothing, not even an error or its
    place. -/
theorem parseTokens_uncommented (h : Unbroken ts) : parseTokens (uncommented ts) = parseTokens ts := by
  rw [parseTokens_eq, parseTokens_eq, takeWhile_uncommented]
  exact conclude_congr (run_uncommented (s := {}) false rfl h).symm

theorem not_parseTokens_of_broken (h : ¬Unbroken ts) (e : Expr) : parseTokens ts ≠ .ok e := by
  intro hparse
  unfold parseTokens at hparse
  split at hparse
  · rename_i hrun
    exact not_run_of_broken .other false rfl (fun hname => nomatch hname) (Bool.not_eq_true _ ▸ h) hrun
  · cases hparse

/-- The parser passes over comments and line ends exactly if the others make no expression, or none of those comes
    between a name and what belongs to it. -/
theorem passesOver_iff (ts : List Token) :
    PassesOver ts ↔ ((∃ e, parseTokens (uncommented ts) = .ok e) → Unbroken ts) := by
  constructor
  · rintro h ⟨e, he⟩
    by_contra hbroken
    exact not_parseTokens_of_broken hbroken e ((h e).mpr he)
  · intro h e
    by_cases hunbroken : Unbroken ts
    · rw [parseTokens_uncommented hunbroken]
    · have hnone : ¬∃ e, parseTokens (uncommented ts) = .ok e := fun hsome => hunbroken (h hsome)
      exact iff_of_false (not_parseTokens_of_broken hunbroken e) fun he => hnone ⟨e, he⟩

/-- A comment in front of the parenthesis makes a variable of the name of a call. -/
theorem not_passesOver : parseTokens (tokenize ['f', '"', 'c', '"', '(', 'a', ')']) = .error ⟨.unexpectedParen, 1, 5⟩ ∧
    parseTokens (uncommented (tokenize ['f', '"', 'c', '"', '(', 'a', ')'])) = .ok (.call ['f'] [.var ['a']]) ∧
    ¬PassesOver (tokenize ['f', '"', 'c', '"', '(', 'a', ')']) := by
  have hwith : parseTokens (tokenize ['f', '"', 'c', '"', '(', 'a', ')']) = .error ⟨.unexpectedParen, 1, 5⟩ := by rfl
  have hwithout : parseTokens (uncommented (tokenize ['f', '"', 'c', '"', '(', 'a', ')'])) =
      .ok (.call ['f'] [.var ['a']]) := by rfl
  refine ⟨hwith, hwithout, fun h => ?_⟩
  have hparsed := (h _).mpr hwithout
  rw [hwith] at hparsed
  cases hparsed

end Grammar
end Worksheet
