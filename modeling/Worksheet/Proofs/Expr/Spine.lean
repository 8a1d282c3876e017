import Worksheet.Proofs.Expr.ParseComplete
import Worksheet.Proofs.Token.Literal

/-! How the tokens of an expression follow one another. `Spine` has one rule for each step of the parser and knows
    nothing of levels and operands: only how many parentheses are open and whether an operand is due. Whatever the
    parser accepts is a spine with all parentheses closed, also where the operands are not those of the grammar. -/

namespace Worksheet
namespace Parser
open Token Grammar

/-- The tokens `ts`, the newest first, have been taken; `n` parentheses are open, and an operand is due or not. -/
inductive Spine : Nat → Bool → List Token → Prop
  | nil : Spine 0 true []
  | number {n : Nat} {ts : List Token} {t : Token} {v : Float} {base : Nat} {style : Style} (h : Spine n true ts)
    (ht : t.kind = .number v base style) : Spine n false (t :: ts)
  | name {n : Nat} {ts : List Token} {t : Token} (h : Spine n true ts) (ht : t.kind = .name) : Spine n false (t :: ts)
  | suffix {n : Nat} {ts : List Token} {t x : Token} {d : Decoration} (h : Spine n false (x :: ts))
    (hx : x.kind = .name ∨ x.kind.isSuffix = true) (ht : t.kind = .suffix d) : Spine n false (t :: x :: ts)
  | prefixOp {n : Nat} {ts : List Token} {t : Token} {op : PrefixOp} (h : Spine n true ts) (ht : t.kind = .operator)
    (hop : PrefixOp.ofSymbol? t.lexeme = some op) : Spine n true (t :: ts)
  | binaryOp {n : Nat} {ts : List Token} {t : Token} {op : BinaryOp} (h : Spine n false ts) (ht : t.kind = .operator)
    (hop : BinaryOp.ofSymbol? t.lexeme = some op) : Spine n true (t :: ts)
  | separator {n : Nat} {ts : List Token} {t : Token} (h : Spine (n + 1) false ts) (ht : IsSeparator t) :
    Spine (n + 1) true (t :: ts)
  | group {n : Nat} {ts : List Token} {t : Token} (h : Spine n true ts) (ht : t.kind = .openParen) :
    Spine (n + 1) true (t :: ts)
  | call {n : Nat} {ts : List Token} {t f : Token} (h : Spine n true ts) (hf : f.kind = .name)
    (ht : t.kind = .openParen) : Spine (n + 1) true (t :: f :: ts)
  | close {n : Nat} {due : Bool} {ts : List Token} {t : Token} (h : Spine (n + 1) due ts) (ht : t.kind = .closeParen) :
    Spine n false (t :: ts)

/-! ### The last token -/

section Last
variable {n : Nat} {due : Bool} {t : Token} {ts : List Token}

/-- Whether an operand is due behind a token depends on the token alone, as it does for the lexer. -/
theorem Spine.due_eq (h : Spine n due (t :: ts)) : due = (Lexer.Before.ofKind t.kind).operandDue := by
  cases h with
  | separator _ ht => rcases ht with ht | ht <;> rw [ht] <;> rfl
  | number _ ht | name _ ht | suffix _ _ ht | prefixOp _ ht _ | binaryOp _ ht _ | group _ ht | call _ _ ht
  | close _ ht =>
    rw [ht]
    rfl

/-- A word stands where an operand is due. -/
theorem Spine.of_word (h : Spine n due (t :: ts)) (ht : Lexer.isWord t.kind = true) :
    due = false ∧ Spine n true ts := by
  cases h with
  | number h _ | name h _ => exact ⟨rfl, h⟩
  | separator _ hs => rcases hs with hk | hk <;> simp [hk, Lexer.isWord] at ht
  | suffix _ _ hk | prefixOp _ hk _ | binaryOp _ hk _ | group _ hk | call _ _ hk | close _ hk =>
    simp [hk, Lexer.isWord] at ht

/-- A suffix stands behind a name or another suffix. -/
theorem Spine.of_suffix (h : Spine n due (t :: ts)) (ht : t.kind.isSuffix = true) :
    due = false ∧ ∃ x xs, ts = x :: xs ∧ (x.kind = .name ∨ x.kind.isSuffix = true) ∧ Spine n false (x :: xs) := by
  cases h with
  | suffix h hx _ => exact ⟨rfl, _, _, rfl, hx, h⟩
  | separator _ hs => rcases hs with hk | hk <;> simp [hk, Kind.isSuffix] at ht
  | number _ hk | name _ hk | prefixOp _ hk _ | binaryOp _ hk _ | group _ hk | call _ _ hk | close _ hk =>
    simp [hk, Kind.isSuffix] at ht

/-- Outside of parentheses an operand is due at the start and behind an operator. -/
theorem Spine.of_due (h : Spine 0 true ts) : ts = [] ∨ ∃ t us, ts = t :: us ∧ t.kind = .operator ∧
    ((∃ op, PrefixOp.ofSymbol? t.lexeme = some op) ∧ Spine 0 true us ∨
      (∃ op, BinaryOp.ofSymbol? t.lexeme = some op) ∧ Spine 0 false us) := by
  cases h with
  | nil => exact .inl rfl
  | prefixOp h ht hop => exact .inr ⟨_, _, rfl, ht, .inl ⟨⟨_, hop⟩, h⟩⟩
  | binaryOp h ht hop => exact .inr ⟨_, _, rfl, ht, .inr ⟨⟨_, hop⟩, h⟩⟩

/-- The tokens of a spine are no markers, brackets and braces, and no comments. -/
def isPart : Kind → Bool
  | .number _ _ _ | .name | .operator | .openParen | .closeParen | .semicolon | .comma | .suffix _ => true
  | _ => false

theorem Spine.isPart (h : Spine n due ts) : ∀ t ∈ ts, isPart t.kind = true := by
  induction h with
  | nil => exact fun t ht => nomatch ht
  | separator _ ht ih => exact List.forall_mem_cons.mpr ⟨by rcases ht with ht | ht <;> rw [ht] <;> rfl, ih⟩
  | call _ hf ht ih => exact List.forall_mem_cons.mpr ⟨by rw [ht]; rfl, List.forall_mem_cons.mpr ⟨by rw [hf]; rfl, ih⟩⟩
  | number _ ht ih | name _ ht ih | suffix _ _ ht ih | prefixOp _ ht _ ih | binaryOp _ ht _ ih | group _ ht ih
  | close _ ht ih =>
    exact List.forall_mem_cons.mpr ⟨by rw [ht]; rfl, ih⟩

end Last

/-! ### The stack -/

/-- The number of parentheses that are open. -/
def depth : List Pending → Nat
  | [] => 0
  | .group _ :: ps | .call _ _ :: ps => depth ps + 1
  | .prefixOp _ _ :: ps | .binaryOp _ _ :: ps => depth ps

section Stack
variable {es es' : List Expr} {ps ps' : List Pending}

/-- Completing operators stops at an open parenthesis. -/
theorem unwind_depth (h : unwind es ps = .ok (es', ps')) :
    depth ps' = depth ps ∧ AtParen ps' := by
  induction ps generalizing es with
  | nil =>
    cases h
    exact ⟨rfl, by simp [AtParen]⟩
  | cons p ps ih =>
    cases p with
    | prefixOp op q =>
      unfold unwind at h
      split at h
      · exact ih h
      · cases h
    | binaryOp op q =>
      unfold unwind at h
      split at h
      · exact ih h
      · cases h
    | group q =>
      cases h
      exact ⟨rfl, by simp [AtParen]⟩
    | call f q =>
      cases h
      exact ⟨rfl, by simp [AtParen]⟩

theorem reduce_depth {next : BinaryOp} (h : reduce next es ps = .ok (es', ps')) : depth ps' = depth ps := by
  induction ps generalizing es with
  | nil =>
    cases h
    rfl
  | cons p ps ih =>
    cases p with
    | prefixOp op q =>
      unfold reduce at h
      split at h
      · split at h
        · exact ih h
        · cases h
      · cases h
        rfl
    | binaryOp op q =>
      unfold reduce at h
      split at h
      · split at h
        · exact ih h
        · cases h
      · cases h
        rfl
    | group q =>
      cases h
      rfl
    | call f q =>
      cases h
      rfl

end Stack

/-! ### One token -/

/-- The parser has come to the state `s` by the tokens `ts`, the newest first. -/
structure Passed (s : State) (ts : List Token) : Prop where
  spine : Spine (depth s.pending) s.operandDue ts
  name : s.last = .name → ∃ x xs, ts = x :: xs ∧ x.kind = .name
  suffix : s.last = .suffix → ∃ x xs, ts = x :: xs ∧ x.kind.isSuffix = true

theorem Passed.start : Passed {} [] where
  spine := .nil
  name := nofun
  suffix := nofun

theorem follow_eq_name {last : Last} {t : Token} (h : follow last t = .name) : t.kind = .name := by
  unfold follow at h
  split at h <;> simp_all

theorem follow_eq_suffix {last : Last} {t : Token} (h : follow last t = .suffix) : t.kind.isSuffix = true := by
  unfold follow at h
  split at h <;> simp_all [Kind.isSuffix]

section Step
variable {s s' : State} {t : Token} {ts : List Token}

theorem closeCall_spine {due : Bool} {es : List Expr} {ps : List Pending} (hs : closeCall s t due es ps = .ok s') :
    s'.pending = ps ∧ s'.operandDue = false := by
  unfold closeCall fail at hs
  grind

theorem close_spine (h : Spine (depth s.pending) s.operandDue ts) (ht : t.kind = .closeParen)
    (hs : close s t = .ok s') : Spine (depth s'.pending) s'.operandDue (t :: ts) := by
  unfold Parser.close at hs
  split at hs
  · cases hs
  · rename_i hunwind
    obtain ⟨hpending, hdue⟩ := closeCall_spine hs
    rw [hpending, hdue]
    rw [← (unwind_depth hunwind).1] at h
    exact h.close ht
  · rename_i hunwind
    rw [← (unwind_depth hunwind).1] at h
    split at hs
    · cases hs
    · cases hs
      exact h.close ht
  · cases hs

theorem separate_spine (h : Spine (depth s.pending) s.operandDue ts) (ht : IsSeparator t) (hs : separate s t = .ok s') :
    Spine (depth s'.pending) s'.operandDue (t :: ts) := by
  unfold Parser.separate at hs
  split at hs
  · cases hs
  · rename_i hdue
    rw [Bool.not_eq_true] at hdue
    rw [hdue] at h
    split at hs
    · cases hs
    · rename_i hunwind
      rw [← (unwind_depth hunwind).1] at h
      split at hs
      · cases hs
      · cases hs
        exact h.separator ht
    · cases hs

theorem operate_spine (h : Spine (depth s.pending) s.operandDue ts) (ht : t.kind = .operator)
    (hs : operate s t = .ok s') : Spine (depth s'.pending) s'.operandDue (t :: ts) := by
  unfold operate at hs
  split at hs
  · rename_i hdue
    split at hs
    · rename_i hop
      cases hs
      rw [hdue] at h ⊢
      exact h.prefixOp ht hop
    · cases hs
  · rename_i hdue
    rw [Bool.not_eq_true] at hdue
    rw [hdue] at h
    split at hs
    · cases hs
    · rename_i hop
      split at hs
      · cases hs
      · rename_i hreduce
        cases hs
        rw [← reduce_depth hreduce] at h
        exact h.binaryOp ht hop

theorem read_spine (h : Spine (depth s.pending) s.operandDue ts) (hs : read s t = .ok s') :
    Spine (depth s'.pending) s'.operandDue (t :: ts) := by
  unfold Parser.read at hs
  split at hs <;> rename_i hk
  · cases hs
  · split at hs
    · rename_i hdue
      cases hs
      rw [hdue] at h
      exact h.number hk
    · cases hs
  · split at hs
    · rename_i hdue
      cases hs
      rw [hdue] at h
      exact h.name hk
    · cases hs
  · split at hs
    · rename_i hdue
      cases hs
      rw [hdue] at h ⊢
      exact h.group hk
    · cases hs
  · exact separate_spine h (.inl hk) hs
  · exact separate_spine h (.inr hk) hs
  · exact close_spine h hk hs
  · exact operate_spine h hk hs
  · cases hs

/-- A name right before a parenthesis is no operand any more. -/
theorem openCall_spine (h : Passed s ts) (hlast : s.last = .name) (ht : t.kind = .openParen)
    (hs : openCall s t = .ok s') : Spine (depth s'.pending) s'.operandDue (t :: ts) := by
  obtain ⟨f, rest, rfl, hf⟩ := h.name hlast
  obtain ⟨-, hrest⟩ := h.spine.of_word (by rw [hf]; rfl)
  unfold openCall at hs
  split at hs
  · cases hs
    exact hrest.call hf ht
  · cases hs

/-- A suffix that changes nothing stands behind a name or another suffix. -/
theorem Passed.dress (h : Passed s ts) (hd : isDress s.last t = true) (ht : t.kind.isSilent = false) :
    Spine (depth s.pending) s.operandDue (t :: ts) := by
  have hbehind {x : Token} {xs : List Token} {d : Decoration} (hts : ts = x :: xs)
      (hx : x.kind = .name ∨ x.kind.isSuffix = true) (ht : t.kind = .suffix d) :
      Spine (depth s.pending) s.operandDue (t :: ts) := by
    have hspine := h.spine
    rw [hts] at hspine ⊢
    have hdue : s.operandDue = false := hx.elim (fun hname => (hspine.of_word (by rw [hname]; rfl)).1)
      fun hsuffix => (hspine.of_suffix hsuffix).1
    rw [hdue] at hspine ⊢
    exact hspine.suffix hx ht
  unfold isDress at hd
  split at hd
  · rename_i hk
    simp [hk, Kind.isSilent] at ht
  · rename_i hk
    simp [hk, Kind.isSilent] at ht
  · rename_i hk hlast
    obtain ⟨x, xs, hts, hx⟩ := h.name hlast
    exact hbehind hts (.inl hx) hk
  · rename_i hk hlast
    obtain ⟨x, xs, hts, hx⟩ := h.suffix hlast
    exact hbehind hts (.inr hx) hk
  · cases hd

/-- Each token that is taken goes on with the spine. -/
theorem Passed.step (h : Passed s ts) (ht : t.kind.isSilent = false) (hs : step s t = .ok s') :
    Passed s' (t :: ts) where
  spine := by
    cases hd : isDress s.last t with
    | true =>
      rw [step_dress hd] at hs
      cases hs
      exact h.dress hd ht
    | false =>
      by_cases hcall : t.kind = .openParen ∧ s.last = .name
      · have hopen : openCall s t = .ok s' := by simpa [Parser.step, hcall.1, hcall.2] using hs
        exact openCall_spine h hcall.2 hcall.1 hopen
      · rw [step_eq_read hd hcall] at hs
        refine read_spine ?_ hs
        exact h.spine
  name hlast := ⟨t, ts, rfl, follow_eq_name ((step_last hs).symm.trans hlast)⟩
  suffix hlast := ⟨t, ts, rfl, follow_eq_suffix ((step_last hs).symm.trans hlast)⟩

end Step

/-! ### All tokens -/

/-- Each token in turn, from the left. -/
theorem Passed.run {s s' : State} {ts us : List Token} (h : Passed s ts) (hus : ∀ t ∈ us, t.kind.isSilent = false)
    (hs : us.foldlM Parser.step s = .ok s') : Passed s' (us.reverse ++ ts) := by
  induction us generalizing s ts with
  | nil =>
    cases hs
    exact h
  | cons t us ih =>
    obtain ⟨ht, hus⟩ := List.forall_mem_cons.mp hus
    obtain ⟨s₁, hstep, hrest⟩ := foldlM_cons_eq_ok hs
    rw [List.reverse_cons, List.append_assoc, List.singleton_append]
    exact ih (h.step ht hstep) hus hrest

/-- At the end all parentheses are closed, and no operand is due. -/
theorem Passed.conclude {s : State} {ts : List Token} {e : Expr} (h : Passed s ts) (hs : conclude s = .ok e) :
    Spine 0 false ts := by
  have hspine := h.spine
  unfold Parser.conclude at hs
  split at hs
  · split at hs <;> cases hs
  · rename_i hdue
    rw [Bool.not_eq_true] at hdue
    rw [hdue] at hspine
    unfold complete at hs
    split at hs
    · cases hs
    · cases hs
    · cases hs
    · rename_i ps hgroup hcall hunwind
      obtain ⟨hdepth, hopen⟩ := unwind_depth hunwind
      cases ps with
      | nil =>
        rw [← hdepth] at hspine
        exact hspine
      | cons p ps =>
        rcases hopen p rfl with ⟨q, rfl⟩ | ⟨f, q, rfl⟩
        · exact (hgroup _ _ rfl).elim
        · exact (hcall _ _ _ rfl).elim
    · cases hs

/-- What the parser makes an expression of is a spine with all parentheses closed. -/
theorem spine_of_parseTokens {ts : List Token} {f : Token} {e : Expr} (hts : ∀ t ∈ ts, t.kind.isSilent = false)
    (hf : f.kind = .finish) (h : parseTokens (ts ++ [f]) = .ok e) : Spine 0 false ts.reverse := by
  have hbefore : (ts ++ [f]).takeWhile (!·.kind.isFinish) = ts := by
    have hfinish : ∀ t ∈ ts, (!t.kind.isFinish) = true := fun t ht => by
      have hloud := hts t ht
      cases hk : t.kind <;> simp_all [Kind.isSilent, Kind.isFinish]
    rw [List.takeWhile_append_of_pos hfinish]
    simp [hf, Kind.isFinish]
  unfold parseTokens at h
  rw [hbefore] at h
  split at h
  · rename_i s hs
    have hpassed := Passed.start.run hts hs
    rw [List.append_nil] at hpassed
    exact hpassed.conclude h
  · cases h

end Parser
end Worksheet
