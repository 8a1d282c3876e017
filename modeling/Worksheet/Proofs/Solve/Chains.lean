import Mathlib.Data.List.Perm.Subperm
import Mathlib.Data.List.Range
import Mathlib.Tactic.IntervalCases
import Worksheet.Proofs.Expr.Substitution

/-! How far an elimination gets. Every round goes one definition deeper, in all names at once, so after `n` rounds a name
    is left that has no definition, or that stands behind a chain of `n` definitions. Without a circle, and with no more
    than eight names to a chain, the rounds of an elimination go to the end of every chain. -/

namespace Worksheet
namespace Eliminations

/-- The definition of `x` on another line names `y`. -/
def Names (m : Eliminations) (line : Nat) (x y : Text) : Prop := ∃ d, m.elsewhere line x = some d ∧ y ∈ d.names

/-- No definition comes back to its own name. -/
def Acyclic (m : Eliminations) (line : Nat) : Prop := ∀ x, ¬Relation.TransGen (m.Names line) x x

/-- Names that have definitions on other lines, where the definition of each one names the next. -/
structure IsChain (m : Eliminations) (line : Nat) (xs : List Text) : Prop where
  defined : ∀ x ∈ xs, m.elsewhere line x ≠ none
  linked : xs.IsChain (m.Names line)

/-- A chain of `n` definitions leads from the first name to the second. -/
inductive Leads (m : Eliminations) (line : Nat) (x : Text) : Nat → Text → Prop
  | refl : Leads m line x 0 x
  | step {n : Nat} {y z : Text} (h : Leads m line x n y) (hz : m.Names line y z) : Leads m line x (n + 1) z

variable {m : Eliminations} {line n k : Nat} {e : Expr} {x y z : Text} {xs : List Text}

theorem Names.defined (h : m.Names line x y) : m.elsewhere line x ≠ none := by
  obtain ⟨d, hd, -⟩ := h
  simp [hd]

/-! ### Chains -/

/-- Without a circle no name comes twice in a chain. -/
theorem IsChain.nodup (hacyclic : m.Acyclic line) (h : m.IsChain line xs) : xs.Nodup := by
  have hlinked : xs.IsChain (Relation.TransGen (m.Names line)) := h.linked.imp fun _ _ => .single
  refine (List.isChain_iff_pairwise.mp hlinked).imp fun hxy heq => ?_
  subst heq
  exact hacyclic _ hxy

/-- The names that lead to another one are a chain in front of it. -/
theorem Leads.exists_chain (h : m.Leads line x n y) :
    ∃ xs, xs.length = n ∧ (∀ z ∈ xs, m.elsewhere line z ≠ none) ∧ (xs ++ [y]).IsChain (m.Names line) := by
  induction h with
  | refl => exact ⟨[], rfl, by simp, .singleton x⟩
  | @step n y z h hz ih =>
    obtain ⟨xs, hlength, hdefined, hlinked⟩ := ih
    refine ⟨xs ++ [y], by simp [hlength], ?_, ?_⟩
    · exact List.forall_mem_append.mpr ⟨hdefined, List.forall_mem_singleton.mpr hz.defined⟩
    · rw [List.append_assoc]
      exact List.isChain_append_cons_cons.mpr ⟨hlinked, hz, .singleton z⟩

theorem Leads.transGen (h : m.Leads line x (n + 1) y) : Relation.TransGen (m.Names line) x y := by
  cases h with
  | step h hz =>
    induction h generalizing y with
    | refl => exact .single hz
    | step h hy ih => exact (ih hy).tail hz

theorem exists_leads (h : Relation.ReflTransGen (m.Names line) x y) : ∃ n, m.Leads line x n y := by
  induction h with
  | refl => exact ⟨0, .refl⟩
  | tail _ hz ih =>
    obtain ⟨n, hn⟩ := ih
    exact ⟨n + 1, hn.step hz⟩

section Bounded
variable (hacyclic : m.Acyclic line) (hchains : ∀ xs, m.IsChain line xs → xs.Nodup → xs.length ≤ k)
include hacyclic hchains

/-- As many definitions as a chain can have names lead to a name without one. -/
theorem Leads.le (h : m.Leads line x n y) : n ≤ k ∧ (m.elsewhere line y ≠ none → n < k) := by
  obtain ⟨xs, rfl, hdefined, hlinked⟩ := h.exists_chain
  have hbound {zs : List Text} (hzs : m.IsChain line zs) : zs.length ≤ k := hchains zs hzs (hzs.nodup hacyclic)
  refine ⟨hbound ⟨hdefined, hlinked.left_of_append⟩, fun hy => ?_⟩
  have hwhole := hbound ⟨List.forall_mem_append.mpr ⟨hdefined, List.forall_mem_singleton.mpr hy⟩, hlinked⟩
  rwa [List.length_append] at hwhole

end Bounded

/-! ### Rounds -/

/-- In one round a name stays, or its definition takes its place. -/
theorem standsFor_iff : Expr.StandsFor (m.elsewhere line) x y ↔ m.elsewhere line x = none ∧ y = x ∨ m.Names line x y := by
  unfold Expr.StandsFor Names
  cases m.elsewhere line x <;> simp [Expr.names]

/-- What is left after `n` rounds is without a definition, or `n` definitions away. -/
theorem leads_of_mem_repeat (h : y ∈ (Nat.repeat (Expr.substitute (m.elsewhere line)) n e).names) :
    ∃ x ∈ e.names, ∃ k, m.Leads line x k y ∧ (m.elsewhere line y = none ∨ k = n) := by
  induction n generalizing y with
  | zero => exact ⟨y, h, 0, .refl, .inr rfl⟩
  | succ n ih =>
    obtain ⟨z, hz, hy⟩ := (Expr.mem_names_substitute _).mp h
    obtain ⟨x, hx, k, hleads, hleft⟩ := ih hz
    rcases standsFor_iff.mp hy with ⟨hnone, rfl⟩ | hnames
    · exact ⟨x, hx, k, hleads, .inl hnone⟩
    · obtain rfl := hleft.resolve_left hnames.defined
      exact ⟨x, hx, k + 1, hleads.step hnames, .inr rfl⟩

/-- After `n` rounds everything is left that is `n` definitions away. -/
theorem Leads.mem_repeat (h : m.Leads line x n y) (hx : x ∈ e.names) :
    y ∈ (Nat.repeat (Expr.substitute (m.elsewhere line)) n e).names := by
  induction h with
  | refl => exact hx
  | @step n y z h hz ih => exact (Expr.mem_names_substitute _).mpr ⟨y, ih, standsFor_iff.mpr (.inr hz)⟩

/-- A name without a definition stays. -/
theorem mem_repeat_of_le (hy : m.elsewhere line y = none) (hkn : k ≤ n)
    (h : y ∈ (Nat.repeat (Expr.substitute (m.elsewhere line)) k e).names) :
    y ∈ (Nat.repeat (Expr.substitute (m.elsewhere line)) n e).names := by
  induction hkn with
  | refl => exact h
  | step _ ih => exact (Expr.mem_names_substitute _).mpr ⟨y, ih, standsFor_iff.mpr (.inl ⟨hy, rfl⟩)⟩

/-- If the definitions of other lines go in no circle, and at most eight names make a chain, an elimination leaves none
    of the names that they define. It leaves the other names of the expression, and those without a definition to which
    chains lead from it. -/
theorem mem_names_eliminate_iff (hacyclic : m.Acyclic line)
    (hchains : ∀ xs, m.IsChain line xs → xs.Nodup → xs.length ≤ 8) (e : Expr) :
    (∀ y ∈ (m.eliminate line e).names, m.elsewhere line y = none) ∧
    ∀ y, y ∈ (m.eliminate line e).names ↔ y ∈ e.names ∧ m.elsewhere line y = none ∨
      m.elsewhere line y = none ∧ ∃ x ∈ e.names, m.elsewhere line x ≠ none ∧ Relation.TransGen (m.Names line) x y := by
  have hnone {y : Text} (hy : y ∈ (m.eliminate line e).names) : m.elsewhere line y = none := by
    obtain ⟨x, -, k, hleads, hleft⟩ := leads_of_mem_repeat hy
    by_contra hdefined
    exact absurd (hleft.resolve_left hdefined) (Nat.ne_of_lt ((hleads.le hacyclic hchains).2 hdefined))
  have hmem {x y : Text} (hx : x ∈ e.names) (h : Relation.ReflTransGen (m.Names line) x y)
      (hy : m.elsewhere line y = none) : y ∈ (m.eliminate line e).names := by
    obtain ⟨n, hleads⟩ := exists_leads h
    exact mem_repeat_of_le hy (hleads.le hacyclic hchains).1 (hleads.mem_repeat hx)
  refine ⟨fun y hy => hnone hy, fun y => ⟨fun hy => ?_, ?_⟩⟩
  · obtain ⟨x, hx, k, hleads, -⟩ := leads_of_mem_repeat hy
    cases k with
    | zero =>
      cases hleads
      exact .inl ⟨hx, hnone hy⟩
    | succ k =>
      have hreach := hleads.transGen
      obtain ⟨z, hz, -⟩ := Relation.TransGen.head'_iff.mp hreach
      exact .inr ⟨hnone hy, x, hx, hz.defined, hreach⟩
  · rintro (⟨hy, hnone⟩ | ⟨hnone, x, hx, -, hreach⟩)
    · exact hmem hy .refl hnone
    · exact hmem hx hreach.to_reflTransGen hnone

/-- Eight names have definitions on other lines, each of which names the next one twice. The ninth name, which the line
    itself defines, is what the rounds leave of the first. -/
theorem mem_names_eliminate_iff_eight :
    let x (n : Nat) : Text := List.replicate (n + 1) 'x'
    let m : Eliminations := (List.range 9).foldl
      (fun m n => Table.insert m (x n) ⟨.binary .add (.var (x (n + 1))) (.var (x (n + 1))), n⟩) ∅
    m.Acyclic 8 ∧ (∀ xs, m.IsChain 8 xs → xs.Nodup → xs.length ≤ 8) ∧ m.IsChain 8 ((List.range 8).map x) ∧
      x 8 ∈ (m.eliminate 8 (.binary .multiply (.var (x 0)) (.var ['a']))).names ∧
      ∀ y ∈ (m.eliminate 8 (.binary .multiply (.var (x 0)) (.var ['a']))).names, m.elsewhere 8 y = none := by
  intro x m
  have hfind {n : Nat} (hn : n < 8) : m.elsewhere 8 (x n) = some (.binary .add (.var (x (n + 1))) (.var (x (n + 1)))) := by
    interval_cases n <;> rfl
  have hdefined {y : Text} (hy : m.elsewhere 8 y ≠ none) : ∃ n < 8, y = x n := by
    obtain ⟨d, hd⟩ := Option.ne_none_iff_exists'.mp hy
    obtain ⟨el, hel, -⟩ := Option.map_eq_some_iff.mp hd
    obtain ⟨hel, hline⟩ := Option.filter_eq_some_iff.mp hel
    simp only [m, List.range, List.range.loop, List.foldl, Table.find?_insert] at hel
    split_ifs at hel with h8 h7 h6 h5 h4 h3 h2 h1 h0 <;> cases hel
    · cases hline
    · exact ⟨7, by decide, h7.symm⟩
    · exact ⟨6, by decide, h6.symm⟩
    · exact ⟨5, by decide, h5.symm⟩
    · exact ⟨4, by decide, h4.symm⟩
    · exact ⟨3, by decide, h3.symm⟩
    · exact ⟨2, by decide, h2.symm⟩
    · exact ⟨1, by decide, h1.symm⟩
    · exact ⟨0, by decide, h0.symm⟩
  have hnames {y z : Text} (h : m.Names 8 y z) : ∃ n < 8, y = x n ∧ z = x (n + 1) := by
    obtain ⟨n, hn, rfl⟩ := hdefined h.defined
    obtain ⟨d, hd, hz⟩ := h
    obtain rfl := Option.some.inj ((hfind hn).symm.trans hd)
    exact ⟨n, hn, rfl, by simpa [Expr.names] using hz⟩
  have hnext {n : Nat} (hn : n < 8) : m.Names 8 (x n) (x (n + 1)) := ⟨_, hfind hn, by simp [Expr.names]⟩
  -- every definition names a longer name
  have hacyclic : m.Acyclic 8 := by
    have hlonger {y z : Text} (h : m.Names 8 y z) : y.length < z.length := by
      obtain ⟨n, -, rfl, rfl⟩ := hnames h
      simp [x]
    have hall {y z : Text} (h : Relation.TransGen (m.Names 8) y z) : y.length < z.length := by
      induction h with
      | single h => exact hlonger h
      | tail _ h ih => exact ih.trans (hlonger h)
    exact fun y h => Nat.lt_irrefl _ (hall h)
  have hchains (xs : List Text) (h : m.IsChain 8 xs) (hnodup : xs.Nodup) : xs.length ≤ 8 := by
    have hsub : xs ⊆ (List.range 8).map x := fun y hy => by
      obtain ⟨n, hn, rfl⟩ := hdefined (h.defined y hy)
      exact List.mem_map_of_mem (List.mem_range.mpr hn)
    simpa using (hnodup.subperm hsub).length_le
  have hwhole : m.IsChain 8 ((List.range 8).map x) := by
    refine ⟨fun y hy => ?_, (List.isChain_map x).mpr ((List.isChain_range _ 8).mpr fun n hn => hnext (by omega))⟩
    obtain ⟨n, hn, rfl⟩ := List.mem_map.mp hy
    simp [hfind (List.mem_range.mp hn)]
  have hreach {n : Nat} (hn : n < 8) : Relation.TransGen (m.Names 8) (x 0) (x (n + 1)) := by
    induction n with
    | zero => exact .single (hnext hn)
    | succ n ih => exact (ih (Nat.lt_of_succ_lt hn)).tail (hnext hn)
  have hlast : m.elsewhere 8 (x 8) = none := by rfl
  obtain ⟨hnone, hiff⟩ := mem_names_eliminate_iff hacyclic hchains (.binary .multiply (.var (x 0)) (.var ['a']))
  exact ⟨hacyclic, hchains, hwhole,
    (hiff _).mpr (.inr ⟨hlast, x 0, List.mem_cons_self, by simp [hfind], hreach (by decide)⟩), hnone⟩

end Eliminations
end Worksheet
