import Mathlib.Data.List.Nodup
import Worksheet.Expr.Eval

/-! What a context knows while it is given values for more names. A name that gets a value was not known before,
    so the only names whose meaning changes are those that had none. -/

namespace Worksheet

/-! ### Names in sets -/

namespace Table
variable {α : Type}

theorem mem_names_iff {t : Table α} {name : Text} : name ∈ t.names ↔ t.contains name = true := by
  unfold names contains find?
  generalize t.entries = l
  induction l with
  | nil => simp [get?]
  | cons x l ih =>
    rw [List.map_cons, List.mem_cons, get?]
    by_cases hx : x.1 = name
    · simp [hx]
    · rw [if_neg hx, ← ih]
      simp [Ne.symm hx]

theorem contains_insert (t : Table α) (name other : Text) (value : α) :
    (t.insert name value).contains other = (decide (name = other) || t.contains other) := by
  unfold contains
  rw [find?_insert]
  by_cases h : name = other <;> simp [h]

/-- A table lists every name once. -/
theorem nodup_names (t : Table α) : t.names.Nodup := by
  unfold names
  rw [List.Nodup, List.pairwise_map]
  refine t.sorted.imp ?_
  intro x y hxy heq
  rw [heq] at hxy
  exact List.lt_irrefl _ hxy

end Table

namespace NameSet

theorem mem_names_ofList {names : List Text} {name : Text} : name ∈ (ofList names).names ↔ name ∈ names := by
  have hfold (s : NameSet) : name ∈ (names.foldl add s).names ↔ Table.contains s name = true ∨ name ∈ names := by
    induction names generalizing s with
    | nil => simp [Table.mem_names_iff]
    | cons x names ih =>
      rw [List.foldl_cons, ih, contains_add]
      by_cases hx : x = name
      · simp [hx]
      · simp [hx, Ne.symm hx]
  rw [ofList, hfold]
  simp [Table.contains]

theorem contains_union (s t : NameSet) (name : Text) :
    Table.contains (s.union t) name = (Table.contains s name || Table.contains t name) := by
  have hfold (l : List (Text × Unit)) (s : NameSet) : Table.contains (l.foldl (fun s x => add s x.1) s) name = true ↔
      Table.contains s name = true ∨ name ∈ l.map Prod.fst := by
    induction l generalizing s with
    | nil => simp
    | cons x l ih =>
      rw [List.foldl_cons, ih, contains_add]
      by_cases hx : x.1 = name
      · simp [hx]
      · simp [hx, Ne.symm hx]
  rw [Bool.eq_iff_iff, Bool.or_eq_true, ← Table.mem_names_iff (t := t)]
  exact hfold t.entries s

end NameSet

namespace Context

theorem mem_unknowns {c : Context} {es : List Expr} {name : Text} :
    name ∈ (c.unknowns es).names ↔ (∃ e ∈ es, name ∈ e.names) ∧ c.isUnknown name = true := by
  rw [unknowns, NameSet.mem_names_ofList, List.mem_filter, List.mem_flatMap]

theorem unknowns_eq_nil {c : Context} {es : List Expr} :
    (c.unknowns es).names = [] ↔ ∀ e ∈ es, ∀ name ∈ e.names, c.isUnknown name = false := by
  rw [List.eq_nil_iff_forall_not_mem]
  simp only [mem_unknowns, not_and, Bool.not_eq_true]
  constructor
  · intro h e he name hname
    exact h name ⟨e, he, hname⟩
  · rintro h name ⟨e, he, hname⟩
    exact h e he name hname

/-- A name is the only unknown one. -/
theorem unknowns_eq_singleton {c : Context} {es : List Expr} {x : Text} : (c.unknowns es).names = [x] ↔
    (∃ e ∈ es, x ∈ e.names) ∧ c.isUnknown x = true ∧ ∀ e ∈ es, ∀ name ∈ e.names, c.isUnknown name = true → name = x := by
  constructor
  · intro h
    have hx : x ∈ (c.unknowns es).names := by simp [h]
    obtain ⟨hnamed, hunknown⟩ := mem_unknowns.mp hx
    refine ⟨hnamed, hunknown, ?_⟩
    intro e he name hname hname'
    have hmem : name ∈ (c.unknowns es).names := mem_unknowns.mpr ⟨⟨e, he, hname⟩, hname'⟩
    simpa [h] using hmem
  · rintro ⟨hnamed, hunknown, honly⟩
    refine List.perm_singleton.mp ((List.perm_ext_iff_of_nodup (Table.nodup_names _) (List.nodup_singleton x)).mpr ?_)
    intro name
    rw [List.mem_singleton]
    constructor
    · intro hname
      obtain ⟨⟨e, he, hmem⟩, hname'⟩ := mem_unknowns.mp hname
      exact honly e he name hmem hname'
    · rintro rfl
      exact mem_unknowns.mpr ⟨hnamed, hunknown⟩

theorem isUnknown_iff {c : Context} {name : Text} :
    c.isUnknown name = true ↔ c.isKnown name = false ∧ namesBuiltin name = false := by
  simp [isUnknown]

theorem isKnown_eq_false_iff {c : Context} {name : Text} :
    c.isKnown name = false ↔ c.values.find? name = none ∧ c.constantVisible name = false := by
  simp [isKnown, hasVariable, Table.contains]

/-! ### Learning values -/

/-- The context `c'` is `c` with values for more names. A constant among these is hidden where its value was found,
    so it is one that the document declares anew. -/
structure Learns (c c' : Context) : Prop where
  constants : c'.constants = c.constants
  functions : c'.functions = c.functions
  bound : c'.bound = c.bound
  shadowed : c'.shadowed = c.shadowed
  surroundings : c'.surroundings = c.surroundings
  line : c'.line = c.line
  depth : c'.depth = c.depth
  values : ∀ name v, c.values.find? name = some v → c'.values.find? name = some v
  hidden : ∀ name, c.values.find? name = none → c'.values.contains name = true → c.constants.contains name = true →
    c.shadowed.contains name = true

section Learns
variable {c c' c'' : Context} {name : Text} {v : Float}

theorem Learns.refl (c : Context) : Learns c c :=
  ⟨rfl, rfl, rfl, rfl, rfl, rfl, rfl, fun _ _ h => h, fun name hnone hsome _ => by simp [Table.contains, hnone] at hsome⟩

theorem Learns.trans (h : Learns c c') (h' : Learns c' c'') : Learns c c'' where
  constants := h'.constants.trans h.constants
  functions := h'.functions.trans h.functions
  bound := h'.bound.trans h.bound
  shadowed := h'.shadowed.trans h.shadowed
  surroundings := h'.surroundings.trans h.surroundings
  line := h'.line.trans h.line
  depth := h'.depth.trans h.depth
  values name v hv := h'.values name v (h.values name v hv)
  hidden name hnone hsome hconstant := by
    cases hc : c'.values.find? name with
    | none => exact h.shadowed ▸ h'.hidden name hc hsome (h.constants ▸ hconstant)
    | some v => exact h.hidden name hnone (by simp [Table.contains, hc]) hconstant

/-- A name that is not known on a line is given a value. -/
theorem learns_setVariable {line : Int} (h : (c.setLine line).isKnown name = false) : Learns c (c.setVariable name v) := by
  obtain ⟨hvalue, hhidden⟩ := isKnown_eq_false_iff.mp h
  have hvalue : c.values.find? name = none := hvalue
  refine ⟨rfl, rfl, rfl, rfl, rfl, rfl, rfl, ?_, ?_⟩
  · intro other w hw
    have hne : name ≠ other := by
      rintro rfl
      rw [hvalue] at hw
      cases hw
    show (c.values.insert name v).find? other = some w
    rw [Table.find?_insert, if_neg hne, hw]
  · intro other hnone hsome hconstant
    have hsome : (c.values.insert name v).contains other = true := hsome
    by_cases heq : name = other
    · subst heq
      have hconstant : (c.setLine line).constants.contains name = true := hconstant
      rw [constantVisible, hconstant, Bool.true_and] at hhidden
      have hhidden : (c.shadowed.find? name).all (line < ·) = false := hhidden
      cases hs : c.shadowed.find? name with
      | none => simp [hs] at hhidden
      | some k => simp [Table.contains, hs]
    · simp [Table.contains, Table.find?_insert, heq, hnone] at hsome

theorem Learns.setLine (h : Learns c c') (line : Int) : Learns (c.setLine line) (c'.setLine line) where
  constants := h.constants
  functions := h.functions
  bound := h.bound
  shadowed := h.shadowed
  surroundings := h.surroundings
  line := rfl
  depth := h.depth
  values := h.values
  hidden := h.hidden

theorem Learns.constantVisible (h : Learns c c') (name : Text) : c'.constantVisible name = c.constantVisible name := by
  unfold Context.constantVisible
  rw [h.constants, h.shadowed, h.line]

/-- A bound name has a value. -/
def BoundKnown (c : Context) : Prop := ∀ name, c.bound.contains name = true → c.values.contains name = true

theorem Learns.boundKnown (h : Learns c c') (hbound : BoundKnown c) : BoundKnown c' := by
  intro name hname
  rw [h.bound] at hname
  obtain ⟨v, hv⟩ := Option.isSome_iff_exists.mp (hbound name hname)
  exact Option.isSome_iff_exists.mpr ⟨v, h.values name v hv⟩

/-- Names keep their meaning, and what they mean besides that is a value learnt. -/
theorem Learns.find?_eq (h : Learns c c') (hbound : BoundKnown c) (name : Text) :
    c'.find? name = (c.find? name).or ((c'.values.find? name).map .ofVariable) := by
  unfold Context.find?
  rw [h.constants, h.bound, h.shadowed, h.constantVisible]
  cases hv : c.values.find? name with
  | some v =>
    rw [h.values name v hv]
    cases c.constants.find? name with
    | none => rfl
    | some k =>
      dsimp only
      split
      · rfl
      · split <;> rfl
  | none =>
    have hnotbound : c.bound.contains name = false := by
      cases hb : c.bound.contains name with
      | false => rfl
      | true => simpa [Table.contains, hv] using hbound name hb
    cases hv' : c'.values.find? name with
    | none => cases c.constants.find? name <;> simp
    | some v =>
      cases hk : c.constants.find? name with
      | none => rfl
      | some k =>
        have hshadowed : c.shadowed.contains name = true :=
          h.hidden name hv (by simp [Table.contains, hv']) (by simp [Table.contains, hk])
        simp only [hnotbound, hshadowed, Bool.true_and, Bool.false_eq_true, if_false]
        split <;> simp

theorem Learns.find?_of_some (h : Learns c c') (hbound : BoundKnown c) {m : Meaning} (hm : c.find? name = some m) :
    c'.find? name = some m := by
  rw [h.find?_eq hbound, hm]
  rfl

end Learns
end Context
end Worksheet
