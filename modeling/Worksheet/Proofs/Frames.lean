import Worksheet.Context.Frames
import Worksheet.Proofs.Expr.Reads

/-! Contexts on a stack. Values and bound names belong to one frame, while what is hidden and what was used belongs to
    the record that frames share. Whatever is done to a stack, a name that is bound in a frame has a value there, and
    the top context knows a name exactly if a look-up finds it. A look-up records a name if it finds a constant; asking
    whether a name is known records nothing. -/

namespace Worksheet

/-! ### The order of meanings -/

namespace Context
variable {c c' : Context} {name : Text}

/-- The value of a bound name. -/
def boundValue? (c : Context) (name : Text) : Option Meaning :=
  if c.bound.contains name then (c.values.find? name).map .ofVariable else none

/-- The constant that is hidden, but only from a later line on. -/
def laterHidden? (c : Context) (name : Text) : Option Meaning :=
  if (c.shadowed.find? name).any (c.line < ·) then (c.constants.find? name).map (.ofConstant ·.value) else none

/-- The value of a variable. -/
def ownValue? (c : Context) (name : Text) : Option Meaning := (c.values.find? name).map .ofVariable

/-- The constant that is hidden nowhere. -/
def neverHidden? (c : Context) (name : Text) : Option Meaning :=
  if c.shadowed.contains name then none else (c.constants.find? name).map (.ofConstant ·.value)

/-- The first of the meanings that a name has. -/
def firstMeaning? (c : Context) (name : Text) : Option Meaning :=
  (c.boundValue? name).or ((c.laterHidden? name).or ((c.ownValue? name).or (c.neverHidden? name)))

theorem find?_eq_firstMeaning? (c : Context) (name : Text) : c.find? name = c.firstMeaning? name := by
  unfold find? firstMeaning? boundValue? laterHidden? ownValue? neverHidden? constantVisible Table.contains
  cases c.values.find? name <;> cases c.constants.find? name <;> cases c.shadowed.find? name <;> simp <;> grind

/-! ### Bound names have values -/

theorem BoundKnown.of_eq (h : BoundKnown c) (hvalues : c'.values = c.values) (hbound : c'.bound = c.bound) :
    BoundKnown c' := by
  intro name hname
  rw [hvalues]
  exact h name (hbound ▸ hname)

theorem BoundKnown.setVariable (h : BoundKnown c) (name : Text) (v : Float) : BoundKnown (c.setVariable name v) := by
  intro other hother
  show (c.values.insert name v).contains other = true
  rw [Table.contains_insert, h other hother, Bool.or_true]

theorem BoundKnown.eraseVariable (h : BoundKnown c) (name : Text) : BoundKnown (c.eraseVariable name) := by
  intro other hother
  have hother : (c.bound.erase name).contains other = true := hother
  show (c.values.erase name).contains other = true
  unfold Table.contains at hother ⊢
  rw [Table.find?_erase] at hother ⊢
  split at hother
  · cases hother
  · rename_i hne
    rw [if_neg hne]
    exact h other hother

theorem BoundKnown.shadow (h : BoundKnown c) (name : Text) (line : Int) : BoundKnown (c.shadow name line) := by
  unfold Context.shadow
  split
  · exact h.of_eq rfl rfl
  · exact h

end Context

/-! ### Records -/

namespace FrameStack

/-- The frames, the top one first. -/
def frames (s : FrameStack) : List Frame := s.top :: s.below

/-- Putting a record in place of the one in use leaves the contexts of the frames as they are. -/
theorem replaceRecord_contexts (r base : Record) (fs : List Frame) :
    (replaceRecord r base fs).1.map Frame.context = fs.map Frame.context := by
  induction fs with
  | nil => rfl
  | cons f fs ih =>
    unfold replaceRecord
    split
    · rfl
    · exact congrArg (f.context :: ·) ih

theorem recordOf_replaceRecord (r base : Record) (fs : List Frame) :
    recordOf (replaceRecord r base fs).2 (replaceRecord r base fs).1 = r := by
  induction fs with
  | nil => rfl
  | cons f fs ih =>
    unfold replaceRecord
    split
    · rfl
    · rename_i hown
      have hnone : f.own = none := by simpa using hown
      show f.own.getD _ = r
      rw [hnone]
      exact ih

theorem replaceRecord_recordOf (base : Record) (fs : List Frame) :
    replaceRecord (recordOf base fs) base fs = (fs, base) := by
  induction fs with
  | nil => rfl
  | cons f fs ih =>
    unfold replaceRecord recordOf
    cases hown : f.own with
    | some r =>
      rw [Option.isSome_some, if_pos rfl, Option.getD_some, ← hown]
    | none =>
      rw [Option.isSome_none, if_neg Bool.false_ne_true, Option.getD_none, ih]

section Stack
variable {s : FrameStack} {name : Text}

theorem setRecord_spec (s : FrameStack) (r : Record) : (s.setRecord r).frames = (replaceRecord r s.base s.frames).1 ∧
    (s.setRecord r).base = (replaceRecord r s.base s.frames).2 := by
  have hcontexts := replaceRecord_contexts r s.base s.frames
  unfold setRecord
  split
  · rename_i heq
    unfold frames at *
    rw [heq]
    exact ⟨rfl, rfl⟩
  · rename_i heq
    unfold frames at hcontexts
    rw [heq] at hcontexts
    cases hcontexts

theorem record_setRecord (s : FrameStack) (r : Record) : (s.setRecord r).record = r := by
  have hrecord := recordOf_replaceRecord r s.base s.frames
  rw [← (setRecord_spec s r).1, ← (setRecord_spec s r).2] at hrecord
  exact hrecord

theorem setRecord_record (s : FrameStack) : s.setRecord s.record = s := by
  unfold setRecord record
  rw [replaceRecord_recordOf]

/-! ### Reached stacks -/

/-- What can be done to a stack: its top context is changed, one is put on top or taken off, or a name is looked up. -/
inductive Change where
  | setVariable (name : Text) (value : Float)
  | bind (name : Text) (value : Float)
  | eraseVariable (name : Text)
  | shadow (name : Text) (line : Int)
  | setLine (line : Int)
  | push
  | pop
  | reset
  | lookup (name : Text)

def change (s : FrameStack) : Change → FrameStack
  | .setVariable name value => s.modify (·.setVariable name value)
  | .bind name value => s.modify (·.bind name value)
  | .eraseVariable name => s.modify (·.eraseVariable name)
  | .shadow name line => s.modify (·.shadow name line)
  | .setLine line => s.modify (·.setLine line)
  | .push => s.push
  | .pop => s.pop
  | .reset => s.reset
  | .lookup name => (s.evaluate (·.lookup name)).2

/-- In every frame a bound name has a value. -/
def AllBound (s : FrameStack) : Prop := ∀ f ∈ s.frames, f.context.BoundKnown

theorem AllBound.context (h : AllBound s) : s.context.BoundKnown := (h s.top List.mem_cons_self).of_eq rfl rfl

theorem AllBound.setRecord (h : AllBound s) (r : Record) : AllBound (s.setRecord r) := by
  intro f hf
  have hmem : f.context ∈ s.frames.map Frame.context := by
    rw [← replaceRecord_contexts r s.base s.frames, ← (setRecord_spec s r).1]
    exact List.mem_map_of_mem hf
  obtain ⟨g, hg, heq⟩ := List.mem_map.mp hmem
  exact heq ▸ h g hg

theorem AllBound.modify (h : AllBound s) {f : Context → Context} (hf : (f s.context).BoundKnown) :
    AllBound (s.modify f) := by
  refine AllBound.setRecord ?_ _
  intro g hg
  rcases List.mem_cons.mp hg with rfl | hg
  · exact hf
  · exact h g (List.mem_cons_of_mem _ hg)

theorem AllBound.change (h : AllBound s) (x : Change) : AllBound (s.change x) := by
  cases x with
  | setVariable name value => exact h.modify (h.context.setVariable name value)
  | bind name value => exact h.modify (h.context.bind name value)
  | eraseVariable name => exact h.modify (h.context.eraseVariable name)
  | shadow name line => exact h.modify (h.context.shadow name line)
  | setLine line => exact h.modify (h.context.of_eq rfl rfl)
  | push =>
    intro f hf
    rcases List.mem_cons.mp hf with rfl | hf
    · exact h.context.of_eq rfl rfl
    · exact h f hf
  | pop =>
    show AllBound s.pop
    unfold pop
    split
    · exact h
    · rename_i hbelow
      intro f hf
      refine h f (List.mem_cons_of_mem _ ?_)
      rw [hbelow]
      exact hf
  | reset =>
    intro f hf
    rcases List.mem_cons.mp hf with rfl | hf
    · exact h s.top List.mem_cons_self
    · exact h f (List.mem_cons_of_mem _ hf)
  | lookup name => exact h.setRecord _

theorem AllBound.foldl (h : AllBound s) (xs : List Change) : AllBound (xs.foldl FrameStack.change s) := by
  induction xs generalizing s with
  | nil => exact h
  | cons x xs ih => exact ih (h.change x)

/-! ### Look-ups -/

/-- Records the use of a constant. -/
def useConstant (s : FrameStack) (name : Text) : FrameStack :=
  s.setRecord { s.record with used := { s.record.used with constants := s.record.used.constants.add name } }

/-- A look-up gives the value of what the name means, and leaves the stack as it is unless that is a constant. -/
theorem evaluate_lookup (s : FrameStack) (name : Text) : s.evaluate (·.lookup name) =
    (.ok ((s.context.find? name).map Context.Meaning.value),
      match s.context.find? name with
      | some (.ofConstant _) => s.useConstant name
      | _ => s) := by
  have hpair : s.evaluate (·.lookup name) =
      ((s.context.lookup name).result,
        s.setRecord { s.record with used := s.record.used.union (s.context.lookup name).used }) :=
    rfl
  rw [hpair, Context.result_lookup]
  unfold Context.lookup
  cases s.context.find? name with
  | none => exact congrArg (_, ·) s.setRecord_record
  | some m =>
    cases m with
    | ofVariable v => exact congrArg (_, ·) s.setRecord_record
    | ofConstant v => rfl

/-- Asking whether a name is known gives the answer and leaves the stack as it is. -/
theorem evaluate_isKnown (s : FrameStack) (name : Text) :
    s.evaluate (fun c => pure (c.isKnown name)) = (.ok (s.context.isKnown name), s) :=
  congrArg (_, ·) s.setRecord_record

/-- The names of the constants that the record of a stack lists as used. -/
def usedConstants (s : FrameStack) : NameSet := s.record.used.constants

theorem contains_useConstant (s : FrameStack) (name other : Text) :
    Table.contains (s.useConstant name).usedConstants other =
      (decide (name = other) || Table.contains s.usedConstants other) := by
  unfold usedConstants useConstant
  rw [record_setRecord]
  exact NameSet.contains_add _ _ _

/-- What is known of a name in the top context of a stack tells what a look-up finds. -/
structure Foretells (s : FrameStack) (name : Text) : Prop where
  /-- In every frame a bound name has a value. -/
  bound : s.AllBound
  /-- A name is known exactly if a look-up gives a value. -/
  known : s.context.isKnown name = true ↔ ∃ v, (s.evaluate (·.lookup name)).1 = .ok (some v)
  /-- A look-up gives the first of the meanings, and fails never. -/
  found : (s.evaluate (·.lookup name)).1 = .ok ((s.context.firstMeaning? name).map Context.Meaning.value)
  /-- It adds the name to the constants in use exactly if it gives a constant. -/
  used : ∀ other, Table.contains (s.evaluate (·.lookup name)).2.usedConstants other = true ↔
    Table.contains s.usedConstants other = true ∨
      name = other ∧ ∃ v, s.context.firstMeaning? name = some (.ofConstant v)
  /-- Unless it gives a constant it changes nothing. -/
  kept : (∀ v, s.context.firstMeaning? name ≠ some (.ofConstant v)) → (s.evaluate (·.lookup name)).2 = s
  /-- Asking whether the name is known changes nothing. -/
  asked : s.evaluate (fun c => pure (c.isKnown name)) = (.ok (s.context.isKnown name), s)

theorem AllBound.foretells (h : AllBound s) (name : Text) : Foretells s name where
  bound := h
  known := by
    rw [evaluate_lookup, ← Bool.not_eq_false, ← Context.find?_eq_none_iff]
    cases s.context.find? name with
    | none => exact iff_of_false (absurd rfl) nofun
    | some m => exact iff_of_true nofun ⟨m.value, rfl⟩
  found := by
    rw [evaluate_lookup, Context.find?_eq_firstMeaning?]
  used other := by
    rw [evaluate_lookup, Context.find?_eq_firstMeaning?]
    dsimp only
    split
    · rename_i v hm
      rw [contains_useConstant, hm]
      simp [or_comm]
    · rename_i hm
      refine ⟨.inl, fun h => h.resolve_right ?_⟩
      rintro ⟨-, v, hv⟩
      exact hm v hv
  kept hm := by
    rw [evaluate_lookup, Context.find?_eq_firstMeaning?]
    dsimp only
    split
    · rename_i v hv
      exact absurd hv (hm v)
    · rfl
  asked := s.evaluate_isKnown name

/-- Whatever is done to a new context, with any constants and functions, and to those that are put on top of it: what is
    known of a name tells what a look-up finds. -/
theorem foretells_foldl (constants : Table Constant) (functions : Table UserFunction) (surroundings : Surroundings)
    (xs : List Change) (name : Text) :
    (xs.foldl change (start { constants, functions, surroundings })).Foretells name := by
  have hstart : AllBound (start { constants, functions, surroundings }) := by
    intro f hf
    obtain rfl := List.mem_singleton.mp hf
    exact nofun
  exact (hstart.foldl xs).foretells name

end Stack
end FrameStack

end Worksheet
