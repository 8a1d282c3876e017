import Worksheet.Text

/-! Tables from names to values, and sets of names. Both list their names in increasing order, so two
    tables that hold the same entries are written alike. `find?_insert` and `find?_erase` say what an
    operation does to a look-up. -/

namespace Worksheet

/-- Entries with their names in strictly increasing order. -/
structure Table (α : Type) where
  entries : List (Text × α)
  sorted : entries.Pairwise (fun x y => x.1 < y.1)

namespace Table
variable {α : Type}

/-! ### Entries -/

/-- The value beside `name` in a list of entries. -/
def get? (name : Text) : List (Text × α) → Option α
  | [] => none
  | x :: l => if x.1 = name then some x.2 else get? name l

/-- Puts `value` beside `name`, in place of an older entry or else before the first greater name. -/
def put (name : Text) (value : α) : List (Text × α) → List (Text × α)
  | [] => [(name, value)]
  | x :: l =>
    if x.1 = name then (name, value) :: l
    else if name < x.1 then (name, value) :: x :: l
    else x :: put name value l

theorem mem_put {name : Text} {value : α} {y : Text × α} :
    ∀ {l : List (Text × α)}, y ∈ put name value l → y = (name, value) ∨ y ∈ l
  | [], h => by simpa [put] using h
  | x :: l, h => by
    unfold put at h
    split at h
    · rcases List.mem_cons.mp h with h | h
      · exact Or.inl h
      · exact Or.inr (List.mem_cons_of_mem _ h)
    · split at h
      · exact List.mem_cons.mp h
      · rcases List.mem_cons.mp h with h | h
        · exact Or.inr (h ▸ List.mem_cons_self)
        · exact (mem_put h).imp id (List.mem_cons_of_mem _)

theorem sorted_put (name : Text) (value : α) :
    ∀ {l : List (Text × α)}, l.Pairwise (fun x y => x.1 < y.1) → (put name value l).Pairwise (fun x y => x.1 < y.1)
  | [], _ => List.pairwise_singleton _ _
  | x :: l, h => by
    obtain ⟨hx, hl⟩ := List.pairwise_cons.mp h
    unfold put
    split
    · rename_i he
      exact List.pairwise_cons.mpr ⟨fun y hy => he ▸ hx y hy, hl⟩
    · rename_i hne
      split
      · rename_i hlt
        refine List.pairwise_cons.mpr ⟨fun y hy => ?_, h⟩
        rcases List.mem_cons.mp hy with rfl | hy
        · exact hlt
        · exact List.lt_trans hlt (hx y hy)
      · rename_i hge
        refine List.pairwise_cons.mpr ⟨fun y hy => ?_, sorted_put name value hl⟩
        rcases mem_put hy with rfl | hy
        · exact Text.lt_of_not_lt hge hne
        · exact hx y hy

theorem get?_put (name other : Text) (value : α) :
    ∀ l : List (Text × α), get? other (put name value l) = if name = other then some value else get? other l
  | [] => by simp [put, get?]
  | x :: l => by
    unfold put
    split
    · rename_i he
      by_cases h : name = other <;> simp [get?, h, he]
    · rename_i hne
      split
      · simp [get?]
      · rw [get?, get?_put name other value l, get?]
        by_cases h : x.1 = other
        · have hno : ¬name = other := fun h' => hne (h.trans h'.symm)
          simp [h, hno]
        · simp [h]

theorem get?_filter_ne (name other : Text) :
    ∀ l : List (Text × α), get? other (l.filter fun x => x.1 ≠ name) = if name = other then none else get? other l
  | [] => by simp [get?]
  | x :: l => by
    by_cases hx : x.1 = name
    · rw [List.filter_cons_of_neg (by simpa using hx), get?_filter_ne name other l, get?]
      by_cases h : name = other <;> simp [h, hx]
    · rw [List.filter_cons_of_pos (by simpa using hx), get?, get?_filter_ne name other l, get?]
      by_cases h : x.1 = other
      · have hno : ¬name = other := fun h' => hx (h.trans h'.symm)
        simp [h, hno]
      · simp [h]

/-! ### Tables -/

def empty : Table α := ⟨[], List.Pairwise.nil⟩

instance : Inhabited (Table α) := ⟨empty⟩

instance : EmptyCollection (Table α) := ⟨empty⟩

def find? (t : Table α) (name : Text) : Option α := get? name t.entries

def contains (t : Table α) (name : Text) : Bool := (t.find? name).isSome

def insert (t : Table α) (name : Text) (value : α) : Table α := ⟨put name value t.entries, sorted_put name value t.sorted⟩

def erase (t : Table α) (name : Text) : Table α := ⟨t.entries.filter fun x => x.1 ≠ name, t.sorted.filter _⟩

/-- Adds an entry unless the name has one already. -/
def insertNew (t : Table α) (name : Text) (value : α) : Table α := if t.contains name then t else t.insert name value

def names (t : Table α) : List Text := t.entries.map (·.1)

def filter (t : Table α) (p : Text → α → Bool) : Table α := ⟨t.entries.filter fun x => p x.1 x.2, t.sorted.filter _⟩

def mapValues {β : Type} (t : Table α) (f : α → β) : Table β :=
  ⟨t.entries.map fun x => (x.1, f x.2), List.Pairwise.map _ (fun _ _ h => h) t.sorted⟩

@[simp] theorem find?_empty (name : Text) : (empty : Table α).find? name = none := rfl

theorem find?_insert (t : Table α) (name other : Text) (value : α) :
    (t.insert name value).find? other = if name = other then some value else t.find? other :=
  get?_put name other value t.entries

theorem find?_erase (t : Table α) (name other : Text) :
    (t.erase name).find? other = if name = other then none else t.find? other :=
  get?_filter_ne name other t.entries

end Table

/-! ### Sets of names -/

/-- A set of names. -/
abbrev NameSet := Table Unit

namespace NameSet

def add (s : NameSet) (name : Text) : NameSet := Table.insert s name ()

def union (s t : NameSet) : NameSet := t.entries.foldl (fun s x => s.add x.1) s

def ofList (l : List Text) : NameSet := l.foldl add Table.empty

theorem contains_add (s : NameSet) (name other : Text) :
    Table.contains (s.add name) other = (decide (name = other) || Table.contains s other) := by
  unfold Table.contains add
  rw [Table.find?_insert]
  by_cases h : name = other <;> simp [h]

end NameSet
end Worksheet
