import Worksheet.Root.Search

/-! What the answers of a search have in common. A search is taken apart along its steps: what one step ensures is
    known to the next, and the points asked for stay asked for. -/

namespace Worksheet.Search

variable {α β : Type} {points asked : Array Float}

/-- All points of the first record are in the second. -/
def Kept (points asked : Array Float) : Prop := ∀ p ∈ points, p ∈ asked

theorem Kept.refl (points : Array Float) : Kept points points := fun _ h => h

theorem Kept.trans {later : Array Float} (h : Kept points asked) (h' : Kept asked later) : Kept points later :=
  fun p hp => h' p (h p hp)

theorem Kept.push (points : Array Float) (x : Float) : Kept points (points.push x) :=
  fun _ hp => Array.mem_push_of_mem x hp

/-- Every answer of the search meets `Q`, along with the points asked for in the end. -/
def Ensures (x : Search α) (points : Array Float) (Q : α → Array Float → Prop) : Prop :=
  ∀ v asked, x.run points = (.ok v, asked) → Kept points asked ∧ Q v asked

/-- Whatever the search finds meets `Q`; it may find nothing. -/
def Finds (x : Search (Option α)) (points : Array Float) (Q : α → Array Float → Prop) : Prop :=
  Ensures x points fun found asked => ∀ v, found = some v → Q v asked

/-- What a search answers is answered by its last part, from what the first part has answered. -/
theorem run_bind {x : Search β} {k : β → Search α} {v : α} (h : (x >>= k).run points = (.ok v, asked)) :
    ∃ w between, x.run points = (.ok w, between) ∧ (k w).run between = (.ok v, asked) := by
  change (andThen x k).run points = _ at h
  unfold andThen at h
  dsimp only at h
  split at h
  · exact ⟨_, _, ‹_›, h⟩
  · cases h

theorem run_bind_of_ok {x : Search β} {k : β → Search α} {w : β} (h : x.run points = (.ok w, asked)) :
    (x >>= k).run points = (k w).run asked := by
  change (andThen x k).run points = _
  unfold andThen
  dsimp only
  rw [h]

/-- A sample is the value of the function, and its point is on record. -/
theorem run_sample {f : Float → Float} {x fx : Float} (h : (sample f x).run points = (.ok fx, asked)) :
    fx = f x ∧ asked = points.push x := by
  unfold sample at h
  dsimp only at h
  split at h
  · cases h
    exact ⟨rfl, rfl⟩
  · cases h

theorem run_sample_of_lt {f : Float → Float} {x : Float} (h : points.size < maxSamples) :
    (sample f x).run points = (.ok (f x), points.push x) := if_pos h

theorem run_firstFound_none {x : Search (Option α)} {searches : List (Search (Option α))}
    (h : x.run points = (.ok none, asked)) : (firstFound (x :: searches)).run points = (firstFound searches).run asked :=
  run_bind_of_ok h

theorem run_firstFound_some {x : Search (Option α)} {searches : List (Search (Option α))} {v : α}
    (h : x.run points = (.ok (some v), asked)) :
    (firstFound (x :: searches)).run points = (.ok (some v), asked) :=
  run_bind_of_ok h

theorem exists_run_of_toOption {x : Search α} {v : α} (h : (x.run points).1.toOption = some v) :
    ∃ asked, x.run points = (.ok v, asked) := by
  rcases hrun : x.run points with ⟨_ | w, asked⟩
  · rw [hrun] at h
    cases h
  · rw [hrun] at h
    cases h
    exact ⟨asked, rfl⟩

section
variable {Q R : α → Array Float → Prop}

theorem Ensures.pure {v : α} (h : Q v points) : Ensures (pure v) points Q := by
  intro w asked hrun
  cases hrun
  exact ⟨Kept.refl points, h⟩

theorem Ensures.fail {e : RootError} : Ensures (fail e) points Q := by
  intro v asked hrun
  cases hrun

theorem Ensures.mono {x : Search α} (h : Ensures x points Q) (hQ : ∀ v asked, Kept points asked → Q v asked → R v asked) :
    Ensures x points R := by
  intro v asked hrun
  obtain ⟨hkept, hv⟩ := h v asked hrun
  exact ⟨hkept, hQ v asked hkept hv⟩

theorem Ensures.bind {x : Search β} {k : β → Search α} {P : β → Array Float → Prop} (hx : Ensures x points P)
    (hk : ∀ w asked, Kept points asked → P w asked → Ensures (k w) asked Q) : Ensures (x >>= k) points Q := by
  intro v asked hrun
  obtain ⟨w, between, hfirst, hrest⟩ := run_bind hrun
  obtain ⟨hkept, hw⟩ := hx w between hfirst
  obtain ⟨hkept', hv⟩ := hk w between hkept hw v asked hrest
  exact ⟨hkept.trans hkept', hv⟩

theorem Ensures.sample (f : Float → Float) (x : Float) :
    Ensures (sample f x) points fun fx asked => fx = f x ∧ x ∈ asked := by
  intro fx asked hrun
  obtain ⟨rfl, rfl⟩ := run_sample hrun
  exact ⟨Kept.push points x, rfl, Array.mem_push_self⟩

theorem Ensures.ite {c : Prop} [Decidable c] {x y : Search α} (hx : c → Ensures x points Q)
    (hy : ¬c → Ensures y points Q) : Ensures (if c then x else y) points Q := by
  split
  · exact hx ‹_›
  · exact hy ‹_›

/-- An answer is one that the search gives from some record. -/
theorem Ensures.given {x : Search α} (h : Ensures x points Q) :
    Ensures x points fun v _ => ∃ before after, x.run before = (.ok v, after) := by
  intro v asked hrun
  exact ⟨(h v asked hrun).1, points, asked, hrun⟩

theorem Finds.bind {x : Search β} {k : β → Search (Option α)} {P : β → Array Float → Prop} (hx : Ensures x points P)
    (hk : ∀ w asked, Kept points asked → P w asked → Finds (k w) asked Q) : Finds (x >>= k) points Q :=
  Ensures.bind hx hk

theorem Finds.ite {c : Prop} [Decidable c] {x y : Search (Option α)} (hx : c → Finds x points Q)
    (hy : ¬c → Finds y points Q) : Finds (if c then x else y) points Q :=
  Ensures.ite hx hy

theorem Finds.nothing : Finds (pure none) points Q := Ensures.pure fun _ h => by cases h

theorem Finds.found {v : α} (h : Q v points) : Finds (pure (some v)) points Q :=
  Ensures.pure fun _ hw => by cases hw; exact h

/-- The next search begins only where the first has found nothing. -/
theorem Finds.orElse {x : Search (Option α)} {k : Option α → Search (Option α)} (hx : Finds x points Q)
    (hsome : ∀ v, k (some v) = pure (some v))
    (hnone : ∀ asked, Kept points asked → Finds (k none) asked Q) : Finds (x >>= k) points Q := by
  refine Ensures.bind hx fun found asked hkept hfound => ?_
  match found with
  | some v => rw [hsome]; exact Finds.found (hfound v rfl)
  | none => exact hnone asked hkept

theorem Finds.firstFound {searches : List (Search (Option α))}
    (h : ∀ x ∈ searches, ∀ asked, Kept points asked → Finds x asked Q) : Finds (firstFound searches) points Q := by
  induction searches generalizing points with
  | nil => exact Finds.nothing
  | cons x rest ih =>
    refine Finds.orElse (h x List.mem_cons_self points (Kept.refl points)) (fun _ => rfl) fun asked hkept => ?_
    exact ih fun y hy later hlater => h y (List.mem_cons_of_mem x hy) later (hkept.trans hlater)

end

end Worksheet.Search
