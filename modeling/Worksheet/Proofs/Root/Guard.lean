import Worksheet.Root.Find
import Worksheet.Proofs.Root.Search

/-! What a search finds comes out of one of two places: a point that is confirmed to be a root, or the refinement of
    a sign change. So whatever is known of the points that are looked at, and carries over through these two, holds of
    the root. -/

namespace Worksheet.Root
open Search

variable {f : Float → Float} {points asked : Array Float}

/-! ### The points asked for stay on record -/

theorem ensures_divide (b : Bracket) (ts : List Float) : Ensures (divide f b ts) points fun _ _ => True := by
  induction ts generalizing points with
  | nil => exact Ensures.fail
  | cons t ts ih =>
    refine Ensures.bind (Ensures.sample f _) fun fm asked _ _ => ?_
    exact Ensures.ite (fun _ => ih) fun _ => Ensures.pure trivial

theorem ensures_bisect (steps : Nat) (b : Bracket) : Ensures (bisect f steps b) points fun _ _ => True := by
  induction steps generalizing b points with
  | zero => exact Ensures.fail
  | succ steps ih =>
    refine Ensures.ite (fun _ => Ensures.pure trivial) fun _ => ?_
    refine Ensures.bind (ensures_divide b fractions) fun (m, fm) asked _ _ => ?_
    exact Ensures.ite (fun _ => Ensures.pure trivial) fun _ => ih (b.half m fm)

theorem ensures_run (steps : Nat) (s : Brent) : Ensures (Brent.run f steps s) points fun _ _ => True := by
  induction steps generalizing s points with
  | zero => exact Ensures.fail
  | succ steps ih =>
    refine Ensures.ite (fun _ => Ensures.pure trivial) fun _ => ?_
    have hadvance : Ensures (Brent.advance f s.rebracket.orient) points fun _ _ => True :=
      Ensures.bind (Ensures.sample f _) fun _ _ _ _ => Ensures.pure trivial
    refine Ensures.bind hadvance fun t asked _ _ => ?_
    exact Ensures.ite (fun _ => ensures_bisect maxSteps t.lastBracket) fun _ => ih t

/-! ### Guards -/

/-- What `P` says of the points that are looked at becomes `Q` of a root, whether it is confirmed or refined. -/
structure Guard (f : Float → Float) (P : Sampled → Array Float → Prop) (Q : Float → Array Float → Prop) : Prop where
  mono : ∀ {p points asked}, P p points → Kept points asked → P p asked
  confirm : ∀ {p points}, P p points → Finds (confirm f p.x p.fx) points Q
  refine : ∀ {a b points}, P a points → P b points → signChange a.fx b.fx = true →
    Finds (refine f a.x a.fx b.x b.fx) points Q

/-- A point that may be looked at. -/
def Admits (f : Float → Float) (P : Sampled → Array Float → Prop) (x : Float) : Prop :=
  ∀ asked, x ∈ asked → P ⟨x, f x⟩ asked

section
variable {P : Sampled → Array Float → Prop} {Q : Float → Array Float → Prop}

theorem ensures_sample {x : Float} (hx : Admits f P x) :
    Ensures (Search.sample f x) points fun fx asked => P ⟨x, fx⟩ asked :=
  (Ensures.sample f x).mono fun _ asked _ ⟨hfx, hmem⟩ => hfx ▸ hx asked hmem

/-- A search that goes on where its first part has found nothing. -/
theorem Finds.get {x : Search (Option Float)} {k : Option Float → Search Float} (hx : Finds x points Q)
    (hsome : ∀ r, k (some r) = pure r) (hnone : ∀ asked, Kept points asked → Ensures (k none) asked Q) :
    Ensures (x >>= k) points Q := by
  refine Ensures.bind hx fun found asked hkept hfound => ?_
  match found with
  | some r => rw [hsome]; exact Ensures.pure (hfound r rfl)
  | none => exact hnone asked hkept

namespace Guard
variable (g : Guard f P Q)
include g

theorem atZero {x fx : Float} (h : P ⟨x, fx⟩ points) : Finds (atZero f x fx) points Q :=
  Finds.ite (fun _ => g.confirm (p := ⟨x, fx⟩) h) fun _ => Finds.nothing

theorem inspect {before : Sampled} {x fx : Float} (hbefore : P before points) (h : P ⟨x, fx⟩ points) :
    Finds (inspect f before x fx) points Q := by
  refine Finds.orElse (g.atZero h) (fun _ => rfl) fun asked hkept => ?_
  exact Finds.ite (g.refine (b := ⟨x, fx⟩) (g.mono hbefore hkept) (g.mono h hkept)) fun _ => Finds.nothing

theorem sweepFrom {before : Sampled} {xs : List Float} (hbefore : P before points) (hxs : ∀ x ∈ xs, Admits f P x) :
    Finds (sweepFrom f before xs) points Q := by
  induction xs generalizing before points with
  | nil => exact Finds.nothing
  | cons x xs ih =>
    refine Finds.bind (ensures_sample (hxs x List.mem_cons_self)) fun fx asked hkept hx => ?_
    have hbefore := g.mono hbefore hkept
    refine Finds.orElse (g.inspect hbefore hx) (fun _ => rfl) fun later hkept' => ?_
    refine ih ?_ fun y hy => hxs y (List.mem_cons_of_mem x hy)
    split
    · exact g.mono hx hkept'
    · exact g.mono hbefore hkept'

theorem sweep {xs : List Float} (hxs : ∀ x ∈ xs, Admits f P x) : Finds (sweep f xs) points Q := by
  cases xs with
  | nil => exact Finds.nothing
  | cons x xs =>
    refine Finds.bind (ensures_sample (hxs x List.mem_cons_self)) fun fx asked _ hx => ?_
    exact g.sweepFrom hx fun y hy => hxs y (List.mem_cons_of_mem x hy)

omit g in
theorem better {best : Sampled} {x fx : Float} (hbest : P best points) (hx : P ⟨x, fx⟩ points) :
    P (best.better x fx) points := by
  unfold Sampled.better
  split
  · exact hx
  · exact hbest

/-- A scan gives a root, or the best of the points looked at. -/
theorem scanFrom {high before best : Sampled} {xs : List Float} (hhigh : P high points) (hbefore : P before points)
    (hbest : P best points) (hxs : ∀ x ∈ xs, Admits f P x) :
    Ensures (scanFrom f high before best xs) points fun found asked =>
      P found.1 asked ∧ ∀ r, found.2 = some r → Q r asked := by
  induction xs generalizing before best points with
  | nil =>
    refine Ensures.bind (g.inspect hbefore hhigh) fun found asked hkept hfound => ?_
    match found with
    | some r => exact Ensures.pure ⟨g.mono hbest hkept, hfound⟩
    | none =>
      refine Ensures.pure ⟨?_, fun r h => by cases h⟩
      dsimp only
      split
      · exact g.mono (better hbest hhigh) hkept
      · exact g.mono hbest hkept
  | cons x xs ih =>
    refine Ensures.bind (ensures_sample (hxs x List.mem_cons_self)) fun fx asked hkept hx => ?_
    refine Ensures.bind (g.inspect (g.mono hbefore hkept) hx) fun found later hkept' hfound => ?_
    have hkept := hkept.trans hkept'
    have hxs (y : Float) (hy : y ∈ xs) := hxs y (List.mem_cons_of_mem x hy)
    match found with
    | some r => exact Ensures.pure ⟨g.mono hbest hkept, hfound⟩
    | none =>
      refine Ensures.ite (fun _ => ?_) fun _ => ?_
      · exact ih (g.mono hhigh hkept) (g.mono hx hkept') (better (g.mono hbest hkept) (g.mono hx hkept')) hxs
      · exact ih (g.mono hhigh hkept) (g.mono hbefore hkept) (g.mono hbest hkept) hxs

theorem between {low high : Sampled} (hlow : P low points) (hhigh : P high points)
    (hxs : ∀ x ∈ scanPoints low.x high.x, Admits f P x) : Ensures (between f low high) points Q := by
  refine Finds.get (Finds.firstFound ?_) (fun _ => rfl) fun asked hkept => ?_
  · intro x hx asked hkept
    have hlow := g.mono hlow hkept
    have hhigh := g.mono hhigh hkept
    rcases List.mem_cons.mp hx with rfl | hx
    · exact g.atZero hlow
    rcases List.mem_cons.mp hx with rfl | hx
    · exact g.atZero hhigh
    obtain rfl := List.mem_singleton.mp hx
    exact Finds.ite (g.refine hlow hhigh) fun _ => Finds.nothing
  · have hlow := g.mono hlow hkept
    refine Ensures.bind (g.scanFrom (g.mono hhigh hkept) hlow hlow hxs) fun (best, found) later _ ⟨hbest, hfound⟩ => ?_
    match found with
    | some r => exact Ensures.pure (hfound r rfl)
    | none =>
      -- whether or not the best point is near a root, the search ends here
      refine Ensures.ite (fun _ => ?_) fun _ => ?_
      · exact Finds.get (g.confirm hbest) (fun _ => rfl) fun _ _ => Ensures.fail
      · exact Finds.get Finds.nothing (fun _ => rfl) fun _ _ => Ensures.fail

end Guard

end

end Worksheet.Root
