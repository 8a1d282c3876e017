import Worksheet.Proofs.Number.Value
import Worksheet.Proofs.Root.Guard

/-! There is no unchecked way out of a search: whatever its routines find has passed one of two tests, on the very
    value that is returned. Either it refines a sign change between two points asked for, or the values beside it
    show that the function crosses or touches zero there. -/

namespace Worksheet.Root
open Search Binary

variable {f : Float → Float} {points asked : Array Float}

/-- `r` refines two points asked for, whose values are finite and of opposite sign, and its value is no greater than
    either. -/
def Refines (f : Float → Float) (points : Array Float) (r : Float) : Prop :=
  ∃ a ∈ points, ∃ b ∈ points, signChange (f a) (f b) = true ∧
    (∃ before after, (Brent.run f maxSteps (Brent.start a (f a) b (f b))).run before = (.ok r, after)) ∧
    (f r).abs ≤ (f a).abs ∧ (f r).abs ≤ (f b).abs

/-- How far beside a point its neighbours are. -/
def spread (r : Float) : Float := 1e-6 * greater 1.0 r.abs

/-- Within the bound of all searches, the values beside `r` show that the function crosses or touches zero at `r`. -/
def Crosses (f : Float → Float) (r : Float) : Prop :=
  r.abs ≤ searchBound ∧
    let left := f (r - spread r)
    let here := f r
    let right := f (r + spread r)
    ((here == 0) = true ∧ ((left != 0) = true ∧ (right != 0) = true ∨ signChange left right = true) ∨
      (here == 0) = false ∧ (signChange left here = true ∨ signChange here right = true ∨
        left.isFinite = true ∧ right.isFinite = true ∧ left.abs > 4 * here.abs ∧ right.abs > 4 * here.abs))

/-- What is returned of a search. -/
structure Accepted (f : Float → Float) (r : Float) (points : Array Float) : Prop where
  isFinite : (f r).isFinite = true
  tested : Refines f points r ∨ Crosses f r

theorem Refines.mono {r : Float} (h : Refines f points r) (hkept : Kept points asked) : Refines f asked r := by
  obtain ⟨a, ha, b, hb, h⟩ := h
  exact ⟨a, hkept a ha, b, hkept b hb, h⟩

/-- A point on record, with the value of the function there. -/
structure Sampled.Known (f : Float → Float) (points : Array Float) (p : Sampled) : Prop where
  mem : p.x ∈ points
  value : p.fx = f p.x

theorem Sampled.Known.mono {p : Sampled} (h : p.Known f points) (hkept : Kept points asked) : p.Known f asked :=
  ⟨hkept p.x h.mem, h.value⟩

/-! ### The two tests -/

theorem crosses_of_crossesOrTouches {r : Float} (hr : r.abs ≤ searchBound)
    (h : crossesOrTouches (f (r - spread r)) (f r) (f (r + spread r)) = true) : Crosses f r := by
  refine ⟨hr, ?_⟩
  unfold crossesOrTouches at h
  split at h
  · rename_i hzero
    refine .inl ⟨hzero, ?_⟩
    simpa using h
  · rename_i hzero
    refine .inr ⟨by simpa using hzero, ?_⟩
    simpa [or_assoc, and_assoc] using h

theorem abs_le_searchBound {x : Float} (hx : x.isFinite = true) (h : ¬x.abs > searchBound) : x.abs ≤ searchBound := by
  have habs : x.abs.isFinite = true := isFinite_abs x ▸ hx
  have hbound : searchBound.isFinite = true := by decide +kernel
  rw [gt_iff_lt, lt_iff_value hbound habs, not_lt] at h
  exact (le_iff_value habs hbound).mpr h

theorem finds_confirm {x fx : Float} (hfx : fx = f x) : Finds (confirm f x fx) points (Accepted f) := by
  subst hfx
  refine Ensures.bind (P := fun c _ => c = true → (f x).isFinite = true ∧ Crosses f x) ?_ fun c asked _ hc => ?_
  · refine Ensures.ite (fun _ => Ensures.pure fun h => by cases h) fun hguard => ?_
    obtain ⟨⟨hfinite, hnear⟩, hvalue⟩ :
        (x.isFinite = true ∧ ¬x.abs > searchBound) ∧ (f x).isFinite = true := by simpa using hguard
    refine Ensures.bind (Ensures.sample f _) fun fl _ _ hl => ?_
    refine Ensures.bind (Ensures.sample f _) fun fr _ _ hr => ?_
    refine Ensures.pure fun h => ⟨hvalue, crosses_of_crossesOrTouches (abs_le_searchBound hfinite hnear) ?_⟩
    rw [hl.1, hr.1] at h
    exact h
  · refine Ensures.ite (fun h => Finds.found ?_) fun _ => Finds.nothing
    obtain ⟨hfinite, hcrosses⟩ := hc h
    exact ⟨hfinite, .inr hcrosses⟩

theorem isFinite_of_signChange {fa fb : Float} (h : signChange fa fb = true) :
    fa.isFinite = true ∧ fb.isFinite = true := by
  simp only [signChange, Bool.and_eq_true] at h
  exact h.1

theorem finds_refine {a b : Sampled} (ha : a.Known f points) (hb : b.Known f points)
    (h : signChange a.fx b.fx = true) : Finds (refine f a.x a.fx b.x b.fx) points (Accepted f) := by
  rw [ha.value, hb.value] at h ⊢
  obtain ⟨hfa, hfb⟩ := isFinite_of_signChange h
  refine Finds.bind (ensures_run maxSteps (Brent.start a.x (f a.x) b.x (f b.x))).given fun r asked hkept hr => ?_
  refine Finds.bind (Ensures.sample f r) fun fr later hkept' hfr => ?_
  obtain ⟨rfl, -⟩ := hfr
  refine Finds.ite (fun hsmall => Finds.found ?_) fun _ => Finds.nothing
  obtain ⟨hfinite, hle⟩ : (f r).isFinite = true ∧ (f r).abs ≤ smaller (f a.x).abs (f b.x).abs := by
    simpa using hsmall
  have habs {y : Float} (hy : y.isFinite = true) : y.abs.isFinite = true := isFinite_abs y ▸ hy
  rw [le_smaller_iff (habs hfa) (habs hfb) (habs hfinite)] at hle
  have hrefines : Refines f points r := ⟨a.x, ha.mem, b.x, hb.mem, h, hr, hle⟩
  exact ⟨hfinite, .inl (hrefines.mono (hkept.trans hkept'))⟩

theorem guard : Guard f (fun p points => p.Known f points) (Accepted f) where
  mono h hkept := h.mono hkept
  confirm h := finds_confirm h.value
  refine ha hb h := finds_refine ha hb h

theorem admits_known (x : Float) : Admits f (fun p points => p.Known f points) x := fun _ hmem => ⟨hmem, rfl⟩

/-! ### Every routine -/

theorem ensures_within (limits : Limits) : Ensures (within f limits) points (Accepted f) := by
  refine Ensures.ite (fun _ => Ensures.fail) fun _ => ?_
  refine Ensures.bind (Ensures.sample f _) fun flow asked _ hlow => ?_
  refine Ensures.bind (Ensures.sample f _) fun fhigh later hkept hhigh => ?_
  exact guard.between ⟨hkept _ hlow.2, hlow.1⟩ ⟨hhigh.2, hhigh.1⟩ fun x _ => admits_known x

/-- What a damped step from `start` ends in is on record; across a sign change it brackets a root. -/
def Landing.Lands (f : Float → Float) (start : Sampled) (landing : Landing) (asked : Array Float) : Prop :=
  match landing with
  | .across q => q.Known f asked ∧ signChange start.fx q.fx = true
  | .landed q => q.Known f asked

theorem ensures_land {start p : Sampled} {halvings : ℕ} {dx : Float} (hp : p.Known f points) :
    Ensures (land f start halvings dx p) points (Landing.Lands f start) := by
  induction halvings generalizing dx p points with
  | zero => exact Ensures.pure hp
  | succ halvings ih =>
    refine Ensures.ite (fun _ => ?_) fun _ => Ensures.pure hp
    refine Ensures.bind (Ensures.sample f _) fun fx asked _ hx => ?_
    exact Ensures.ite (fun h => Ensures.pure ⟨⟨hx.2, hx.1⟩, h⟩) fun _ => ih ⟨hx.2, hx.1⟩

theorem ensures_newtonStep (p : Sampled) (d : Float) :
    Ensures (newtonStep f p d) points (Landing.Lands f p) := by
  refine Ensures.bind (Ensures.sample f _) fun fx asked _ hx => ?_
  exact Ensures.ite (fun h => Ensures.pure ⟨⟨hx.2, hx.1⟩, h⟩) fun _ => ensures_land ⟨hx.2, hx.1⟩

theorem ensures_slope (x : Float) : Ensures (slope f x) points fun _ _ => True :=
  Ensures.bind (Ensures.sample f _) fun _ _ _ _ =>
    Ensures.bind (Ensures.sample f _) fun _ _ _ _ => Ensures.pure trivial

theorem finds_newton {scale : Float} {steps : ℕ} {p : Sampled} (hp : p.Known f points) :
    Finds (newton f scale steps p) points (Accepted f) := by
  induction steps generalizing p points with
  | zero => exact Finds.nothing
  | succ steps ih =>
    refine Finds.bind (ensures_slope p.x) fun d asked hkept _ => ?_
    refine Finds.ite (fun _ => Finds.nothing) fun _ => ?_
    refine Finds.bind (ensures_newtonStep p d) fun landing later hkept' hlanding => ?_
    match landing, hlanding with
    | .across q, ⟨hq, hsign⟩ => exact finds_refine ((hp.mono hkept).mono hkept') hq hsign
    | .landed q, hq =>
      have hq : q.Known f later := hq
      refine Finds.ite (fun _ => Finds.nothing) fun _ => ?_
      have goesOn (last : Array Float) (hkept : Kept later last) : Finds (newton f scale steps q) last (Accepted f) :=
        ih (hq.mono hkept)
      refine Finds.ite (fun _ => ?_) fun _ => ?_
      · exact Finds.orElse (finds_confirm hq.value) (fun _ => rfl) goesOn
      · exact Finds.orElse Finds.nothing (fun _ => rfl) goesOn

theorem finds_widen {steps : ℕ} {a b : Sampled} (ha : a.Known f points) (hb : b.Known f points) :
    Finds (widen f steps a b) points (Accepted f) := by
  induction steps generalizing a b points with
  | zero => exact Finds.nothing
  | succ steps ih =>
    have low (x : Float) : Finds (Search.sample f x >>= fun fx => widen f steps ⟨x, fx⟩ b) points (Accepted f) :=
      Finds.bind (Ensures.sample f x) fun fx asked hkept hx => ih ⟨hx.2, hx.1⟩ (hb.mono hkept)
    have high (x : Float) : Finds (Search.sample f x >>= fun fx => widen f steps a ⟨x, fx⟩) points (Accepted f) :=
      Finds.bind (Ensures.sample f x) fun fx asked hkept hx => ih (ha.mono hkept) ⟨hx.2, hx.1⟩
    refine Finds.ite (fun _ => finds_confirm ha.value) fun _ => ?_
    refine Finds.ite (fun _ => finds_confirm hb.value) fun _ => ?_
    refine Finds.ite (finds_refine ha hb) fun _ => ?_
    refine Finds.ite (fun _ => low _) fun _ => ?_
    refine Finds.ite (fun _ => high _) fun _ => ?_
    exact Finds.ite (fun _ => low _) fun _ => high _

theorem finds_widening : Finds (widening f) points (Accepted f) := by
  refine Finds.bind (Ensures.sample f _) fun fa asked _ ha => ?_
  refine Finds.bind (Ensures.sample f _) fun fb later hkept hb => ?_
  exact finds_widen (a := ⟨0.5, fa⟩) (b := ⟨2.0, fb⟩) ⟨hkept _ ha.2, ha.1⟩ ⟨hb.2, hb.1⟩

theorem ensures_anywhere : Ensures (anywhere f) points (Accepted f) := by
  refine Ensures.bind (Ensures.sample f _) fun fx asked _ hx => ?_
  refine Finds.get (Finds.firstFound ?_) (fun _ => rfl) fun _ _ => Ensures.fail
  intro x hmem later hkept
  have hstart : Sampled.Known f later ⟨1.0, fx⟩ := ⟨hkept _ hx.2, hx.1⟩
  rcases List.mem_cons.mp hmem with rfl | hmem
  · exact guard.atZero hstart
  rcases List.mem_cons.mp hmem with rfl | hmem
  · exact Finds.ite (fun _ => finds_newton hstart) fun _ => Finds.nothing
  rcases List.mem_cons.mp hmem with rfl | hmem
  · exact finds_widening
  rcases List.mem_cons.mp hmem with rfl | hmem
  · exact guard.sweep fun x _ => admits_known x
  obtain rfl := List.mem_singleton.mp hmem
  exact guard.sweep fun x _ => admits_known x

/-- A root that is found has a finite value, and has passed one of the two tests. -/
theorem find_accepted {limits : Option Limits} {r : Float} (h : find f limits = (.ok r, points)) :
    (f r).isFinite = true ∧ (Refines f points r ∨ Crosses f r) := by
  have hsearch : Ensures (search f limits) #[] (Accepted f) := by
    match limits with
    | some limits => exact ensures_within limits
    | none => exact ensures_anywhere
  obtain ⟨-, haccepted⟩ := hsearch r points h
  exact ⟨haccepted.isFinite, haccepted.tested⟩

theorem find_accepted_line :
    find (fun x => 2 * x - 3) (some ⟨1, 2⟩) = (.ok 1.5, #[1, 2, 1.5, 1.5]) ∧
      (Refines (fun x => 2 * x - 3) #[1, 2, 1.5, 1.5] 1.5 ∨ Crosses (fun x => 2 * x - 3) 1.5) := by
  have hfind : find (fun x => 2 * x - 3) (some ⟨1, 2⟩) = (.ok 1.5, #[1, 2, 1.5, 1.5]) := rfl
  exact ⟨hfind, (find_accepted hfind).2⟩

end Worksheet.Root
