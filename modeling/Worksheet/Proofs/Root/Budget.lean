import Worksheet.Proofs.Root.Search
import Worksheet.Root.Find

/-! The budget of a search. Whatever the function is, a search ends after a bounded number of points; it has seen the
    function at no others, and without a root it fails in one of few ways. -/

namespace Worksheet

namespace Search

theorem run_bind_of_error {α β : Type} {x : Search β} {k : β → Search α} {points asked : Array Float} {e : RootError}
    (h : x.run points = (.error e, asked)) : (x >>= k).run points = (.error e, asked) := by
  change (andThen x k).run points = _
  unfold andThen
  dsimp only
  rw [h]

theorem run_sample_of_not_lt {f : Float → Float} {x : Float} {points : Array Float} (h : ¬points.size < maxSamples) :
    (sample f x).run points = (.error .budgetSpent, points) := if_neg h

end Search

namespace Root
open Search

variable {α β : Type} {last : RootError}

/-- What a part of a search does with a function when some points have been asked for; `last` is the failure of a search
    that has looked at all places. -/
structure FrugalAt (last : RootError) (x : (Float → Float) → Search α) (f : Float → Float) (points : Array Float) :
    Prop where
  /-- The points asked for stay on record. -/
  keeps : Kept points ((x f).run points).2
  bounded : points.size ≤ maxSamples → ((x f).run points).2.size ≤ maxSamples
  /-- A function with the same values at the points on record is not told apart. -/
  sees : ∀ g, (∀ p ∈ ((x f).run points).2, g p = f p) → (x g).run points = (x f).run points
  fails : ∀ e, ((x f).run points).1 = .error e → e = last ∨ e.isNoConvergence = true
  /-- The budget is spent only where all points of it are on record. -/
  spent : ((x f).run points).1 = .error .budgetSpent → maxSamples ≤ ((x f).run points).2.size

/-- A part of a search that is frugal whatever the function is and whatever has been asked for. -/
def Frugal (last : RootError) (x : (Float → Float) → Search α) : Prop := ∀ f points, FrugalAt last x f points

namespace Frugal

/-! ### Parts of a search -/

theorem pure (v : α) : Frugal last fun _ => (Pure.pure v : Search α) := fun _ points =>
  { keeps := Kept.refl points
    bounded := id
    sees := fun _ _ => rfl
    fails := fun _ h => nomatch h
    spent := fun h => nomatch h }

theorem fail {e : RootError} (he : e = last ∨ e.isNoConvergence = true) (hbudget : e ≠ .budgetSpent) :
    Frugal last fun _ => (Search.fail e : Search α) := fun _ points =>
  { keeps := Kept.refl points
    bounded := id
    sees := fun _ _ => rfl
    fails := fun _ h => by
      cases h
      exact he
    spent := fun h => by
      cases h
      exact absurd rfl hbudget }

/-- One more point is asked for as long as there is one left. -/
theorem sample (x : Float) : Frugal last fun f => Search.sample f x := by
  intro f points
  by_cases h : points.size < maxSamples
  · have hrun (g : Float → Float) := run_sample_of_lt (f := g) (x := x) h
    constructor
    case keeps =>
      rw [hrun]
      exact Kept.push points x
    case bounded =>
      rw [hrun, Array.size_push]
      exact fun _ => h
    case sees =>
      intro g hsame
      rw [hrun] at hsame
      rw [hrun, hrun, hsame x Array.mem_push_self]
    case fails =>
      rw [hrun]
      exact fun _ he => nomatch he
    case spent =>
      rw [hrun]
      exact fun he => nomatch he
  · have hrun (g : Float → Float) := run_sample_of_not_lt (f := g) (x := x) h
    constructor
    case keeps =>
      rw [hrun]
      exact Kept.refl points
    case bounded =>
      rw [hrun]
      exact id
    case sees =>
      intro g _
      rw [hrun, hrun]
    case fails =>
      rw [hrun]
      rintro e ⟨⟩
      exact .inr rfl
    case spent =>
      rw [hrun]
      exact fun _ => Nat.le_of_not_lt h

theorem bind {x : (Float → Float) → Search β} {k : β → (Float → Float) → Search α} (hx : Frugal last x)
    (hk : ∀ v, Frugal last (k v)) : Frugal last fun f => x f >>= fun v => k v f := by
  intro f points
  obtain ⟨hkeeps, hbounded, hsees, hfails, hspent⟩ := hx f points
  rcases hrun : (x f).run points with ⟨e | v, between⟩ <;>
    simp only [hrun] at hkeeps hbounded hsees hfails hspent
  · -- the first part fails, and the second one does not begin
    have hwhole := run_bind_of_error (k := fun v => k v f) hrun
    constructor <;> simp only [hwhole]
    case keeps => exact hkeeps
    case bounded => exact hbounded
    case sees => exact fun g hsame => run_bind_of_error (hsees g hsame)
    case fails => exact fun e' he => hfails e' (congrArg Except.error (Except.error.inj he))
    case spent => exact fun he => hspent (congrArg Except.error (Except.error.inj he))
  · have hwhole := run_bind_of_ok (k := fun v => k v f) hrun
    have hrest := hk v f between
    constructor <;> simp only [hwhole]
    case keeps => exact hkeeps.trans hrest.keeps
    case bounded => exact fun hsize => hrest.bounded (hbounded hsize)
    case sees =>
      intro g hsame
      rw [run_bind_of_ok (hsees g fun p hp => hsame p (hrest.keeps p hp))]
      exact hrest.sees g hsame
    case fails => exact hrest.fails
    case spent => exact hrest.spent

theorem ite {c : Prop} [Decidable c] {x y : (Float → Float) → Search α} (hx : Frugal last x) (hy : Frugal last y) :
    Frugal last fun f => if c then x f else y f := by
  split
  · exact hx
  · exact hy

/-- A search that goes on in one way with what has been found, and in another where nothing has. -/
theorem option {x : (Float → Float) → Search (Option β)} {k : Option β → (Float → Float) → Search α}
    (hx : Frugal last x) (hsome : ∀ v, Frugal last (k (some v))) (hnone : Frugal last (k none)) :
    Frugal last fun f => x f >>= fun found => k found f := by
  refine hx.bind fun found => ?_
  cases found with
  | some v => exact hsome v
  | none => exact hnone

theorem firstFound (searches : List ((Float → Float) → Search (Option α))) (h : ∀ x ∈ searches, Frugal last x) :
    Frugal last fun f => Search.firstFound (searches.map (· f)) := by
  induction searches with
  | nil => exact .pure none
  | cons x rest ih =>
    exact (h x List.mem_cons_self).option (fun v => .pure (some v)) (ih fun y hy => h y (List.mem_cons_of_mem x hy))

end Frugal

/-! ### Brackets -/

theorem frugal_divide (b : Bracket) (ts : List Float) : Frugal last fun f => divide f b ts := by
  induction ts with
  | nil => exact .fail (.inr rfl) (by simp)
  | cons t ts ih => exact (Frugal.sample _).bind fun fm => .ite ih (.pure _)

theorem frugal_bisect (steps : Nat) (b : Bracket) : Frugal last fun f => bisect f steps b := by
  induction steps generalizing b with
  | zero => exact .fail (.inr rfl) (by simp)
  | succ steps ih => exact .ite (.pure _) ((frugal_divide b fractions).bind fun m => .ite (.pure _) (ih _))

theorem frugal_advance (s : Brent) : Frugal last fun f => Brent.advance f s :=
  (Frugal.sample _).bind fun _ => .pure _

theorem frugal_run (steps : Nat) (s : Brent) : Frugal last fun f => Brent.run f steps s := by
  induction steps generalizing s with
  | zero => exact .fail (.inr rfl) (by simp)
  | succ steps ih =>
    exact .ite (.pure _) ((frugal_advance _).bind fun t => .ite (frugal_bisect _ _) (ih t))

theorem frugal_refine (a fa b fb : Float) : Frugal last fun f => refine f a fa b fb :=
  (frugal_run _ _).bind fun r => (Frugal.sample r).bind fun _ => .ite (.pure _) (.pure _)

/-! ### Single points -/

theorem frugal_confirm (x fx : Float) : Frugal last fun f => confirm f x fx := by
  have hconfirmed : Frugal last fun f => confirmed f x fx :=
    .ite (.pure _) ((Frugal.sample _).bind fun _ => (Frugal.sample _).bind fun _ => .pure _)
  exact hconfirmed.bind fun _ => .ite (.pure _) (.pure _)

theorem frugal_atZero (x fx : Float) : Frugal last fun f => atZero f x fx := .ite (frugal_confirm x fx) (.pure _)

theorem frugal_inspect (before : Sampled) (x fx : Float) : Frugal last fun f => inspect f before x fx :=
  (frugal_atZero x fx).option (fun r => .pure (some r)) (.ite (frugal_refine _ _ _ _) (.pure _))

/-! ### Sweeps -/

theorem frugal_sweepFrom (before : Sampled) (xs : List Float) : Frugal last fun f => sweepFrom f before xs := by
  induction xs generalizing before with
  | nil => exact .pure _
  | cons x xs ih =>
    exact (Frugal.sample x).bind fun fx => (frugal_inspect before x fx).option (fun r => .pure (some r)) (ih _)

theorem frugal_sweep (xs : List Float) : Frugal last fun f => sweep f xs := by
  cases xs with
  | nil => exact .pure _
  | cons x xs => exact (Frugal.sample x).bind fun fx => frugal_sweepFrom _ xs

theorem frugal_scanFrom (high before best : Sampled) (xs : List Float) :
    Frugal last fun f => scanFrom f high before best xs := by
  induction xs generalizing before best with
  | nil => exact (frugal_inspect before high.x high.fx).option (fun r => .pure (best, some r)) (.pure _)
  | cons x xs ih =>
    exact (Frugal.sample x).bind fun fx =>
      (frugal_inspect before x fx).option (fun r => .pure (best, some r)) (.ite (ih _ _) (ih _ _))

/-! ### Between limits -/

theorem frugal_between (low high : Sampled) : Frugal (.noneBetween low.x high.x) fun f => between f low high := by
  have hends : Frugal (.noneBetween low.x high.x) _ := Frugal.firstFound
    [fun f => atZero f low.x low.fx, fun f => atZero f high.x high.fx,
      fun f => if signChange low.fx high.fx then refine f low.x low.fx high.x high.fx else pure none]
    (by
      simp only [List.forall_mem_cons, List.not_mem_nil, false_imp_iff, implies_true, and_true]
      exact ⟨frugal_atZero _ _, frugal_atZero _ _, .ite (frugal_refine _ _ _ _) (.pure _)⟩)
  refine hends.option (fun r => .pure r) ((frugal_scanFrom high low low _).bind fun (best, found) => ?_)
  cases found with
  | some r => exact .pure _
  | none =>
    have hlast : Frugal (.noneBetween low.x high.x) fun _ => (Search.fail (.noneBetween low.x high.x) : Search Float) :=
      .fail (.inl rfl) (by simp)
    exact .ite ((frugal_confirm _ _).option (fun r => .pure r) hlast) ((Frugal.pure none).option (fun r => .pure r) hlast)

/-! ### Without limits -/

theorem frugal_land (start : Sampled) (halvings : Nat) (dx : Float) (p : Sampled) :
    Frugal last fun f => land f start halvings dx p := by
  induction halvings generalizing dx p with
  | zero => exact .pure _
  | succ halvings ih => exact .ite ((Frugal.sample _).bind fun fx => .ite (.pure _) (ih _ _)) (.pure _)

theorem frugal_slope (x : Float) : Frugal last fun f => slope f x :=
  (Frugal.sample _).bind fun _ => (Frugal.sample _).bind fun _ => .pure _

theorem frugal_newtonStep (p : Sampled) (d : Float) : Frugal last fun f => newtonStep f p d :=
  (Frugal.sample _).bind fun _ => .ite (.pure _) (frugal_land _ _ _ _)

theorem frugal_newton (scale : Float) (steps : Nat) (p : Sampled) : Frugal last fun f => newton f scale steps p := by
  induction steps generalizing p with
  | zero => exact .pure _
  | succ steps ih =>
    refine (frugal_slope p.x).bind fun d => .ite (.pure _) ((frugal_newtonStep p d).bind fun landing => ?_)
    cases landing with
    | across q => exact frugal_refine _ _ _ _
    | landed q =>
      exact .ite (.pure _) (.ite ((frugal_confirm q.x q.fx).option (fun r => .pure (some r)) (ih q))
        ((Frugal.pure none).option (fun r => .pure (some r)) (ih q)))

theorem frugal_widen (steps : Nat) (a b : Sampled) : Frugal last fun f => widen f steps a b := by
  induction steps generalizing a b with
  | zero => exact .pure _
  | succ steps ih =>
    have low (x : Float) : Frugal last fun f => Search.sample f x >>= fun fx => widen f steps ⟨x, fx⟩ b :=
      (Frugal.sample x).bind fun fx => ih _ b
    have high (x : Float) : Frugal last fun f => Search.sample f x >>= fun fx => widen f steps a ⟨x, fx⟩ :=
      (Frugal.sample x).bind fun fx => ih a _
    exact .ite (frugal_confirm _ _) (.ite (frugal_confirm _ _) (.ite (frugal_refine _ _ _ _)
      (.ite (low _) (.ite (high _) (.ite (low _) (high _))))))

theorem frugal_widening : Frugal last fun f => widening f :=
  (Frugal.sample _).bind fun _ => (Frugal.sample _).bind fun _ => frugal_widen _ _ _

theorem frugal_anywhere : Frugal .noBracket fun f => anywhere f := by
  refine (Frugal.sample 1.0).bind fun fx => ?_
  have hfound : Frugal .noBracket _ := Frugal.firstFound
    [fun f => atZero f 1.0 fx, fun f => if fx.isFinite then newton f (scaleOf fx) 60 ⟨1.0, fx⟩ else pure none,
      widening, fun f => sweep f wholePoints, fun f => sweep f powerPoints]
    (by
      simp only [List.forall_mem_cons, List.not_mem_nil, false_imp_iff, implies_true, and_true]
      exact ⟨frugal_atZero _ _, .ite (frugal_newton _ _ _) (.pure _), frugal_widening, frugal_sweep _, frugal_sweep _⟩)
  exact hfound.option (fun r => .pure r) (.fail (.inl rfl) (by simp))

/-! ### The whole search -/

/-- The failure of a search that has looked at all places, which are none if the limits are not finite. -/
def nothingFound : Option Limits → RootError
  | none => .noBracket
  | some l =>
    if !l.low.isFinite || !l.high.isFinite then .limitsNotFinite
    else .noneBetween (if l.low > l.high then l.high else l.low) (if l.low > l.high then l.low else l.high)

theorem frugal_search (limits : Option Limits) : Frugal (nothingFound limits) fun f => search f limits := by
  match limits with
  | none => exact frugal_anywhere
  | some l =>
    unfold search nothingFound
    dsimp only
    unfold within
    split
    · exact .fail (.inl rfl) (by simp)
    · exact (Frugal.sample _).bind fun _ => (Frugal.sample _).bind fun _ => frugal_between ⟨_, _⟩ ⟨_, _⟩

/-- A search asks for 2000 points at most, and sees no more of the function than its values there. It ends with a root
    or with one of two kinds of failure: nothing was found at the places that were looked at, or there was no
    convergence, where a budget that is spent has been spent on exactly that many points. -/
theorem find_budget (f : Float → Float) (limits : Option Limits) :
    (find f limits).2.size ≤ maxSamples ∧
    (∀ g, (∀ p ∈ (find f limits).2, g p = f p) → find g limits = find f limits) ∧
    ((∃ r, (find f limits).1 = .ok r) ∨ (find f limits).1 = .error (nothingFound limits) ∨
      ∃ e, (find f limits).1 = .error e ∧ e.isNoConvergence = true) ∧
    ((find f limits).1 = .error .budgetSpent → (find f limits).2.size = maxSamples) := by
  have hfrugal := frugal_search limits f #[]
  have hbounded := hfrugal.bounded (Nat.zero_le _)
  refine ⟨hbounded, hfrugal.sees, ?_, fun he => Nat.le_antisymm hbounded (hfrugal.spent he)⟩
  cases hresult : (find f limits).1 with
  | ok r => exact .inl ⟨r, rfl⟩
  | error e =>
    rcases hfrugal.fails e hresult with rfl | he
    · exact .inr (.inl rfl)
    · exact .inr (.inr ⟨e, rfl, he⟩)

end Root
end Worksheet
