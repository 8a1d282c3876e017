import Worksheet.Root.Bracket
import Worksheet.Proofs.Number.Value
import Worksheet.Proofs.Root.Search

/-! The bracket through the iterations of a refinement. Brent's method keeps values of opposite sign at the ends of
    its bracket, and hands such a bracket over to bisection. Bisection keeps them as long as the values that it
    divides at are finite: it does not see that an infinite value has the other sign. -/

namespace Worksheet.Root
open Search Binary

variable {f : Float → Float} {points asked : Array Float} {r : Float}

/-! ### Opposite signs -/

/-- Values of strictly opposite sign, neither of them NaN; they may be infinite. -/
def Opposite (x y : Float) : Prop := x < 0 ∧ 0 < y ∨ 0 < x ∧ y < 0

section
variable {x y z : Float}

theorem Opposite.symm (h : Opposite x y) : Opposite y x := by
  rcases h with ⟨hx, hy⟩ | ⟨hx, hy⟩
  · exact .inr ⟨hy, hx⟩
  · exact .inl ⟨hy, hx⟩

theorem Opposite.isNaN_left (h : Opposite x y) : x.isNaN = false := by
  rcases h with ⟨h, -⟩ | ⟨h, -⟩
  · exact isNaN_of_lt_zero h
  · exact isNaN_of_zero_lt h

theorem Opposite.beq_zero_left (h : Opposite x y) : (x == 0) = false := by
  rcases h with ⟨h, -⟩ | ⟨h, -⟩
  · exact beq_zero_eq_false_of_lt h
  · exact beq_zero_eq_false_of_gt h

theorem lt_or_gt_of_beq_zero (hnan : x.isNaN = false) (hzero : (x == 0) = false) : x < 0 ∨ 0 < x := by
  rcases sign_cases hnan with h | h | h
  · exact .inl h
  · exact absurd (hzero.symm.trans h) Bool.false_ne_true
  · exact .inr h

/-- A third value that is no zero has the sign of exactly one of the two. -/
theorem Opposite.iff_not (h : Opposite x y) (hnan : z.isNaN = false) (hzero : (z == 0) = false) :
    Opposite z y ↔ ¬Opposite x z := by
  rcases h with ⟨hx, hy⟩ | ⟨hx, hy⟩ <;> rcases lt_or_gt_of_beq_zero hnan hzero with hz | hz
  · simp [Opposite, hx, hy, hz, not_zero_lt hx, not_zero_lt hz]
  · simp [Opposite, hx, hz, not_lt_zero hy, not_lt_zero hz]
  · simp [Opposite, hx, hz, not_zero_lt hy, not_zero_lt hz]
  · simp [Opposite, hx, hy, hz, not_lt_zero hx, not_lt_zero hz]

theorem signChange_iff : signChange x y = true ↔ x.isFinite = true ∧ y.isFinite = true ∧ Opposite x y := by
  simp [signChange, Opposite, and_assoc]

theorem opposite_of_sameSign (h : Brent.sameSign x y = true) (hy : Opposite y z) : Opposite x z := by
  have h : 0 < x ∧ 0 < y ∨ x < 0 ∧ y < 0 := by simpa [Brent.sameSign] using h
  rcases h with ⟨hx, hpos⟩ | ⟨hx, hneg⟩
  · exact .inr ⟨hx, (hy.resolve_left fun h => not_lt_zero hpos h.1).2⟩
  · exact .inl ⟨hx, (hy.resolve_right fun h => not_zero_lt hneg h.1).2⟩

theorem opposite_of_not_sameSign (h : Brent.sameSign x y = false) (hnan : x.isNaN = false)
    (hzero : (x == 0) = false) (hy : Opposite y z) : Opposite x y := by
  have h : (0 < x → ¬0 < y) ∧ (x < 0 → ¬y < 0) := by simpa [Brent.sameSign] using h
  rcases lt_or_gt_of_beq_zero hnan hzero with hx | hx
  · exact .inl ⟨hx, (hy.resolve_left fun hlt => h.2 hx hlt.1).1⟩
  · exact .inr ⟨hx, (hy.resolve_right fun hgt => h.1 hx hgt.1).1⟩

end

/-! ### Iterations -/

/-- Where a refinement stands: the iterations that are left, and the state of the method at work. -/
inductive Stage where
  | brent (steps : ℕ) (s : Brent)
  | bisect (steps : ℕ) (b : Bracket)

namespace Stage

/-- The rest of the refinement. -/
def search (f : Float → Float) : Stage → Search Float
  | brent steps s => Brent.run f steps s
  | bisect steps b => Root.bisect f steps b

/-- One end of the bracket of an iteration: the best point of Brent's method, the low end in bisection. -/
def near : Stage → Float
  | brent _ s => s.rebracket.orient.b
  | bisect _ b => b.low

/-- The other end. -/
def far : Stage → Float
  | brent _ s => s.rebracket.orient.c
  | bisect _ b => b.high

/-- The bracket passes the test that stops the iterations: half of it is no wider than the tolerance at the best
    point of Brent's method, the whole is as narrow as its ends allow in bisection. -/
def isNarrow : Stage → Bool
  | brent _ s => s.rebracket.orient.halfway.abs ≤ s.rebracket.orient.tolerance
  | bisect _ b => b.isNarrow

/-- The values at the two ends have opposite signs; the best point of Brent's method may be a root instead. -/
def Brackets (f : Float → Float) : Stage → Prop
  | brent steps s => (f (brent steps s).near == 0) = true ∨ Opposite (f (brent steps s).near) (f (brent steps s).far)
  | bisect _ b => Opposite (f b.low) (f b.high)

end Stage

/-- One iteration that neither ends the refinement nor fails, with the points asked for before and after. -/
inductive Next (f : Float → Float) : Stage × Array Float → Stage × Array Float → Prop where
  | brent {steps : ℕ} {s t : Brent} {points asked : Array Float} (hgoes : s.rebracket.orient.isDone = false)
      (hadvance : (s.rebracket.orient.advance f).run points = (.ok t, asked)) (hvalue : t.fb.isNaN = false) :
      Next f (.brent (steps + 1) s, points) (.brent steps t, asked)
  | handOver {steps : ℕ} {s t : Brent} {points asked : Array Float} (hgoes : s.rebracket.orient.isDone = false)
      (hadvance : (s.rebracket.orient.advance f).run points = (.ok t, asked)) (hvalue : t.fb.isNaN = true) :
      Next f (.brent (steps + 1) s, points) (.bisect maxSteps t.lastBracket, asked)
  | bisect {steps : ℕ} {b : Bracket} {m fm : Float} {points asked : Array Float} (hgoes : b.isNarrow = false)
      (hdivide : (divide f b fractions).run points = (.ok (m, fm), asked)) (hvalue : (fm == 0) = false) :
      Next f (.bisect (steps + 1) b, points) (.bisect steps (b.half m fm), asked)

/-- Any number of iterations. -/
abbrev Reaches (f : Float → Float) : Stage × Array Float → Stage × Array Float → Prop :=
  Relation.ReflTransGen (Next f)

/-- An iteration that ends the refinement with a root. -/
inductive Ends (f : Float → Float) : Stage × Array Float → Float → Prop where
  | brent {steps : ℕ} {s : Brent} {points : Array Float} (hdone : s.rebracket.orient.isDone = true) :
      Ends f (.brent (steps + 1) s, points) s.rebracket.orient.b
  | narrow {steps : ℕ} {b : Bracket} {points : Array Float} (hnarrow : b.isNarrow = true) :
      Ends f (.bisect (steps + 1) b, points) b.better
  | zero {steps : ℕ} {b : Bracket} {m fm : Float} {points asked : Array Float} (hgoes : b.isNarrow = false)
      (hdivide : (divide f b fractions).run points = (.ok (m, fm), asked)) (hvalue : (fm == 0) = true) :
      Ends f (.bisect (steps + 1) b, points) m

/-! ### The steps of an iteration -/

/-- The state behind the next move. -/
def Brent.moved (f : Float → Float) (s : Brent) : Brent where
  a := s.b
  fa := s.fb
  b := s.target s.nextMove.1
  fb := f (s.target s.nextMove.1)
  c := s.c
  fc := s.fc
  move := s.nextMove.1
  moveBefore := s.nextMove.2

theorem eq_moved {s t : Brent} (h : (s.advance f).run points = (.ok t, asked)) : t = s.moved f := by
  obtain ⟨fx, between, hsample, hrest⟩ := run_bind h
  obtain ⟨rfl, -⟩ := run_sample hsample
  cases hrest
  rfl

theorem run_advance {s : Brent} (h : points.size < maxSamples) :
    (s.advance f).run points = (.ok (s.moved f), points.push (s.target s.nextMove.1)) :=
  run_bind_of_ok (run_sample_of_lt h)

theorem run_divide {b : Bracket} {t : Float} {ts : List Float} (h : points.size < maxSamples)
    (hvalue : (f (b.low + t * (b.high - b.low))).isNaN = false) :
    (divide f b (t :: ts)).run points =
      (.ok (b.low + t * (b.high - b.low), f (b.low + t * (b.high - b.low))),
        points.push (b.low + t * (b.high - b.low))) := by
  rw [divide, run_bind_of_ok (run_sample_of_lt h), if_neg (Bool.eq_false_iff.mp hvalue)]
  rfl

/-- A bracket is divided at a point where the function has a value. -/
theorem divides {b : Bracket} {ts : List Float} {m fm : Float}
    (h : (divide f b ts).run points = (.ok (m, fm), asked)) :
    (∃ t ∈ ts, m = b.low + t * (b.high - b.low)) ∧ fm = f m ∧ fm.isNaN = false := by
  induction ts generalizing points with
  | nil => cases h
  | cons t ts ih =>
    obtain ⟨fx, between, hsample, hrest⟩ := run_bind h
    obtain ⟨rfl, -⟩ := run_sample hsample
    split at hrest
    · obtain ⟨⟨u, hu, hm⟩, hvalue⟩ := ih hrest
      exact ⟨⟨u, List.mem_cons_of_mem t hu, hm⟩, hvalue⟩
    · rename_i hnan
      cases hrest
      exact ⟨⟨t, List.mem_cons_self, rfl⟩, rfl, Bool.eq_false_iff.mpr hnan⟩

theorem exists_ends_bisect {steps : ℕ} {b : Bracket} (h : (bisect f steps b).run points = (.ok r, asked)) :
    ∃ y between, Reaches f (.bisect steps b, points) (y, between) ∧ Ends f (y, between) r := by
  -- on the iterations that are left; with none left there is no root
  induction steps generalizing b points with
  | zero => cases h
  | succ steps ih =>
    unfold bisect at h
    split at h
    · rename_i hnarrow
      cases h
      exact ⟨_, _, .refl, .narrow hnarrow⟩
    · rename_i hgoes
      have hgoes := Bool.eq_false_iff.mpr hgoes
      obtain ⟨⟨m, fm⟩, between, hdivide, hrest⟩ := run_bind h
      dsimp only at hrest
      split at hrest
      · rename_i hvalue
        cases hrest
        exact ⟨_, _, .refl, .zero hgoes hdivide hvalue⟩
      · rename_i hvalue
        obtain ⟨y, last, hreaches, hends⟩ := ih hrest
        exact ⟨y, last, .head (.bisect hgoes hdivide (Bool.eq_false_iff.mpr hvalue)) hreaches, hends⟩

theorem exists_ends_brent {steps : ℕ} {s : Brent} (h : (Brent.run f steps s).run points = (.ok r, asked)) :
    ∃ y between, Reaches f (.brent steps s, points) (y, between) ∧ Ends f (y, between) r := by
  induction steps generalizing s points with
  | zero => cases h
  | succ steps ih =>
    unfold Brent.run at h
    dsimp only at h
    split at h
    · rename_i hdone
      cases h
      exact ⟨_, _, .refl, .brent hdone⟩
    · rename_i hgoes
      have hgoes := Bool.eq_false_iff.mpr hgoes
      obtain ⟨t, between, hadvance, hrest⟩ := run_bind h
      split at hrest
      · rename_i hvalue
        obtain ⟨y, last, hreaches, hends⟩ := exists_ends_bisect hrest
        exact ⟨y, last, .head (.handOver hgoes hadvance hvalue) hreaches, hends⟩
      · rename_i hvalue
        obtain ⟨y, last, hreaches, hends⟩ := ih hrest
        exact ⟨y, last, .head (.brent hgoes hadvance (Bool.eq_false_iff.mpr hvalue)) hreaches, hends⟩

/-- A refinement that gives a root comes to it by iterations, the last of which ends it. -/
theorem exists_ends {x : Stage} (h : (x.search f).run points = (.ok r, asked)) :
    ∃ y between, Reaches f (x, points) (y, between) ∧ Ends f (y, between) r := by
  cases x with
  | brent steps s => exact exists_ends_brent h
  | bisect steps b => exact exists_ends_bisect h

/-- What is reached is what the refinement goes on with. -/
theorem Next.run_eq {x y : Stage × Array Float} (h : Next f x y) : (x.1.search f).run x.2 = (y.1.search f).run y.2 := by
  cases h with
  | brent hgoes hadvance hvalue =>
    dsimp only [Stage.search]
    rw [Brent.run, if_neg (Bool.eq_false_iff.mp hgoes), run_bind_of_ok hadvance, if_neg (Bool.eq_false_iff.mp hvalue)]
  | handOver hgoes hadvance hvalue =>
    dsimp only [Stage.search]
    rw [Brent.run, if_neg (Bool.eq_false_iff.mp hgoes), run_bind_of_ok hadvance, if_pos hvalue]
  | bisect hgoes hdivide hvalue =>
    dsimp only [Stage.search]
    rw [Root.bisect, if_neg (Bool.eq_false_iff.mp hgoes), run_bind_of_ok hdivide]
    dsimp only
    rw [if_neg (Bool.eq_false_iff.mp hvalue)]

/-! ### Brent's method -/

/-- What holds before each iteration of Brent's method: the values are those of the function, the newest one is a
    number, and the points on either side of the root bracket it. -/
structure Brent.Sound (f : Float → Float) (s : Brent) : Prop where
  value_a : s.fa = f s.a
  value_b : s.fb = f s.b
  value_c : s.fc = f s.c
  isNaN : s.fb.isNaN = false
  opposite : Opposite s.fa s.fc

/-- What holds within an iteration: the best point is a root, or it brackets one with the point on the other side. -/
structure Brent.Oriented (f : Float → Float) (s : Brent) : Prop where
  value_b : s.fb = f s.b
  value_c : s.fc = f s.c
  bracket : (s.fb == 0) = true ∨ Opposite s.fb s.fc

namespace Brent

theorem Sound.start {a b : Float} (h : signChange (f a) (f b) = true) : (start a (f a) b (f b)).Sound f := by
  obtain ⟨-, -, hopposite⟩ := signChange_iff.mp h
  exact ⟨rfl, rfl, rfl, hopposite.symm.isNaN_left, hopposite⟩

theorem Sound.rebracket {s : Brent} (h : s.Sound f) : s.rebracket.Oriented f := by
  unfold Brent.rebracket
  split
  · rename_i hsame
    exact ⟨h.value_b, h.value_a, .inr (opposite_of_sameSign hsame h.opposite.symm)⟩
  · rename_i hsame
    refine ⟨h.value_b, h.value_c, ?_⟩
    cases hzero : s.fb == 0 with
    | true => exact .inl rfl
    | false => exact .inr (opposite_of_not_sameSign (Bool.eq_false_iff.mpr hsame) h.isNaN hzero h.opposite.symm)

theorem Oriented.orient {s : Brent} (h : s.Oriented f) : s.orient.Oriented f := by
  unfold Brent.orient
  split
  · rename_i hless
    refine ⟨h.value_c, h.value_b, .inr (h.bracket.resolve_left fun hzero => ?_).symm⟩
    exact not_abs_lt_of_beq_zero hzero hless
  · exact h

theorem Sound.oriented {s : Brent} (h : s.Sound f) : s.rebracket.orient.Oriented f := h.rebracket.orient

theorem Oriented.opposite {s : Brent} (h : s.Oriented f) (hgoes : s.isDone = false) : Opposite s.fb s.fc := by
  refine h.bracket.resolve_left fun hzero => ?_
  rw [isDone, hzero, Bool.or_true] at hgoes
  cases hgoes

/-- A move leaves the best point behind, as an end of the bracket. -/
theorem Oriented.moved {s : Brent} (h : s.Oriented f) (hgoes : s.isDone = false)
    (hnumber : (s.moved f).fb.isNaN = false) : (s.moved f).Sound f :=
  ⟨h.value_b, rfl, h.value_c, hnumber, h.opposite hgoes⟩

theorem Sound.brackets {s : Brent} (h : s.Sound f) (steps : ℕ) : (Stage.brent steps s).Brackets f := by
  have horiented := h.oriented
  have hbracket := horiented.bracket
  rw [horiented.value_b, horiented.value_c] at hbracket
  exact hbracket

end Brent

/-! ### Bisection -/

/-- The recorded values are those of the function. -/
structure Bracket.Valued (f : Float → Float) (b : Bracket) : Prop where
  low : b.flow = f b.low
  high : b.fhigh = f b.high

theorem Bracket.Valued.half {b : Bracket} {m : Float} (h : b.Valued f) : (b.half m (f m)).Valued f := by
  unfold Bracket.half
  split
  · exact ⟨h.low, rfl⟩
  · exact ⟨rfl, h.high⟩

/-- A division keeps the bracket exactly if the sign change it is made at is between finite values. -/
theorem Bracket.opposite_half_iff {b : Bracket} {m : Float} (hvalued : b.Valued f) (h : Opposite (f b.low) (f b.high))
    (hnan : (f m).isNaN = false) (hzero : (f m == 0) = false) :
    Opposite (f (b.half m (f m)).low) (f (b.half m (f m)).high) ↔
      (Opposite (f b.low) (f m) → (f b.low).isFinite = true ∧ (f m).isFinite = true) := by
  unfold Bracket.half
  rw [hvalued.low]
  split
  · rename_i hsign
    obtain ⟨hlow, hm, hopposite⟩ := signChange_iff.mp hsign
    exact iff_of_true hopposite fun _ => ⟨hlow, hm⟩
  · rename_i hsign
    rw [signChange_iff] at hsign
    dsimp only
    rw [h.iff_not hnan hzero]
    constructor
    · exact fun hnot hopposite => absurd hopposite hnot
    · exact fun hfinite hopposite => hsign ⟨(hfinite hopposite).1, (hfinite hopposite).2, hopposite⟩

/-! ### The whole refinement -/

/-- What holds in every iteration. In bisection the ends may have lost their signs, but the values are those of the
    function. -/
def Stage.Sound (f : Float → Float) : Stage → Prop
  | brent _ s => s.Sound f
  | bisect _ b => b.Valued f

theorem Next.sound {x y : Stage × Array Float} (h : Next f x y) (hx : x.1.Sound f) : y.1.Sound f := by
  cases h with
  | brent hgoes hadvance hvalue =>
    obtain rfl := eq_moved hadvance
    exact (Brent.Sound.oriented hx).moved hgoes hvalue
  | handOver hgoes hadvance hvalue =>
    obtain rfl := eq_moved hadvance
    have horiented := Brent.Sound.oriented hx
    exact ⟨horiented.value_b, horiented.value_c⟩
  | bisect hgoes hdivide hvalue =>
    obtain ⟨-, rfl, -⟩ := divides hdivide
    exact Bracket.Valued.half hx

theorem Reaches.sound {x y : Stage × Array Float} (h : Reaches f x y) (hx : x.1.Sound f) : y.1.Sound f := by
  induction h with
  | refl => exact hx
  | tail _ hnext ih => exact hnext.sound ih

/-- Wherever Brent's method goes on, there is a bracket, also when it hands it over. -/
theorem Next.brackets_of_brent {steps : ℕ} {s : Brent} {y : Stage × Array Float}
    (h : Next f (.brent steps s, points) y) (hs : s.Sound f) : y.1.Brackets f := by
  have hy := h.sound hs
  cases h with
  | brent hgoes hadvance hvalue => exact Brent.Sound.brackets hy _
  | handOver hgoes hadvance hvalue =>
    obtain rfl := eq_moved hadvance
    have hopposite := hs.oriented.opposite hgoes
    rw [hs.oriented.value_b, hs.oriented.value_c] at hopposite
    exact hopposite

/-- The refinement of a bracket, before its first iteration. -/
def refinement (f : Float → Float) (a b : Float) (points : Array Float) : Stage × Array Float :=
  (.brent maxSteps (Brent.start a (f a) b (f b)), points)

/-- Wherever bisection divides at a value of the other sign than the low end has, both are finite. -/
def DividesFinite (f : Float → Float) (x : Stage × Array Float) : Prop :=
  ∀ steps b points m fm asked, Reaches f x (.bisect (steps + 1) b, points) → b.isNarrow = false →
    (divide f b fractions).run points = (.ok (m, fm), asked) → Opposite (f b.low) fm →
      (f b.low).isFinite = true ∧ fm.isFinite = true

section
variable {a b : Float} (h : signChange (f a) (f b) = true)
include h

theorem Reaches.sound_refinement {x : Stage × Array Float} (hx : Reaches f (refinement f a b points) x) :
    x.1.Sound f :=
  Reaches.sound hx (Brent.Sound.start h)

theorem Reaches.brackets (hfinite : DividesFinite f (refinement f a b points)) {x : Stage × Array Float}
    (hx : Reaches f (refinement f a b points) x) : x.1.Brackets f := by
  induction hx with
  | refl => exact (Brent.Sound.start h).brackets maxSteps
  | @tail y z hreaches hnext ih =>
    have hsound := Reaches.sound_refinement h hreaches
    -- Brent's method brackets by its own invariant; a division needs the bracket before it, and finite values
    rcases y with ⟨⟨steps, s⟩ | ⟨steps, b⟩, points⟩
    · exact hnext.brackets_of_brent hsound
    · cases hnext with | bisect hgoes hdivide hvalue =>
      obtain ⟨-, rfl, hnan⟩ := divides hdivide
      exact (Bracket.opposite_half_iff hsound ih hnan hvalue).mpr
        (hfinite _ _ _ _ _ _ hreaches hgoes hdivide)

theorem dividesFinite_of_brackets
    (hbrackets : ∀ x asked, Reaches f (refinement f a b points) (x, asked) → x.Brackets f) :
    DividesFinite f (refinement f a b points) := by
  intro steps b points m fm asked hreaches hgoes hdivide hopposite
  obtain ⟨-, rfl, hnan⟩ := divides hdivide
  have hzero := hopposite.symm.beq_zero_left
  have hhalf := hbrackets _ _ (hreaches.tail (.bisect hgoes hdivide hzero))
  exact (Bracket.opposite_half_iff (Reaches.sound_refinement h hreaches) (hbrackets _ _ hreaches) hnan hzero).mp hhalf
    hopposite

end

/-- The end of a refinement is a root, or an end of the last bracket, which is narrow. -/
theorem Ends.cases_root {x : Stage} (h : Ends f (x, points) r) (hx : x.Sound f) (hbrackets : x.Brackets f) :
    (f r == 0) = true ∨ x.isNarrow = true ∧ (r = x.near ∨ r = x.far) ∧ Opposite (f x.near) (f x.far) := by
  cases h with
  | @brent steps s points hdone =>
    rcases hbrackets with hzero | hopposite
    · exact .inl hzero
    have hdone : (Stage.brent (steps + 1) s).isNarrow = true ∨ (s.rebracket.orient.fb == 0) = true := by
      simpa [Brent.isDone, Stage.isNarrow] using hdone
    rw [(Brent.Sound.oriented hx).value_b] at hdone
    exact hdone.symm.imp_right fun hnarrow => ⟨hnarrow, .inl rfl, hopposite⟩
  | @narrow steps b points hnarrow =>
    refine .inr ⟨hnarrow, ?_, hbrackets⟩
    unfold Bracket.better
    split
    · exact .inl rfl
    · exact .inr rfl
  | zero hgoes hdivide hvalue =>
    obtain ⟨-, rfl, -⟩ := divides hdivide
    exact .inl hvalue

/-- Brent's method brackets in every iteration, and so does what it hands over. All iterations do, exactly if
    bisection divides at finite values where it meets the other sign; then the root that is given is one, or an end
    of a narrow bracket. -/
theorem brackets_iff_dividesFinite {a b : Float} (h : signChange (f a) (f b) = true) :
    (∀ steps s asked, Reaches f (refinement f a b points) (.brent steps s, asked) →
      (Stage.brent steps s).Brackets f ∧ ∀ y, Next f (.brent steps s, asked) y → y.1.Brackets f) ∧
    ((∀ x asked, Reaches f (refinement f a b points) (x, asked) → x.Brackets f) ↔
      DividesFinite f (refinement f a b points)) ∧
    (DividesFinite f (refinement f a b points) → ∀ r asked,
      (Brent.run f maxSteps (Brent.start a (f a) b (f b))).run points = (.ok r, asked) →
        (f r == 0) = true ∨ ∃ x between, Reaches f (refinement f a b points) (x, between) ∧ x.isNarrow = true ∧
          (r = x.near ∨ r = x.far) ∧ Opposite (f x.near) (f x.far)) := by
  refine ⟨fun steps s asked hreaches => ?_, ⟨dividesFinite_of_brackets h, fun hfinite x asked hx => hx.brackets h hfinite⟩,
    fun hfinite r asked hrun => ?_⟩
  · have hsound := Reaches.sound_refinement h hreaches
    exact ⟨Brent.Sound.brackets hsound steps, fun y hy => hy.brackets_of_brent hsound⟩
  · have hrun : ((refinement f a b points).1.search f).run points = (.ok r, asked) := hrun
    obtain ⟨x, between, hreaches, hends⟩ := exists_ends hrun
    have hbrackets := Reaches.brackets h hfinite hreaches
    exact (hends.cases_root (Reaches.sound_refinement h hreaches) hbrackets).imp_right fun hend =>
      ⟨x, between, hreaches, hend⟩

/-- Minus one below 1.5, one from there on. -/
def step (x : Float) : Float := if x < 1.5 then -1 else 1

/-- With finite values only, all iterations have a bracket. -/
theorem brackets_iff_dividesFinite_step :
    signChange (step 0) (step 2) = true ∧
      ∀ x asked, Reaches step (refinement step 0 2 #[]) (x, asked) → x.Brackets step := by
  have hfinite (x : Float) : (step x).isFinite = true := by
    unfold step
    split <;> rfl
  have h : signChange (step 0) (step 2) = true := by decide +kernel
  refine ⟨h, (brackets_iff_dividesFinite h).2.1.mpr ?_⟩
  intro steps b points m fm asked _ _ hdivide _
  obtain ⟨-, rfl, -⟩ := divides hdivide
  exact ⟨hfinite _, hfinite _⟩

/-- Negative below 2, a zero at 2 and undefined up to 3; positive from there on, but infinite at 4. -/
def jump (x : Float) : Float :=
  if x < 2 then -1 else if x == 2 then 0 else if x < 3 then 0 / 0 else if x == 4 then 1 / 0 else if x < 8 then 0.5 else 2

/-- Bisection divides at 4, where the value is infinite, and goes on from 4 to 8, where all values are positive. -/
theorem not_brackets_jump :
    signChange (jump 0) (jump 8) = true ∧
      (∃ b asked, Reaches jump (refinement jump 0 8 #[]) (.bisect 199 b, asked) ∧
        ¬(Stage.bisect 199 b).Brackets jump) ∧
      ∃ r asked, (Brent.run jump maxSteps (Brent.start 0 (jump 0) 8 (jump 8))).run #[] = (.ok r, asked) ∧
        4 < r ∧ r < 8 ∧ jump r = 0.5 := by
  refine ⟨by decide +kernel, ?_, ?_⟩
  · have hstart : Next jump (refinement jump 0 8 #[]) _ :=
      .handOver (by decide +kernel) (run_advance (by decide)) (by decide +kernel)
    refine ⟨_, _, (Relation.ReflTransGen.single hstart).tail
      (.bisect ?_ (run_divide (by decide) ?_) ?_), ?_⟩
    · decide +kernel
    · decide +kernel
    · decide +kernel
    show ¬Opposite _ _
    unfold Opposite
    decide +kernel
  · have hrun : ((Brent.run jump maxSteps (Brent.start 0 (jump 0) 8 (jump 8))).run #[]).1.toOption =
        some (Float.ofBits 0x401ffffffffffffc) := by decide +kernel
    obtain ⟨asked, hrun⟩ := exists_run_of_toOption hrun
    exact ⟨_, asked, hrun, by decide +kernel⟩

end Worksheet.Root
