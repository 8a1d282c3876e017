import Worksheet.Proofs.Root.Guard
import Worksheet.Proofs.Root.Inside

/-! Where a search with limits stays inside them. All that is looked at is an end, a point of the scan or a step of a
    refinement; the steps stay inside if the limits are not so far apart that their difference overflows, and the
    points of the scan if they are not so near to each other that a share of the difference is rounded up beyond the
    high end. Where one of the two fails, some function has a root outside that is found. -/

namespace Worksheet

namespace Limits

def lowest (limits : Limits) : Float := if limits.low > limits.high then limits.high else limits.low

def highest (limits : Limits) : Float := if limits.low > limits.high then limits.low else limits.high

end Limits

namespace Root
open Search Binary

variable {f : Float → Float} {points asked : Array Float} {low high r x z : Float}

theorem Inside.le (h : Span low high) (hx : Inside low high x) : low ≤ x ∧ x ≤ high :=
  ⟨(le_iff_value h.low_finite hx.finite).mpr hx.low_le, (le_iff_value hx.finite h.high_finite).mpr hx.le_high⟩

/-! ### The points of the scan -/

theorem isFinite_intervals : (ofNat intervals).isFinite = true := by decide +kernel

theorem value_intervals : value (ofNat intervals) = 64 := by
  have hvalue : value 64.0 = 64 := by
    show ((2 ^ 52 : ℕ) : ℚ) * 2 ^ (-46 : ℤ) = 64
    norm_num
  rw [← hvalue]
  exact (beq_iff_value isFinite_intervals rfl).mp (by decide +kernel)

theorem value_sixtyThree : value 63.0 = 63 := by
  show ((8866461766385664 : ℕ) : ℚ) * 2 ^ (-47 : ℤ) = 63
  norm_num

/-- The number of a point of the scan. -/
theorem ofNat_spec {i : ℕ} (h : i < intervals - 1) :
    (ofNat (i + 1)).isFinite = true ∧ 0 ≤ value (ofNat (i + 1)) ∧ value (ofNat (i + 1)) ≤ 63 := by
  have hall : ∀ i < 63, (ofNat (i + 1)).isFinite = true ∧ 0 ≤ ofNat (i + 1) ∧ ofNat (i + 1) ≤ 63.0 := by
    decide +kernel
  obtain ⟨hfinite, hnonneg, hle⟩ := hall i h
  rw [le_iff_value rfl hfinite] at hnonneg
  rw [le_iff_value hfinite rfl, value_sixtyThree] at hle
  exact ⟨hfinite, hnonneg, hle⟩

/-- How far a point of the scan is from the low end, before it is rounded. -/
structure Advance (low high a : Float) : Prop where
  finite : a.isFinite = true
  nonneg : 0 ≤ value a
  le : value a ≤ 99 / 100 * (value high - value low) + 1 / 10 ^ 27
  eq_zero : value low = value high → value a = 0

theorem Span.advance (h : Span low high) {i : ℕ} (hi : i < intervals - 1) :
    Advance low high (ofNat (i + 1) * ((high - low) / ofNat intervals)) := by
  obtain ⟨hk, hk', hk63⟩ := ofNat_spec hi
  have hle := sub_nonneg.mpr h.le
  -- the difference, a 64th of it, and a multiple of that: each is rounded, and nearly what it is rounded from
  have hsub := rounds_sub h.high_finite h.low_finite
  have hd := hsub.nonneg h.finite hle
  have hd' := hsub.le_of_nonneg h.finite hle
  have hoverflow := (le_abs_self _).trans_lt (abs_value_lt_overflow h.finite)
  have hdiv := rounds_div h.finite isFinite_intervals (by rw [value_intervals]; norm_num)
  rw [value_intervals] at hdiv
  have hq : 0 ≤ value (high - low) / 64 := div_nonneg hd (by norm_num)
  have hstep := hdiv.isFinite_of_nonneg hq (by linarith)
  have hs := hdiv.nonneg hstep hq
  have hs' := hdiv.le_of_nonneg hstep hq
  have hmul := rounds_mul hk hstep
  have hp : 0 ≤ value (ofNat (i + 1)) * value ((high - low) / ofNat intervals) := mul_nonneg hk' hs
  have hp' := mul_le_mul_of_nonneg_right hk63 hs
  have hfinite := hmul.isFinite_of_nonneg hp (by linarith [le_overflow])
  have ha := hmul.nonneg hfinite hp
  have ha' := hmul.le_of_nonneg hfinite hp
  refine ⟨hfinite, ha, by linarith, fun heq => ?_⟩
  have hd0 := hsub.nonpos h.finite (sub_nonpos.mpr heq.ge)
  have hs0 := hdiv.nonpos hstep (div_nonpos_of_nonpos_of_nonneg hd0 (by norm_num))
  exact le_antisymm (hmul.nonpos hfinite (mul_nonpos_of_nonneg_of_nonpos hk' hs0)) ha

theorem exists_advance (h : Span low high) (hx : x ∈ scanPoints low high) : ∃ a, Advance low high a ∧ x = low + a := by
  obtain ⟨i, hi, rfl⟩ := List.mem_map.mp hx
  exact ⟨_, h.advance (List.mem_range.mp hi), rfl⟩

theorem inside_scanPoints (h : Span low high) (hx : x ∈ scanPoints low high) (hle : x ≤ high) : Inside low high x := by
  obtain ⟨a, ha, rfl⟩ := exists_advance h hx
  have hadd := rounds_add h.low_finite ha.finite
  have hfrom : value low ≤ value low + value a := by linarith [ha.nonneg]
  have hfinite : (low + a).isFinite = true := by
    by_contra hfinite
    have hneg := hadd.negative ((isFinite_or_lt_zero hle h.high_finite).resolve_left hfinite)
    rw [hadd.isFinite_iff, not_lt, abs_of_neg hneg] at hfinite
    linarith [neg_abs_le (value low), abs_value_lt_overflow h.low_finite]
  refine ⟨hfinite, hadd.le_of_le hfinite low h.low_finite hfrom, (le_iff_value hfinite h.high_finite).mp hle⟩

/-! ### Sufficient conditions -/

theorem ensures_confirmed (x fx : Float) : Ensures (confirmed f x fx) points fun _ _ => True := by
  refine Ensures.ite (fun _ => Ensures.pure trivial) fun _ => ?_
  refine Ensures.bind (Ensures.sample f _) fun _ _ _ _ => ?_
  exact Ensures.bind (Ensures.sample f _) fun _ _ _ _ => Ensures.pure trivial

/-- A root that is confirmed is the point itself, and a refinement stays inside. -/
theorem guard_inside (h : Span low high) :
    Guard f (fun p _ => Inside low high p.x) (fun r _ => Inside low high r) where
  mono hp _ := hp
  confirm hp := by
    refine Finds.bind (ensures_confirmed _ _) fun c _ _ _ => ?_
    exact Finds.ite (fun _ => Finds.found hp) fun _ => Finds.nothing
  refine {a b points} ha hb _ := by
    refine Finds.bind (ensures_run maxSteps (Brent.start a.x a.fx b.x b.fx)).given fun r asked _ hr => ?_
    obtain ⟨before, after, hrun⟩ := hr
    refine Finds.bind (Ensures.sample f r) fun fr _ _ _ => ?_
    exact Finds.ite (fun _ => Finds.found (inside_run h ha hb hrun)) fun _ => Finds.nothing

theorem ensures_between_inside {l g : Sampled} (h : Span l.x g.x) (hscan : ∀ x ∈ scanPoints l.x g.x, x ≤ g.x) :
    Ensures (between f l g) points fun r _ => Inside l.x g.x r :=
  (guard_inside h).between h.inside_low h.inside_high fun x hx _ _ => inside_scanPoints h hx (hscan x hx)

theorem limits_in_order {limits : Limits} (hlow : limits.low.isFinite = true) (hhigh : limits.high.isFinite = true) :
    limits.lowest.isFinite = true ∧ limits.highest.isFinite = true ∧ value limits.lowest ≤ value limits.highest := by
  unfold Limits.lowest Limits.highest
  by_cases h : limits.low > limits.high
  · rw [if_pos h, if_pos h]
    rw [gt_iff_lt, lt_iff_value hhigh hlow] at h
    exact ⟨hhigh, hlow, h.le⟩
  · rw [if_neg h, if_neg h]
    rw [gt_iff_lt, lt_iff_value hhigh hlow, not_lt] at h
    exact ⟨hlow, hhigh, h⟩

theorem find_inside {limits : Limits} (h : Span limits.lowest limits.highest)
    (hscan : ∀ x ∈ scanPoints limits.lowest limits.highest, x ≤ limits.highest)
    (hfind : find f (some limits) = (.ok r, points)) : Inside limits.lowest limits.highest r := by
  have hwithin : Ensures (within f limits) #[] fun r _ => Inside limits.lowest limits.highest r := by
    refine Ensures.ite (fun _ => Ensures.fail) fun _ => ?_
    refine Ensures.bind (Ensures.sample f _) fun flow _ _ _ => ?_
    refine Ensures.bind (Ensures.sample f _) fun fhigh _ _ _ => ?_
    exact ensures_between_inside (l := ⟨limits.lowest, flow⟩) (g := ⟨limits.highest, fhigh⟩) h hscan
  exact (hwithin r points hfind).2

/-! ### Limits too far apart -/

theorem one_beq_zero : ((1 : Float) == 0) = false := rfl

section

/-- Minus one at one point, one at another, and zero everywhere else. -/
def crossing (low high x : Float) : Float := if x == low then -1 else if x == high then 1 else 0

/-- The first iteration of Brent's method between the two points. -/
def opening (low high : Float) : Brent := ⟨low, -1, high, 1, low, -1, high - low, high - low⟩

theorem orient_start (low high : Float) : (Brent.start low (-1) high 1).rebracket.orient = opening low high := by
  have hsame : Brent.sameSign 1 1 = true := by decide
  have habs : ¬(-1 : Float).abs < (1 : Float).abs := by decide
  simp only [Brent.start, Brent.rebracket, Brent.orient, hsame, habs, if_true, if_false, opening]

theorem nextMove_opening (low high : Float) :
    (opening low high).nextMove = ((opening low high).halfway, (opening low high).halfway) := by
  have habs : ¬(-1 : Float).abs > (1 : Float).abs := by decide
  simp only [Brent.nextMove, opening, habs, decide_false, Bool.and_false, Bool.false_eq_true, if_false]

/-- Where its first step leads. -/
def landing (low high : Float) : Float := (opening low high).target (opening low high).halfway

theorem target_opening (low high : Float) :
    (opening low high).target (opening low high).nextMove.1 = landing low high := by
  rw [nextMove_opening, landing]

/-- The second iteration, if the function is zero there. -/
def landed (low high : Float) : Brent :=
  ⟨high, 1, landing low high, 0, low, -1, (opening low high).halfway, (opening low high).halfway⟩

theorem orient_landed (low high : Float) : (landed low high).rebracket.orient = landed low high := by
  have hsame : Brent.sameSign 0 (-1) = false := by decide
  have habs : ¬(-1 : Float).abs < (0 : Float).abs := by decide
  simp only [landed, Brent.rebracket, Brent.orient, hsame, habs, Bool.false_eq_true, if_false]

theorem isDone_landed (low high : Float) : (landed low high).isDone = true := by
  have hvalue : ((0 : Float) == 0) = true := by decide
  rw [Brent.isDone, landed, hvalue, Bool.or_true]

variable (hlow : low.isFinite = true) (hhigh : high.isFinite = true) (hle : value low ≤ value high)
  (hfar : ¬(high - low).isFinite = true)
include hlow hhigh hle hfar

/-- Half of the way from the high end to the low end is minus infinity. -/
theorem unpack_halfway_opening : (opening low high).halfway.toModel.unpack = .infinity .negative := by
  have hhalf : (0.5 : Float).toModel.unpack = .finite .positive (2 ^ 52) (-53) (by decide) := rfl
  have hsub := rounds_sub hlow hhigh
  have hdifference : (low - high).toModel.unpack = .infinity .negative := by
    refine hsub.unpack_of_nonpos ?_ (sub_nonpos.mpr hle)
    rwa [hsub.isFinite_iff, abs_sub_comm, ← (rounds_sub hhigh hlow).isFinite_iff]
  show (0.5 * (low - high)).toModel.unpack = _
  rw [unpack_mul, hdifference, hhalf]
  exact unpack_pack_infinity _

theorem unpack_abs_halfway_opening : (opening low high).halfway.abs.toModel.unpack = .infinity .positive := by
  rw [unpack_abs, unpack_halfway_opening hlow hhigh hle hfar]
  rfl

/-- It is longer than the tolerance, so the first step leads there. -/
theorem unpack_landing :
    (landing low high).toModel.unpack = .infinity .negative := by
  have habs := unpack_abs_halfway_opening hlow hhigh hle hfar
  have htolerance : (opening low high).halfway.abs > (opening low high).tolerance := by
    refine lt_of_not_isFinite (tolerance_spec hhigh).1 ?_ ?_
    · rw [isFinite_iff, habs]
      exact Bool.false_ne_true
    · rw [zero_lt_iff, habs]
      trivial
  rw [landing, Brent.target, if_pos htolerance]
  show (high + (opening low high).halfway).toModel.unpack = _
  rw [unpack_add, unpack_halfway_opening hlow hhigh hle hfar]
  rcases unpack_of_isFinite hhigh with ⟨s, hs⟩ | ⟨s, m, e, hm, hs⟩ <;> rw [hs] <;> exact unpack_pack_infinity _

theorem not_isFinite_landing : ¬(landing low high).isFinite = true := by
  rw [isFinite_iff, unpack_landing hlow hhigh hle hfar]
  exact Bool.false_ne_true

theorem not_le_landing : ¬low ≤ landing low high := by
  rw [le_iff, unpack_landing hlow hhigh hle hfar]
  rcases unpack_of_isFinite hlow with ⟨s, hs⟩ | ⟨s, m, e, hm, hs⟩ <;> rw [hs] <;> exact Bool.false_ne_true

theorem crossing_landing : crossing low high (landing low high) = 0 := by
  have hfinite := not_isFinite_landing hlow hhigh hle hfar
  rw [crossing, beq_eq_false_of_not_isFinite hfinite hlow, beq_eq_false_of_not_isFinite hfinite hhigh]
  rfl

theorem isDone_opening : (opening low high).isDone = false := by
  have habs := unpack_abs_halfway_opening hlow hhigh hle hfar
  have hwide : ¬(opening low high).halfway.abs ≤ (opening low high).tolerance := by
    rw [le_iff, habs]
    have htolerance : (opening low high).tolerance.isFinite = true := (tolerance_spec hhigh).1
    rcases unpack_of_isFinite htolerance with ⟨s, hs⟩ | ⟨s, m, e, hm, hs⟩ <;> rw [hs] <;> exact Bool.false_ne_true
  rw [Brent.isDone, decide_eq_false hwide]
  exact one_beq_zero

/-- The step leads to a zero of the function, where the refinement ends. -/
theorem run_crossing (points : Array Float) (hsize : points.size < maxSamples) :
    (Brent.run (crossing low high) maxSteps (Brent.start low (-1) high 1)).run points =
      (.ok (landing low high), points.push (landing low high)) := by
  have hgoes := isDone_opening hlow hhigh hle hfar
  have hadvance := run_advance (f := crossing low high) (s := opening low high) hsize
  have hmoved : (opening low high).moved (crossing low high) = landed low high := by
    rw [Brent.moved, target_opening, crossing_landing hlow hhigh hle hfar, nextMove_opening]
    rfl
  rw [hmoved, target_opening] at hadvance
  rw [← orient_start] at hgoes hadvance
  have hnan : (landed low high).fb.isNaN = false := (rfl : (0 : Float).isNaN = false)
  have hnext : Next (crossing low high) (.brent 200 (Brent.start low (-1) high 1), points)
      (.brent 199 (landed low high), points.push (landing low high)) := .brent hgoes hadvance hnan
  refine hnext.run_eq.trans ?_
  dsimp only [Stage.search]
  rw [Brent.run, orient_landed, if_pos (isDone_landed low high)]
  rfl

theorem run_refine_crossing (points : Array Float) (hsize : points.size + 1 < maxSamples) :
    (refine (crossing low high) low (-1) high 1).run points =
      (.ok (some (landing low high)), (points.push (landing low high)).push (landing low high)) := by
  have hvalue := crossing_landing hlow hhigh hle hfar
  have hrun := run_crossing hlow hhigh hle hfar points (by omega)
  have hsample : (Search.sample (crossing low high) (landing low high)).run (points.push (landing low high)) =
      (.ok 0, (points.push (landing low high)).push (landing low high)) :=
    hvalue ▸ run_sample_of_lt (by rw [Array.size_push]; omega)
  have hsmall : ((0 : Float).isFinite && decide ((0 : Float).abs ≤ smaller (-1 : Float).abs (1 : Float).abs)) = true := by
    decide
  rw [refine, run_bind_of_ok hrun, run_bind_of_ok hsample, if_pos hsmall]
  rfl

end

theorem run_within {limits : Limits} (hlow : limits.low.isFinite = true) (hhigh : limits.high.isFinite = true) :
    find f (some limits) = (between f ⟨limits.lowest, f limits.lowest⟩ ⟨limits.highest, f limits.highest⟩).run
      #[limits.lowest, limits.highest] := by
  show (within f limits).run #[] = _
  rw [within, if_neg (by simp [hlow, hhigh])]
  exact (run_bind_of_ok (run_sample_of_lt (by decide))).trans
    (run_bind_of_ok (run_sample_of_lt (by rw [Array.size_push]; decide)))

theorem run_atZero_none {fx : Float} (h : (fx == 0) = false) : (atZero f x fx).run points = (.ok none, points) := by
  rw [atZero, if_neg (Bool.eq_false_iff.mp h)]
  rfl

/-- The first three parts of a search between two ends find nothing, up to the refinement of a sign change. -/
theorem run_between_of_signChange {l h : Sampled} (hl : (l.fx == 0) = false) (hh : (h.fx == 0) = false)
    (hsign : signChange l.fx h.fx = true)
    (hrun : (refine f l.x l.fx h.x h.fx).run points = (.ok (some r), asked)) :
    (between f l h).run points = (.ok r, asked) := by
  have hfound : (firstFound
      [ atZero f l.x l.fx
      , atZero f h.x h.fx
      , if signChange l.fx h.fx then refine f l.x l.fx h.x h.fx else pure none ]).run points =
        (.ok (some r), asked) := by
    rw [run_firstFound_none (run_atZero_none hl), run_firstFound_none (run_atZero_none hh), if_pos hsign]
    exact run_firstFound_some hrun
  exact run_bind_of_ok hfound

/-- Where the difference of the limits overflows, minus infinity is found as a root. -/
theorem exists_find_of_far {limits : Limits} (hlow : limits.low.isFinite = true) (hhigh : limits.high.isFinite = true)
    (hfar : ¬(limits.highest - limits.lowest).isFinite = true) :
    ∃ f r points, find f (some limits) = (.ok r, points) ∧ ¬limits.lowest ≤ r := by
  obtain ⟨hl, hh, hle⟩ := limits_in_order hlow hhigh
  have hne : value limits.highest ≠ value limits.lowest := by
    intro heq
    refine hfar ((rounds_sub hh hl).isFinite_iff.mpr ?_)
    rw [heq, sub_self, abs_zero]
    linarith [le_overflow]
  have hflow : crossing limits.lowest limits.highest limits.lowest = -1 :=
    if_pos ((beq_iff_value hl hl).mpr rfl)
  have hfhigh : crossing limits.lowest limits.highest limits.highest = 1 := by
    rw [crossing, if_neg fun h => hne ((beq_iff_value hh hl).mp h), if_pos ((beq_iff_value hh hh).mpr rfl)]
  have hfound := run_refine_crossing hl hh hle hfar #[limits.lowest, limits.highest] (by show 3 < 2000; decide)
  have hfind := run_within (f := crossing limits.lowest limits.highest) hlow hhigh
  rw [hflow, hfhigh] at hfind
  have hvalues : ((-1 : Float) == 0) = false ∧ ((1 : Float) == 0) = false ∧ signChange (-1) 1 = true := by
    decide
  have hbetween := run_between_of_signChange (l := ⟨limits.lowest, -1⟩) (h := ⟨limits.highest, 1⟩) hvalues.1
    hvalues.2.1 hvalues.2.2 hfound
  exact ⟨_, _, _, hfind.trans hbetween, not_le_landing hl hh hle hfar⟩

/-! ### Limits too near to each other -/

/-- Limits whose difference is tiny are small. -/
theorem abs_value_lt_of_near (hlow : low.isFinite = true) (hhigh : high.isFinite = true)
    (hlt : value low < value high) (hnear : value high - value low < 1 / 10 ^ 20) : |value low| < 1 / 4 := by
  by_contra hlarge
  rw [not_lt] at hlarge
  obtain ⟨k, hk⟩ := exists_int_mul hlow (by linarith)
  obtain ⟨l, hl⟩ := exists_int_mul hhigh (by
    have htriangle := abs_sub_abs_le_abs_sub (value low) (value high)
    rw [abs_sub_comm, abs_of_pos (sub_pos.mpr hlt)] at htriangle
    linarith)
  have hunit : (0 : ℚ) < 2 ^ (-55 : ℤ) := by positivity
  rw [hk, hl] at hlt hnear
  have hkl : k + 1 ≤ l := by exact_mod_cast lt_of_mul_lt_mul_right hlt hunit.le
  have hkl' : (k : ℚ) + 1 ≤ l := by exact_mod_cast hkl
  have hstep := mul_le_mul_of_nonneg_right hkl' hunit.le
  have hunit' : (1 : ℚ) / 10 ^ 20 < 2 ^ (-55 : ℤ) := by norm_num
  linarith

/-- A point of the scan that is above the high end is small. -/
theorem near_of_not_le (h : Span low high) (hz : z ∈ scanPoints low high) (hbeyond : ¬z ≤ high) :
    z.isFinite = true ∧ |value z| ≤ 1 / 2 ∧ value high < value z := by
  obtain ⟨a, ha, rfl⟩ := exists_advance h hz
  have hadd := rounds_add h.low_finite ha.finite
  have hfrom : value low ≤ value low + value a := by linarith [ha.nonneg]
  have hgt : ¬value low + value a ≤ value high := by
    intro hle
    obtain ⟨hfinite, -, hle⟩ := hadd.between h.low_finite h.high_finite hfrom hle
    exact hbeyond ((le_iff_value hfinite h.high_finite).mpr hle)
  rw [not_le] at hgt
  have hlt : value low < value high := by
    refine h.le.lt_of_ne fun heq => ?_
    rw [ha.eq_zero heq] at hgt
    linarith
  have hsmall := abs_value_lt_of_near h.low_finite h.high_finite hlt (by linarith [ha.le])
  have hq : |value low + value a| ≤ 3 / 8 := by
    have htriangle := abs_add_le (value low) (value a)
    rw [abs_of_nonneg ha.nonneg] at htriangle
    linarith [ha.le]
  have hfinite : (low + a).isFinite = true := by
    rw [hadd.isFinite_iff]
    linarith [le_overflow]
  refine ⟨hfinite, by linarith [hadd.abs_le hfinite], ?_⟩
  rwa [le_iff_value hfinite h.high_finite, not_le] at hbeyond

/-- Zero at one point, one everywhere else. -/
def touching (z x : Float) : Float := if x == z then 0 else 1

theorem not_signChange_one : ¬signChange 1 1 = true := by decide

theorem value_one : value 1.0 = 1 := by
  show ((2 ^ 52 : ℕ) : ℚ) * 2 ^ (-52 : ℤ) = 1
  norm_num

/-- The distance to the neighbours of a small point, at which a root is confirmed. -/
theorem spread_eq (hx : x.isFinite = true) (h : |value x| ≤ 1 / 2) : 1e-6 * greater 1.0 x.abs = 1e-6 := by
  have hle : ¬(1.0 : Float) < x.abs := by
    rw [lt_iff_value rfl ((isFinite_abs x).trans hx), value_one, value_abs, not_lt]
    linarith
  rw [greater, if_neg hle]
  decide

theorem value_millionth : 1 / 10 ^ 7 ≤ value 1e-6 ∧ value 1e-6 ≤ 1 / 10 ^ 5 := by
  show 1 / 10 ^ 7 ≤ ((4722366482869645 : ℕ) : ℚ) * 2 ^ (-72 : ℤ) ∧ ((4722366482869645 : ℕ) : ℚ) * 2 ^ (-72 : ℤ) ≤ 1 / 10 ^ 5
  norm_num

/-- What is rounded from a number that is not near to a double is another double. -/
theorem beq_eq_false_of_rounds {q : ℚ} (h : Rounds q x) (hz : z.isFinite = true) (hq : |q| ≤ 1)
    (hfar : 1 / 10 ^ 7 ≤ |value z - q|) : (x == z) = false := by
  have hfinite : x.isFinite = true := by
    rw [h.isFinite_iff]
    linarith [le_overflow]
  rw [Bool.eq_false_iff, ne_eq, beq_iff_value hfinite hz]
  intro heq
  rw [← heq] at hfar
  linarith [h.error_le hfinite]

theorem abs_le_searchBound_of_small (hx : x.isFinite = true) (h : |value x| ≤ 1 / 2) : ¬x.abs > searchBound := by
  have hbound : searchBound.isFinite = true ∧ 1.0 ≤ searchBound := by decide
  rw [le_iff_value rfl hbound.1, value_one] at hbound
  rw [gt_iff_lt, lt_iff_value hbound.1 ((isFinite_abs x).trans hx), value_abs, not_lt]
  linarith [hbound.2]

section
variable (hz : z.isFinite = true) (hsmall : |value z| ≤ 1 / 2) (hx : x.isFinite = true) (heq : value x = value z)
include hz hsmall hx heq

theorem neighbours_touching : touching z (x - 1e-6) = 1 ∧ touching z (x + 1e-6) = 1 := by
  obtain ⟨hmin, hmax⟩ := value_millionth
  have hbounds := abs_le.mp (heq ▸ hsmall)
  refine ⟨?_, ?_⟩
  · have hrounds := rounds_sub (y := 1e-6) hx rfl
    rw [touching, beq_eq_false_of_rounds hrounds hz (abs_le.mpr ⟨by linarith, by linarith⟩)]
    · rfl
    · rw [heq, sub_sub_cancel]
      exact hmin.trans (le_abs_self _)
  · have hrounds := rounds_add (y := 1e-6) hx rfl
    rw [touching, beq_eq_false_of_rounds hrounds hz (abs_le.mpr ⟨by linarith, by linarith⟩)]
    · rfl
    · rw [heq, sub_add_cancel_left, abs_neg]
      exact hmin.trans (le_abs_self _)

/-- The zero is confirmed as a root, as it has neighbours that are none. -/
theorem run_confirm_touching (points : Array Float) (hsize : points.size + 1 < maxSamples) :
    (confirm (touching z) x 0).run points = (.ok (some x), (points.push (x - 1e-6)).push (x + 1e-6)) := by
  obtain ⟨hleft, hright⟩ := neighbours_touching hz hsmall hx heq
  have hspread := spread_eq hx (heq ▸ hsmall)
  have hguard : ¬(!x.isFinite || decide (x.abs > searchBound) || !(0 : Float).isFinite) = true := by
    simp [hx, abs_le_searchBound_of_small hx (heq ▸ hsmall)]
    rfl
  have hl : (Search.sample (touching z) (x - 1e-6)).run points = (.ok 1, points.push (x - 1e-6)) :=
    hleft ▸ run_sample_of_lt (by omega)
  have hr : (Search.sample (touching z) (x + 1e-6)).run (points.push (x - 1e-6)) =
      (.ok 1, (points.push (x - 1e-6)).push (x + 1e-6)) := hright ▸ run_sample_of_lt (by rw [Array.size_push]; omega)
  have hcrosses : crossesOrTouches 1 0 1 = true := by decide
  have hconfirmed : (confirmed (touching z) x 0).run points = (.ok true, (points.push (x - 1e-6)).push (x + 1e-6)) := by
    rw [confirmed, if_neg hguard, hspread]
    dsimp only
    rw [run_bind_of_ok hl, run_bind_of_ok hr, hcrosses]
    rfl
  rw [confirm, run_bind_of_ok hconfirmed]
  rfl

end

theorem run_inspect_none {before : Sampled} (hbefore : before.fx = 1) :
    (inspect f before x 1).run points = (.ok none, points) := by
  rw [inspect, run_bind_of_ok (run_atZero_none one_beq_zero)]
  dsimp only
  rw [hbefore, if_neg not_signChange_one]
  rfl

theorem run_inspect_some {before : Sampled} (h : (confirm f x 0).run points = (.ok (some x), asked)) :
    (inspect f before x 0).run points = (.ok (some x), asked) := by
  have hvalue : ((0 : Float) == 0) = true := by decide
  have hzero : (atZero f x 0).run points = (.ok (some x), asked) := by rwa [atZero, if_pos hvalue]
  rw [inspect, run_bind_of_ok hzero]
  rfl

/-- A scan comes to the zero, at the point itself or at one that compares equal. -/
theorem exists_run_scanFrom (hz : z.isFinite = true) (hsmall : |value z| ≤ 1 / 2) (high before best : Sampled)
    {xs : List Float} (points : Array Float) (hmem : z ∈ xs) (hbefore : before.fx = 1)
    (hsize : points.size + xs.length + 1 < maxSamples) :
    ∃ x b asked, (x == z) = true ∧
      (scanFrom (touching z) high before best xs).run points = (.ok (b, some x), asked) := by
  induction xs generalizing before best points with
  | nil => cases hmem
  | cons x xs ih =>
    rw [List.length_cons] at hsize
    have hsample : (Search.sample (touching z) x).run points = (.ok (touching z x), points.push x) :=
      run_sample_of_lt (by omega)
    rw [scanFrom, run_bind_of_ok hsample]
    by_cases hx : (x == z) = true
    · have hfinite := isFinite_of_beq hx hz
      have hconfirm := run_confirm_touching hz hsmall hfinite ((beq_iff_value hfinite hz).mp hx) (points.push x)
        (by rw [Array.size_push]; omega)
      have hvalue : touching z x = 0 := if_pos hx
      rw [hvalue, run_bind_of_ok (run_inspect_some hconfirm)]
      exact ⟨x, best, _, hx, rfl⟩
    · have hvalue : touching z x = 1 := if_neg hx
      have hmem : z ∈ xs := by
        rcases List.mem_cons.mp hmem with rfl | hmem
        · exact absurd ((beq_iff_value hz hz).mpr rfl) hx
        · exact hmem
      rw [hvalue, run_bind_of_ok (run_inspect_none hbefore)]
      exact ih _ _ (points.push x) hmem rfl (by rw [Array.size_push]; omega)

/-- With the same value at both ends, a search goes on to the scan. -/
theorem run_between_of_scanFrom {l h b : Sampled} (hl : l.fx = 1) (hh : h.fx = 1)
    (hscan : (scanFrom f h l l (scanPoints l.x h.x)).run points = (.ok (b, some r), asked)) :
    (between f l h).run points = (.ok r, asked) := by
  have hfound : (firstFound
      [ atZero f l.x l.fx
      , atZero f h.x h.fx
      , if signChange l.fx h.fx then refine f l.x l.fx h.x h.fx else pure none ]).run points = (.ok none, points) := by
    rw [hl, hh, run_firstFound_none (run_atZero_none one_beq_zero), run_firstFound_none (run_atZero_none one_beq_zero),
      if_neg not_signChange_one]
    rfl
  rw [between]
  dsimp only
  rw [run_bind_of_ok hfound, run_bind_of_ok hscan]
  rfl

/-- Where a point of the scan is above the high end, a root is found there. -/
theorem exists_find_of_near {limits : Limits} (hlow : limits.low.isFinite = true) (hhigh : limits.high.isFinite = true)
    (h : (limits.highest - limits.lowest).isFinite = true)
    (hz : z ∈ scanPoints limits.lowest limits.highest) (hbeyond : ¬z ≤ limits.highest) :
    ∃ f r points, find f (some limits) = (.ok r, points) ∧ ¬r ≤ limits.highest := by
  obtain ⟨hl, hh, hle⟩ := limits_in_order hlow hhigh
  obtain ⟨hfinite, hsmall, hlt⟩ := near_of_not_le ⟨hl, hh, hle, h⟩ hz hbeyond
  have hflow : touching z limits.lowest = 1 :=
    if_neg fun heq => (hle.trans_lt hlt).ne ((beq_iff_value hl hfinite).mp heq)
  have hfhigh : touching z limits.highest = 1 := if_neg fun heq => hlt.ne ((beq_iff_value hh hfinite).mp heq)
  have hfind := run_within (f := touching z) hlow hhigh
  rw [hflow, hfhigh] at hfind
  obtain ⟨r, b, asked, hr, hscan⟩ := exists_run_scanFrom hfinite hsmall ⟨limits.highest, 1⟩
    ⟨limits.lowest, 1⟩ ⟨limits.lowest, 1⟩ #[limits.lowest, limits.highest] hz rfl (by show 2 + 63 + 1 < 2000; decide)
  refine ⟨_, r, asked, hfind.trans (run_between_of_scanFrom rfl rfl hscan), fun hle' => ?_⟩
  have hr' := isFinite_of_beq hr hfinite
  rw [le_iff_value hr' hh, (beq_iff_value hr' hfinite).mp hr] at hle'
  exact absurd hle' (not_le.mpr hlt)

/-! ### The exact condition -/

/-- A search with limits finds roots inside them only, whatever the function is, exactly if the difference of the
    limits is finite and no point of the scan is rounded up beyond the high end. -/
theorem find_within_iff {limits : Limits} (hlow : limits.low.isFinite = true) (hhigh : limits.high.isFinite = true) :
    (∀ f r points, find f (some limits) = (.ok r, points) → limits.lowest ≤ r ∧ r ≤ limits.highest) ↔
      (limits.highest - limits.lowest).isFinite = true ∧
        ∀ x ∈ scanPoints limits.lowest limits.highest, x ≤ limits.highest := by
  obtain ⟨hl, hh, hle⟩ := limits_in_order hlow hhigh
  constructor
  · intro hinside
    have hfinite : (limits.highest - limits.lowest).isFinite = true := by
      by_contra hfar
      obtain ⟨f, r, points, hfind, hr⟩ := exists_find_of_far hlow hhigh hfar
      exact hr (hinside f r points hfind).1
    refine ⟨hfinite, fun x hx => ?_⟩
    by_contra hbeyond
    obtain ⟨f, r, points, hfind, hr⟩ := exists_find_of_near hlow hhigh hfinite hx hbeyond
    exact hr (hinside f r points hfind).2
  · rintro ⟨hfinite, hscan⟩ f r points hfind
    have hspan : Span limits.lowest limits.highest := ⟨hl, hh, hle, hfinite⟩
    exact (find_inside hspan hscan hfind).le hspan

/-- The condition holds of 1 and 2. -/
theorem find_within_iff_unit :
    ((1 : Float).isFinite = true ∧ (2 : Float).isFinite = true) ∧
      ∀ f r points, find f (some ⟨1, 2⟩) = (.ok r, points) → 1 ≤ r ∧ r ≤ 2 := by
  have hscan : ((2 : Float) - 1).isFinite = true ∧ ∀ x ∈ scanPoints 1 2, x ≤ 2 := by decide +kernel
  exact ⟨⟨rfl, rfl⟩, (@find_within_iff ⟨1, 2⟩ rfl rfl).mpr hscan⟩

/-- Limits so near to each other that a share of their difference is rounded up: points of the scan are above the
    high end, and a root there is found. -/
theorem not_find_within_tiny :
    ∃ r points, find (fun x => x - Float.ofBits 0x28) (some ⟨0, Float.ofBits 0x21⟩) = (.ok r, points) ∧
      Float.ofBits 0x21 < r := by
  have hfind : ((search (fun x => x - Float.ofBits 0x28) (some ⟨0, Float.ofBits 0x21⟩)).run #[]).1.toOption =
      some (Float.ofBits 0x28) := by decide +kernel
  obtain ⟨points, hfind⟩ := exists_run_of_toOption hfind
  exact ⟨_, points, hfind, by decide⟩

end Root
end Worksheet
