import Worksheet.Proofs.Document.Roles

/-! Which marker of a line counts. Every marker outside square brackets is a candidate. The first `<-` among them
    counts if there is one, and has a name before it; otherwise it is the strongest candidate, the first of its kind for
    arrows and the last for colons. -/

namespace Worksheet

/-- A marker counts before another one: `->>` before `->` before `::` before `:`. -/
def Marker.Over (m n : Marker) : Prop := [m, n].Sublist [.fullArrow, .rightArrow, .doubleColon, .colon]

namespace Marker

theorem over_of_rank_lt {m n : Marker} (hn : n ≠ .leftArrow) (h : n.rank < m.rank) : m.Over n := by
  revert hn h
  unfold Over
  cases m <;> cases n <;> decide

theorem eq_of_rank_eq {m n : Marker} (h : m.rank = n.rank) : m = n := by
  revert h
  cases m <;> cases n <;> decide

end Marker

namespace Classify
open Token
variable {ts us : List Token} {d n i j : Nat} {m : Marker}

/-! ### Brackets -/

/-- The square brackets that a token opens: one or none. -/
def opens (t : Token) : Nat :=
  match t.kind with
  | .openBracket => 1
  | _ => 0

/-- The square brackets that a token closes: one or none. -/
def closes (t : Token) : Nat :=
  match t.kind with
  | .closeBracket => 1
  | _ => 0

/-- How many square brackets some tokens open. -/
def openings (ts : List Token) : Nat := (ts.map opens).sum

/-- How many square brackets some tokens close. -/
def closings (ts : List Token) : Nat := (ts.map closes).sum

/-- The tokens close no bracket that stands before them. -/
def StaysOpen (ts : List Token) : Prop := ∀ p, p <+: ts → closings p ≤ openings p

/-- Behind the tokens one of the brackets among them is still open. -/
def LeavesOpen (ts : List Token) : Prop := ∃ pre o mid, ts = pre ++ o :: mid ∧ o.kind = .openBracket ∧ StaysOpen mid

@[simp]
theorem openings_nil : openings [] = 0 := rfl

@[simp]
theorem closings_nil : closings [] = 0 := rfl

@[simp]
theorem openings_cons (t : Token) (ts : List Token) : openings (t :: ts) = opens t + openings ts := by
  simp [openings]

@[simp]
theorem closings_cons (t : Token) (ts : List Token) : closings (t :: ts) = closes t + closings ts := by
  simp [closings]

theorem openings_append (ts us : List Token) : openings (ts ++ us) = openings ts + openings us := by
  simp [openings]

theorem closings_append (ts us : List Token) : closings (ts ++ us) = closings ts + closings us := by
  simp [closings]

theorem opens_eq_one {t : Token} : opens t = 1 ↔ t.kind = .openBracket := by
  unfold opens
  cases t.kind <;> simp

theorem opens_eq_zero {t : Token} (h : t.kind ≠ .openBracket) : opens t = 0 := by
  unfold opens
  split
  · rename_i hk
    exact absurd hk h
  · rfl

theorem closes_eq_zero {t : Token} (h : t.kind ≠ .closeBracket) : closes t = 0 := by
  unfold closes
  split
  · rename_i hk
    exact absurd hk h
  · rfl

theorem opens_le_one (t : Token) : opens t ≤ 1 := by
  unfold opens
  split <;> decide

theorem closes_le_one (t : Token) : closes t ≤ 1 := by
  unfold closes
  split <;> decide

/-- No token is both brackets. -/
theorem opens_eq_zero_or_closes_eq_zero (t : Token) : opens t = 0 ∨ closes t = 0 := by
  unfold opens closes
  cases t.kind <;> simp

theorem deeper_eq (d : Nat) (t : Token) : deeper d t = d + opens t - closes t := by
  unfold deeper opens closes
  cases t.kind <;> rfl

/-- A marker leaves the depth as it is. -/
theorem deeper_of_marker? {t : Token} (h : t.kind.marker? = some m) (d : Nat) : deeper d t = d := by
  revert h
  unfold deeper
  cases t.kind <;> simp [Kind.marker?]

/-- While every closing bracket closes something, the depth counts the brackets that are open. -/
theorem foldl_deeper_add (h : ∀ p, p <+: ts → closings p ≤ d + openings p) :
    ts.foldl deeper d + closings ts = d + openings ts := by
  induction ts generalizing d with
  | nil => rfl
  | cons t ts ih =>
    have hhead := h [t] (by simp)
    have hrest : ∀ p, p <+: ts → closings p ≤ deeper d t + openings p := by
      intro p hp
      have hcons := h (t :: p) (List.cons_prefix_cons.mpr ⟨rfl, hp⟩)
      rw [openings_cons, closings_cons] at hcons
      rw [deeper_eq]
      omega
    have htail := ih hrest
    rw [openings_cons, closings_cons, openings_nil, closings_nil] at hhead
    rw [List.foldl_cons, openings_cons, closings_cons]
    rw [deeper_eq] at htail ⊢
    omega

/-- Where the depth is not zero, one of the tokens opened a bracket that is still open, or the depth never was zero. -/
theorem leavesOpen_or_of_foldl_deeper (h : ts.foldl deeper d ≠ 0) :
    LeavesOpen ts ∨ ∀ p, p <+: ts → closings p < d + openings p := by
  induction ts generalizing d with
  | nil =>
    refine .inr fun p hp => ?_
    rw [List.prefix_nil.mp hp]
    exact Nat.pos_of_ne_zero h
  | cons t ts ih =>
    rcases ih h with ⟨pre, o, mid, rfl, ho, hmid⟩ | hrest
    · exact .inl ⟨t :: pre, o, mid, rfl, ho, hmid⟩
    · have hdeep := hrest [] List.nil_prefix
      rw [openings_nil, closings_nil, deeper_eq] at hdeep
      have honly := opens_eq_zero_or_closes_eq_zero t
      have hopens := opens_le_one t
      have hcloses := closes_le_one t
      by_cases hd : d = 0
      · -- The depth was zero, so the token opens the bracket.
        refine .inl ⟨[], t, ts, rfl, opens_eq_one.mp (by omega), fun p hp => ?_⟩
        have hp' := hrest p hp
        rw [deeper_eq] at hp'
        omega
      · refine .inr fun p hp => ?_
        rcases List.prefix_cons_iff.mp hp with rfl | ⟨q, rfl, hq⟩
        · exact Nat.pos_of_ne_zero hd
        · have hq' := hrest q hq
          rw [deeper_eq] at hq'
          rw [openings_cons, closings_cons]
          omega

theorem foldl_deeper_eq_zero : ts.foldl deeper 0 = 0 ↔ ¬LeavesOpen ts := by
  refine ⟨?_, fun h => ?_⟩
  · rintro hzero ⟨pre, o, mid, rfl, ho, hmid⟩
    have ho' : deeper (pre.foldl deeper 0) o = pre.foldl deeper 0 + 1 := by simp [deeper, ho]
    rw [List.foldl_append, List.foldl_cons, ho'] at hzero
    have hadd := foldl_deeper_add (d := pre.foldl deeper 0 + 1) fun p hp => Nat.le_add_left_of_le (hmid p hp)
    have hle := hmid mid List.prefix_rfl
    omega
  · by_contra hdepth
    rcases leavesOpen_or_of_foldl_deeper hdepth with hopen | hall
    · exact h hopen
    · exact Nat.lt_irrefl _ (hall [] List.nil_prefix)

/-! ### Candidates -/

/-- Among some tokens the marker `m` stands at index `i`, outside square brackets. -/
def Candidate (ts : List Token) (i : Nat) (m : Marker) : Prop :=
  (∃ t, ts[i]? = some t ∧ t.kind.marker? = some m) ∧ ¬LeavesOpen (ts.take i)

theorem mem_candidates : (j, m) ∈ candidates d n ts ↔
    ∃ i t, j = n + i ∧ ts[i]? = some t ∧ t.kind.marker? = some m ∧ (ts.take i).foldl deeper d = 0 := by
  induction ts generalizing d n with
  | nil => simp [candidates]
  | cons t ts ih =>
    have hmem : (j, m) ∈ candidates d n (t :: ts) ↔
        (j = n ∧ t.kind.marker? = some m ∧ d = 0) ∨ (j, m) ∈ candidates (deeper d t) (n + 1) ts := by
      rw [candidates_deeper]
      cases hm : t.kind.marker? with
      | none => simp
      | some m' =>
        dsimp only
        rw [deeper_of_marker? hm, Option.some.injEq]
        split
        · rename_i hd
          rw [List.mem_cons, Prod.mk.injEq, eq_comm (a := m), and_iff_left hd]
        · rename_i hd
          simp [hd]
    rw [hmem, ih]
    constructor
    · rintro (⟨rfl, hm, rfl⟩ | ⟨i, u, rfl, hu, hm, hzero⟩)
      · exact ⟨0, t, rfl, rfl, hm, rfl⟩
      · exact ⟨i + 1, u, by omega, hu, hm, hzero⟩
    · rintro ⟨i, u, rfl, hu, hm, hzero⟩
      cases i with
      | zero =>
        obtain rfl := Option.some.inj hu
        exact .inl ⟨rfl, hm, hzero⟩
      | succ i => exact .inr ⟨i, u, by omega, hu, hm, hzero⟩

theorem mem_candidates_iff : (i, m) ∈ candidates 0 0 ts ↔ Candidate ts i m := by
  rw [mem_candidates]
  constructor
  · rintro ⟨i, t, rfl, ht, hm, hzero⟩
    rw [Nat.zero_add]
    exact ⟨⟨t, ht, hm⟩, foldl_deeper_eq_zero.mp hzero⟩
  · rintro ⟨⟨t, ht, hm⟩, hopen⟩
    exact ⟨i, t, (Nat.zero_add i).symm, ht, hm, foldl_deeper_eq_zero.mpr hopen⟩

theorem pairwise_candidates (d n : Nat) (ts : List Token) : (candidates d n ts).Pairwise fun x y => x.1 < y.1 := by
  induction ts generalizing d n with
  | nil => exact List.Pairwise.nil
  | cons t ts ih =>
    rw [candidates_deeper]
    split
    · split
      · exact List.pairwise_cons.mpr ⟨fun x hx => (candidates_spec hx).1, ih _ _⟩
      · exact ih _ _
    · exact ih _ _

/-! ### The choice -/

/-- A candidate counts before another one, or is the same: it is stronger, or of the same kind and before it for an arrow,
    behind it for colons. -/
def Wins (x y : Nat × Marker) : Prop :=
  y.2.rank < x.2.rank ∨ y.2 = x.2 ∧ if x.2.isColon then y.1 ≤ x.1 else x.1 ≤ y.1

theorem Wins.refl (x : Nat × Marker) : Wins x x := .inr ⟨rfl, by simp⟩

theorem Wins.trans {x y z : Nat × Marker} (hxy : Wins x y) (hyz : Wins y z) : Wins x z := by
  rcases hxy with hxy | ⟨heq, hxy⟩ <;> rcases hyz with hyz | ⟨heq', hyz⟩
  · exact .inl (hyz.trans hxy)
  · exact .inl (heq' ▸ hxy)
  · exact .inl (heq ▸ hyz)
  · refine .inr ⟨heq'.trans heq, ?_⟩
    rw [heq] at hyz
    cases hcolon : x.2.isColon with
    | true =>
      rw [hcolon, if_pos rfl] at hxy hyz
      exact (if_pos rfl).mpr (hyz.trans hxy)
    | false =>
      rw [hcolon, if_neg Bool.false_ne_true] at hxy hyz
      exact (if_neg Bool.false_ne_true).mpr (hxy.trans hyz)

/-- Of two candidates the preferred one wins over both. -/
theorem wins_preferred {x y : Nat × Marker} (h : x.1 < y.1) : Wins (preferred x y) x ∧ Wins (preferred x y) y := by
  unfold preferred
  split
  · rename_i hy
    simp only [Bool.or_eq_true, decide_eq_true_eq, Bool.and_eq_true, beq_iff_eq] at hy
    refine ⟨?_, Wins.refl y⟩
    rcases hy with hlt | ⟨heq, hcolon⟩
    · exact .inl hlt
    · exact .inr ⟨Marker.eq_of_rank_eq heq, by simpa [hcolon] using h.le⟩
  · rename_i hx
    simp only [Bool.or_eq_true, decide_eq_true_eq, Bool.and_eq_true, beq_iff_eq, not_or, not_and, Bool.not_eq_true,
      Nat.not_lt] at hx
    refine ⟨Wins.refl x, ?_⟩
    rcases Nat.lt_or_eq_of_le hx.1 with hlt | heq
    · exact .inl hlt
    · have hmarker : y.2 = x.2 := Marker.eq_of_rank_eq heq
      have hcolon : x.2.isColon = false := hmarker ▸ hx.2 heq.symm
      exact .inr ⟨hmarker, by simpa [hcolon] using h.le⟩

/-- The candidate that the fold ends with wins over all it has come by. -/
theorem wins_foldl_preferred {c : Nat × Marker} {cs : List (Nat × Marker)}
    (h : (c :: cs).Pairwise fun x y => x.1 < y.1) : ∀ y ∈ c :: cs, Wins (cs.foldl preferred c) y := by
  induction cs generalizing c with
  | nil => simpa using Wins.refl c
  | cons d cs ih =>
    obtain ⟨hc, hcs⟩ := List.pairwise_cons.mp h
    obtain ⟨hd, hcs'⟩ := List.pairwise_cons.mp hcs
    have hcd : c.1 < d.1 := hc d List.mem_cons_self
    have hnext : (preferred c d :: cs).Pairwise fun x y => x.1 < y.1 := by
      refine List.pairwise_cons.mpr ⟨fun y hy => ?_, hcs'⟩
      unfold preferred
      split
      · exact hd y hy
      · exact hcd.trans (hd y hy)
    have hall := ih hnext
    obtain ⟨hwinsc, hwinsd⟩ := wins_preferred hcd
    have hfirst := hall (preferred c d) List.mem_cons_self
    rw [List.foldl_cons]
    intro y hy
    rcases List.mem_cons.mp hy with rfl | hy
    · exact hfirst.trans hwinsc
    · rcases List.mem_cons.mp hy with rfl | hy
      · exact hfirst.trans hwinsd
      · exact hall y (List.mem_cons_of_mem _ hy)

/-- An input marker is chosen before all others, the first one of several. -/
theorem choose_leftArrow {cs : List (Nat × Marker)} {x : Nat × Marker} (hcs : cs.Pairwise fun x y => x.1 < y.1)
    (h : choose cs = some x) (hj : (j, .leftArrow) ∈ cs) : x.2 = .leftArrow ∧ x.1 ≤ j := by
  unfold choose at h
  split at h
  · rename_i c hfind
    obtain rfl := Option.some.inj h
    obtain ⟨hc, pre, post, rfl, hpre⟩ := List.find?_eq_some_iff_append.mp hfind
    refine ⟨by simpa using hc, ?_⟩
    rcases List.mem_append.mp hj with hj | hj
    · exact absurd (hpre _ hj) (by simp)
    · rcases List.mem_cons.mp hj with hj | hj
      · exact (congrArg Prod.fst hj).ge
      · exact ((List.pairwise_cons.mp (List.pairwise_append.mp hcs).2.1).1 _ hj).le
  · rename_i hfind
    exact absurd (List.find?_eq_none.mp hfind _ hj) (by simp)

/-- Without an input marker the chosen one wins over all. -/
theorem choose_wins {cs : List (Nat × Marker)} {x : Nat × Marker} (hcs : cs.Pairwise fun x y => x.1 < y.1)
    (h : choose cs = some x) (hnone : ∀ j, (j, .leftArrow) ∉ cs) : ∀ y ∈ cs, Wins x y := by
  unfold choose at h
  split at h
  · rename_i c hfind
    obtain ⟨index, m⟩ := c
    obtain rfl : m = .leftArrow := by simpa using List.find?_some hfind
    exact absurd (List.mem_of_find?_eq_some hfind) (hnone index)
  · split at h
    · cases h
    · obtain rfl := Option.some.inj h
      exact wins_foldl_preferred hcs

/-! ### The name before an input marker -/

/-- The brackets among the tokens belong together. -/
def Balanced (ts : List Token) : Prop := StaysOpen ts ∧ openings ts = closings ts

/-- What may stand between a name and its marker: suffixes, and limits in brackets among them. -/
inductive IsDress : List Token → Prop
  | suffixes {ss : List Token} (h : ∀ t ∈ ss, t.kind.isSuffix = true) : IsDress ss
  | limits {ss inner us : List Token} {o c : Token} (hss : ∀ t ∈ ss, t.kind.isSuffix = true) (ho : o.kind = .openBracket)
      (hinner : Balanced inner) (hc : c.kind = .closeBracket) (hus : ∀ t ∈ us, t.kind.isSuffix = true) :
      IsDress (ss ++ o :: inner ++ c :: us)

theorem exists_takeSuffixes (e : Decoration) (ts : List Token) :
    ∃ ss, ts = ss ++ (takeSuffixes e ts).2 ∧ ∀ t ∈ ss, t.kind.isSuffix = true := by
  induction ts generalizing e with
  | nil => exact ⟨[], rfl, by simp⟩
  | cons t ts ih =>
    unfold takeSuffixes
    split
    · rename_i e' hk
      obtain ⟨ss, hts, hss⟩ := ih (join e e')
      exact ⟨t :: ss, congrArg (t :: ·) hts, List.forall_mem_cons.mpr ⟨by simp [hk, Kind.isSuffix], hss⟩⟩
    · exact ⟨[], rfl, by simp⟩

/-- Read backward from a closing bracket, no bracket is left open before the opening one that is found. -/
theorem exists_findOpen {colon colon' : Option Token} {o : Token} {rest : List Token} (hd : 0 < d)
    (h : findOpen d colon ts = some (colon', o, rest)) : ∃ mid, ts = mid ++ o :: rest ∧ o.kind = .openBracket ∧
      (∀ p, p <+: mid → openings p < d + closings p) ∧ openings mid + 1 = d + closings mid := by
  induction ts generalizing d colon with
  | nil => cases h
  | cons t ts ih =>
    -- A token that is passed, with the depth before it.
    have hpass {e : Nat} {colon : Option Token} (he : 0 < e) (hte : e + opens t = d + closes t)
        (h : findOpen e colon ts = some (colon', o, rest)) : ∃ mid, t :: ts = mid ++ o :: rest ∧
          o.kind = .openBracket ∧ (∀ p, p <+: mid → openings p < d + closings p) ∧
          openings mid + 1 = d + closings mid := by
      obtain ⟨mid, rfl, ho, hpre, htotal⟩ := ih he h
      refine ⟨t :: mid, rfl, ho, fun p hp => ?_, ?_⟩
      · rcases List.prefix_cons_iff.mp hp with rfl | ⟨q, rfl, hq⟩
        · exact hd
        · have hq' := hpre q hq
          rw [openings_cons, closings_cons]
          omega
      · rw [openings_cons, closings_cons]
        omega
    unfold findOpen at h
    split at h
    · rename_i hk
      exact hpass (Nat.succ_pos d) (by simp [opens, closes, hk]) h
    · rename_i hk
      split at h
      · obtain ⟨-, rfl, rfl⟩ := Option.some.inj h
        refine ⟨[], rfl, hk, fun p hp => ?_, ?_⟩
        · rw [List.prefix_nil.mp hp]
          exact hd
        · rw [openings_nil, closings_nil]
          omega
      · refine hpass (by omega) ?_ h
        simp only [opens, closes, hk]
        omega
    · rename_i hk
      exact hpass hd (by simp [opens, closes, hk]) h
    · rename_i hclose hopen hcolon
      exact hpass hd (by rw [opens_eq_zero hopen, closes_eq_zero hclose]) h

theorem openings_reverse (ts : List Token) : openings ts.reverse = openings ts := by
  unfold openings
  rw [List.map_reverse, List.sum_reverse]

theorem closings_reverse (ts : List Token) : closings ts.reverse = closings ts := by
  unfold closings
  rw [List.map_reverse, List.sum_reverse]

/-- Brackets that belong together backward do so forward. -/
theorem balanced_reverse (h : ∀ p, p <+: ts → openings p ≤ closings p) (htotal : openings ts = closings ts) :
    Balanced ts.reverse := by
  refine ⟨fun p hp => ?_, by rw [openings_reverse, closings_reverse, htotal]⟩
  obtain ⟨q, hq⟩ := hp
  have hts : ts = q.reverse ++ p.reverse := by rw [← List.reverse_append, hq, List.reverse_reverse]
  have hle := h q.reverse ⟨p.reverse, hts.symm⟩
  rw [hts, openings_append, closings_append, openings_reverse, closings_reverse, openings_reverse,
    closings_reverse] at htotal
  rw [openings_reverse, closings_reverse] at hle
  omega

/-- What `readHead` passes over, in the order of the line. -/
theorem exists_readHead (line : Text) (e : Decoration) (before : List Token) :
    ∃ dress, before = dress.reverse ++ (readHead line e before).rest ∧ IsDress dress := by
  obtain ⟨ss, hbefore, hss⟩ := exists_takeSuffixes e before
  have hss' : ∀ t ∈ ss.reverse, t.kind.isSuffix = true := fun t ht => hss t (List.mem_reverse.mp ht)
  have hplain : ∃ dress, before = dress.reverse ++ (takeSuffixes e before).2 ∧ IsDress dress :=
    ⟨ss.reverse, by rwa [List.reverse_reverse], .suffixes hss'⟩
  unfold readHead
  generalize takeSuffixes e before = passed at hbefore hplain ⊢
  obtain ⟨e', rest⟩ := passed
  dsimp only at hbefore hplain ⊢
  split
  · exact hplain
  · rename_i closing more
    split
    · rename_i colon o rest hclose hopen
      obtain ⟨us, hrest, hus⟩ := exists_takeSuffixes e' rest
      have hus' : ∀ t ∈ us.reverse, t.kind.isSuffix = true := fun t ht => hus t (List.mem_reverse.mp ht)
      unfold findOpen at hopen
      rw [hclose] at hopen
      obtain ⟨mid, rfl, ho, hpre, htotal⟩ := exists_findOpen Nat.one_pos hopen
      refine ⟨us.reverse ++ o :: mid.reverse ++ closing :: ss.reverse, ?_, .limits hus' ho ?_ hclose hss'⟩
      · dsimp only
        simp [hbefore, ← hrest]
      · exact balanced_reverse (fun p hp => by have := hpre p hp; omega) (by omega)
    · exact hplain

/-- An input marker has a name before it, with nothing between them but what dresses the name. -/
theorem declaration_of_subjectBefore {line : Text} {e : Decoration} {before : List Token} {found : Finding}
    (h : subjectBefore line .leftArrow e before = some found) : ∃ rest name dress limits,
      before = dress.reverse ++ name :: rest ∧ name.kind = .name ∧ IsDress dress ∧
        found.subject = .declaration name.lexeme limits ∧ found.labelEnd = name.offset := by
  obtain ⟨dress, hbefore, hdress⟩ := exists_readHead line e before
  unfold subjectBefore at h
  dsimp only at h
  split at h
  · rename_i name rest hrest
    split at h
    · rename_i hname
      obtain rfl := Option.some.inj h
      refine ⟨rest, name, dress, _, hrest ▸ hbefore, ?_, hdress, rfl, rfl⟩
      cases hk : name.kind <;> simp_all [Kind.isName]
    · cases h
  · cases h

end Classify

/-! ### The marker of a value line -/

namespace ValueLine
open Classify Token

/-- Of the tokens of a line the one at index `i` is the marker of the value line `l`, rightly chosen. -/
structure ChosenAt (l : ValueLine) (ts : List Token) (i : Nat) : Prop where
  token : ∃ t, ts[i]? = some t ∧ t.offset = l.markerBegin ∧ t.endOffset = l.markerEnd
  candidate : Candidate ts i l.marker
  /-- An input marker counts before all others, and the first one of several. -/
  input : ∀ j, Candidate ts j .leftArrow → l.marker = .leftArrow ∧ i ≤ j
  /-- A line with an input marker declares the name before it. -/
  declares : l.marker = .leftArrow → ∃ label name dress limits, ts.take i = label ++ name :: dress ∧ name.kind = .name ∧
    IsDress dress ∧ l.subject = .declaration name.lexeme limits ∧ l.labelEnd = name.offset
  /-- Without an input marker the strongest one counts: the first of several arrows, the last of several colons. -/
  strongest : (∀ j, ¬Candidate ts j .leftArrow) → ∀ j m, Candidate ts j m →
    l.marker.Over m ∨ m = l.marker ∧ if m.isColon then j ≤ i else i ≤ j

variable {line : Text} {l : ValueLine}

/-- The marker of every value line is rightly chosen among the markers outside square brackets. -/
theorem chosenAt_of_classifyLine (h : classifyLine line = some l) : ∃ i, l.ChosenAt (significant (tokenize line)) i := by
  obtain ⟨i, m, t, found, hchoose, ht, -, -, hfound, rfl⟩ := ofTokens_eq_some_iff.mp h
  have hpairs := pairwise_candidates 0 0 (significant (tokenize line))
  refine ⟨i, ⟨t, ht, rfl, rfl⟩, mem_candidates_iff.mp (choose_mem hchoose), fun j hj => ?_, ?_, fun hnone j n hn => ?_⟩
  · exact choose_leftArrow hpairs hchoose (mem_candidates_iff.mpr hj)
  · rintro rfl
    obtain ⟨rest, name, dress, limits, hbefore, hname, hdress, hsubject, hlabel⟩ := declaration_of_subjectBefore hfound
    refine ⟨rest.reverse, name, dress, limits, ?_, hname, hdress, hsubject, hlabel⟩
    simpa using congrArg List.reverse hbefore
  · have hwins : Wins (i, m) (j, n) :=
      choose_wins hpairs hchoose (fun j hj => hnone j (mem_candidates_iff.mp hj)) _ (mem_candidates_iff.mpr hn)
    rcases hwins with hrank | ⟨rfl, hplace⟩
    · refine .inl (Marker.over_of_rank_lt ?_ hrank)
      rintro rfl
      exact hnone j hn
    · exact .inr ⟨rfl, hplace⟩

/-- The first of the input markers counts, not the stronger arrow before them. -/
theorem chosenAt_of_classifyLine_input : ∃ l, classifyLine "a ->> x [0:9] <- 3 <- 5".toList = some l ∧
    l.marker = .leftArrow ∧ l.markerBegin = 14 ∧ l.markerEnd = 16 ∧
      ∃ i, l.ChosenAt (significant (tokenize "a ->> x [0:9] <- 3 <- 5".toList)) i :=
  ⟨_, rfl, rfl, rfl, rfl, chosenAt_of_classifyLine rfl⟩

end ValueLine
end Worksheet
