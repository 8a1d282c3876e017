import Mathlib.Data.List.Basic
import Worksheet.Line.Classify
import Worksheet.Proofs.Token.Signs

/-! What a line says behind its marker. Comments, the markers that compete with the one that counts, and the
    text between them are read off the signs of the text behind the marker. -/

namespace Worksheet
namespace Classify
open Token

/-! ### Comments -/

/-- The characters of a comment and its offset. -/
def comment? : Sign → Option (Text × Nat)
  | .comment lexeme offset => some (lexeme, offset)
  | _ => none

/-- The comments among some signs. -/
def commentsOf (ss : List Sign) : List (Text × Nat) := ss.filterMap comment?

theorem commentsOf_append (ss us : List Sign) : commentsOf (ss ++ us) = commentsOf ss ++ commentsOf us :=
  List.filterMap_append

theorem commentsOf_shift (n : Nat) (ss : List Sign) :
    commentsOf (ss.map (Sign.shift n)) = (commentsOf ss).map fun c => (c.1, c.2 + n) := by
  unfold commentsOf
  rw [List.filterMap_map, List.map_filterMap]
  congr 1
  funext s
  cases s <;> rfl

theorem commentsOf_signs (ts : List Token) :
    commentsOf (signs ts) = (comments ts).map fun c => (c.lexeme, c.offset) := by
  induction ts with
  | nil => rfl
  | cons t ts ih =>
    rw [signs_cons, commentsOf_append, ih]
    unfold comments sign?
    rw [List.filter_cons]
    cases t.kind <;> simp [Kind.isComment, commentsOf, comment?]

/-- The text with blanks in place of some comments. -/
def blankAll (cs : List (Text × Nat)) (t : Text) : Text := cs.foldl (fun t c => blankOut t c.2 c.1.length) t

theorem blankComments_eq (t : Text) : blankComments t = blankAll (commentsOf (signs (tokenize t))) t := by
  unfold blankComments blankAll
  rw [commentsOf_signs, List.foldl_map]
  rfl

theorem blankAll_append (cs ds : List (Text × Nat)) (t : Text) : blankAll (cs ++ ds) t = blankAll ds (blankAll cs t) :=
  List.foldl_append

theorem blankAll_right (cs : List (Text × Nat)) (x t : Text) :
    blankAll (cs.map fun c => (c.1, c.2 + x.length)) (x ++ t) = x ++ blankAll cs t := by
  induction cs generalizing t with
  | nil => rfl
  | cons c cs ih =>
    have hone : blankOut (x ++ t) (c.2 + x.length) c.1.length = x ++ blankOut t c.2 c.1.length := by
      unfold blankOut
      rw [Nat.add_comm c.2, List.take_length_add_append, Nat.add_assoc, List.drop_length_add_append]
      simp only [List.append_assoc]
    unfold blankAll at ih ⊢
    rw [List.map_cons, List.foldl_cons, List.foldl_cons, hone]
    exact ih _

theorem blankAll_left {cs : List (Text × Nat)} {x : Text} (h : ∀ c ∈ cs, c.2 + c.1.length ≤ x.length) :
    ∃ y, y.length = x.length ∧ ∀ t, blankAll cs (x ++ t) = y ++ t := by
  induction cs generalizing x with
  | nil => exact ⟨x, rfl, fun t => rfl⟩
  | cons c cs ih =>
    have hc := h c List.mem_cons_self
    have hlength : (blankOut x c.2 c.1.length).length = x.length := by
      simp only [blankOut, Text.blanks, List.length_append, List.length_take, List.length_replicate, List.length_drop]
      omega
    have hone (t : Text) : blankOut (x ++ t) c.2 c.1.length = blankOut x c.2 c.1.length ++ t := by
      unfold blankOut
      rw [List.take_append_of_le_length (by omega), List.drop_append_of_le_length hc]
      simp only [List.append_assoc]
    obtain ⟨y, hy, hall⟩ := ih (x := blankOut x c.2 c.1.length) (by
      intro d hd
      rw [hlength]
      exact h d (List.mem_cons_of_mem c hd))
    refine ⟨y, hy.trans hlength, ?_⟩
    intro t
    rw [← hall, ← hone]
    rfl

/-! ### Markers that compete -/

/-- The markers outside brackets among some signs. -/
def marks (depth : Nat) : List Sign → List Marker
  | [] => []
  | .opening :: ss => marks (depth + 1) ss
  | .closing :: ss => marks (depth - 1) ss
  | .marker m :: ss => if depth = 0 then m :: marks depth ss else marks depth ss
  | .comment _ _ :: ss => marks depth ss

theorem marks_shift (n depth : Nat) (ss : List Sign) : marks depth (ss.map (Sign.shift n)) = marks depth ss := by
  induction ss generalizing depth with
  | nil => rfl
  | cons s ss ih =>
    cases s with
    | marker m => simp only [List.map_cons, Sign.shift, marks, ih]
    | opening => exact ih _
    | closing => exact ih _
    | comment lexeme offset => exact ih _

theorem candidates_cons (depth index : Nat) (t : Token) (ts : List Token) : candidates depth index (t :: ts) =
    match t.sign? with
    | some .opening => candidates (depth + 1) (index + 1) ts
    | some .closing => candidates (depth - 1) (index + 1) ts
    | some (.marker m) =>
      if depth = 0 then (index, m) :: candidates depth (index + 1) ts else candidates depth (index + 1) ts
    | _ => candidates depth (index + 1) ts := by
  unfold sign?
  rw [candidates]
  cases t.kind <;> rfl

theorem map_snd_candidates (depth index : Nat) (ts : List Token) :
    (candidates depth index (significant ts)).map (·.2) = marks depth (signs ts) := by
  induction ts generalizing depth index with
  | nil => rfl
  | cons t ts ih =>
    rw [signs_cons]
    cases hsilent : t.kind.isSilent with
    | true =>
      have hskip : significant (t :: ts) = significant ts := by simp [significant, hsilent]
      rw [hskip, ih]
      unfold sign?
      cases hk : t.kind <;> simp_all [Kind.isSilent, marks]
    | false =>
      have hkeep : significant (t :: ts) = t :: significant ts := by simp [significant, hsilent]
      rw [hkeep, candidates_cons]
      cases hs : t.sign? with
      | none => exact ih _ _
      | some s =>
        cases s with
        | opening => exact ih _ _
        | closing => exact ih _ _
        | comment lexeme offset => exact ih _ _
        | marker m =>
          simp only [Option.toList_some, List.cons_append, List.nil_append, marks]
          split
          · rw [List.map_cons, ih]
          · exact ih _ _

/-- The depth behind a token. -/
def deeper (depth : Nat) (t : Token) : Nat :=
  match t.kind with
  | .openBracket => depth + 1
  | .closeBracket => depth - 1
  | _ => depth

theorem candidates_deeper (depth index : Nat) (t : Token) (ts : List Token) : candidates depth index (t :: ts) =
    match t.kind.marker? with
    | some m =>
      if deeper depth t = 0 then (index, m) :: candidates (deeper depth t) (index + 1) ts
      else candidates (deeper depth t) (index + 1) ts
    | none => candidates (deeper depth t) (index + 1) ts := rfl

theorem candidates_append (depth index : Nat) (ts us : List Token) : candidates depth index (ts ++ us) =
    candidates depth index ts ++ candidates (ts.foldl deeper depth) (index + ts.length) us := by
  induction ts generalizing depth index with
  | nil => rfl
  | cons t ts ih =>
    have hindex : index + (ts.length + 1) = index + 1 + ts.length := by omega
    rw [List.cons_append, candidates_deeper, candidates_deeper, List.length_cons, List.foldl_cons, hindex]
    split
    · split
      · rw [List.cons_append, ih]
      · exact ih _ _
    · exact ih _ _

/-- A candidate is a marker at its index. -/
theorem candidates_spec {depth index j : Nat} {m : Marker} {ts : List Token} (h : (j, m) ∈ candidates depth index ts) :
    index ≤ j ∧ ∃ t, ts[j - index]? = some t ∧ t.kind.marker? = some m := by
  induction ts generalizing depth index with
  | nil => cases h
  | cons t ts ih =>
    have hlater {depth : Nat} (h : (j, m) ∈ candidates depth (index + 1) ts) :
        index ≤ j ∧ ∃ u, (t :: ts)[j - index]? = some u ∧ u.kind.marker? = some m := by
      obtain ⟨hle, u, hu, hm⟩ := ih h
      refine ⟨by omega, u, ?_, hm⟩
      have hindex : j - index = (j - (index + 1)) + 1 := by omega
      rw [hindex, List.getElem?_cons_succ, hu]
    rw [candidates_deeper] at h
    split at h
    · rename_i n hm
      split at h
      · rcases List.mem_cons.mp h with h | h
        · obtain ⟨rfl, rfl⟩ := Prod.mk.inj h
          exact ⟨Nat.le_refl _, t, by simp, hm⟩
        · exact hlater h
      · exact hlater h
    · exact hlater h

/-! ### The choice between markers -/

theorem foldl_preferred_mem (c : Nat × Marker) (cs : List (Nat × Marker)) : cs.foldl preferred c ∈ c :: cs := by
  induction cs generalizing c with
  | nil => exact List.mem_singleton.mpr rfl
  | cons d cs ih =>
    rw [List.foldl_cons]
    have hmem := ih (preferred c d)
    have hone : preferred c d = c ∨ preferred c d = d := by
      unfold preferred
      split
      · exact .inr rfl
      · exact .inl rfl
    have hsub : preferred c d :: cs ⊆ c :: d :: cs := by
      rcases hone with h | h <;> simp [h]
    exact hsub hmem

theorem choose_mem {cs : List (Nat × Marker)} {x : Nat × Marker} (h : choose cs = some x) : x ∈ cs := by
  unfold choose at h
  split at h
  · rename_i c hc
    obtain rfl := Option.some.inj h
    exact List.mem_of_find?_eq_some hc
  · split at h
    · cases h
    · obtain rfl := Option.some.inj h
      exact foldl_preferred_mem _ _

/-- A candidate that is kept before those behind index `n` has been the one before them, and none of them is
    preferred. -/
theorem of_foldl_preferred {n : Nat} {c x : Nat × Marker} {cs : List (Nat × Marker)} (hcs : ∀ d ∈ cs, n ≤ d.1)
    (hx : x.1 < n) (h : cs.foldl preferred c = x) : c = x ∧ ∀ d ∈ cs, preferred x d = x := by
  induction cs generalizing c with
  | nil => exact ⟨h, by simp⟩
  | cons d cs ih =>
    obtain ⟨hd, hall⟩ := ih (fun e he => hcs e (List.mem_cons_of_mem d he)) h
    have hle := hcs d List.mem_cons_self
    have hc : c = x := by
      unfold preferred at hd
      split at hd
      · rw [hd] at hle
        omega
      · exact hd
    subst hc
    exact ⟨rfl, List.forall_mem_cons.mpr ⟨hd, hall⟩⟩

theorem foldl_preferred_eq {x : Nat × Marker} {cs : List (Nat × Marker)} (h : ∀ d ∈ cs, preferred x d = x) :
    cs.foldl preferred x = x := by
  induction cs with
  | nil => rfl
  | cons d cs ih =>
    rw [List.foldl_cons, h d List.mem_cons_self]
    exact ih fun e he => h e (List.mem_cons_of_mem d he)

/-- A candidate before index `n` stays the choice when those behind it become others of the same markers, or
    fewer. -/
theorem choose_behind {n : Nat} {cs ds ds' : List (Nat × Marker)} {x : Nat × Marker} (hds : ∀ d ∈ ds, n ≤ d.1)
    (hsub : ds'.map (·.2) ⊆ ds.map (·.2)) (hx : x.1 < n) (h : choose (cs ++ ds) = some x) :
    choose (cs ++ ds') = some x := by
  have hsame : ∀ d' ∈ ds', ∃ d ∈ ds, d.2 = d'.2 := fun d' hd' => List.mem_map.mp (hsub (List.mem_map_of_mem hd'))
  have hbehind : ∀ d ∈ ds, d ≠ x := by
    rintro d hd rfl
    exact absurd (hds d hd) (Nat.not_le_of_lt hx)
  unfold choose at h ⊢
  rw [List.find?_append] at h ⊢
  cases hcs : cs.find? (·.2 == .leftArrow) with
  | some c => simpa [hcs] using h
  | none =>
    have hds' : ds.find? (·.2 == .leftArrow) = none := by
      cases hfind : ds.find? (·.2 == .leftArrow) with
      | none => rfl
      | some d =>
        rw [hcs, hfind] at h
        exact absurd (Option.some.inj h) (hbehind d (List.mem_of_find?_eq_some hfind))
    have hnone : ds'.find? (·.2 == .leftArrow) = none := by
      rw [List.find?_eq_none] at hds' ⊢
      intro d' hd'
      obtain ⟨d, hd, heq⟩ := hsame d' hd'
      rw [← heq]
      exact hds' d hd
    rw [hcs, hds'] at h
    rw [hnone]
    cases cs with
    | nil =>
      -- Something that stands behind is chosen.
      cases ds with
      | nil => cases h
      | cons d ds => exact absurd (Option.some.inj h) fun heq => hbehind _ (foldl_preferred_mem d ds) heq
    | cons c cs =>
      simp only [List.cons_append, List.foldl_append, Option.or_none] at h ⊢
      obtain ⟨hfirst, hkept⟩ := of_foldl_preferred hds hx (Option.some.inj h)
      rw [hfirst]
      refine congrArg some (foldl_preferred_eq fun d' hd' => ?_)
      obtain ⟨d, hd, heq⟩ := hsame d' hd'
      have hlost := hkept d hd
      unfold preferred at hlost ⊢
      rw [← heq]
      split
      · rename_i hwins
        rw [if_pos hwins] at hlost
        exact absurd hlost (hbehind d hd)
      · rfl

/-- What stands behind index `n` competes only by its markers. -/
theorem choose_append {ts us us' : List Token} {j : Nat} {m : Marker}
    (hx : choose (candidates 0 0 (ts ++ significant us)) = some (j, m)) (hj : j < ts.length)
    (hmarks : ∀ depth, marks depth (signs us') ⊆ marks depth (signs us)) :
    choose (candidates 0 0 (ts ++ significant us')) = some (j, m) := by
  rw [candidates_append] at hx ⊢
  generalize ts.foldl deeper 0 = depth at hx ⊢
  refine choose_behind ?_ ?_ hj hx
  · intro x hx
    simpa using (candidates_spec hx).1
  · rw [map_snd_candidates, map_snd_candidates]
    exact hmarks depth

/-! ### The subject before the marker -/

theorem slice_take {line : Text} {n first last : Nat} (h : last ≤ n) :
    Text.slice (line.take n) first last = Text.slice line first last := by
  unfold Text.slice
  rw [List.drop_take, List.take_take, Nat.min_eq_left (by omega)]

theorem takeSuffixes_subset (d : Decoration) (ts : List Token) : (takeSuffixes d ts).2 ⊆ ts := by
  induction ts generalizing d with
  | nil => exact List.Subset.refl _
  | cons t ts ih =>
    unfold takeSuffixes
    split
    · exact List.Subset.trans (ih _) (List.subset_cons_self t ts)
    · exact List.Subset.refl _

theorem findOpen_colon {P : Token → Prop} {depth : Nat} {colon : Option Token} {ts : List Token}
    {r : Option Token × Token × List Token} (hcolon : ∀ c ∈ colon, P c) (hts : ∀ t ∈ ts, P t)
    (h : findOpen depth colon ts = some r) : ∀ c ∈ r.1, P c := by
  induction ts generalizing depth colon with
  | nil => cases h
  | cons t ts ih =>
    have hts' : ∀ u ∈ ts, P u := fun u hu => hts u (List.mem_cons_of_mem t hu)
    unfold findOpen at h
    split at h
    · exact ih hcolon hts' h
    · split at h
      · obtain rfl := Option.some.inj h
        exact hcolon
      · exact ih hcolon hts' h
    · refine ih ?_ hts' h
      split
      · cases colon with
        | none => simpa using hts t List.mem_cons_self
        | some c => simpa using hcolon
      · exact hcolon
    · exact ih hcolon hts' h

theorem readHead_take {line : Text} {n : Nat} {d : Decoration} {before : List Token}
    (h : ∀ t ∈ before, t.endOffset ≤ n) : readHead (line.take n) d before = readHead line d before := by
  have hoffset : ∀ t ∈ before, t.offset ≤ n := fun t ht => Nat.le_trans (Nat.le_add_right _ _) (h t ht)
  unfold readHead
  have hsubset := takeSuffixes_subset d before
  generalize takeSuffixes d before = passed at hsubset ⊢
  obtain ⟨d', rest⟩ := passed
  dsimp only at hsubset ⊢
  cases rest with
  | nil => rfl
  | cons closing rest =>
    dsimp only
    cases hopen : findOpen 0 none (closing :: rest) with
    | none => cases closing.kind <;> rfl
    | some r =>
      obtain ⟨colon, opening, rest'⟩ := r
      have hnone : ∀ c ∈ (none : Option Token), c.offset ≤ n := by simp
      have hcolon : ∀ c ∈ (colon, opening, rest').1, c.offset ≤ n :=
        findOpen_colon hnone (fun t ht => hoffset t (hsubset ht)) hopen
      have hlimits : (colon.map fun c => limitsBetween (line.take n) opening c closing) =
          colon.map fun c => limitsBetween line opening c closing := by
        cases colon with
        | none => rfl
        | some c =>
          have hc := hcolon c rfl
          have hclosing := hoffset closing (hsubset List.mem_cons_self)
          simp only [Option.map_some, limitsBetween, slice_take hc, slice_take hclosing]
      cases closing.kind <;> simp only [hlimits]

theorem expressionBefore_take {line : Text} {n : Nat} {d : Decoration} {before : List Token}
    (h : ∀ t ∈ before, t.endOffset ≤ n) : expressionBefore (line.take n) d before = expressionBefore line d before := by
  unfold expressionBefore
  cases before with
  | nil => rfl
  | cons last rest =>
    have hlast := h last List.mem_cons_self
    cases expressionStart (last :: rest) with
    | nil => rfl
    | cons first more =>
      dsimp only
      rw [slice_take hlast]

/-- The subject is read off the text before the marker. -/
theorem subjectBefore_take {line : Text} {n : Nat} {m : Marker} {d : Decoration} {before : List Token}
    (h : ∀ t ∈ before, t.endOffset ≤ n) : subjectBefore (line.take n) m d before = subjectBefore line m d before := by
  unfold subjectBefore
  rw [readHead_take h, expressionBefore_take h]

/-! ### The parts of a value line -/

def isOpenBrace (t : Token) : Bool :=
  match t.kind with
  | .openBrace => true
  | _ => false

/-- A block is opened behind the token at `index`. -/
def opensBlock (sig : List Token) (index : Nat) : Bool := (sig[index + 1]?).any isOpenBrace

/-- The value line whose marker is `t`. -/
def lineAt (line : Text) (ts : List Token) (m : Marker) (t : Token) (found : Finding) : ValueLine where
  subject := found.subject
  marker := m
  decoration := found.decoration
  markerBegin := t.offset
  markerEnd := t.endOffset
  labelEnd := found.labelEnd
  valueText := (valueBehind m (Text.trim ((blankComments line).drop t.endOffset))).1
  unit := (valueBehind m (Text.trim ((blankComments line).drop t.endOffset))).2
  trailing := joinBlank (((comments ts).filter fun c => t.endOffset ≤ c.offset).map Token.lexeme)
  quoted := lastQuoted ts (((significant ts).getLast?.map Token.endOffset).getD 0)

theorem ofTokens_eq_some_iff {line : Text} {ts : List Token} {l : ValueLine} : ofTokens line ts = some l ↔
    ∃ index m t found, choose (candidates 0 0 (significant ts)) = some (index, m) ∧ (significant ts)[index]? = some t ∧
      index ≠ 0 ∧ opensBlock (significant ts) index = false ∧
      subjectBefore line m ⟨t.kind.style, t.kind.base⟩ ((significant ts).take index).reverse = some found ∧
      l = lineAt line ts m t found := by
  unfold ofTokens
  dsimp only
  constructor
  · intro h
    obtain ⟨⟨index, m⟩, hchoose, h⟩ := Option.bind_eq_some_iff.mp h
    obtain ⟨t, ht, h⟩ := Option.bind_eq_some_iff.mp h
    dsimp only at h
    split at h
    · cases h
    · rename_i hfree
      simp only [Bool.or_eq_true, decide_eq_true_eq, not_or, Bool.not_eq_true] at hfree
      obtain ⟨found, hfound, h⟩ := Option.bind_eq_some_iff.mp h
      exact ⟨index, m, t, found, hchoose, ht, hfree.1, hfree.2, hfound, (Option.some.inj h).symm⟩
  · rintro ⟨index, m, t, found, hchoose, ht, hindex, hopens, hfound, rfl⟩
    refine Option.bind_eq_some_iff.mpr ⟨(index, m), hchoose, Option.bind_eq_some_iff.mpr ⟨t, ht, ?_⟩⟩
    dsimp only
    rw [if_neg]
    · exact Option.bind_eq_some_iff.mpr ⟨found, hfound, rfl⟩
    · simp only [Bool.or_eq_true, decide_eq_true_eq, not_or, Bool.not_eq_true]
      exact ⟨hindex, hopens⟩

/-! ### Behind the marker -/

/-- The tokens of a line that are known up to and with a marker which ends at the end of `h`. -/
structure ReadsUpTo (h : Text) (pre : List Token) (t : Token) (m : Marker) : Prop where
  kind : t.kind.marker? = some m
  lexeme_ne_nil : t.lexeme ≠ []
  endOffset : t.endOffset = h.length
  before : ∀ a ∈ pre, a.endOffset ≤ t.offset
  tokens : ∀ u, m.Walled u → tokenize (h ++ u) = pre ++ t :: Lexer.lexFrom 0 {} (Position.advance {} h) u

theorem readsUpTo_of_tokenize {h u : Text} {pre post : List Token} {t : Token} {m : Marker}
    (htokens : tokenize (h ++ u) = pre ++ t :: post) (hend : t.endOffset = h.length) (hkind : t.kind.marker? = some m) :
    ReadsUpTo h pre t m ∧ m.Walled u ∧ post = Lexer.lexFrom 0 {} (Position.advance {} h) u := by
  have hmarker : ∃ d, t.kind = .marker m d := by
    cases hk : t.kind <;> simp_all [Kind.marker?]
  obtain ⟨d, hd⟩ := hmarker
  obtain ⟨hu, hall⟩ := Lexer.tokenize_marker htokens hend hd
  have hordered := Lexer.pairwise_lexFrom 0 {} {} (h ++ u)
  have hbefore : ∀ a ∈ pre, a.endOffset ≤ t.offset := by
    intro a ha
    have hpairs : (pre ++ t :: post).Pairwise fun a b => a.endOffset ≤ b.offset := htokens ▸ hordered
    exact (List.pairwise_append.mp hpairs).2.2 a ha t List.mem_cons_self
  have hlexeme : t.lexeme ≠ [] := by
    have hmem : t ∈ Lexer.lexFrom 0 {} {} (h ++ u) := by
      show t ∈ tokenize (h ++ u)
      simp [htokens]
    obtain ⟨x, z, u₀, -, hlexeme, -⟩ := Lexer.marker_of_mem_lexFrom hmem hd
    simp [hlexeme, m.text_ne_nil]
  refine ⟨⟨hkind, hlexeme, hend, hbefore, hall⟩, hu, ?_⟩
  have hsame := htokens.symm.trans (hall u hu)
  exact (List.cons.inj (List.append_cancel_left hsame)).2

section Behind
variable {h u : Text} {pre : List Token} {t : Token} {m : Marker}

theorem ReadsUpTo.sign? (hr : ReadsUpTo h pre t m) : t.sign? = some (.marker m) := by
  have hkind := hr.kind
  unfold Token.sign?
  cases hk : t.kind <;> simp_all [Kind.marker?]

theorem ReadsUpTo.signs_tokenize (hr : ReadsUpTo h pre t m) (hu : m.Walled u) : signs (tokenize (h ++ u)) =
    signs pre ++ .marker m :: (signs (tokenize u)).map (Sign.shift h.length) := by
  have hoffset : (Position.advance {} h).offset = ({} : Position).offset + h.length := Position.advance_offset {} h
  rw [hr.tokens u hu, signs_append, signs_cons, hr.sign?, Lexer.signs_lexFrom_moved hoffset]
  rfl

/-- The comments before the marker and those behind it are blanked by themselves. -/
theorem ReadsUpTo.exists_blankComments (hr : ReadsUpTo h pre t m) :
    ∃ y, y.length = h.length ∧ ∀ u, m.Walled u → blankComments (h ++ u) = y ++ blankComments u := by
  have hpre : ∀ c ∈ commentsOf (signs pre), c.2 + c.1.length ≤ h.length := by
    intro c hc
    rw [commentsOf_signs] at hc
    obtain ⟨a, ha, rfl⟩ := List.mem_map.mp hc
    have hle := hr.before a (List.mem_of_mem_filter ha)
    have hend := hr.endOffset
    simp only [Token.endOffset, Token.length] at hend hle ⊢
    omega
  obtain ⟨y, hy, hleft⟩ := blankAll_left hpre
  refine ⟨y, hy, fun u hu => ?_⟩
  have hsplit : commentsOf (signs (tokenize (h ++ u))) = commentsOf (signs pre) ++
      (commentsOf (signs (tokenize u))).map fun c => (c.1, c.2 + y.length) := by
    rw [hr.signs_tokenize hu, commentsOf_append, hy, ← commentsOf_shift]
    rfl
  rw [blankComments_eq, blankComments_eq, hsplit, blankAll_append, hleft, blankAll_right]

theorem ReadsUpTo.blankComments_drop (hr : ReadsUpTo h pre t m) (hu : m.Walled u) :
    (blankComments (h ++ u)).drop h.length = blankComments u := by
  obtain ⟨y, hy, hall⟩ := hr.exists_blankComments
  rw [hall u hu, ← hy, List.drop_left]

/-- The comments behind the marker trail the value. -/
theorem ReadsUpTo.trailing (hr : ReadsUpTo h pre t m) (hu : m.Walled u) :
    ((comments (tokenize (h ++ u))).filter fun c => t.endOffset ≤ c.offset).map Token.lexeme =
      (commentsOf (signs (tokenize u))).map (·.1) := by
  have hpre : (comments pre).filter (fun c => t.endOffset ≤ c.offset) = [] := by
    rw [List.filter_eq_nil_iff]
    intro c hc
    have hle := hr.before c (List.mem_of_mem_filter hc)
    have hpos : 0 < t.lexeme.length := List.length_pos_iff.mpr hr.lexeme_ne_nil
    intro hge
    have hge' : t.endOffset ≤ c.offset := of_decide_eq_true hge
    simp only [Token.endOffset, Token.length] at hle hge'
    omega
  have htail : (comments (Lexer.lexFrom 0 {} (Position.advance {} h) u)).filter (fun c => t.endOffset ≤ c.offset) =
      comments (Lexer.lexFrom 0 {} (Position.advance {} h) u) := by
    rw [List.filter_eq_self]
    intro c hc
    have hle := Lexer.offset_of_mem_lexFrom (List.mem_of_mem_filter hc)
    rw [Position.advance_offset] at hle
    have hend := hr.endOffset
    simp only [decide_eq_true_eq]
    omega
  have ht : t.kind.isComment = false := by
    have hkind := hr.kind
    cases hk : t.kind <;> simp_all [Kind.marker?, Kind.isComment]
  have hoffset : (Position.advance {} h).offset = ({} : Position).offset + h.length := Position.advance_offset {} h
  have hmap (ts : List Token) : (comments ts).map Token.lexeme = (commentsOf (signs ts)).map (·.1) := by
    rw [commentsOf_signs, List.map_map]
    rfl
  have hsplit : comments (tokenize (h ++ u)) = comments pre ++ comments (Lexer.lexFrom 0 {} (Position.advance {} h) u) := by
    rw [hr.tokens u hu]
    unfold comments
    rw [List.filter_append, List.filter_cons_of_neg (by simp [ht])]
  rw [hsplit, List.filter_append, hpre, htail, List.nil_append, hmap, Lexer.signs_lexFrom_moved hoffset, commentsOf_shift,
    List.map_map]
  rfl

/-- A filtered list that is cut at one of its elements. -/
theorem exists_append_of_filter {α : Type} {p : α → Bool} {xs : List α} {i : Nat} {a : α} (h : (xs.filter p)[i]? = some a) :
    ∃ pre post, xs = pre ++ a :: post ∧ pre.filter p = (xs.filter p).take i ∧ p a = true := by
  have ha : p a = true := (List.mem_filter.mp (List.mem_of_getElem? h)).2
  induction xs generalizing i with
  | nil => cases h
  | cons x xs ih =>
    cases hx : p x with
    | false =>
      rw [List.filter_cons_of_neg (by simp [hx])] at h ⊢
      obtain ⟨pre, post, rfl, hpre, -⟩ := ih h
      refine ⟨x :: pre, post, rfl, ?_, ha⟩
      rw [List.filter_cons_of_neg (by simp [hx]), hpre]
    | true =>
      rw [List.filter_cons_of_pos hx] at h ⊢
      cases i with
      | zero =>
        obtain rfl := Option.some.inj h
        exact ⟨[], xs, rfl, rfl, ha⟩
      | succ i =>
        obtain ⟨pre, post, rfl, hpre, -⟩ := ih h
        refine ⟨x :: pre, post, rfl, ?_, ha⟩
        rw [List.filter_cons_of_pos hx, hpre, List.take_succ_cons]

/-- A line is known up to each of its markers. -/
theorem readsUpTo_of_significant {index : Nat} (ht : (significant (tokenize (h ++ u)))[index]? = some t)
    (hend : t.endOffset = h.length) (hkind : t.kind.marker? = some m) :
    ∃ pre, ReadsUpTo h pre t m ∧ m.Walled u ∧ t.kind.isSilent = false ∧ (significant pre).length = index := by
  obtain ⟨pre, post, htokens, hpre, hloud⟩ := exists_append_of_filter ht
  obtain ⟨hr, hu, -⟩ := readsUpTo_of_tokenize htokens hend hkind
  refine ⟨pre, hr, hu, by simpa using hloud, ?_⟩
  obtain ⟨hlt, -⟩ := List.getElem?_eq_some_iff.mp ht
  show (pre.filter _).length = index
  rw [hpre, List.length_take]
  exact Nat.min_eq_left (Nat.le_of_lt hlt)

/-- A line with a value line is known up to the marker that counts. -/
theorem exists_readsUpTo {l : ValueLine} (hl : classifyLine (h ++ u) = some l) (hend : l.markerEnd = h.length) :
    ∃ pre t found, ReadsUpTo h pre t l.marker ∧ l.marker.Walled u ∧ t.kind.isSilent = false ∧
      l = lineAt (h ++ u) (tokenize (h ++ u)) l.marker t found ∧
      choose (candidates 0 0 (significant (tokenize (h ++ u)))) = some ((significant pre).length, l.marker) ∧
      (significant pre).length ≠ 0 ∧ subjectBefore (h ++ u) l.marker ⟨t.kind.style, t.kind.base⟩
        ((significant (tokenize (h ++ u))).take (significant pre).length).reverse = some found := by
  obtain ⟨index, m, t, found, hchoose, ht, hindex, -, hfound, rfl⟩ := ofTokens_eq_some_iff.mp hl
  have hkind : t.kind.marker? = some m := by
    obtain ⟨-, a, ha, hm⟩ := candidates_spec (choose_mem hchoose)
    obtain rfl := Option.some.inj (ht.symm.trans ha)
    exact hm
  obtain ⟨pre, hr, hu, hloud, rfl⟩ := readsUpTo_of_significant ht hend hkind
  exact ⟨pre, t, found, hr, hu, hloud, rfl, hchoose, hindex, hfound⟩

theorem ReadsUpTo.significant_tokenize (hr : ReadsUpTo h pre t m) (hu : m.Walled u) (ht : t.kind.isSilent = false) :
    significant (tokenize (h ++ u)) =
      (significant pre ++ [t]) ++ significant (Lexer.lexFrom 0 {} (Position.advance {} h) u) := by
  rw [hr.tokens u hu]
  unfold significant
  rw [List.filter_append, List.append_assoc]
  congr 1
  exact List.filter_cons_of_pos (by simp [ht])

/-- The subject is the same whatever stands behind the marker. -/
theorem ReadsUpTo.subjectBefore_eq (hr : ReadsUpTo h pre t m) (hu : m.Walled u) (ht : t.kind.isSilent = false)
    (d : Decoration) :
    subjectBefore (h ++ u) m d ((significant (tokenize (h ++ u))).take (significant pre).length).reverse =
      subjectBefore h m d (significant pre).reverse := by
  have hwithin : ∀ a ∈ (significant pre).reverse, a.endOffset ≤ h.length := by
    intro a ha
    have hle := hr.before a (List.mem_of_mem_filter (List.mem_reverse.mp ha))
    have hend := hr.endOffset
    simp only [Token.endOffset, Token.length] at hle hend ⊢
    omega
  rw [hr.significant_tokenize hu ht, List.append_assoc, List.take_left, ← subjectBefore_take hwithin, List.take_left]

/-- The value, the unit and the comments of a line are read off the text behind its marker. -/
theorem classifyLine_payload {l : ValueLine} (hl : classifyLine (h ++ u) = some l) (hend : l.markerEnd = h.length) :
    (l.valueText, l.unit) = valueBehind l.marker (Text.trim (blankComments u)) ∧
      l.trailing = joinBlank ((commentsOf (signs (tokenize u))).map (·.1)) := by
  obtain ⟨pre, t, found, hr, hu, -, hline, -⟩ := exists_readsUpTo hl hend
  have hpayload : (blankComments (h ++ u)).drop t.endOffset = blankComments u := by
    rw [hr.endOffset, hr.blankComments_drop hu]
  rw [hline]
  unfold lineAt
  dsimp only
  rw [hpayload, hr.trailing hu]
  exact ⟨rfl, rfl⟩

/-- The marker that counts does so as long as no other markers stand behind it. -/
theorem ReadsUpTo.choose_eq (hr : ReadsUpTo h pre t m) {u' : Text} (hu : m.Walled u) (hu' : m.Walled u')
    (ht : t.kind.isSilent = false)
    (hmarks : ∀ depth, marks depth (signs (tokenize u')) ⊆ marks depth (signs (tokenize u)))
    (hchoose : choose (candidates 0 0 (significant (tokenize (h ++ u)))) = some ((significant pre).length, m)) :
    choose (candidates 0 0 (significant (tokenize (h ++ u')))) = some ((significant pre).length, m) := by
  have hoffset : (Position.advance {} h).offset = ({} : Position).offset + h.length := Position.advance_offset {} h
  rw [hr.significant_tokenize hu ht] at hchoose
  rw [hr.significant_tokenize hu' ht]
  refine choose_append hchoose (by simp) fun depth => ?_
  rw [Lexer.signs_lexFrom_moved hoffset, Lexer.signs_lexFrom_moved hoffset, marks_shift, marks_shift]
  exact hmarks depth

/-- A block is opened by the first token behind the marker. -/
theorem ReadsUpTo.opensBlock_eq (hr : ReadsUpTo h pre t m) (hu : m.Walled u) (ht : t.kind.isSilent = false) :
    opensBlock (significant (tokenize (h ++ u))) (significant pre).length =
      (significant (Lexer.lexFrom 0 {} (Position.advance {} h) u)).head?.any isOpenBrace := by
  unfold opensBlock
  rw [hr.significant_tokenize hu ht, List.getElem?_append_right (by simp), List.head?_eq_getElem?]
  simp

theorem ReadsUpTo.getElem?_significant (hr : ReadsUpTo h pre t m) (hu : m.Walled u) (ht : t.kind.isSilent = false) :
    (significant (tokenize (h ++ u)))[(significant pre).length]? = some t := by
  rw [hr.significant_tokenize hu ht]
  simp

/-- The value line of a line depends on what stands behind its marker only through the markers there, the token
    right behind it, the comments and the text between these. -/
theorem classifyLine_behind {u' : Text} {l : ValueLine} (hl : classifyLine (h ++ u) = some l)
    (hend : l.markerEnd = h.length) (hu' : l.marker.Walled u')
    (hmarks : ∀ depth, marks depth (signs (tokenize u')) ⊆ marks depth (signs (tokenize u)))
    (hblock : ∀ p, (significant (Lexer.lexFrom 0 {} p u')).head?.any isOpenBrace = false) :
    ∃ quoted, classifyLine (h ++ u') = some { l with
      valueText := (valueBehind l.marker (Text.trim (blankComments u'))).1
      unit := (valueBehind l.marker (Text.trim (blankComments u'))).2
      trailing := joinBlank ((commentsOf (signs (tokenize u'))).map (·.1))
      quoted } := by
  obtain ⟨pre, t, found, hr, hu, ht, hline, hchoose, hindex, hfound⟩ := exists_readsUpTo hl hend
  -- The choice depends on the markers alone, and behind stand none but those there were.
  have hchoose' := hr.choose_eq hu hu' ht hmarks hchoose
  have ht' := hr.getElem?_significant hu' ht
  have hopens' := (hr.opensBlock_eq hu' ht).trans (hblock _)
  rw [hr.subjectBefore_eq hu ht] at hfound
  have hfound' := (hr.subjectBefore_eq hu' ht ⟨t.kind.style, t.kind.base⟩).trans hfound
  refine ⟨(lineAt (h ++ u') (tokenize (h ++ u')) l.marker t found).quoted,
    ofTokens_eq_some_iff.mpr ⟨_, l.marker, t, found, hchoose', ht', hindex, hopens', hfound', ?_⟩⟩
  have hpayload : (blankComments (h ++ u')).drop t.endOffset = blankComments u' := by
    rw [hr.endOffset, hr.blankComments_drop hu']
  rw [hline]
  unfold lineAt
  dsimp only
  rw [hpayload, hr.trailing hu']

/-- A line is no value line any more once its marker opens a block. -/
theorem classifyLine_block {u' : Text} {l : ValueLine} (hl : classifyLine (h ++ u) = some l)
    (hend : l.markerEnd = h.length) (hu' : l.marker.Walled u')
    (hmarks : ∀ depth, marks depth (signs (tokenize u')) ⊆ marks depth (signs (tokenize u)))
    (hblock : ∀ p, (significant (Lexer.lexFrom 0 {} p u')).head?.any isOpenBrace = true) :
    classifyLine (h ++ u') = none := by
  obtain ⟨pre, t, found, hr, hu, ht, -, hchoose, -, -⟩ := exists_readsUpTo hl hend
  have hchoose' := hr.choose_eq hu hu' ht hmarks hchoose
  have hopens' := (hr.opensBlock_eq hu' ht).trans (hblock _)
  refine Option.eq_none_iff_forall_ne_some.mpr fun l' hl' => ?_
  obtain ⟨index, m, -, -, hother, -, -, hfree, -, -⟩ := ofTokens_eq_some_iff.mp hl'
  obtain ⟨rfl, rfl⟩ := Prod.mk.inj (Option.some.inj (hother.symm.trans hchoose'))
  rw [hopens'] at hfree
  cases hfree

end Behind

/-! ### Putting a word behind the marker -/

section Insert
variable {h v t : Text} {l : ValueLine}

/-- A word behind a blank leaves the signs behind it as they are. -/
theorem signs_word (hv : ∀ c ∈ v, Lexer.isWordPart c = true) (ht : Text.Ends t) :
    signs (tokenize (' ' :: (v ++ t))) = (signs (tokenize t)).map (Sign.shift (v.length + 1)) := by
  obtain ⟨toks, before, htoks, hordinary, -⟩ :=
    Lexer.lexFrom_word 0 {} (Position.after {} ' ') hv ht (.inl (Nat.zero_le _))
  have hlex : tokenize (' ' :: (v ++ t)) = toks ++ Lexer.lexFrom 0 before ((Position.after {} ' ').advance v) t :=
    (Lexer.lexFrom_blank rfl).trans htoks
  have hoffset : ((Position.after {} ' ').advance v).offset = ({} : Position).offset + (v.length + 1) := by
    rw [Position.advance_offset, Position.after_offset]
    omega
  rw [hlex, signs_append, signs_of_isOrdinary hordinary, List.nil_append, Lexer.signs_lexFrom_ends ht before {},
    Lexer.signs_lexFrom_moved hoffset]
  rfl

theorem blankComments_word (hv : ∀ c ∈ v, Lexer.isWordPart c = true) (ht : Text.Ends t) :
    blankComments (' ' :: (v ++ t)) = ' ' :: (v ++ blankComments t) := by
  rw [blankComments_eq, blankComments_eq, signs_word hv ht, commentsOf_shift]
  exact blankAll_right _ (' ' :: v) t

/-- A line keeps its value line when a word is put behind the marker, and what stands behind the word has no marker
    that was not there before. -/
theorem classifyLine_word {u : Text} (hl : classifyLine (h ++ u) = some l) (hend : l.markerEnd = h.length)
    (hv : ∀ c ∈ v, Lexer.isWordPart c = true) (hne : v ≠ []) (ht : Text.Ends t)
    (hmarks : ∀ depth, marks depth (signs (tokenize t)) ⊆ marks depth (signs (tokenize u))) :
    ∃ quoted, classifyLine (h ++ ' ' :: (v ++ t)) = some { l with
      valueText := (valueBehind l.marker (Text.trim (v ++ blankComments t))).1
      unit := (valueBehind l.marker (Text.trim (v ++ blankComments t))).2
      trailing := joinBlank ((commentsOf (signs (tokenize t))).map (·.1))
      quoted } := by
  have hword (depth : Nat) : marks depth (signs (tokenize (' ' :: (v ++ t)))) ⊆ marks depth (signs (tokenize u)) := by
    rw [signs_word hv ht, marks_shift]
    exact hmarks depth
  have hblock (p : Position) :
      (significant (Lexer.lexFrom 0 {} p (' ' :: (v ++ t)))).head?.any isOpenBrace = false := by
    obtain ⟨toks, before, htoks, hordinary, hnonempty⟩ :=
      Lexer.lexFrom_word 0 {} (p.after ' ') hv ht (.inl (Nat.zero_le _))
    obtain ⟨a, toks, rfl⟩ := List.exists_cons_of_ne_nil (hnonempty rfl hne)
    have ha := hordinary a List.mem_cons_self
    have hlex : Lexer.lexFrom 0 {} p (' ' :: (v ++ t)) = _ := (Lexer.lexFrom_blank rfl).trans htoks
    rw [hlex]
    unfold significant isOpenBrace
    cases hk : a.kind <;> simp_all [Lexer.isOrdinary, Kind.isSilent]
  obtain ⟨quoted, hquoted⟩ :=
    classifyLine_behind hl hend (Lexer.walled_of_ends (by simp [Byte.isBlank]) _) hword hblock
  rw [blankComments_word hv ht, Text.trim_blank_cons rfl, signs_word hv ht, commentsOf_shift, List.map_map] at hquoted
  exact ⟨quoted, hquoted⟩

/-- A line keeps its value line when a word is put behind the marker; the word belongs to the value and the unit. -/
theorem classifyLine_insert (hl : classifyLine (h ++ t) = some l) (hend : l.markerEnd = h.length)
    (hv : ∀ c ∈ v, Lexer.isWordPart c = true) (hne : v ≠ []) (ht : Text.Ends t) :
    ∃ quoted, classifyLine (h ++ ' ' :: (v ++ t)) = some { l with
      valueText := (valueBehind l.marker (Text.trim (v ++ blankComments t))).1
      unit := (valueBehind l.marker (Text.trim (v ++ blankComments t))).2
      quoted } := by
  obtain ⟨quoted, hquoted⟩ := classifyLine_word hl hend hv hne ht fun _ => List.Subset.refl _
  refine ⟨quoted, hquoted.trans ?_⟩
  rw [← (classifyLine_payload hl hend).2]

end Insert
end Classify
end Worksheet
