import Worksheet.Proofs.Line.Rewrite
import Worksheet.Proofs.Solve.Check

/-! What stands between the backslashes of a line. The backslashes outside quotes cut a line into parts, and every part
    begins outside quotes. So the inline expressions are some of the parts, which ones depends only on what is blank, and
    another text put in place of an expression leaves all other parts as they are. -/

namespace Worksheet
namespace Inline
open Text

/-- The parts of a text between its backslashes outside quotes. There is always at least one. -/
def parts (quoted : Bool) : Text → List Text
  | [] => [[]]
  | c :: t =>
    if quoted = false ∧ c = '\\' then [] :: parts false t
    else (parts (if c = '"' then !quoted else quoted) t).modifyHead (c :: ·)

/-- The expressions among the parts of a line, the first of which begins at offset `i`. A part is `opened` by a backslash
    that does not close the part in front of it, and it is an expression if a backslash follows and it is not blank. -/
def among (opened : Bool) (i : Nat) : List Text → List Inline
  | p :: q :: ps =>
    if opened && !(trim p).isEmpty then ⟨i - 1, i + p.length + 1, trim p⟩ :: among false (i + p.length + 1) (q :: ps)
    else among true (i + p.length + 1) (q :: ps)
  | _ => []

section Parts
variable {t p v : Text} {ps : List Text} {quoted opened : Bool}

theorem parts_ne_nil (quoted : Bool) (t : Text) : parts quoted t ≠ [] := by
  induction t generalizing quoted with
  | nil => exact List.cons_ne_nil _ _
  | cons c t ih =>
    rw [parts]
    split
    · exact List.cons_ne_nil _ _
    · exact mt List.modifyHead_eq_nil_iff.mp (ih _)

/-- The part in front of a backslash reads the same whatever follows the backslash, and what follows is read outside
    quotes. -/
theorem exists_of_parts_eq {q : Text} (h : parts quoted t = p :: q :: ps) : ∃ u, t = p ++ '\\' :: u ∧
    parts false u = q :: ps ∧ ∀ u', parts quoted (p ++ '\\' :: u') = p :: parts false u' := by
  induction t generalizing quoted p with
  | nil => cases h
  | cons c t ih =>
    rw [parts] at h
    split at h
    · rename_i hc
      obtain ⟨rfl, rfl⟩ := hc
      obtain ⟨rfl, hq⟩ := List.cons.inj h
      exact ⟨t, rfl, hq, fun u' => rfl⟩
    · rename_i hc
      obtain ⟨r, rs, hparts⟩ := List.exists_cons_of_ne_nil (parts_ne_nil (if c = '"' then !quoted else quoted) t)
      rw [hparts, List.modifyHead_cons] at h
      obtain ⟨rfl, rfl⟩ := List.cons.inj h
      obtain ⟨u, rfl, hu, hany⟩ := ih hparts
      refine ⟨u, rfl, hu, fun u' => ?_⟩
      rw [List.cons_append, parts, if_neg hc, hany, List.modifyHead_cons]

/-- A text without backslashes and quotes is a part as it is. -/
theorem parts_append (hback : '\\' ∉ v) (hquote : '"' ∉ v) (t : Text) :
    parts false (v ++ '\\' :: t) = v :: parts false t := by
  induction v with
  | nil => rfl
  | cons c v ih =>
    obtain ⟨hc, hback⟩ := not_or.mp (mt List.mem_cons.mpr hback)
    obtain ⟨hq, hquote⟩ := not_or.mp (mt List.mem_cons.mpr hquote)
    rw [List.cons_append, parts, if_neg fun h => hc h.2.symm, if_neg (Ne.symm hq), ih hback hquote, List.modifyHead_cons]

theorem among_cons (opened : Bool) (i : Nat) (p : Text) (h : ps ≠ []) : among opened i (p :: ps) =
    if opened && !(trim p).isEmpty then ⟨i - 1, i + p.length + 1, trim p⟩ :: among false (i + p.length + 1) ps
    else among true (i + p.length + 1) ps := by
  cases ps with
  | nil => exact absurd rfl h
  | cons q ps => rfl

/-- Which parts are expressions does not depend on where the line begins. -/
theorem map_source_among (opened : Bool) (i j : Nat) (ps : List Text) :
    (among opened i ps).map source = (among opened j ps).map source := by
  induction ps generalizing opened i j with
  | nil => rfl
  | cons p ps ih =>
    cases ps with
    | nil => rfl
    | cons q ps =>
      rw [among, among]
      split
      · rw [List.map_cons, List.map_cons, ih false]
      · exact ih true _ _

/-- Only a backslash outside quotes changes more than the offset and the quotes of a scan. -/
theorem scan_cons_of_not {line : Text} {i : Nat} {waiting : Option Nat} {c : Char} (hc : ¬(quoted = false ∧ c = '\\'))
    (t : Text) : scan line i quoted waiting (c :: t) =
      scan line (i + 1) (if c = '"' then !quoted else quoted) waiting t := by
  refine if_pos ?_
  rw [Bool.or_eq_true, decide_eq_true_eq, ← Bool.not_eq_false]
  by_cases hslash : c = '\\'
  · subst hslash
    exact .inl fun hquoted => hc ⟨hquoted, rfl⟩
  · exact .inr hslash

/-- A backslash outside quotes closes what is not blank, and opens otherwise. -/
theorem scan_slash (line : Text) (i o : Nat) (t : Text) : scan line i false (some o) ('\\' :: t) =
    if (trim (slice line (o + 1) i)).isEmpty then scan line (i + 1) false (some i) t
    else ⟨o, i + 1, trim (slice line (o + 1) i)⟩ :: scan line (i + 1) false none t := rfl

theorem modifyHead_nil_append (ps : List Text) : ps.modifyHead ([] ++ ·) = ps := by
  cases ps <;> rfl

/-- A scan that has read `u` since it stood at the last backslash goes on as among the parts. -/
theorem scan_eq_among (quoted : Bool) (x u t : Text) {waiting : Option Nat} (hwaiting : ∀ o ∈ waiting, o + 1 = x.length) :
    scan (x ++ (u ++ t)) (x ++ u).length quoted waiting t =
      among waiting.isSome x.length ((parts quoted t).modifyHead (u ++ ·)) := by
  induction t generalizing x u quoted waiting with
  | nil => simp [scan, parts, among]
  | cons c t ih =>
    rw [parts]
    split
    · rename_i hc
      obtain ⟨rfl, rfl⟩ := hc
      -- Behind the backslash the scan is the one of a line that begins there.
      have hbehind {waiting : Option Nat} (h : ∀ o ∈ waiting, o = (x ++ u).length) :
          scan (x ++ (u ++ '\\' :: t)) ((x ++ u).length + 1) false waiting t =
            among waiting.isSome (x.length + u.length + 1) (parts false t) := by
        have hat := ih false (x ++ u ++ ['\\']) [] fun o (ho : o ∈ waiting) => by simp [h o ho, Nat.add_assoc]
        rw [modifyHead_nil_append] at hat
        simpa [Nat.add_assoc] using hat
      have hmore := hbehind fun o ho => (Option.some.inj (ho : o ∈ some (x ++ u).length)).symm
      rw [List.modifyHead_cons, List.append_nil, among_cons _ _ _ (parts_ne_nil false t)]
      cases waiting with
      | none => exact hmore
      | some o =>
        have ho : o + 1 = x.length := hwaiting o rfl
        have hslice : slice (x ++ (u ++ '\\' :: t)) (o + 1) (x ++ u).length = u := by
          rw [ho, List.length_append, slice_between]
        rw [scan_slash, hslice]
        cases hblank : (trim u).isEmpty with
        | true => exact hmore
        | false =>
          rw [if_neg (by decide), hbehind (fun _ h => by cases h), List.length_append, ← ho]
          rfl
    · rename_i hc
      have hnext : x ++ (u ++ c :: t) = x ++ ((u ++ [c]) ++ t) := by simp
      have hlength : (x ++ u).length + 1 = (x ++ (u ++ [c])).length := by simp; omega
      rw [scan_cons_of_not hc, hnext, hlength, ih _ x (u ++ [c]) hwaiting, List.modifyHead_modifyHead]
      congr 2
      funext r
      simp

theorem find_eq_among (l : Text) : find l = among false 0 (parts false l) := by
  have h := scan_eq_among false [] [] l fun o (ho : o ∈ none) => by cases ho
  rwa [modifyHead_nil_append] at h

end Parts

/-! ### Where the expressions stand -/

/-- The expression stands in the line with its two backslashes around it. -/
structure StandsIn (l : Text) (e : Inline) : Prop where
  first_lt : e.first + 1 < e.last
  last_le : e.last ≤ l.length
  opens : l[e.first]? = some '\\'
  closes : l[e.last - 1]? = some '\\'
  source : e.source = trim (slice l (e.first + 1) (e.last - 1))
  source_ne_nil : e.source ≠ []

section Places
variable {t x : Text} {ps : List Text} {opened : Bool} {e : Inline}

theorem standsIn_part (x p u : Text) (hp : trim p ≠ []) :
    StandsIn (x ++ '\\' :: (p ++ '\\' :: u)) ⟨x.length, x.length + 1 + p.length + 1, trim p⟩ := by
  have hlength : p.length ≠ 0 := fun h => hp (by rw [List.length_eq_zero_iff.mp h]; rfl)
  have hpart : x ++ '\\' :: (p ++ '\\' :: u) = x ++ ['\\'] ++ (p ++ '\\' :: u) := by simp
  have hopen : (x ++ ['\\']).length = x.length + 1 := List.length_append
  refine ⟨?_, ?_, ?_, ?_, ?_, hp⟩
  · dsimp only
    omega
  · simp only [List.length_append, List.length_cons]
    omega
  · simp
  · rw [hpart, ← List.append_assoc, Nat.add_sub_cancel, ← hopen, ← List.length_append]
    simp
  · rw [Nat.add_sub_cancel, hpart]
    dsimp only
    rw [← hopen, slice_between]

theorem standsIn_of_mem_among (hx : opened = true → ∃ y, x = y ++ ['\\']) (h : e ∈ among opened x.length (parts false t)) :
    StandsIn (x ++ t) e := by
  generalize hps : parts false t = ps at h
  induction ps generalizing x t opened with
  | nil => cases h
  | cons p ps ih =>
    cases ps with
    | nil => cases h
    | cons q ps =>
      obtain ⟨u, rfl, hu, -⟩ := exists_of_parts_eq hps
      have hline : x ++ (p ++ '\\' :: u) = x ++ p ++ ['\\'] ++ u := by simp
      have hlength : x.length + p.length + 1 = (x ++ p ++ ['\\']).length := by simp; omega
      rw [among, hlength] at h
      split at h
      · rename_i hcond
        rw [Bool.and_eq_true, Bool.not_eq_true'] at hcond
        rcases List.mem_cons.mp h with rfl | h
        · obtain ⟨y, rfl⟩ := hx hcond.1
          have hstands := standsIn_part y p u fun hp => by simp [hp] at hcond
          simpa [Nat.add_assoc, Nat.add_comm, Nat.add_left_comm] using hstands
        · exact hline ▸ ih (fun h => by cases h) hu h
      · exact hline ▸ ih (fun _ => ⟨x ++ p, rfl⟩) hu h

theorem le_first_of_mem_among {i : Nat} (h : e ∈ among opened i ps) : i ≤ e.first + opened.toNat := by
  induction ps generalizing opened i with
  | nil => cases h
  | cons p ps ih =>
    cases ps with
    | nil => cases h
    | cons q ps =>
      rw [among] at h
      split at h
      · rename_i hcond
        rw [Bool.and_eq_true] at hcond
        rcases List.mem_cons.mp h with rfl | h
        · rw [hcond.1, Bool.toNat_true]
          dsimp only
          omega
        · have hle := ih h
          rw [Bool.toNat_false] at hle
          omega
      · have hle := ih h
        rw [Bool.toNat_true] at hle
        omega

theorem pairwise_among (opened : Bool) (i : Nat) (ps : List Text) :
    (among opened i ps).Pairwise fun a b => a.last ≤ b.first := by
  induction ps generalizing opened i with
  | nil => exact .nil
  | cons p ps ih =>
    cases ps with
    | nil => exact .nil
    | cons q ps =>
      rw [among]
      split
      · exact .cons (fun e he => le_first_of_mem_among he) (ih false _)
      · exact ih true _

end Places

/-! ### Other texts in place of expressions -/

/-- The line with the chosen text between the backslashes of an expression, if one is chosen. -/
def put (choose : Inline → Option Text) (e : Inline) (l : Text) : Text :=
  match choose e with
  | none => l
  | some v => e.replace l ('\\' :: v ++ ['\\'])

/-- The line with the chosen texts in place of its expressions, put there from the right. -/
def splice (choose : Inline → Option Text) (l : Text) : Text := (find l).foldr (put choose) l

/-- A text that may stand between two backslashes as an expression. -/
structure Fits (v : Text) : Prop where
  trimmed : trim v = v
  ne_nil : v ≠ []
  no_backslash : '\\' ∉ v
  no_quote : '"' ∉ v

section Splice
variable {t x : Text} {opened : Bool} {choose : Inline → Option Text}

/-- Between its backslashes an expression is replaced by the chosen text, or stays. -/
theorem put_part (choose : Inline → Option Text) (y p u : Text) {e : Inline} (hfirst : e.first = y.length)
    (hlast : e.last = (y ++ '\\' :: (p ++ ['\\'])).length) :
    put choose e (y ++ '\\' :: (p ++ '\\' :: u)) = y ++ '\\' :: ((choose e).getD p ++ '\\' :: u) := by
  unfold put
  cases choose e with
  | none => rfl
  | some v =>
    have hsplit : y ++ '\\' :: (p ++ '\\' :: u) = (y ++ '\\' :: (p ++ ['\\'])) ++ u := by simp
    dsimp only
    rw [replace, hfirst, List.take_left, hlast, hsplit, List.drop_left]
    simp

/-- Putting texts between the backslashes changes nothing but the parts that are replaced. -/
theorem exists_foldr_put (hx : opened = true → ∃ y, x = y ++ ['\\'])
    (hfits : ∀ e ∈ among opened x.length (parts false t), ∀ v ∈ choose e, Fits v) :
    ∃ t', (among opened x.length (parts false t)).foldr (put choose) (x ++ t) = x ++ t' ∧
      (among opened x.length (parts false t')).map source =
        (among opened x.length (parts false t)).map fun e => (choose e).getD e.source := by
  generalize hps : parts false t = ps at hfits ⊢
  induction ps generalizing x t opened with
  | nil => exact absurd hps (parts_ne_nil false t)
  | cons p ps ih =>
    cases ps with
    | nil => exact ⟨t, rfl, by rw [hps]; rfl⟩
    | cons q ps =>
      obtain ⟨u, rfl, hu, hany⟩ := exists_of_parts_eq hps
      have hline (u : Text) : x ++ (p ++ '\\' :: u) = x ++ p ++ ['\\'] ++ u := by simp
      have hlength : x.length + p.length + 1 = (x ++ p ++ ['\\']).length := by simp; omega
      rw [among_cons _ _ _ (List.cons_ne_nil q ps), hlength] at hfits ⊢
      by_cases hcond : (opened && !(trim p).isEmpty) = true
      · rw [if_pos hcond] at hfits ⊢
        obtain ⟨u', hput, hsources⟩ := ih (fun h => by cases h) hu fun e he => hfits e (List.mem_cons_of_mem _ he)
        rw [Bool.and_eq_true, Bool.not_eq_true', List.isEmpty_eq_false_iff] at hcond
        obtain ⟨rfl, hne⟩ := hcond
        obtain ⟨y, rfl⟩ := hx rfl
        generalize he : (⟨(y ++ ['\\']).length - 1, (y ++ ['\\'] ++ p ++ ['\\']).length, trim p⟩ : Inline) = e at hfits ⊢
        -- The part that stands there now is an expression as well.
        have hpart : parts false ((choose e).getD p ++ '\\' :: u') = (choose e).getD p :: parts false u' ∧
            trim ((choose e).getD p) = (choose e).getD e.source ∧ trim ((choose e).getD p) ≠ [] := by
          cases hchoose : choose e with
          | none => exact ⟨hany u', congrArg source he, hne⟩
          | some v =>
            have hv := hfits e List.mem_cons_self v hchoose
            exact ⟨parts_append hv.no_backslash hv.no_quote u', hv.trimmed, hv.trimmed.symm ▸ hv.ne_nil⟩
        obtain ⟨hpart, htrim, hne'⟩ := hpart
        refine ⟨(choose e).getD p ++ '\\' :: u', ?_, ?_⟩
        · have hat := put_part choose y p u' (e := e) (by simp [← he]) (by simp [← he])
          rw [List.foldr_cons, hline, hput, ← hline, List.append_assoc, List.singleton_append, hat]
          simp
        · rw [hpart, among_cons _ _ _ (parts_ne_nil false u'), if_pos (by simpa using hne'), List.map_cons, List.map_cons,
            ← hsources, htrim]
          exact congrArg _ (map_source_among _ _ _ _)
      · rw [if_neg hcond] at hfits ⊢
        obtain ⟨u', hput, hsources⟩ := ih (fun _ => ⟨x ++ p, rfl⟩) hu hfits
        refine ⟨p ++ '\\' :: u', ?_, ?_⟩
        · rw [hline, hput, hline]
        · rw [hany, among_cons _ _ _ (parts_ne_nil false u'), if_neg hcond, hlength, hsources]

theorem map_source_find_splice {l : Text} (hfits : ∀ e ∈ find l, ∀ v ∈ choose e, Fits v) :
    (find (splice choose l)).map source = (find l).map fun e => (choose e).getD e.source := by
  have hfind := find_eq_among l
  rw [hfind] at hfits
  obtain ⟨l', hput, hsources⟩ := exists_foldr_put (x := []) (fun h => by cases h) hfits
  have hsplice : splice choose l = l' := by
    rw [splice, hfind]
    exact hput
  rw [hsplice, find_eq_among l', hfind]
  exact hsources

/-- The expressions of a line stand in it one behind the other. Put other texts in place of any of them, and the line has
    as many expressions as before, in the same order, the chosen ones and the others as they were. -/
theorem find_splice (l : Text) :
    (find l).Pairwise (fun a b => a.last ≤ b.first) ∧ (∀ e ∈ find l, StandsIn l e) ∧
      ∀ choose : Inline → Option Text, (∀ e ∈ find l, ∀ v ∈ choose e, Fits v) →
        (find (splice choose l)).map source = (find l).map fun e => (choose e).getD e.source := by
  refine ⟨find_eq_among l ▸ pairwise_among _ _ _, fun e he => ?_, fun choose => map_source_find_splice⟩
  rw [find_eq_among] at he
  exact standsIn_of_mem_among (x := []) (fun h => by cases h) he

/-- Quoted backslashes and an empty pair stand between the two expressions of the line, and the second one is replaced. -/
theorem find_splice_second :
    (find (splice (fun e => if e.first = 8 then some ['2', ' ', '+', ' ', '2'] else none)
      ['\\', 'a', '\\', '"', '\\', '"', '\\', ' ', '\\', 'b', '\\'])).map source =
        [['a'], ['2', ' ', '+', ' ', '2']] := by
  refine (find_splice _).2.2 _ fun e _ v hv => ?_
  have hfits : Fits ['2', ' ', '+', ' ', '2'] := ⟨rfl, by decide, by decide, by decide⟩
  split at hv
  · exact Option.some.inj hv ▸ hfits
  · cases hv

end Splice
end Inline

/-! ### The values of a line -/

namespace SolveState

/-- What is written in place of an inline expression: its value, if it has one. -/
def inlineValue (s : SolveState) (line : Nat) (e : Inline) : Option Text :=
  (s.evaluateText line e.source).1.toOption.map (writeNumber · inlinePlaces)

section Inlines
variable {s t : SolveState} {line : Nat} {e : Inline} {v : Text}

theorem fits_inlineValue (h : v ∈ s.inlineValue line e) : Inline.Fits v := by
  obtain ⟨x, -, rfl⟩ := Option.map_eq_some_iff.mp h
  have hproper := Written.proper_number x inlinePlaces true .positional 10 false
  have hword := OutputText.word_render hproper
  have htrim := Text.trim_word_append (t := []) (fun c hc => hword.isBlank_of_mem hc) hword.ne_nil
  rw [Text.trimRight, List.reverse_nil, List.dropWhile_nil, List.reverse_nil, List.append_nil] at htrim
  refine ⟨htrim, hword.ne_nil, fun hmem => ?_, fun hmem => ?_⟩ <;>
    rcases Written.mem_render hproper hmem with h | h | h <;> cases h

theorem inlineValue_congr (h : t.context = s.context) : t.inlineValue line e = s.inlineValue line e := by
  unfold inlineValue evaluateText
  cases parseExpr e.source with
  | error p => rfl
  | ok x =>
    dsimp only
    rw [evaluate_eq, evaluate_eq, contextAt, contextAt, h]
    cases (x.eval (s.context.setLine line)).result <;> rfl

theorem lineAt_spliceOne (h : line < s.lines.length) (reporting : Bool) (e : Inline) :
    (spliceOne line reporting s e).lineAt line = Inline.put (s.inlineValue line) e (s.lineAt line) ∧
      line < (spliceOne line reporting s e).lines.length := by
  have huses := s.uses_evaluateText line e.source
  unfold spliceOne Inline.put inlineValue
  generalize s.evaluateText line e.source = r at huses
  obtain ⟨p | x, _⟩ := r <;> obtain ⟨u, rfl⟩ := huses
  · cases reporting <;> exact ⟨rfl, h⟩
  · refine ⟨?_, h.trans_eq List.length_set.symm⟩
    simp [setLine, lineAt, h, Except.toOption]

theorem lineAt_foldl_spliceOne (h : line < s.lines.length) (reporting : Bool) (es : List Inline) :
    (es.foldl (spliceOne line reporting) s).lineAt line =
      es.foldl (fun l e => Inline.put (s.inlineValue line) e l) (s.lineAt line) := by
  induction es generalizing s with
  | nil => rfl
  | cons e es ih =>
    obtain ⟨hline, hlt⟩ := lineAt_spliceOne h reporting e
    have hvalue : (spliceOne line reporting s e).inlineValue line = s.inlineValue line :=
      funext fun _ => inlineValue_congr (context_spliceOne line reporting s e)
    rw [List.foldl_cons, List.foldl_cons, ih hlt, hline, hvalue]

/-- The values are those that the expressions have before anything is written into the line. -/
theorem lineAt_spliceLine (s : SolveState) (reporting : Bool) (line : Nat) :
    (spliceLine reporting s line).lineAt line = Inline.splice (s.inlineValue line) (s.lineAt line) := by
  unfold spliceLine Inline.splice
  by_cases h : line < s.lines.length
  · rw [lineAt_foldl_spliceOne h, List.foldl_reverse]
  · have hnil : s.lineAt line = [] := by rw [lineAt, List.getElem?_eq_none (Nat.le_of_not_lt h)]; rfl
    rw [hnil]
    exact hnil

/-- Written into its line, a value is an expression in place of the one that it is the value of. -/
theorem map_source_find_spliceLine (s : SolveState) (reporting : Bool) (line : Nat) :
    (Inline.find ((spliceLine reporting s line).lineAt line)).map Inline.source =
      (Inline.find (s.lineAt line)).map fun e => (s.inlineValue line e).getD e.source := by
  rw [lineAt_spliceLine]
  exact Inline.map_source_find_splice fun _ _ _ hv => fits_inlineValue hv

end Inlines
end SolveState
end Worksheet
