import Worksheet.Document.Equation
import Worksheet.Proofs.Document.Found

/-! Lines around a document that a solve reads over. They hold no value, no inline expression and no function, they
    leave no bracket or brace open and close none, and an equation among them cannot be read. What is found in the
    document between them is found there without them, on lines that are counted from its own first one. -/

namespace Worksheet
open Classify (blankComments)

/-- A line without a part in what stands around it. -/
structure Inert (l : Text) : Prop where
  balance : Lines.bracketBalance l = 0
  noValue : classifyLine l = none
  noInline : Inline.find l = []
  noFunction : ∀ index rest, FunctionSource.at? index l rest = none
  notOpening : '{' ∉ blankComments l
  notClosing : '}' ∉ blankComments l
  unreadable : Equation.isPlain (blankComments l) = true →
    ∃ e, Equation.parseSides (Inline.toParens (Text.trim (blankComments l))) = .error e

/-- An inert line without any equation. -/
structure Prose (l : Text) : Prop extends Inert l where
  noEquation : Equation.isPlain (blankComments l) = false

section
variable {A B ls : List Text} {l t : Text}

theorem add_length_cons (index : Nat) (l : Text) (ls : List Text) :
    index + (l :: ls).length = index + 1 + ls.length := by
  rw [List.length_cons]
  omega

/-! ### Value lines -/

namespace Lines

/-- Brackets are not closed by inert lines. -/
theorem closing?_of_inert (hB : ∀ l ∈ B, Inert l) {depth : Int} (hdepth : 0 < depth) (room : Nat) :
    closing? depth room B = none := by
  induction B generalizing room with
  | nil => cases room <;> rfl
  | cons l B ih =>
    obtain ⟨hl, hB⟩ := List.forall_mem_cons.mp hB
    cases room with
    | zero => rfl
    | succ room =>
      unfold closing?
      dsimp only
      rw [hl.balance, Int.add_zero, if_neg (Int.not_le.mpr hdepth), ih hB]
      rfl

theorem closing?_append (hB : ∀ l ∈ B, Inert l) {depth : Int} (hdepth : 0 < depth) (room : Nat) :
    closing? depth room (ls ++ B) = closing? depth room ls := by
  induction ls generalizing room depth with
  | nil =>
    rw [List.nil_append, closing?_of_inert hB hdepth]
    cases room <;> rfl
  | cons l ls ih =>
    cases room with
    | zero => rfl
    | succ room =>
      rw [List.cons_append]
      unfold closing?
      dsimp only
      split
      · rfl
      · rename_i hopen
        rw [ih (Int.not_le.mp hopen)]

theorem joined?_append (hB : ∀ l ∈ B, Inert l) (line : Text) : joined? line (ls ++ B) = joined? line ls := by
  unfold joined?
  dsimp only
  split
  · rfl
  · rename_i hopen
    rw [closing?_append hB (Int.not_le.mp hopen)]

theorem classifyFrom_inert (hB : ∀ l ∈ B, Inert l) : classifyFrom none B = List.replicate B.length none := by
  induction B with
  | nil => rfl
  | cons l B ih =>
    obtain ⟨hl, hB⟩ := List.forall_mem_cons.mp hB
    rw [classifyFrom_alone (joined?_of_balance (Int.le_of_eq hl.balance) B), hl.noValue, ih hB]
    rfl

/-- A value line that is held for a later line is held for one of the document. -/
theorem classifyFrom_append (hB : ∀ l ∈ B, Inert l) {held : Option (Nat × ValueLine)}
    (hheld : ∀ n found, held = some (n, found) → n < ls.length) :
    classifyFrom held (ls ++ B) = classifyFrom held ls ++ List.replicate B.length none := by
  induction ls generalizing held with
  | nil =>
    cases held with
    | some x => exact absurd (hheld x.1 x.2 rfl) (Nat.not_lt_zero _)
    | none => exact classifyFrom_inert hB
  | cons l ls ih =>
    have hnone : classifyFrom none (ls ++ B) = classifyFrom none ls ++ List.replicate B.length none :=
      ih fun _ _ h => by cases h
    rw [List.cons_append]
    cases held with
    | some x =>
      obtain ⟨n, found⟩ := x
      cases n with
      | zero => exact congrArg (some found :: ·) hnone
      | succ n =>
        have hrest : ∀ m f, some (n, found) = some (m, f) → m < ls.length := by
          rintro _ _ ⟨⟩
          exact Nat.lt_of_succ_lt_succ (hheld (n + 1) found rfl)
        exact congrArg (none :: ·) (ih hrest)
    | none =>
      cases hjoined : joined? l ls with
      | none =>
        rw [classifyFrom_alone hjoined, classifyFrom_alone ((joined?_append hB l).trans hjoined), hnone]
        rfl
      | some x =>
        obtain ⟨n, found⟩ := x
        rw [classifyFrom_joined hjoined, classifyFrom_joined ((joined?_append hB l).trans hjoined)]
        obtain ⟨init, last, tail, -, hls, hn, -⟩ := joined?_eq_some hjoined
        refine congrArg (none :: ·) (ih fun m f heq => ?_)
        obtain ⟨rfl, rfl⟩ := Prod.mk.inj (Option.some.inj heq)
        rw [hls, List.length_append, List.length_cons]
        omega

theorem classifyFrom_prepend (hA : ∀ l ∈ A, Inert l) :
    classifyFrom none (A ++ ls) = List.replicate A.length none ++ classifyFrom none ls := by
  induction A with
  | nil => rfl
  | cons l A ih =>
    obtain ⟨hl, hA⟩ := List.forall_mem_cons.mp hA
    rw [List.cons_append, classifyFrom_alone (joined?_of_balance (Int.le_of_eq hl.balance) _), hl.noValue, ih hA]
    rfl

/-- The value lines of a document are those without the inert lines around it. -/
theorem classify_framed (hA : ∀ l ∈ A, Inert l) (hB : ∀ l ∈ B, Inert l) (ls : List Text) :
    classify (A ++ (ls ++ B)) = List.replicate A.length none ++ (classify ls ++ List.replicate B.length none) := by
  unfold classify
  rw [classifyFrom_prepend hA, classifyFrom_append hB fun _ _ h => by cases h]

theorem length_classify (ls : List Text) : (classify ls).length = ls.length := length_classifyFrom none ls

/-! ### Blocks -/

theorem untilBrace_of_inert (hB : ∀ l ∈ B, Inert l) (ht : '}' ∉ t) : untilBrace t B = none := by
  induction B generalizing t with
  | nil => exact if_neg (by simpa using ht)
  | cons l B ih =>
    obtain ⟨hl, hB⟩ := List.forall_mem_cons.mp hB
    unfold untilBrace
    rw [if_neg (by simpa using ht), ih hB hl.notClosing]
    rfl

/-- A block that is open at the end of a document is not closed behind it. -/
theorem untilBrace_append (hB : ∀ l ∈ B, Inert l) (t : Text) : untilBrace t (ls ++ B) = untilBrace t ls := by
  induction ls generalizing t with
  | nil =>
    rw [List.nil_append]
    by_cases ht : t.contains '}' = true
    · cases B with
      | nil => rfl
      | cons l B => exact (if_pos ht).trans (if_pos ht).symm
    · rw [untilBrace_of_inert hB (by simpa using ht)]
      exact (if_neg ht).symm
  | cons l ls ih =>
    rw [List.cons_append, untilBrace, untilBrace, ih]

theorem le_length_of_untilBrace {ls : List Text} {t body : Text} {more : Nat}
    (h : untilBrace t ls = some (body, more)) : more ≤ ls.length := by
  induction ls generalizing t body more with
  | nil =>
    unfold untilBrace at h
    split at h
    · obtain ⟨-, rfl⟩ := Prod.mk.inj (Option.some.inj h)
      exact Nat.zero_le _
    · cases h
  | cons l ls ih =>
    unfold untilBrace at h
    split at h
    · obtain ⟨-, rfl⟩ := Prod.mk.inj (Option.some.inj h)
      exact Nat.zero_le _
    · obtain ⟨⟨body', n⟩, hn, h⟩ := Option.map_eq_some_iff.mp h
      obtain ⟨-, rfl⟩ := Prod.mk.inj h
      exact Nat.succ_le_succ (ih hn)

end Lines

/-! ### Functions -/

namespace FunctionSource
variable {n index skip more : Nat} {body : Text} {f : FunctionSource}

/-- The definition in a document that stands `n` lines further down. -/
def down (n : Nat) (f : FunctionSource) : FunctionSource :=
  { f with firstLine := f.firstLine + n, lastLine := f.lastLine + n }

theorem covers_down (n : Nat) (f : FunctionSource) (line : Nat) : (f.down n).covers (line + n) = f.covers line := by
  unfold covers down
  simp

theorem body?_append (hB : ∀ l ∈ B, Inert l) (t : Text) : body? t (ls ++ B) = body? t ls := by
  unfold body?
  split
  · rw [Lines.untilBrace_append hB]
  · rfl

theorem le_length_of_body? (h : body? t ls = some (body, more)) : more ≤ ls.length := by
  unfold body? at h
  dsimp only at h
  split at h
  · obtain ⟨⟨b, n⟩, huntil, h⟩ := Option.bind_eq_some_iff.mp h
    split at h
    · cases h
    · obtain ⟨-, rfl⟩ := Prod.mk.inj (Option.some.inj h)
      obtain ⟨⟨b', n'⟩, hmore, hn⟩ := Option.map_eq_some_iff.mp huntil
      obtain ⟨-, rfl⟩ := Prod.mk.inj hn
      exact Lines.le_length_of_untilBrace hmore
  · obtain ⟨⟨b, n⟩, hn, h⟩ := Option.bind_eq_some_iff.mp h
    obtain ⟨-, rfl⟩ := Prod.mk.inj (Option.some.inj hn)
    split at h
    · cases h
    · obtain ⟨-, rfl⟩ := Prod.mk.inj (Option.some.inj h)
      exact Nat.zero_le _

/-- A definition is the header on its first line with the body that goes on from there. -/
theorem at?_eq (index : Nat) (l : Text) (ls : List Text) : at? index l ls =
    (header? (blankComments l)).bind fun h =>
      (body? (Text.trim ((blankComments l).drop h.bodyOffset)) ls).map fun x =>
        ⟨h.name, h.params, x.1, Text.unlines (l :: ls.take x.2), index, index + x.2⟩ := by
  unfold at?
  refine Option.bind_congr fun h _ => ?_
  cases body? (Text.trim ((blankComments l).drop h.bodyOffset)) ls <;> rfl

theorem at?_eq_some (h : at? index l ls = some f) : ∃ more ≤ ls.length, f.firstLine = index ∧ f.lastLine = index + more := by
  rw [at?_eq] at h
  obtain ⟨header, -, h⟩ := Option.bind_eq_some_iff.mp h
  obtain ⟨⟨body, more⟩, hbody, rfl⟩ := Option.map_eq_some_iff.mp h
  exact ⟨more, le_length_of_body? hbody, rfl, rfl⟩

theorem at?_append (hB : ∀ l ∈ B, Inert l) (index : Nat) (l : Text) (ls : List Text) :
    at? index l (ls ++ B) = at? index l ls := by
  rw [at?_eq, at?_eq]
  refine Option.bind_congr fun header _ => ?_
  rw [body?_append hB]
  refine Option.map_congr fun ⟨body, more⟩ hbody => ?_
  rw [List.take_append_of_le_length (le_length_of_body? hbody)]

theorem at?_down (n index : Nat) (l : Text) (ls : List Text) : at? (index + n) l ls = (at? index l ls).map (down n) := by
  rw [at?_eq, at?_eq, Option.map_bind]
  refine Option.bind_congr fun header _ => ?_
  rw [Function.comp_apply, Option.map_map]
  refine Option.map_congr fun ⟨body, more⟩ _ => ?_
  simp [down, Nat.add_right_comm]

theorem findFrom_inert (hB : ∀ l ∈ B, Inert l) (index : Nat) : findFrom 0 index B = [] := by
  induction B generalizing index with
  | nil => rfl
  | cons l B ih =>
    obtain ⟨hl, hB⟩ := List.forall_mem_cons.mp hB
    unfold findFrom
    dsimp only
    rw [hl.noFunction]
    exact ih hB (index + 1)

theorem findFrom_append (hB : ∀ l ∈ B, Inert l) (hskip : skip ≤ ls.length) (index : Nat) :
    findFrom skip index (ls ++ B) = findFrom skip index ls := by
  induction ls generalizing skip index with
  | nil =>
    obtain rfl := Nat.le_zero.mp hskip
    exact findFrom_inert hB index
  | cons l ls ih =>
    rw [List.cons_append]
    unfold findFrom
    cases skip with
    | succ skip => exact ih (Nat.le_of_succ_le_succ hskip) (index + 1)
    | zero =>
      dsimp only
      rw [at?_append hB]
      cases hf : at? index l ls with
      | none => exact ih (Nat.zero_le _) (index + 1)
      | some f =>
        obtain ⟨more, hmore, hfirst, hlast⟩ := at?_eq_some hf
        exact congrArg (f :: ·) (ih (by omega) (index + 1))

theorem findFrom_prepend (hA : ∀ l ∈ A, Inert l) (index : Nat) :
    findFrom 0 index (A ++ ls) = findFrom 0 (index + A.length) ls := by
  induction A generalizing index with
  | nil => rfl
  | cons l A ih =>
    obtain ⟨hl, hA⟩ := List.forall_mem_cons.mp hA
    rw [List.cons_append, findFrom, hl.noFunction, add_length_cons]
    exact ih hA (index + 1)

theorem findFrom_down (n skip index : Nat) (ls : List Text) :
    findFrom skip (index + n) ls = (findFrom skip index ls).map (down n) := by
  induction ls generalizing skip index with
  | nil => rfl
  | cons l ls ih =>
    unfold findFrom
    cases skip with
    | succ skip =>
      dsimp only
      rw [← ih, Nat.add_right_comm]
    | zero =>
      dsimp only
      rw [at?_down, Nat.add_right_comm]
      cases at? index l ls with
      | none => exact ih 0 (index + 1)
      | some f =>
        have hlines : (f.down n).lastLine - (f.down n).firstLine = f.lastLine - f.firstLine := Nat.add_sub_add_right _ _ _
        show f.down n :: findFrom ((f.down n).lastLine - (f.down n).firstLine) (index + 1 + n) ls = _
        rw [hlines, ih]
        rfl

/-- The definitions of a document are those without the inert lines around it. -/
theorem find_framed (hA : ∀ l ∈ A, Inert l) (hB : ∀ l ∈ B, Inert l) (ls : List Text) :
    find (A ++ (ls ++ B)) = (find ls).map (down A.length) := by
  unfold find
  rw [findFrom_prepend hA, findFrom_append hB (Nat.zero_le _), findFrom_down]

/-- A definition ends in the document. -/
theorem lastLine_lt_of_mem_findFrom (h : f ∈ findFrom skip index ls) : f.lastLine < index + ls.length := by
  induction ls generalizing skip index with
  | nil => cases h
  | cons l ls ih =>
    have hnext {skip : Nat} (h : f ∈ findFrom skip (index + 1) ls) : f.lastLine < index + (l :: ls).length := by
      rw [add_length_cons]
      exact ih h
    unfold findFrom at h
    split at h
    · exact hnext h
    · split at h
      · rename_i g hg
        rcases List.mem_cons.mp h with rfl | h
        · obtain ⟨more, hmore, -, hlast⟩ := at?_eq_some hg
          rw [List.length_cons]
          omega
        · exact hnext h
      · exact hnext h

end FunctionSource

/-! ### Equations -/

namespace Equation
variable {n index skip more : Nat} {eq : Equation} {functions : List FunctionSource}

/-- The equation in a document that stands `n` lines further down. -/
def down (n : Nat) (eq : Equation) : Equation :=
  { eq with firstLine := eq.firstLine + n, lastLine := eq.lastLine + n }

/-- An equation whose sides cannot be read. -/
def Unreadable (eq : Equation) : Prop := ∃ e, parseSides eq.text = .error e

theorem block?_eq (index : Nat) (clean : Text) (ls : List Text) : block? index clean ls =
    (Lines.untilBrace ((clean.dropWhile (· != '{')).drop 1) ls).map fun x =>
      (if (Inline.toParens (Text.trim x.1)).isEmpty then none
        else some ⟨Inline.toParens (Text.trim x.1), true, index, index + x.2⟩, x.2) := by
  unfold block?
  cases Lines.untilBrace ((clean.dropWhile (· != '{')).drop 1) ls <;> rfl

theorem block?_append (hB : ∀ l ∈ B, Inert l) (index : Nat) (clean : Text) (ls : List Text) :
    block? index clean (ls ++ B) = block? index clean ls := by
  rw [block?_eq, block?_eq, Lines.untilBrace_append hB]

theorem block?_down (n index : Nat) (clean : Text) (ls : List Text) : block? (index + n) clean ls =
    (block? index clean ls).map fun x => (x.1.map (down n), x.2) := by
  rw [block?_eq, block?_eq, Option.map_map]
  refine Option.map_congr fun ⟨body, more⟩ _ => ?_
  dsimp only [Function.comp_apply]
  split
  · rfl
  · rw [Nat.add_right_comm]
    rfl

theorem at?_append (hB : ∀ l ∈ B, Inert l) (index : Nat) (l : Text) (ls : List Text) :
    at? index l (ls ++ B) = at? index l ls := by
  unfold at?
  dsimp only
  rw [block?_append hB]

/-- The block of an equation ends in the document. -/
theorem at?_snd_le (index : Nat) (l : Text) (ls : List Text) : (at? index l ls).2 ≤ ls.length := by
  unfold at?
  dsimp only
  split
  · cases hblock : block? index (blankComments l) ls with
    | none => exact Nat.zero_le _
    | some x =>
      rw [block?_eq] at hblock
      obtain ⟨⟨body, more⟩, huntil, rfl⟩ := Option.map_eq_some_iff.mp hblock
      exact Lines.le_length_of_untilBrace huntil
  · split <;> exact Nat.zero_le _

theorem at?_down (n index : Nat) (l : Text) (ls : List Text) :
    at? (index + n) l ls = ((at? index l ls).1.map (down n), (at? index l ls).2) := by
  unfold at?
  dsimp only
  rw [block?_down]
  split
  · cases block? index (blankComments l) ls <;> rfl
  · split <;> rfl

/-- An inert line holds at most an equation that cannot be read. -/
theorem at?_inert (hl : Inert l) (index : Nat) (ls : List Text) :
    (at? index l ls).2 = 0 ∧ ∀ eq ∈ (at? index l ls).1.toList, eq.Unreadable := by
  unfold at?
  dsimp only
  rw [if_neg (by simpa using hl.notOpening)]
  split
  · rename_i hplain
    refine ⟨rfl, fun eq heq => ?_⟩
    obtain rfl := List.mem_singleton.mp heq
    exact hl.unreadable hplain
  · exact ⟨rfl, fun eq heq => nomatch heq⟩

theorem at?_prose (hl : Prose l) (index : Nat) (ls : List Text) : at? index l ls = (none, 0) := by
  unfold at?
  dsimp only
  rw [if_neg (by simpa using hl.notOpening), if_neg (by simp [hl.noEquation])]

theorem unreadable_of_mem_findFrom (hB : ∀ l ∈ B, Inert l) (h : eq ∈ findFrom functions 0 index B) : eq.Unreadable := by
  induction B generalizing index with
  | nil => cases h
  | cons l B ih =>
    obtain ⟨hl, hB⟩ := List.forall_mem_cons.mp hB
    obtain ⟨hmore, hunreadable⟩ := at?_inert hl index B
    unfold findFrom at h
    dsimp only at h
    split at h
    · exact ih hB h
    · rcases List.mem_append.mp h with h | h
      · exact hunreadable eq h
      · rw [hmore] at h
        exact ih hB h

theorem findFrom_append (hB : ∀ l ∈ B, Inert l) (hskip : skip ≤ ls.length) (index : Nat) :
    findFrom functions skip index (ls ++ B) =
      findFrom functions skip index ls ++ findFrom functions 0 (index + ls.length) B := by
  induction ls generalizing skip index with
  | nil =>
    obtain rfl := Nat.le_zero.mp hskip
    rfl
  | cons l ls ih =>
    rw [List.cons_append, add_length_cons]
    cases skip with
    | succ skip => exact ih (Nat.le_of_succ_le_succ hskip) (index + 1)
    | zero =>
      rw [findFrom, findFrom]
      split
      · exact ih (Nat.zero_le _) (index + 1)
      · rw [at?_append hB]
        dsimp only
        rw [ih (at?_snd_le index l ls), List.append_assoc]

theorem findFrom_prepend (hA : ∀ l ∈ A, Prose l) (index : Nat) :
    findFrom functions 0 index (A ++ ls) = findFrom functions 0 (index + A.length) ls := by
  induction A generalizing index with
  | nil => rfl
  | cons l A ih =>
    obtain ⟨hl, hA⟩ := List.forall_mem_cons.mp hA
    rw [List.cons_append, findFrom, at?_prose hl, add_length_cons]
    dsimp only
    split <;> exact ih hA (index + 1)

theorem findFrom_down (n skip index : Nat) (ls : List Text) :
    findFrom (functions.map (FunctionSource.down n)) skip (index + n) ls =
      (findFrom functions skip index ls).map (down n) := by
  have hcovers (line : Nat) :
      (functions.map (FunctionSource.down n)).any (·.covers (line + n)) = functions.any (·.covers line) := by
    rw [List.any_map]
    exact congrArg (functions.any ·) (funext fun f => f.covers_down n line)
  induction ls generalizing skip index with
  | nil => rfl
  | cons l ls ih =>
    have hindex : index + n + 1 = index + 1 + n := Nat.add_right_comm index n 1
    cases skip with
    | succ skip =>
      rw [findFrom, findFrom, hindex]
      exact ih skip (index + 1)
    | zero =>
      rw [findFrom, findFrom, hcovers, at?_down, hindex]
      split
      · exact ih 0 (index + 1)
      · dsimp only
        rw [ih, List.map_append]
        cases (at? index l ls).1 <;> rfl

/-- The equations of a document are those without the inert lines around it, and those behind it cannot be read. -/
theorem find_framed (hA : ∀ l ∈ A, Prose l) (hB : ∀ l ∈ B, Inert l) (ls : List Text) :
    find (A ++ (ls ++ B)) = (find ls).map (down A.length) ++
      findFrom ((FunctionSource.find ls).map (FunctionSource.down A.length)) 0 (ls.length + A.length) B := by
  unfold find
  rw [FunctionSource.find_framed (fun l hl => (hA l hl).toInert) hB, findFrom_prepend hA,
    findFrom_append hB (Nat.zero_le _), findFrom_down, Nat.zero_add, Nat.add_comm]

end Equation

/-! ### Clearing -/

namespace Clearing
variable (c : Clearing)

theorem clearLine_inert (A : List Text) : List.zipWith c.clearLine A (List.replicate A.length none) = A := by
  induction A with
  | nil => rfl
  | cons l A ih => exact congrArg (l :: ·) ih

theorem clearLines_framed (hA : ∀ l ∈ A, Inert l) (hB : ∀ l ∈ B, Inert l) (ls : List Text) :
    c.clearLines (A ++ (ls ++ B)) = A ++ (c.clearLines ls ++ B) := by
  unfold clearLines
  rw [Lines.classify_framed hA hB, List.zipWith_append (by simp), List.zipWith_append (by simp [Lines.length_classify]),
    clearLine_inert, clearLine_inert]

end Clearing
end
end Worksheet
