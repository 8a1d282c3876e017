import Worksheet.Proofs.Document.Framed
import Worksheet.Proofs.Document.Sides
import Worksheet.Proofs.Solve.Rounds

/-! Equations on the other lines stand as they were when a line is completed, and the completed line itself is found again,
    unless what it says now is the definition of a function. -/

namespace Worksheet
open Text Lexer Classify

variable {A B ls : List Text} {l l' t : Text} {index skip : Nat}

/-! ### Blocks -/

namespace Lines

theorem untilBrace_of_mem (h : '}' ∈ t) (ls : List Text) : untilBrace t ls = some (t.takeWhile (· != '}'), 0) := by
  cases ls <;> exact if_pos (by simpa using h)

theorem untilBrace_of_not_mem (h : '}' ∉ t) (ls : List Text) : untilBrace t ls =
    match ls with
    | [] => none
    | l :: ls => (untilBrace (blankComments l) ls).map fun x => (t ++ ' ' :: x.1, x.2 + 1) := by
  cases ls <;> exact if_neg (by simpa using h)

/-- The lines are the same for every block that ends on them, and the first one has a character for every block that goes
    on over it. -/
structure Akin (l l' : Text) : Prop where
  closed : '}' ∈ blankComments l → '}' ∈ blankComments l' ∧
    (blankComments l').takeWhile (· != '}') = (blankComments l).takeWhile (· != '}')
  opened : '}' ∉ blankComments l → '}' ∉ blankComments l' ∧ '=' ∈ blankComments l

/-- A block that does not go on over a line ends where it ends with another line in its place. -/
theorem Akin.untilBrace (h : Akin l l') (t : Text) :
    untilBrace t (A ++ l' :: B) = untilBrace t (A ++ l :: B) ∨
      ∃ body more, Lines.untilBrace t (A ++ l :: B) = some (body, more) ∧ A.length < more ∧ '=' ∈ body := by
  induction A generalizing t with
  | nil =>
    by_cases ht : '}' ∈ t
    · rw [untilBrace_of_mem ht, untilBrace_of_mem ht]
      exact .inl rfl
    rw [untilBrace_of_not_mem ht, untilBrace_of_not_mem ht]
    dsimp only [List.nil_append]
    by_cases hl : '}' ∈ blankComments l
    · obtain ⟨hl', htake⟩ := h.closed hl
      rw [untilBrace_of_mem hl, untilBrace_of_mem hl', htake]
      exact .inl rfl
    obtain ⟨hl', hequals⟩ := h.opened hl
    rw [untilBrace_of_not_mem hl, untilBrace_of_not_mem hl']
    cases B with
    | nil => exact .inl rfl
    | cons b B =>
      dsimp only
      cases Lines.untilBrace (blankComments b) B with
      | none => exact .inl rfl
      | some x => exact .inr ⟨_, _, rfl, Nat.succ_pos _, by simp [hequals]⟩
  | cons a A ih =>
    by_cases ht : '}' ∈ t
    · rw [untilBrace_of_mem ht, untilBrace_of_mem ht]
      exact .inl rfl
    rw [untilBrace_of_not_mem ht, untilBrace_of_not_mem ht]
    dsimp only [List.cons_append]
    rcases ih (blankComments a) with heq | ⟨body, more, hsome, hmore, hequals⟩
    · rw [heq]
      exact .inl rfl
    · rw [hsome]
      exact .inr ⟨_, _, rfl, Nat.succ_lt_succ hmore, by simp [hequals]⟩

end Lines

/-! ### Functions -/

namespace FunctionSource
open Lines

theorem trim_ne_nil {c : Char} (hc : Byte.isBlank c = false) (h : c ∈ t) : trim t ≠ [] := by
  intro htrim
  obtain ⟨x, y, hx, hy, ht⟩ := exists_trim t
  rw [ht, htrim, List.nil_append] at h
  have hblank : Byte.isBlank c = true :=
    (List.mem_append.mp h).elim (List.all_eq_true.mp hx c) (List.all_eq_true.mp hy c)
  rw [hc] at hblank
  cases hblank

/-- A body that does not go on over a line ends where it ends with another line in its place. -/
theorem body?_akin (h : Akin l l') (t : Text) : body? t (A ++ l' :: B) = body? t (A ++ l :: B) ∨
    ∃ body more, body? t (A ++ l :: B) = some (body, more) ∧ A.length < more := by
  unfold body?
  dsimp only
  split
  · rename_i t
    rcases h.untilBrace (A := A) (B := B) t with heq | ⟨body, more, hsome, hmore, hequals⟩
    · rw [heq]
      exact .inl rfl
    · have hne : trim body ≠ [] := trim_ne_nil (show Byte.isBlank '=' = false from rfl) hequals
      exact .inr ⟨trim body, more, by simp [hsome, hne], hmore⟩
  · exact .inl rfl

/-- A definition that ends before a line is the same with another line in its place. -/
theorem at?_akin (h : Akin l l') {first : Text} (hends : ∀ f ∈ at? index first (A ++ l :: B), f.lastLine ≤ index + A.length) :
    at? index first (A ++ l' :: B) = at? index first (A ++ l :: B) := by
  rw [at?_eq] at hends
  rw [at?_eq, at?_eq]
  refine Option.bind_congr fun header hheader => ?_
  rw [hheader, Option.bind_some] at hends
  generalize Text.trim ((blankComments first).drop header.bodyOffset) = t at hends ⊢
  have hle {body : Text} {more : Nat} (hsome : body? t (A ++ l :: B) = some (body, more)) : more ≤ A.length := by
    have hend := hends _ (Option.mem_def.mpr (congrArg (Option.map _) hsome))
    simpa using hend
  rcases body?_akin h (A := A) (B := B) t with heq | ⟨body, more, hsome, hmore⟩
  · rw [heq]
    refine Option.map_congr fun ⟨body, more⟩ hsome => ?_
    rw [List.take_append_of_le_length (hle hsome), List.take_append_of_le_length (hle hsome)]
  · exact absurd (hle hsome) (Nat.not_le.mpr hmore)

/-- With another line in place of one that no definition covers the definitions cover the same lines, and those of a
    definition that begins there. -/
theorem any_covers_akin (h : Akin l l') (hl : at? (index + A.length) l B = none)
    (hl' : ∀ f ∈ at? (index + A.length) l' B, f.lastLine = f.firstLine) (hskip : skip ≤ A.length)
    (hfree : ∀ f ∈ findFrom skip index (A ++ l :: B), f.covers (index + A.length) = false) (j : Nat) :
    (findFrom skip index (A ++ l' :: B)).any (·.covers j) =
      ((findFrom skip index (A ++ l :: B)).any (·.covers j) || (at? (index + A.length) l' B).any (·.covers j)) := by
  induction A generalizing skip index with
  | nil =>
    obtain rfl := Nat.le_zero.mp hskip
    rw [List.length_nil, Nat.add_zero] at hl hl' ⊢
    dsimp only [List.nil_append]
    rw [findFrom, findFrom, hl]
    cases hf : at? index l' B with
    | none => simp
    | some f =>
      have hone : f.lastLine - f.firstLine = 0 := by rw [hl' f hf, Nat.sub_self]
      simp [hone, Bool.or_comm]
  | cons a A ih =>
    have hindex : index + (a :: A).length = index + 1 + A.length := by rw [List.length_cons]; omega
    rw [hindex] at hl hl' hfree ⊢
    rw [List.cons_append, List.cons_append] at *
    cases skip with
    | succ skip =>
      rw [findFrom, findFrom]
      rw [findFrom] at hfree
      exact ih hl hl' (Nat.le_of_succ_le_succ hskip) hfree
    | zero =>
      rw [findFrom] at hfree
      rw [findFrom, findFrom]
      have hends : ∀ f ∈ at? index a (A ++ l :: B), f.lastLine ≤ index + A.length := by
        intro f hf
        obtain ⟨more, -, hfirst, -⟩ := at?_eq_some hf
        rw [Option.mem_def.mp hf] at hfree
        have hcovers := hfree f List.mem_cons_self
        simp only [covers, hfirst, Bool.and_eq_false_iff, decide_eq_false_iff_not] at hcovers
        omega
      rw [at?_akin h hends]
      cases hf : at? index a (A ++ l :: B) with
      | none =>
        rw [hf] at hfree
        exact ih hl hl' (Nat.zero_le _) hfree
      | some f =>
        obtain ⟨more, -, hfirst, hlast⟩ := at?_eq_some hf
        have hend := hends f hf
        rw [hf] at hfree
        have hrest := @ih (index + 1) (f.lastLine - f.firstLine) hl hl' (by omega)
          fun g hg => hfree g (List.mem_cons_of_mem f hg)
        simp only [List.any_cons, hrest, Bool.or_assoc]

/-- With another line in place of one that no definition covers only this one is covered anew, if a definition begins
    there. -/
theorem any_covers_find_akin (h : Akin l l') (hl : at? A.length l B = none)
    (hl' : ∀ f ∈ at? A.length l' B, f.firstLine = A.length ∧ f.lastLine = A.length)
    (hfree : (find (A ++ l :: B)).any (·.covers A.length) = false) (j : Nat) :
    (find (A ++ l' :: B)).any (·.covers j) =
      ((find (A ++ l :: B)).any (·.covers j) || (j == A.length && (at? A.length l' B).isSome)) := by
  rw [← Nat.zero_add A.length] at hl hl' hfree ⊢
  have hfree' : ∀ f ∈ findFrom 0 0 (A ++ l :: B), f.covers (0 + A.length) = false := fun f hf => by
    simpa using List.any_eq_false.mp hfree f hf
  have hone : ∀ f ∈ at? (0 + A.length) l' B, f.lastLine = f.firstLine := fun f hf => (hl' f hf).2.trans (hl' f hf).1.symm
  refine (any_covers_akin h hl hone (Nat.zero_le _) hfree' j).trans (congrArg _ ?_)
  cases hf : at? (0 + A.length) l' B with
  | none => simp
  | some f =>
    obtain ⟨hfirst, hlast⟩ := hl' f hf
    have hcovers : f.covers j = (j == 0 + A.length) := by
      unfold covers
      rw [hfirst, hlast, Bool.eq_iff_iff]
      simp only [Bool.and_eq_true, decide_eq_true_eq, beq_iff_eq]
      omega
    simp [hcovers]

end FunctionSource

/-! ### Equations -/

namespace Equation
open Lines
variable {functions functions' : List FunctionSource} {eq : Equation}

/-- An equation whose block ends before a line is the same with another line in its place. -/
theorem at?_akin (h : Akin l l') {first : Text} (hends : (at? index first (A ++ l :: B)).2 ≤ A.length) :
    at? index first (A ++ l' :: B) = at? index first (A ++ l :: B) := by
  unfold at? at hends ⊢
  dsimp only at hends ⊢
  split
  · rename_i hbrace
    rw [if_pos hbrace, block?_eq] at hends
    rw [block?_eq, block?_eq]
    rcases h.untilBrace (A := A) (B := B) (((blankComments first).dropWhile (· != '{')).drop 1) with
      heq | ⟨body, more, hsome, hmore, -⟩
    · rw [heq]
    · rw [hsome] at hends
      exact absurd hends (Nat.not_le.mpr hmore)
  · rfl

theorem findFrom_congr {i : Nat} (hcovers : ∀ j, j ≠ i → functions'.any (·.covers j) = functions.any (·.covers j))
    (hindex : i < index) (ls : List Text) : findFrom functions' skip index ls = findFrom functions skip index ls := by
  induction ls generalizing skip index with
  | nil => rfl
  | cons l ls ih =>
    have hrest (skip : Nat) := @ih (index + 1) skip (Nat.lt_succ_of_lt hindex)
    cases skip with
    | succ skip => exact hrest skip
    | zero =>
      rw [findFrom, findFrom, hcovers index (by omega), hrest]
      dsimp only
      rw [hrest]

/-- No equation begins on the lines that are left out. -/
theorem le_firstLine_of_mem_findFrom (h : eq ∈ findFrom functions skip index ls) : index + skip ≤ eq.firstLine := by
  induction ls generalizing skip index with
  | nil => cases h
  | cons l ls ih =>
    cases skip with
    | succ skip =>
      have hle := ih (show eq ∈ findFrom functions skip (index + 1) ls from h)
      omega
    | zero =>
      obtain ⟨k, -, hk, -⟩ := of_mem_findFrom h
      omega

/-- With another line in place of one on which an equation is found the equations on the other lines are found as before,
    and on this one what it holds now. -/
theorem findFrom_akin (h : Akin l l') (hend : (at? (index + A.length) l B).2 = 0)
    (hend' : (at? (index + A.length) l' B).2 = 0)
    (hcovers : ∀ j, j ≠ index + A.length → functions'.any (·.covers j) = functions.any (·.covers j))
    (heq : eq ∈ findFrom functions skip index (A ++ l :: B)) (hfirst : eq.firstLine = index + A.length) :
    ∃ before after, findFrom functions skip index (A ++ l :: B) = before ++ eq :: after ∧
      findFrom functions' skip index (A ++ l' :: B) = before ++
        ((if functions'.any (·.covers (index + A.length)) then [] else (at? (index + A.length) l' B).1.toList) ++ after) := by
  induction A generalizing skip index with
  | nil =>
    rw [List.length_nil, Nat.add_zero] at *
    rw [List.nil_append] at heq ⊢
    have hnot {skip : Nat} : eq ∉ findFrom functions skip (index + 1) B := fun hmem => by
      have hle := le_firstLine_of_mem_findFrom hmem
      omega
    cases skip with
    | succ skip => exact absurd heq hnot
    | zero =>
      rw [findFrom] at heq ⊢
      dsimp only at heq ⊢
      split at heq
      · exact absurd heq hnot
      · rename_i hfree
        rw [if_neg hfree]
        have hat : (at? index l B).1 = some eq :=
          Option.mem_toList.mp ((List.mem_append.mp heq).resolve_right hnot)
        refine ⟨[], findFrom functions 0 (index + 1) B, by rw [hat, hend]; rfl, ?_⟩
        rw [List.nil_append, findFrom]
        dsimp only
        rw [hend', findFrom_congr hcovers (Nat.lt_succ_self index)]
        split <;> rfl
  | cons a A ih =>
    have hindex : index + (a :: A).length = index + 1 + A.length := by rw [List.length_cons]; omega
    rw [hindex] at hend hend' hcovers hfirst ⊢
    rw [List.cons_append] at heq ⊢
    cases skip with
    | succ skip => exact ih hend hend' hcovers heq hfirst
    | zero =>
      rw [findFrom] at heq
      rw [List.cons_append, findFrom, findFrom, hcovers index (by omega)]
      dsimp only at heq ⊢
      split at heq
      · rename_i hfree
        rw [if_pos hfree, if_pos hfree]
        exact ih hend hend' hcovers heq hfirst
      · rename_i hfree
        rw [if_neg hfree, if_neg hfree]
        have hrest := (List.mem_append.mp heq).resolve_left fun hmem => by
          have hone := (of_mem_at? hmem).1
          omega
        have hle := le_firstLine_of_mem_findFrom hrest
        rw [at?_akin h (by omega)]
        obtain ⟨before, after, hbefore, hafter⟩ := ih hend hend' hcovers hrest hfirst
        exact ⟨(at? index a (A ++ l :: B)).1.toList ++ before, after, by rw [hbefore, List.append_assoc],
          by rw [hafter, List.append_assoc]⟩

/-- Those are the equations that begin on the other lines, and what this line holds now. -/
theorem mem_findFrom_akin (h : Akin l l') (hend : (at? (index + A.length) l B).2 = 0)
    (hend' : (at? (index + A.length) l' B).2 = 0)
    (hcovers : ∀ j, j ≠ index + A.length → functions'.any (·.covers j) = functions.any (·.covers j))
    (heq : eq ∈ findFrom functions skip index (A ++ l :: B)) (hfirst : eq.firstLine = index + A.length) (e : Equation) :
    e ∈ findFrom functions' skip index (A ++ l' :: B) ↔
      e.firstLine ≠ eq.firstLine ∧ e ∈ findFrom functions skip index (A ++ l :: B) ∨
        functions'.any (·.covers (index + A.length)) = false ∧ (at? (index + A.length) l' B).1 = some e := by
  obtain ⟨before, after, hbefore, hafter⟩ := findFrom_akin h hend hend' hcovers heq hfirst
  have hpairwise := pairwise_findFrom functions skip index (A ++ l :: B)
  rw [hbefore] at hpairwise
  obtain ⟨-, hrest, hcross⟩ := List.pairwise_append.mp hpairwise
  have hne {a : Equation} (ha : a ∈ before ∨ a ∈ after) : a.firstLine ≠ eq.firstLine :=
    ha.elim (fun ha => Nat.ne_of_lt (hcross a ha eq List.mem_cons_self))
      fun ha => Nat.ne_of_gt ((List.pairwise_cons.mp hrest).1 a ha)
  have hself : e ∈ (if functions'.any (·.covers (index + A.length)) then []
      else (at? (index + A.length) l' B).1.toList) ↔
      functions'.any (·.covers (index + A.length)) = false ∧ (at? (index + A.length) l' B).1 = some e := by
    cases functions'.any (·.covers (index + A.length)) <;> simp
  rw [hbefore, hafter, List.mem_append, List.mem_append, hself, List.mem_append, List.mem_cons]
  constructor
  · rintro (ha | ha | ha)
    · exact .inl ⟨hne (.inl ha), .inl ha⟩
    · exact .inr ha
    · exact .inl ⟨hne (.inr ha), .inr (.inr ha)⟩
  · rintro (⟨hother, ha | rfl | ha⟩ | ha)
    · exact .inl ha
    · exact absurd rfl hother
    · exact .inr (.inr ha)
    · exact .inr (.inl ha)

end Equation

/-! ### Completed lines -/

section Tokens
variable {us post post' : List Token} {tok : Token}

theorem kind_of_isOperator {o : Text} (h : tok.isOperator o = true) : tok.kind = .operator := by
  have hkind := (Bool.and_eq_true_iff.mp h).1
  cases hk : tok.kind <;> simp_all [Token.Kind.isOperator]

theorem significant_append (htok : tok.isOperator ['='] = true) (us post : List Token) :
    significant (us ++ tok :: post) = significant us ++ tok :: significant post := by
  have hloud : tok.kind.isSilent = false := by
    rw [kind_of_isOperator htok]
    rfl
  simp [significant, hloud]

theorem FunctionSource.readParams_cons (t sep : Token) (ts : List Token) : readParams (t :: sep :: ts) =
    if t.kind.isName then
      match sep.kind with
      | .closeParen => some ([t.lexeme], ts)
      | .semicolon | .comma => (readParams ts).map fun (ps, ts) => (t.lexeme :: ps, ts)
      | _ => none
    else none :=
  rfl

/-- Parameters are read from the tokens before an equals sign. -/
theorem FunctionSource.readParams_append (htok : tok.isOperator ['='] = true) :
    ∀ us : List Token, (∀ t ∈ us, t.isOperator ['='] = false) →
      (∃ vs ps, (∀ t ∈ vs, t.isOperator ['='] = false) ∧ ∀ post, readParams (us ++ tok :: post) = some (ps, vs ++ tok :: post)) ∨
        ∀ post, readParams (us ++ tok :: post) = none
  | [], _ => by
    refine .inr fun post => ?_
    cases post with
    | nil => rfl
    | cons t post => simp [readParams, kind_of_isOperator htok, Token.Kind.isName]
  | [t], _ => by
    refine .inr fun post => ?_
    simp [readParams, kind_of_isOperator htok]
  | t :: sep :: us, hus => by
    have hus' : ∀ t ∈ us, t.isOperator ['='] = false := fun u hu => hus u (by simp [hu])
    cases hname : t.kind.isName with
    | false => exact .inr fun post => by rw [List.cons_append, List.cons_append, readParams_cons, hname]; rfl
    | true =>
      have hmore (h : ∀ post, readParams (t :: sep :: us ++ tok :: post) =
          (readParams (us ++ tok :: post)).map fun r => (t.lexeme :: r.1, r.2)) :
          (∃ vs ps, (∀ t ∈ vs, t.isOperator ['='] = false) ∧
            ∀ post, readParams (t :: sep :: us ++ tok :: post) = some (ps, vs ++ tok :: post)) ∨
              ∀ post, readParams (t :: sep :: us ++ tok :: post) = none := by
        rcases readParams_append htok us hus' with ⟨vs, ps, hvs, hsome⟩ | hnone
        · exact .inl ⟨vs, t.lexeme :: ps, hvs, fun post => by rw [h, hsome]; rfl⟩
        · exact .inr fun post => by rw [h, hnone]; rfl
      have hcons (post : List Token) := readParams_cons t sep (us ++ tok :: post)
      simp only [hname, if_true] at hcons
      cases hsep : sep.kind <;> rw [hsep] at hcons
      case closeParen => exact .inl ⟨us, [t.lexeme], hus', hcons⟩
      case semicolon => exact hmore hcons
      case comma => exact hmore hcons
      all_goals exact .inr hcons

theorem FunctionSource.paramList_append (htok : tok.isOperator ['='] = true) (hus : ∀ t ∈ us, t.isOperator ['='] = false) :
    (∃ vs ps, (∀ t ∈ vs, t.isOperator ['='] = false) ∧ ∀ post, paramList (us ++ tok :: post) = some (ps, vs ++ tok :: post)) ∨
      ∀ post, paramList (us ++ tok :: post) = none := by
  have hread := readParams_append htok us hus
  cases us with
  | nil =>
    have heq (post : List Token) : paramList ([] ++ tok :: post) = readParams ([] ++ tok :: post) := by
      simp [paramList, kind_of_isOperator htok]
    simpa only [heq] using hread
  | cons t us =>
    by_cases hclose : t.kind = .closeParen
    · exact .inl ⟨us, [], fun u hu => hus u (by simp [hu]), fun post => by simp [paramList, hclose]⟩
    · have heq (post : List Token) : paramList (t :: us ++ tok :: post) = readParams (t :: us ++ tok :: post) := by
        rw [List.cons_append]
        unfold paramList
        dsimp only
        split
        · exact absurd ‹_› hclose
        · rfl
      simpa only [heq] using hread

/-- Of a name that is called the parameters are read, and an equals sign behind them. -/
theorem FunctionSource.header?_call {line : Text} {name paren : Token} {ts : List Token}
    (h : Lines.significantTokens line = name :: paren :: ts) (hname : name.kind = .name)
    (hparen : paren.kind = .openParen) (hbuiltin : (Builtin.find? (Text.lower name.lexeme)).isSome = false) :
    header? line = match paramList ts with
      | some (params, eq :: _) => if eq.isOperator ['='] then some ⟨name.lexeme, params, eq.endOffset⟩ else none
      | _ => none := by
  unfold header?
  rw [h]
  dsimp only
  rw [hname, hparen]
  exact if_neg (by rw [hbuiltin]; exact Bool.false_ne_true)

/-- A header is read from the tokens before the first equals sign, and ends with that. -/
theorem FunctionSource.exists_header? (htok : tok.isOperator ['='] = true) (hus : ∀ t ∈ us, t.isOperator ['='] = false) :
    ∃ found, (∀ h ∈ found, h.bodyOffset = tok.endOffset) ∧
      ∀ line post, Lines.significantTokens line = us ++ tok :: post → header? line = found := by
  have hkind := kind_of_isOperator htok
  have hnone (h : ∀ line post, Lines.significantTokens line = us ++ tok :: post → header? line = none) :
      ∃ found, (∀ h ∈ found, h.bodyOffset = tok.endOffset) ∧
        ∀ line post, Lines.significantTokens line = us ++ tok :: post → header? line = found :=
    ⟨none, nofun, h⟩
  rcases us with - | ⟨name, - | ⟨paren, us⟩⟩
  · refine hnone fun line post h => ?_
    unfold header?
    rw [h]
    cases post <;> simp [hkind]
  · refine hnone fun line post h => ?_
    unfold header?
    rw [h]
    simp [hkind]
  · by_cases hcall : name.kind = .name ∧ paren.kind = .openParen ∧ (Builtin.find? (Text.lower name.lexeme)).isSome = false
    · obtain ⟨hname, hparen, hbuiltin⟩ := hcall
      have heq (line : Text) (post : List Token)
          (h : Lines.significantTokens line = name :: paren :: (us ++ tok :: post)) :=
        header?_call h hname hparen hbuiltin
      have hus' : ∀ t ∈ us, t.isOperator ['='] = false := fun t ht => hus t (by simp [ht])
      rcases paramList_append htok hus' with ⟨vs, ps, hvs, hsome⟩ | hno
      · cases vs with
        | nil => exact ⟨some ⟨name.lexeme, ps, tok.endOffset⟩, by simp, fun line post h => by simp [heq line post h, hsome, htok]⟩
        | cons t vs =>
          refine hnone fun line post h => ?_
          simp [heq line post h, hsome, hvs t List.mem_cons_self]
      · exact hnone fun line post h => by rw [heq line post h, hno]
    · refine hnone fun line post h => ?_
      unfold header?
      rw [h]
      dsimp only [List.cons_append]
      split
      · split
        · rfl
        · simp_all
      · rfl

/-- An equation stands on a line if no marker stands before the first equals sign. -/
theorem Equation.isPlain_congr (htok : tok.isOperator ['='] = true) (hl : Lines.significantTokens l = us ++ tok :: post)
    (hl' : Lines.significantTokens l' = us ++ tok :: post') : isPlain l' = isPlain l := by
  unfold isPlain
  rw [hl, hl', List.find?_append, List.find?_append]
  cases us.find? fun t => t.kind.isMarker || t.isOperator ['='] with
  | some t => rfl
  | none => simp [htok]

end Tokens

/-- Where an equation is found. -/
theorem Equation.exists_of_mem_findFrom {functions : List FunctionSource} {eq : Equation}
    (h : eq ∈ findFrom functions skip index ls) : ∃ A l B, ls = A ++ l :: B ∧ eq.firstLine = index + A.length ∧
      (at? eq.firstLine l B).1 = some eq ∧ functions.any (·.covers eq.firstLine) = false := by
  induction ls generalizing skip index with
  | nil => cases h
  | cons l ls ih =>
    have hnext {skip : Nat} (h : eq ∈ findFrom functions skip (index + 1) ls) : ∃ A m B, l :: ls = A ++ m :: B ∧
        eq.firstLine = index + A.length ∧ (at? eq.firstLine m B).1 = some eq ∧
          functions.any (·.covers eq.firstLine) = false := by
      obtain ⟨A, m, B, rfl, hfirst, hat, hfree⟩ := ih h
      exact ⟨l :: A, m, B, rfl, by rw [hfirst, List.length_cons]; omega, hat, hfree⟩
    cases skip with
    | succ skip => exact hnext (show eq ∈ findFrom functions skip (index + 1) ls from h)
    | zero =>
      rw [findFrom] at h
      split at h
      · exact hnext h
      · rename_i hfree
        rcases List.mem_append.mp h with h | h
        · have hfirst := (of_mem_at? h).1
          refine ⟨[], l, ls, rfl, hfirst, ?_, ?_⟩
          · rw [hfirst]
            exact Option.mem_toList.mp h
          · rw [hfirst]
            simpa using hfree
        · exact hnext h

section Fill
variable {line line' v : Text} {i : Nat}

/-- What a completed line has in common with the incomplete equation: all but the value and what stands behind it, and so
    the tokens up to the equals sign. -/
theorem Equation.Incomplete.exists_fill (h : Incomplete line) (hline : '\n' ∉ line) (hv : OutputText.Word v)
    (hfill : SolveState.fillAfterEquals line v = some line') :
    ∃ y s w, blankComments line = y ++ '=' :: s ∧ isBlank s = true ∧ blankComments line' = y ++ '=' :: (' ' :: v ++ w) ∧
      isBlank w = true ∧ ∃ us tok post post', tok.isOperator ['='] = true ∧ (∀ t ∈ us, t.isOperator ['='] = false) ∧
        tok.endOffset = y.length + 1 ∧ Lines.significantTokens (blankComments line) = us ++ tok :: post ∧
          Lines.significantTokens (blankComments line') = us ++ tok :: post' := by
  obtain ⟨y, s, w, line₁, hclean, hs, hequals, hfill₁, hclean', hw⟩ := h.fill hline hv
  obtain rfl := Option.some.inj (hfill.symm.trans hfill₁)
  obtain ⟨us, tok, post, htokens, hus, htok, hend⟩ := exists_token_of_equals hequals
  rw [hclean] at htokens hend
  have hends : Ends s := by
    cases s with
    | nil => exact ends_nil
    | cons c s => exact ends_cons.mpr (Bool.and_eq_true_iff.mp hs).1
  have hend : tok.endOffset = y.length + 1 := by
    simp only [List.length_append, List.length_cons] at hend
    omega
  have hoffset : tok.offset = (0 : Nat) + y.length := by
    simp only [Token.isOperator, Bool.and_eq_true, beq_iff_eq] at htok
    simp only [Token.endOffset, Token.length, htok.2, List.length_cons, List.length_nil] at hend
    omega
  obtain ⟨post', htokens'⟩ : ∃ post', tokenize (y ++ '=' :: (' ' :: v ++ w)) = us ++ tok :: post' :=
    ⟨_, (lexFrom_equals htokens hoffset hends (ends_cons.mpr rfl)).2⟩
  refine ⟨y, s, w, hclean, hs, hclean', hw, significant us, tok, significant post, significant post', htok,
    fun t ht => hus t (List.mem_filter.mp ht).1, hend, ?_, ?_⟩
  · rw [hclean, Lines.significantTokens, htokens, significant_append htok]
  · rw [hclean', Lines.significantTokens, htokens', significant_append htok]

theorem Equation.Incomplete.akin (h : Incomplete line) (hline : '\n' ∉ line) (hv : OutputText.Word v)
    (hfill : SolveState.fillAfterEquals line v = some line') : Lines.Akin line line' := by
  obtain ⟨y, s, w, hclean, hs, hclean', hw, -⟩ := h.exists_fill hline hv hfill
  have hbrace {t : Text} (ht : isBlank t = true) : '}' ∉ t := fun hmem => by
    cases List.all_eq_true.mp ht _ hmem
  have hword : '}' ∉ v := fun hmem => by
    cases hv.isWordPart _ hmem
  constructor
  · intro hmem
    have hy : '}' ∈ y := by
      rw [hclean] at hmem
      simpa [hbrace hs] using hmem
    have htake (t : Text) : (y ++ t).takeWhile (· != '}') = y.takeWhile (· != '}') := by
      obtain ⟨a, b, rfl, ha⟩ := List.eq_append_cons_of_mem hy
      have hrun : ∀ c ∈ a, (c != '}') = true := fun c hc => bne_iff_ne.mpr (ne_of_mem_of_not_mem hc ha)
      rw [List.append_assoc, List.takeWhile_append_of_pos hrun, List.takeWhile_append_of_pos hrun]
      simp
    rw [hclean, hclean', htake, htake]
    exact ⟨List.mem_append_left _ hy, rfl⟩
  · intro hmem
    rw [hclean] at hmem ⊢
    rw [hclean']
    simp only [List.mem_append, List.mem_cons, not_or] at hmem ⊢
    exact ⟨⟨hmem.1, by decide, ⟨by decide, hword⟩, hbrace hw⟩, by simp⟩

/-- An incomplete equation defines no function. When it is completed, it does so if it begins like a definition. -/
theorem Equation.Incomplete.function_fill (h : Incomplete line) (hline : '\n' ∉ line) (hv : OutputText.Word v)
    (hfill : SolveState.fillAfterEquals line v = some line') (i : Nat) (B : List Text) :
    FunctionSource.at? i line B = none ∧
      (FunctionSource.at? i line' B).isSome = (FunctionSource.header? (blankComments line)).isSome ∧
        ∀ f ∈ FunctionSource.at? i line' B, f.firstLine = i ∧ f.lastLine = i := by
  obtain ⟨y, s, w, hclean, hs, hclean', hw, us, tok, post, post', htok, hus, hend, hl, hl'⟩ := h.exists_fill hline hv hfill
  obtain ⟨found, hoffset, hfound⟩ := FunctionSource.exists_header? htok hus
  have hbehind (t : Text) : (y ++ '=' :: t).drop tok.endOffset = t := by
    rw [hend, ← List.drop_drop, List.drop_left]
    rfl
  have htrim : trim s = [] := by
    have hleft : trimLeft s = [] := List.dropWhile_eq_nil_iff.mpr (List.all_eq_true.mp hs)
    rw [trim, hleft]
    rfl
  have htrim' : trim (' ' :: v ++ w) = v := by
    rw [List.cons_append, trim_blank_cons rfl, trim_word_append (fun _ => hv.isBlank_of_mem) hv.ne_nil,
      trimRight_of_isBlank hw, List.append_nil]
  rw [FunctionSource.at?_eq, FunctionSource.at?_eq, hfound _ _ hl, hfound _ _ hl']
  cases found with
  | none => exact ⟨rfl, rfl, fun f hf => absurd hf (Option.not_mem_none f)⟩
  | some header =>
    rw [Option.bind_some, Option.bind_some, hoffset header rfl, hclean, hclean', hbehind, hbehind, htrim, htrim']
    have hbody : FunctionSource.body? v B = some (v, 0) := by
      obtain ⟨c, v', rfl⟩ := List.exists_cons_of_ne_nil hv.ne_nil
      have hc : c ≠ '{' := by
        rintro rfl
        cases hv.isWordPart _ List.mem_cons_self
      unfold FunctionSource.body?
      split
      · exact absurd (List.cons.inj ‹_›).1 hc
      · rfl
    rw [hbody]
    exact ⟨rfl, rfl, fun f hf => by obtain rfl := Option.some.inj hf; exact ⟨rfl, rfl⟩⟩

/-- A completed line without a brace is found as an equation. -/
theorem Equation.Incomplete.at?_fill (h : Incomplete line) (hline : '\n' ∉ line) (hv : OutputText.Word v)
    (hfill : SolveState.fillAfterEquals line v = some line') {eq : Equation} {B : List Text}
    (hat : (at? i line B).1 = some eq) (hbraced : eq.braced = false) :
    (at? i line B).2 = 0 ∧
      at? i line' B = (some ⟨Inline.toParens (trim (blankComments line')), false, i, i⟩, 0) := by
  obtain ⟨y, s, w, hclean, hs, hclean', hw, us, tok, post, post', htok, hus, hend, hl, hl'⟩ := h.exists_fill hline hv hfill
  unfold at? at hat ⊢
  dsimp only at hat ⊢
  rw [isPlain_congr htok hl hl']
  split at hat
  · exfalso
    cases hblock : block? i (blankComments line) B with
    | none =>
      rw [hblock] at hat
      cases hat
    | some x =>
      rw [hblock] at hat
      have hbrace := (braced_of_block? hblock (Option.mem_toList.mpr hat)).2
      rw [hbraced] at hbrace
      cases hbrace
  · rename_i hopen
    have hopen' : (blankComments line').contains '{' = false := by
      have hword : '{' ∉ v := fun hmem => by
        cases hv.isWordPart _ hmem
      have hblank : '{' ∉ w := fun hmem => by
        cases List.all_eq_true.mp hw _ hmem
      rw [hclean] at hopen
      rw [hclean']
      simp only [List.contains_eq_mem, List.mem_append, List.mem_cons, decide_eq_true_eq, not_or] at hopen
      simp [hopen, hword, hblank]
    split at hat
    · rename_i hplain
      rw [if_neg hopen, if_pos hplain, if_neg (by rw [hopen']; exact Bool.false_ne_true), if_pos hplain]
      exact ⟨rfl, rfl⟩
    · cases hat

/-- With an incomplete equation completed the equations on the other lines are found as before. On its own line the
    completed equation is found, unless the line begins like the definition of a function. -/
theorem Equation.mem_find_fill {eq : Equation} (heq : eq ∈ find ls) (hopen : eq.isComplete = false)
    (hunbroken : ∀ l ∈ ls, '\n' ∉ l) (hl : ls[eq.firstLine]? = some line) (hv : OutputText.Word v)
    (hfill : SolveState.fillAfterEquals line v = some line') (e : Equation) :
    e ∈ find (ls.set eq.firstLine line') ↔
      e.firstLine ≠ eq.firstLine ∧ e ∈ find ls ∨
      FunctionSource.header? (blankComments line) = none ∧
        e = ⟨Inline.toParens (trim (blankComments line')), false, eq.firstLine, eq.firstLine⟩ := by
  obtain ⟨A, l, B, rfl, hfirst, hat, hfree⟩ := exists_of_mem_findFrom heq
  rw [Nat.zero_add] at hfirst
  obtain rfl : l = line := by
    rw [hfirst, List.getElem?_append_right (Nat.le_refl _), Nat.sub_self] at hl
    exact Option.some.inj hl
  have hline : '\n' ∉ l := hunbroken l (by simp)
  have hincomplete : Incomplete l := by
    obtain ⟨line, hline, h⟩ := incomplete_of_mem_find heq hopen
    obtain rfl := Option.some.inj (hline.symm.trans hl)
    exact h
  have hbraced : eq.braced = false := (Bool.or_eq_false_iff.mp hopen).1
  have hset : (A ++ l :: B).set eq.firstLine line' = A ++ line' :: B := by
    rw [hfirst, List.set_append_right _ _ (Nat.le_refl _), Nat.sub_self]
    rfl
  have hakin := hincomplete.akin hline hv hfill
  obtain ⟨hnone, hsome, hone⟩ := hincomplete.function_fill hline hv hfill eq.firstLine B
  obtain ⟨hend, hat'⟩ := hincomplete.at?_fill hline hv hfill hat hbraced
  rw [hset]
  -- Only the completed line is covered by another definition than before.
  have hcovers (j : Nat) := FunctionSource.any_covers_find_akin hakin (hfirst ▸ hnone) (hfirst ▸ hone) (hfirst ▸ hfree) j
  rw [← hfirst, hsome] at hcovers
  rw [← Nat.zero_add A.length] at hfirst
  have hmem := mem_findFrom_akin hakin (hfirst ▸ hend) (by rw [← hfirst, hat'])
    (fun j hj => by rw [hcovers, hfirst, beq_false_of_ne hj, Bool.false_and, Bool.or_false]) heq hfirst e
  rw [← hfirst, hcovers, hfree, beq_self_eq_true, Bool.true_and, Bool.false_or, hat'] at hmem
  refine hmem.trans ?_
  rw [Option.isSome_eq_false_iff, Option.isNone_iff_eq_none, Option.some.injEq, eq_comm (b := e)]
  rfl

end Fill
end Worksheet
