import Worksheet.Context.Shared
import Worksheet.Proofs.Document.Standing
import Worksheet.Proofs.Document.Uncommented
import Worksheet.Proofs.Expr.Places

/-! Where the body of a function stands in its text. The body is cut out of its lines: comments become blanks, the brace
    goes, and the following lines are put behind the first one. The same cutting on characters that carry their places
    tells for each character of the body where it stands. So it tells where an error of the body is, which is never where
    the error of a text of functions says: that names the line of the header and the column in the body by itself. -/

namespace Worksheet
open Text Lines Classify Token

namespace FunctionSource

/-! ### Characters and their places -/

/-- A character with the place that it stands at in a text. -/
abbrev Site := Char × Parser.Place

/-- The characters of the line with index `n` and their places, blanks standing for its comments. -/
def lineSites (n : Nat) (l : Text) : List Site := (blankComments l).zipIdx.map fun (c, i) => (c, ⟨n + 1, i + 1⟩)

/-- `Text.trim` on characters with places. -/
def trimSites (xs : List Site) : List Site :=
  ((xs.dropWhile fun x => Byte.isBlank x.1).reverse.dropWhile fun x => Byte.isBlank x.1).reverse

/-- `Lines.untilBrace` on characters with places, where `xs` are those of the line `l` with index `n` that count. The
    blank for the end of a line stands right behind it. -/
def sitesUntilBrace (n : Nat) (l : Text) (xs : List Site) : List Text → List Site
  | [] => xs.takeWhile (·.1 != '}')
  | l' :: ls =>
    if xs.any (·.1 == '}') then xs.takeWhile (·.1 != '}')
    else xs ++ (' ', ⟨n + 1, l.length + 1⟩) :: sitesUntilBrace (n + 1) l' (lineSites (n + 1) l') ls

/-- The characters of the body of a definition that begins on the line `l` with index `n`, and their places. -/
def bodySites (n : Nat) (l : Text) (ls : List Text) : List Site :=
  match header? (blankComments l) with
  | none => []
  | some h =>
    match trimSites ((lineSites n l).drop h.bodyOffset) with
    | ('{', _) :: xs => trimSites (sitesUntilBrace n l xs ls)
    | xs => xs

/-- The characters of the body and their places, `ls` being the lines of the text. -/
def sites (f : FunctionSource) (ls : List Text) : List Site :=
  match ls.drop f.firstLine with
  | [] => []
  | l :: ls => bodySites f.firstLine l ls

section Cutting
variable {n : Nat} {l : Text} {ls : List Text} {xs ys : List Site} {f : FunctionSource}

theorem map_fst_lineSites (n : Nat) (l : Text) : (lineSites n l).map Prod.fst = blankComments l := by
  unfold lineSites
  rw [List.map_map]
  exact List.zipIdx_map_fst 0 _

theorem map_fst_trimSites (xs : List Site) : (trimSites xs).map Prod.fst = trim (xs.map Prod.fst) := by
  unfold trimSites trim trimRight trimLeft
  rw [List.dropWhile_map, ← List.map_reverse, List.dropWhile_map, ← List.map_reverse]
  rfl

theorem map_fst_takeWhile (xs : List Site) :
    (xs.takeWhile (·.1 != '}')).map Prod.fst = (xs.map Prod.fst).takeWhile (· != '}') := by
  rw [List.takeWhile_map]
  rfl

theorem map_fst_sitesUntilBrace {b : Text} {more : Nat} (h : untilBrace (xs.map Prod.fst) ls = some (b, more)) :
    (sitesUntilBrace n l xs ls).map Prod.fst = b := by
  induction ls generalizing n l xs b more with
  | nil =>
    unfold untilBrace at h
    split at h
    · obtain ⟨rfl, -⟩ := Prod.mk.inj (Option.some.inj h)
      exact map_fst_takeWhile xs
    · cases h
  | cons l' ls ih =>
    have hany : (xs.map Prod.fst).contains '}' = xs.any (·.1 == '}') := by
      rw [List.contains_eq_any_beq, List.any_map]
      congr 1
      funext x
      exact BEq.comm
    unfold untilBrace at h
    unfold sitesUntilBrace
    rw [hany] at h
    split at h
    · rename_i hclose
      obtain ⟨rfl, -⟩ := Prod.mk.inj (Option.some.inj h)
      rw [if_pos hclose]
      exact map_fst_takeWhile xs
    · rename_i hopen
      obtain ⟨⟨r, more'⟩, hrest, h⟩ := Option.map_eq_some_iff.mp h
      obtain ⟨rfl, -⟩ := Prod.mk.inj h
      rw [← map_fst_lineSites (n + 1)] at hrest
      rw [if_neg hopen, List.map_append, List.map_cons, ih hrest]

/-- What a body is: a text without a brace before it, or the one up to the closing brace. -/
theorem body?_eq_some {t b : Text} {more : Nat} (h : body? t ls = some (b, more)) : b ≠ [] ∧
    ((∃ u r, t = '{' :: u ∧ untilBrace u ls = some (r, more) ∧ b = trim r) ∨ t.head? ≠ some '{' ∧ b = t) := by
  unfold body? at h
  dsimp only at h
  split at h
  · rename_i u
    obtain ⟨⟨b', n⟩, huntil, h⟩ := Option.bind_eq_some_iff.mp h
    obtain ⟨⟨r, n'⟩, hmore, hr⟩ := Option.map_eq_some_iff.mp huntil
    obtain ⟨rfl, rfl⟩ := Prod.mk.inj hr
    split at h
    · cases h
    · rename_i hne
      obtain ⟨rfl, rfl⟩ := Prod.mk.inj (Option.some.inj h)
      exact ⟨by simpa using hne, .inl ⟨u, r, rfl, hmore, rfl⟩⟩
  · rename_i hbrace
    obtain ⟨⟨b', n⟩, hn, h⟩ := Option.bind_eq_some_iff.mp h
    obtain ⟨rfl, rfl⟩ := Prod.mk.inj (Option.some.inj hn)
    split at h
    · cases h
    · rename_i hne
      obtain ⟨rfl, -⟩ := Prod.mk.inj (Option.some.inj h)
      refine ⟨by simpa using hne, .inr ⟨fun hhead => ?_, rfl⟩⟩
      obtain ⟨u, rfl⟩ := List.head?_eq_some_iff.mp hhead
      exact hbrace u rfl

/-- The characters are those of the body. -/
theorem map_fst_bodySites (h : at? n l ls = some f) : (bodySites n l ls).map Prod.fst = f.body := by
  rw [at?_eq] at h
  obtain ⟨header, hheader, h⟩ := Option.bind_eq_some_iff.mp h
  obtain ⟨⟨body, more⟩, hbody, rfl⟩ := Option.map_eq_some_iff.mp h
  have hmap : (trimSites ((lineSites n l).drop header.bodyOffset)).map Prod.fst =
      trim ((blankComments l).drop header.bodyOffset) := by
    rw [map_fst_trimSites, List.map_drop, map_fst_lineSites]
  unfold bodySites
  rw [hheader]
  dsimp only
  generalize trimSites ((lineSites n l).drop header.bodyOffset) = xs at hmap ⊢
  rw [← hmap] at hbody
  obtain ⟨-, ⟨u, r, hxs, huntil, rfl⟩ | ⟨hbrace, rfl⟩⟩ := body?_eq_some hbody
  · obtain ⟨⟨c, p⟩, ys, rfl, rfl, rfl⟩ := List.map_eq_cons_iff.mp hxs
    show (trimSites (sitesUntilBrace n l ys ls)).map Prod.fst = trim r
    rw [map_fst_trimSites, map_fst_sitesUntilBrace huntil]
  · split
    · exact absurd rfl hbrace
    · rfl

theorem isInfix_trimSites (xs : List Site) : trimSites xs <:+: xs := by
  unfold trimSites
  have hleft := List.dropWhile_suffix (fun x : Site => Byte.isBlank x.1) (l := xs)
  generalize xs.dropWhile (fun x => Byte.isBlank x.1) = ys at hleft
  have hright : (ys.reverse.dropWhile fun x => Byte.isBlank x.1).reverse <+: ys := by
    rw [← List.reverse_suffix, List.reverse_reverse]
    exact List.dropWhile_suffix _
  exact hright.isInfix.trans hleft.isInfix

theorem line_of_mem_lineSites {x : Site} (h : x ∈ lineSites n l) : x.2.line = n + 1 := by
  obtain ⟨⟨c, i⟩, -, rfl⟩ := List.mem_map.mp h
  rfl

/-- What stands before the closing brace: characters of the first line, blanks for line ends, and characters of the lines
    behind it. -/
theorem mem_sitesUntilBrace {x : Site} (h : x ∈ sitesUntilBrace n l xs ls) :
    x ∈ xs ∨ (x.1 = ' ' ∧ n < x.2.line) ∨ ∃ k l', ls[k]? = some l' ∧ x ∈ lineSites (n + 1 + k) l' := by
  induction ls generalizing n l xs with
  | nil => exact .inl ((List.takeWhile_subset _) h)
  | cons l' ls ih =>
    unfold sitesUntilBrace at h
    split at h
    · exact .inl ((List.takeWhile_subset _) h)
    · rcases List.mem_append.mp h with h | h
      · exact .inl h
      · refine .inr ?_
        rcases List.mem_cons.mp h with rfl | h
        · exact .inl ⟨rfl, Nat.lt_succ_self n⟩
        · rcases ih h with h | ⟨hblank, hline⟩ | ⟨k, m, hm, hx⟩
          · exact .inr ⟨0, l', rfl, h⟩
          · exact .inl ⟨hblank, Nat.lt_of_succ_lt hline⟩
          · refine .inr ⟨k + 1, m, hm, ?_⟩
            rwa [Nat.add_right_comm (n + 1), Nat.add_assoc] at hx

end Cutting

/-! ### Characters stand where their places say -/

section Stands
variable {n k : Nat} {l : Text} {ls : List Text} {xs ys : List Site} {x : Site} {f : FunctionSource}

theorem getElem?_blankOut_or {t : Text} {offset len : Nat} (h : offset + len ≤ t.length) (i : Nat) :
    (blankOut t offset len)[i]? = t[i]? ∨ (blankOut t offset len)[i]? = some ' ' := by
  by_cases hi : i < offset ∨ offset + len ≤ i
  · exact .inl (getElem?_blankOut h hi)
  · refine .inr ?_
    have htake : (t.take offset).length = offset := List.length_take_of_le (by omega)
    unfold blankOut blanks
    rw [List.append_assoc, List.getElem?_append_right (by omega), htake, List.getElem?_append_left, List.getElem?_replicate,
      if_pos (by omega)]
    rw [List.length_replicate]
    omega

/-- A character of a line that is no blank is one that stands there with its comments, too. -/
theorem getElem?_of_blankComments {c : Char} (h : (blankComments l)[k]? = some c) (hc : c ≠ ' ') : l[k]? = some c := by
  have hcs : ∀ t ∈ comments (tokenize l), t.endOffset ≤ l.length := fun _ => endOffset_comment_le
  unfold blankComments at h
  generalize comments (tokenize l) = cs at h hcs
  induction cs generalizing l with
  | nil => exact h
  | cons t cs ih =>
    obtain ⟨ht, hcs⟩ := List.forall_mem_cons.mp hcs
    have hrest : (blankOut l t.offset t.length)[k]? = some c := ih h fun u hu => by
      rw [length_blankOut ht]
      exact hcs u hu
    rcases getElem?_blankOut_or ht k with heq | heq
    · exact heq ▸ hrest
    · exact absurd (Option.some.inj (hrest.symm.trans heq)) hc

/-- A character of a body that is no blank stands in the text where its place says. -/
theorem getElem?_of_mem_bodySites (hl : ls[n]? = some l) (hx : x ∈ bodySites n l (ls.drop (n + 1))) (hc : x.1 ≠ ' ') :
    ∃ l, ls[x.2.line - 1]? = some l ∧ l[x.2.col - 1]? = some x.1 := by
  have hline {m : Nat} {l' : Text} (hl' : ls[m]? = some l') (h : x ∈ lineSites m l') :
      ∃ l, ls[x.2.line - 1]? = some l ∧ l[x.2.col - 1]? = some x.1 := by
    obtain ⟨⟨c, i⟩, hmem, rfl⟩ := List.mem_map.mp h
    exact ⟨l', hl', getElem?_of_blankComments (List.mem_zipIdx_iff_getElem?.mp hmem) hc⟩
  unfold bodySites at hx
  split at hx
  · cases hx
  · rename_i header hheader
    have hfirst : trimSites ((lineSites n l).drop header.bodyOffset) ⊆ lineSites n l :=
      List.Subset.trans (isInfix_trimSites _).subset (List.drop_subset _ _)
    split at hx
    · rename_i p ys hys
      rw [hys] at hfirst
      rcases mem_sitesUntilBrace ((isInfix_trimSites _).subset hx) with h | ⟨hblank, -⟩ | ⟨k, l', hl', h⟩
      · exact hline hl (hfirst (List.mem_cons_of_mem _ h))
      · exact absurd hblank hc
      · rw [List.getElem?_drop] at hl'
        exact hline hl' h
    · exact hline hl (hfirst hx)

end Stands

/-! ### Places are ahead of the numbers -/

section Ahead
variable {n : Nat} {l : Text} {ls : List Text} {xs ys : List Site} {f : FunctionSource}

/-- Every character stands further on in the text than its number among the characters on line `n` alone would say: on a
    later line, or in a later column. -/
def Ahead (n : Nat) (xs : List Site) : Prop :=
  ∀ k x, xs[k]? = some x → n < x.2.line ∨ n = x.2.line ∧ k + 1 < x.2.col

theorem Ahead.mono (h : Ahead n xs) (hys : ys <:+: xs) : Ahead n ys := by
  obtain ⟨a, b, rfl⟩ := hys
  intro k x hx
  have hx' : (a ++ ys ++ b)[a.length + k]? = some x := by
    rw [List.append_assoc, List.getElem?_append_right (Nat.le_add_right _ _), Nat.add_sub_cancel_left]
    exact (List.getElem?_append_left (List.getElem?_eq_some_iff.mp hx).1).trans hx
  refine (h _ x hx').imp_right fun ⟨hline, hcol⟩ => ⟨hline, ?_⟩
  omega

theorem ahead_drop_lineSites {offset : Nat} (h : 0 < offset) (n : Nat) (l : Text) :
    Ahead (n + 1) ((lineSites n l).drop offset) := by
  intro k x hx
  rw [List.getElem?_drop] at hx
  unfold lineSites at hx
  rw [List.getElem?_map, List.getElem?_zipIdx] at hx
  obtain ⟨⟨c, i⟩, hci, rfl⟩ := Option.map_eq_some_iff.mp hx
  obtain ⟨d, -, hd⟩ := Option.map_eq_some_iff.mp hci
  obtain ⟨-, rfl⟩ := Prod.mk.inj hd
  refine .inr ⟨rfl, ?_⟩
  dsimp only
  omega

/-- A line that the body leaves has more characters than the body takes from it. -/
theorem ahead_sitesUntilBrace (h : Ahead (n + 1) xs) (hlength : xs.length < l.length) (ls : List Text) :
    Ahead (n + 1) (sitesUntilBrace n l xs ls) := by
  cases ls with
  | nil => exact h.mono (List.takeWhile_prefix _).isInfix
  | cons l' ls =>
    unfold sitesUntilBrace
    split
    · exact h.mono (List.takeWhile_prefix _).isInfix
    · intro k x hx
      rcases Nat.lt_trichotomy k xs.length with hk | rfl | hk
      · rw [List.getElem?_append_left hk] at hx
        exact h k x hx
      · rw [List.getElem?_append_right (Nat.le_refl _), Nat.sub_self] at hx
        obtain rfl := Option.some.inj hx
        exact .inr ⟨rfl, Nat.succ_lt_succ hlength⟩
      · rw [List.getElem?_append_right hk.le, List.getElem?_cons, if_neg (by omega)] at hx
        refine .inl ?_
        rcases mem_sitesUntilBrace (List.mem_of_getElem? hx) with h | ⟨-, h⟩ | ⟨k, m, -, h⟩
        · rw [line_of_mem_lineSites h]
          exact Nat.lt_succ_self _
        · exact h
        · rw [line_of_mem_lineSites h]
          omega

theorem bodyOffset_pos {line : Text} {header : Header} (h : header? line = some header) : 0 < header.bodyOffset := by
  unfold header? at h
  split at h
  · split at h
    · split at h
      · cases h
      · split at h
        · split at h
          · rename_i eq rest hparams hequals
            obtain rfl := Option.some.inj h
            rw [Token.isOperator, Bool.and_eq_true, beq_iff_eq] at hequals
            show 0 < eq.offset + eq.lexeme.length
            rw [hequals.2]
            exact Nat.succ_pos _
          · cases h
        · cases h
    · cases h
  · cases h

/-- The header stands before the body. -/
theorem ahead_bodySites (n : Nat) (l : Text) (ls : List Text) : Ahead (n + 1) (bodySites n l ls) := by
  unfold bodySites
  split
  · exact nofun
  · rename_i header hheader
    have hpos := bodyOffset_pos hheader
    have hinfix := isInfix_trimSites ((lineSites n l).drop header.bodyOffset)
    have hahead := (ahead_drop_lineSites hpos n l).mono hinfix
    split
    · rename_i p ys hys
      rw [hys] at hinfix hahead
      have hlength : ys.length < l.length := by
        have hle := hinfix.length_le
        have hline : (lineSites n l).length = l.length := by
          rw [← List.length_map Prod.fst, map_fst_lineSites, length_blankComments]
        rw [List.length_drop, hline, List.length_cons] at hle
        omega
      exact (ahead_sitesUntilBrace (hahead.mono (List.suffix_cons _ _).isInfix) hlength ls).mono (isInfix_trimSites _)
    · exact hahead

end Ahead

/-! ### The body of a definition -/

section Body
variable {index skip : Nat} {ls : List Text} {f : FunctionSource}

/-- Where a definition is found. -/
theorem exists_of_mem_findFrom (h : f ∈ findFrom skip index ls) :
    ∃ k l, ls[k]? = some l ∧ at? (index + k) l (ls.drop (k + 1)) = some f := by
  induction ls generalizing skip index with
  | nil => cases h
  | cons l ls ih =>
    have hnext {skip : Nat} (h : f ∈ findFrom skip (index + 1) ls) :
        ∃ k m, (l :: ls)[k]? = some m ∧ at? (index + k) m ((l :: ls).drop (k + 1)) = some f := by
      obtain ⟨k, m, hm, hat⟩ := ih h
      refine ⟨k + 1, m, hm, ?_⟩
      rwa [Nat.add_right_comm] at hat
    unfold findFrom at h
    split at h
    · exact hnext h
    · split at h
      · rename_i g hg
        rcases List.mem_cons.mp h with rfl | h
        · exact ⟨0, l, rfl, hg⟩
        · exact hnext h
      · exact hnext h

/-- The body of a definition is cut out of the lines from the first one on. -/
theorem exists_of_mem_find (h : f ∈ find ls) : ∃ l, ls[f.firstLine]? = some l ∧
    at? f.firstLine l (ls.drop (f.firstLine + 1)) = some f ∧
      f.sites ls = bodySites f.firstLine l (ls.drop (f.firstLine + 1)) := by
  obtain ⟨k, l, hl, hat⟩ := exists_of_mem_findFrom h
  obtain ⟨-, -, hfirst, -⟩ := at?_eq_some hat
  rw [Nat.zero_add] at hat hfirst
  subst hfirst
  refine ⟨l, hl, hat, ?_⟩
  unfold sites
  rw [List.drop_eq_getElem?_toList_append, hl]
  rfl

/-- The characters of the body are those of its sites. -/
theorem map_fst_sites (h : f ∈ find ls) : (f.sites ls).map Prod.fst = f.body := by
  obtain ⟨l, -, hat, hsites⟩ := exists_of_mem_find h
  rw [hsites, map_fst_bodySites hat]

/-- Each of them that is no blank stands in the text where its place says. -/
theorem getElem?_of_mem_sites {x : Site} (h : f ∈ find ls) (hx : x ∈ f.sites ls) (hc : x.1 ≠ ' ') :
    ∃ l, ls[x.2.line - 1]? = some l ∧ l[x.2.col - 1]? = some x.1 := by
  obtain ⟨l, hl, -, hsites⟩ := exists_of_mem_find h
  exact getElem?_of_mem_bodySites hl (hsites ▸ hx) hc

theorem ahead_sites (h : f ∈ find ls) : Ahead (f.firstLine + 1) (f.sites ls) := by
  obtain ⟨l, -, -, hsites⟩ := exists_of_mem_find h
  exact hsites ▸ ahead_bodySites _ l _

/-- A body stands on one line of its own. -/
theorem newline_not_mem_body (h : f ∈ find ls) (hls : ∀ l ∈ ls, '\n' ∉ l) : '\n' ∉ f.body := by
  rw [← map_fst_sites h]
  intro hmem
  obtain ⟨x, hx, hnewline⟩ := List.mem_map.mp hmem
  obtain ⟨l, hl, hchar⟩ := getElem?_of_mem_sites h hx (by rw [hnewline]; decide)
  rw [hnewline] at hchar
  exact hls l (List.mem_of_getElem? hl) (List.mem_of_getElem? hchar)

/-- A body begins with a character that is no blank. -/
theorem body_eq_cons (h : f ∈ find ls) : ∃ c t, f.body = c :: t ∧ Byte.isBlank c = false := by
  obtain ⟨l, -, hat, -⟩ := exists_of_mem_find h
  rw [at?_eq] at hat
  obtain ⟨header, -, hat⟩ := Option.bind_eq_some_iff.mp hat
  obtain ⟨⟨body, more⟩, hbody, heq⟩ := Option.map_eq_some_iff.mp hat
  obtain ⟨hne, hcut⟩ := body?_eq_some hbody
  have htrim : trim body = body := by
    rcases hcut with ⟨u, r, -, -, rfl⟩ | ⟨-, rfl⟩ <;> exact trim_trim _
  have hstops := (trim_eq_self_iff.mp htrim).1
  have hf : f.body = body := by rw [← heq]
  cases body with
  | nil => exact absurd rfl hne
  | cons c t => exact ⟨c, t, hf, stops_cons.mp hstops⟩

end Body

/-! ### What an error is about -/

/-- The place in the text that an error of the body is about: that of the token which the parser rejects, or the place just
    behind the last token if the body ends too early. -/
inductive Blames (f : FunctionSource) (ls : List Text) (e : ParseError) : Parser.Place → Prop
  | token {t : Token} {c : Char} {p : Parser.Place} (hend : e.cause.isEarlyEnd = false)
    (ht : t ∈ (tokenize f.body).dropLast) (hplace : Parser.placeOf t = ⟨e.line, e.col⟩)
    (hsite : (f.sites ls)[t.offset]? = some (c, p)) : Blames f ls e p
  | behind {t : Token} {c : Char} {p : Parser.Place} (hend : e.cause.isEarlyEnd = true)
    (ht : (tokenize f.body).dropLast.getLast? = some t) (hsite : (f.sites ls)[t.endOffset - 1]? = some (c, p)) :
    Blames f ls e ⟨p.line, p.col + 1⟩

section Blames
variable {ls : List Text} {f : FunctionSource} {e : ParseError} {p : Parser.Place}

/-- An error of the body is about some place. -/
theorem exists_blames (h : f ∈ find ls) (hls : ∀ l ∈ ls, '\n' ∉ l) (he : parseExpr f.body = .error e) :
    ∃ p, f.Blames ls e p := by
  have hlength : (f.sites ls).length = f.body.length := by rw [← map_fst_sites h, List.length_map]
  have hsite {i : Nat} (hi : i < f.body.length) : ∃ c p, (f.sites ls)[i]? = some (c, p) :=
    ⟨_, _, List.getElem?_eq_getElem (hlength ▸ hi)⟩
  rcases place_of_parseExpr (newline_not_mem_body h hls) he with ⟨hend, t, ht, hplace⟩ | ⟨hend, -⟩
  · obtain ⟨hpos, hle⟩ := within_of_mem_dropLast ht
    obtain ⟨c, p, hcp⟩ := hsite (i := t.offset) (by rw [endOffset] at hle; omega)
    exact ⟨p, .token hend ht hplace hcp⟩
  · -- A body has a character, and so a last token.
    obtain ⟨c, x, hbody, hc⟩ := body_eq_cons h
    have hne : (tokenize f.body).dropLast ≠ [] := hbody ▸ dropLast_tokenize_ne_nil hc
    obtain ⟨t, ht⟩ := Option.isSome_iff_exists.mp (List.getLast?_isSome.mpr hne)
    obtain ⟨hpos, hle⟩ := within_of_mem_dropLast (List.mem_of_getLast? ht)
    obtain ⟨c, p, hcp⟩ := hsite (i := t.endOffset - 1) (by rw [endOffset] at hle ⊢; omega)
    exact ⟨_, .behind hend ht hcp⟩

/-- That place is ahead of the column in the body, counted on the first line. -/
theorem Blames.ahead (h : f ∈ find ls) (hls : ∀ l ∈ ls, '\n' ∉ l) (he : parseExpr f.body = .error e)
    (hp : f.Blames ls e p) : f.firstLine + 1 < p.line ∨ f.firstLine + 1 = p.line ∧ e.col < p.col := by
  have hline := newline_not_mem_body h hls
  cases hp with
  | @token t c p hend ht hplace hsite =>
    have hcol : e.col = t.offset + 1 := by
      rw [← (place_of_mem_tokenize hline (List.dropLast_subset _ ht)).2]
      exact (Parser.Place.mk.inj hplace).2.symm
    rw [hcol]
    exact ahead_sites h _ _ hsite
  | @behind t c p hend ht hsite =>
    have hcol : e.col ≤ t.endOffset + 1 := by
      rcases place_of_parseExpr hline he with ⟨hend', -⟩ | ⟨-, hle⟩
      · rw [hend] at hend'
        cases hend'
      · exact hle t ht
    have hpos := (within_of_mem_dropLast (List.mem_of_getLast? ht)).1
    refine (ahead_sites h _ _ hsite).imp_right fun ⟨hfirst, hahead⟩ => ⟨hfirst, ?_⟩
    dsimp only at hahead ⊢
    rw [endOffset] at hahead hcol
    omega

end Blames
end FunctionSource

/-! ### Errors of a text of functions -/

namespace Shared
open FunctionSource

/-- The first definition of a text whose body does not parse, and the error of the body. -/
def FirstFault (text : Text) (f : FunctionSource) (e : ParseError) : Prop :=
  ∃ before after, find (lines text) = before ++ f :: after ∧ (∀ g ∈ before, ∃ body, parseExpr g.body = .ok body) ∧
    parseExpr f.body = .error e

/-- The place in the text of the token that the parser rejects, or just behind the last token of a body that ends too
    early. -/
def FaultAt (text : Text) (p : Parser.Place) : Prop := ∃ f e, FirstFault text f e ∧ f.Blames (lines text) e p

section Functions
variable {text : Text} {table : Table UserFunction} {fs : List FunctionSource} {e : ParseError}

/-- Reading definitions ends with an error at the first one whose body does not parse. -/
theorem foldlM_addFunction_eq_error : fs.foldlM addFunction table = .error e ↔ ∃ before f after err,
    fs = before ++ f :: after ∧ (∀ g ∈ before, ∃ body, parseExpr g.body = .ok body) ∧ parseExpr f.body = .error err ∧
      e = ⟨.inFunction f.name err.cause, f.firstLine + 1, err.col⟩ := by
  induction fs generalizing table with
  | nil =>
    refine iff_of_false nofun ?_
    rintro ⟨before, f, after, err, hfs, -⟩
    cases before <;> cases hfs
  | cons g fs ih =>
    rw [List.foldlM_cons]
    unfold addFunction
    cases hg : parseExpr g.body with
    | ok body =>
      refine Iff.trans (@ih (table.insert (lower g.name) ⟨g.params, body, g.source⟩)) ?_
      constructor
      · rintro ⟨before, f, after, err, rfl, hbefore, hrest⟩
        exact ⟨g :: before, f, after, err, rfl, List.forall_mem_cons.mpr ⟨⟨body, hg⟩, hbefore⟩, hrest⟩
      · rintro ⟨before, f, after, err, hfs, hbefore, herr, he⟩
        cases before with
        | nil =>
          obtain ⟨rfl, -⟩ := List.cons.inj hfs
          rw [hg] at herr
          cases herr
        | cons g' before =>
          obtain ⟨rfl, rfl⟩ := List.cons.inj hfs
          exact ⟨before, f, after, err, rfl, (List.forall_mem_cons.mp hbefore).2, herr, he⟩
    | error err =>
      constructor
      · intro h
        cases h
        exact ⟨[], g, fs, err, rfl, by simp, hg, rfl⟩
      · rintro ⟨before, f, after, err', hfs, hbefore, herr, rfl⟩
        cases before with
        | nil =>
          obtain ⟨rfl, -⟩ := List.cons.inj hfs
          obtain rfl := Except.error.inj (hg.symm.trans herr)
          rfl
        | cons g' before =>
          obtain ⟨rfl, -⟩ := List.cons.inj hfs
          obtain ⟨body, hbody⟩ := hbefore g List.mem_cons_self
          rw [hg] at hbody
          cases hbody

/-- The error of a text of functions has the line of the header and the column in the body. -/
theorem functions_eq_error : functions text = .error e ↔
    ∃ f err, FirstFault text f err ∧ e = ⟨.inFunction f.name err.cause, f.firstLine + 1, err.col⟩ := by
  refine foldlM_addFunction_eq_error.trans ?_
  constructor
  · rintro ⟨before, f, after, err, hfind, hbefore, herr, he⟩
    exact ⟨f, err, ⟨before, after, hfind, hbefore, herr⟩, he⟩
  · rintro ⟨f, err, ⟨before, after, hfind, hbefore, herr⟩, he⟩
    exact ⟨before, f, after, err, hfind, hbefore, herr, he⟩

theorem FirstFault.mem_find {f : FunctionSource} (h : FirstFault text f e) : f ∈ find (lines text) := by
  obtain ⟨before, after, hfind, -⟩ := h
  rw [hfind]
  exact List.mem_append_right _ List.mem_cons_self

/-- What an error is about stands ahead of the place that the error names. -/
theorem lt_of_faultAt {p : Parser.Place} (h : functions text = .error e) (hp : FaultAt text p) :
    e.line < p.line ∨ e.line = p.line ∧ e.col < p.col := by
  obtain ⟨f, err, hfault, hblames⟩ := hp
  obtain rfl := Except.error.inj (h.symm.trans (functions_eq_error.mpr ⟨f, err, hfault, rfl⟩))
  obtain ⟨-, -, -, -, herr⟩ := id hfault
  have hahead := hblames.ahead hfault.mem_find (fun _ => newline_not_mem_of_mem_lines) herr
  exact hahead

theorem exists_faultAt (h : functions text = .error e) : ∃ p, FaultAt text p := by
  obtain ⟨f, err, hfault, -⟩ := functions_eq_error.mp h
  obtain ⟨-, -, -, -, herr⟩ := id hfault
  obtain ⟨p, hp⟩ := exists_blames hfault.mem_find (fun _ => newline_not_mem_of_mem_lines) herr
  exact ⟨p, f, err, hfault, hp⟩

theorem context_eq_error {constantsText : Text} {surroundings : Surroundings} :
    context constantsText text surroundings = .error e ↔ functions text = .error e := by
  unfold context
  cases functions text <;> simp

/-- Every error of a text of functions is about a place ahead of the one that it names. So it names the right place only
    if there is no error. -/
theorem context_error_place (constantsText text : Text) (surroundings : Surroundings) :
    (∀ e, context constantsText text surroundings = .error e →
      ∃ p, FaultAt text p ∧ (e.line < p.line ∨ e.line = p.line ∧ e.col < p.col)) ∧
    ((∀ e, context constantsText text surroundings = .error e → FaultAt text ⟨e.line, e.col⟩) ↔
      ∃ c, context constantsText text surroundings = .ok c) := by
  constructor
  · intro e he
    have herror := context_eq_error.mp he
    obtain ⟨p, hp⟩ := exists_faultAt herror
    exact ⟨p, hp, lt_of_faultAt herror hp⟩
  · cases hc : context constantsText text surroundings with
    | ok c => exact iff_of_true nofun ⟨c, rfl⟩
    | error e =>
      refine iff_of_false (fun hall => ?_) nofun
      rcases lt_of_faultAt (context_eq_error.mp hc) (hall e rfl) with hline | ⟨-, hcol⟩
      · exact Nat.lt_irrefl _ hline
      · exact Nat.lt_irrefl _ hcol

/-- The second `x` stands in column 10 of the text and in column 3 of the body. -/
theorem not_faultAt_column : (∀ constantsText surroundings, context constantsText "f(x) = x x".toList surroundings =
      .error ⟨.inFunction ['f'] (.unexpectedName ['x']), 1, 3⟩) ∧
    FaultAt "f(x) = x x".toList ⟨1, 10⟩ ∧ ¬FaultAt "f(x) = x x".toList ⟨1, 3⟩ := by
  have herror : functions "f(x) = x x".toList = .error ⟨.inFunction ['f'] (.unexpectedName ['x']), 1, 3⟩ := rfl
  refine ⟨fun _ _ => context_eq_error.mpr herror, ?_, fun h => ?_⟩
  · refine ⟨_, _, ⟨[], [], rfl, by simp, rfl⟩, ?_⟩
    exact .token rfl (List.mem_of_getElem? (i := 1) rfl) rfl rfl
  · rcases lt_of_faultAt herror h with hline | ⟨-, hcol⟩
    · exact Nat.lt_irrefl _ hline
    · exact Nat.lt_irrefl _ hcol

end Functions
end Shared
end Worksheet
