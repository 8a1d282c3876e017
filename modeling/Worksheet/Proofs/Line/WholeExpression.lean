import Worksheet.Proofs.Expr.Spine
import Worksheet.Proofs.Line.Commented
import Worksheet.Proofs.Token.Tiling

/-! The expression before an arrow is taken as a whole. The classifier looks for its first token backward from the
    arrow, operand by operand, and knows nothing of the grammar; it stops where the spine of the expression does. -/

namespace Worksheet
namespace Classify
open Token Worksheet.Parser

/-- `t` may stand right behind `x`: a parenthesis touches the name before it, and so does the only suffix of a name. -/
def Tight (x t : Token) : Prop :=
  (x.kind.isName = true → isOpenParen t = true → x.touches t = true) ∧
    (t.kind.isSuffix = true → x.kind.isSuffix = false ∧ x.touches t = true)

instance : DecidableRel Tight := fun _ _ => inferInstanceAs (Decidable (_ ∧ _))

/-! ### One operand -/

section Operand
variable {n m : Nat} {due : Bool} {t : Token} {ts us : List Token}

theorem matchOpen_of_ne {k : Nat} (hopen : t.kind ≠ .openParen) (hclose : t.kind ≠ .closeParen) :
    matchOpen k (t :: ts) = matchOpen k ts := by
  rw [matchOpen]
  split <;> simp_all

theorem matchOpen_close {k : Nat} (ht : t.kind = .closeParen) : matchOpen k (t :: ts) = matchOpen (k + 1) ts := by
  rw [matchOpen, ht]

theorem matchOpen_open {k : Nat} (ht : t.kind = .openParen) :
    matchOpen k (t :: ts) = if k = 1 then some (t :: ts) else matchOpen (k - 1) ts := by
  rw [matchOpen, ht]

/-- The parenthesis that a closing one belongs to has what an operand begins behind: before it an operand is due, or
    before the name of a call. -/
def OpensOperand (n : Nat) (p : Token) (ps : List Token) : Prop :=
  p.kind = .openParen ∧ (Spine n true ps ∨ ∃ f us, ps = f :: us ∧ f.kind = .name ∧ Spine n true us)

theorem matchOpen_spine (h : Spine (n + m + 1) due ts) :
    ∃ p ps, matchOpen (m + 1) ts = some (p :: ps) ∧ p :: ps <:+ ts ∧ OpensOperand n p ps := by
  generalize hk : n + m + 1 = k at h
  induction h generalizing m with
  | nil => omega
  | @number _ ts t _ _ _ _ ht ih | @name _ ts t _ ht ih | @suffix _ ts t _ _ _ _ ht ih | @prefixOp _ ts t _ _ ht _ ih
  | @binaryOp _ ts t _ _ ht _ ih =>
    obtain ⟨p, ps, hmatch, hsuffix, hp⟩ := ih hk
    refine ⟨p, ps, ?_, hsuffix.trans (List.suffix_cons t _), hp⟩
    rw [matchOpen_of_ne (by simp [ht]) (by simp [ht]), hmatch]
  | @separator _ ts t _ ht ih =>
    obtain ⟨p, ps, hmatch, hsuffix, hp⟩ := ih hk
    have hskip : matchOpen (m + 1) (t :: ts) = matchOpen (m + 1) ts := by
      rcases ht with ht | ht <;> exact matchOpen_of_ne (by simp [ht]) (by simp [ht])
    exact ⟨p, ps, hskip.trans hmatch, hsuffix.trans (List.suffix_cons t ts), hp⟩
  | @group k ts t h ht ih =>
    rw [matchOpen_open ht]
    cases m with
    | zero =>
      obtain rfl : k = n := by omega
      exact ⟨t, ts, rfl, List.suffix_refl _, ht, .inl h⟩
    | succ m =>
      obtain ⟨p, ps, hmatch, hsuffix, hp⟩ := ih (m := m) (by omega)
      exact ⟨p, ps, by simpa using hmatch, hsuffix.trans (List.suffix_cons t ts), hp⟩
  | @call k ts t f h hf ht ih =>
    rw [matchOpen_open ht]
    cases m with
    | zero =>
      obtain rfl : k = n := by omega
      exact ⟨t, f :: ts, rfl, List.suffix_refl _, ht, .inr ⟨f, ts, rfl, hf, h⟩⟩
    | succ m =>
      obtain ⟨p, ps, hmatch, hsuffix, hp⟩ := ih (m := m) (by omega)
      refine ⟨p, ps, ?_, hsuffix.trans ((List.suffix_cons f ts).trans (List.suffix_cons t _)), hp⟩
      rw [if_neg (by omega), Nat.add_sub_cancel, matchOpen_of_ne (by simp [hf]) (by simp [hf])]
      exact hmatch
  | @close k due ts t h ht ih =>
    obtain ⟨p, ps, hmatch, hsuffix, hp⟩ := ih (m := m + 1) (by omega)
    exact ⟨p, ps, (matchOpen_close ht).trans hmatch, hsuffix.trans (List.suffix_cons t ts), hp⟩

theorem withName_touching {x : Token} (hname : t.kind.isName = true) (h : t.touches x = true) :
    withName x (t :: ts) = t :: ts := by
  simp [withName, hname, h]

theorem withName_of_due (h : Spine n true ts) (t : Token) : withName t ts = t :: ts := by
  cases ts with
  | nil => rfl
  | cons x xs =>
    have hname : x.kind.isName = false := by
      cases hk : x.kind with
      | name => exact absurd (h.of_word (by rw [hk]; rfl)).1 (by simp)
      | _ => rfl
    simp [withName, hname]

/-- The first token of the last operand has an operand due before it. -/
theorem operandStart_spine (h : Spine n false ts) (htight : ts.IsChain (flip Tight)) :
    ∃ t us, operandStart ts = t :: us ∧ t :: us <:+ ts ∧ Spine n true us := by
  cases h with
  | @number _ ts t _ _ _ h ht => exact ⟨t, ts, by simp [operandStart, ht], List.suffix_refl _, h⟩
  | @name _ ts t h ht => exact ⟨t, ts, by simp [operandStart, ht], List.suffix_refl _, h⟩
  | @suffix _ ts t x d h hx ht =>
    obtain ⟨hsingle, htouches⟩ := (List.isChain_cons_cons.mp htight).1.2 (by rw [ht]; rfl)
    have hname : x.kind = .name := by simpa [hsingle] using hx
    have hstart : operandStart (t :: x :: ts) = withName t (x :: ts) := by simp [operandStart, ht]
    refine ⟨x, ts, ?_, List.suffix_cons t _, (h.of_word (by rw [hname]; rfl)).2⟩
    rw [hstart, withName_touching (by rw [hname]; rfl) htouches]
  | @close _ due ts t h ht =>
    obtain ⟨p, ps, hmatch, hsuffix, hp, hopens⟩ := matchOpen_spine (m := 0) h
    have hstart : operandStart (t :: ts) = withName p ps := by
      simp only [operandStart, ht]
      rw [matchOpen_close ht, hmatch]
    have hsuffix' : p :: ps <:+ t :: ts := hsuffix.trans (List.suffix_cons t ts)
    rcases hopens with h | ⟨f, us, rfl, hf, h⟩
    · exact ⟨p, ps, by rw [hstart, withName_of_due h], hsuffix', h⟩
    · obtain ⟨htouches, -⟩ := (List.isChain_cons_cons.mp (htight.suffix hsuffix')).1
      refine ⟨f, us, ?_, (List.suffix_cons p _).trans hsuffix', h⟩
      rw [hstart, withName_touching (by rw [hf]; rfl) (htouches (by rw [hf]; rfl) (by rw [isOpenParen, hp]))]

end Operand

/-! ### The walk -/

section Extend
variable {t : Token} {ts us : List Token}

theorem prefix_cases {op : PrefixOp} (hop : PrefixOp.ofSymbol? t.lexeme = some op) :
    (t.lexeme = ['!'] ∨ t.lexeme = ['~']) ∨ t.lexeme = ['-'] ∨ t.lexeme = ['+'] := by
  have hall : ∀ op ∈ PrefixOp.known,
      (op.symbol = ['!'] ∨ op.symbol = ['~']) ∨ op.symbol = ['-'] ∨ op.symbol = ['+'] := by decide
  rw [← PrefixOp.symbol_of_ofSymbol? hop]
  exact hall op (PrefixOp.mem_known_of_ofSymbol? hop)

theorem connects_of_ofSymbol {op : PrefixOp} (ht : t.kind = .operator) (hop : PrefixOp.ofSymbol? t.lexeme = some op) :
    connects t = true := by
  rcases prefix_cases hop with (h | h) | h | h <;> rw [connects, ht, h] <;> decide

theorem connects_of_binary {op : BinaryOp} (ht : t.kind = .operator) (hop : BinaryOp.ofSymbol? t.lexeme = some op) :
    connects t = true ∧ t.lexeme ≠ ['!'] ∧ t.lexeme ≠ ['~'] := by
  have hall : ∀ op ∈ BinaryOp.known, (op.symbol ≠ ['?'] ∧ op.symbol ≠ ['\\'] ∧ op.symbol ≠ ['=']) ∧
      op.symbol ≠ ['!'] ∧ op.symbol ≠ ['~'] := by decide
  have hknown := hall op (BinaryOp.mem_known_of_ofSymbol? hop)
  rw [BinaryOp.symbol_of_ofSymbol? hop] at hknown
  obtain ⟨⟨hquestion, hback, hequals⟩, hunary⟩ := hknown
  exact ⟨by simp [connects, ht, Kind.isOperator, hquestion, hback, hequals], hunary⟩

theorem endsOperand_of_spine {n : Nat} (h : Spine n false ts) : ts.head?.any endsOperand = true := by
  cases h with
  | number _ ht | name _ ht | suffix _ _ ht | close _ ht => simp [endsOperand, ht]

/-- Before a token that no operand is due behind the text begins or an operator connects. -/
theorem connects_of_due (h : Spine 0 true ts) :
    ts = [] ∨ ts.head?.any endsOperand = false ∧ ts.head?.any connects = true := by
  rcases h.of_due with rfl | ⟨t, us, rfl, ht, hop⟩
  · exact .inl rfl
  · refine .inr ⟨by simp [endsOperand, ht], ?_⟩
    rcases hop with ⟨⟨op, hop⟩, -⟩ | ⟨⟨op, hop⟩, -⟩
    · exact connects_of_ofSymbol ht hop
    · exact (connects_of_binary ht hop).1

/-- The walk goes on to the first token of all, unless that is a sign. -/
theorem extend_spine {fuel : Nat} (h : Spine 0 true us) (htight : us.IsChain (flip Tight))
    (hsign : ∀ f ∈ (t :: us).getLast?, f.lexeme ≠ ['-'] ∧ f.lexeme ≠ ['+']) (hfuel : us.length ≤ fuel) :
    extend fuel (t :: us) = (t :: us).getLast?.toList := by
  induction fuel generalizing t us with
  | zero =>
    obtain rfl := List.eq_nil_of_length_eq_zero (Nat.le_zero.mp hfuel)
    rfl
  | succ fuel ih =>
    rcases h.of_due with rfl | ⟨op, rest, rfl, hop, ⟨⟨sym, hsym⟩, h⟩ | ⟨⟨sym, hsym⟩, h⟩⟩
    · rfl
    · have hrest : extend fuel (op :: rest) = (op :: rest).getLast?.toList :=
        ih h htight.tail (by simpa using hsign) (Nat.le_of_succ_le_succ hfuel)
      rw [List.getLast?_cons_cons, ← hrest, extend, if_neg (by simp [connects_of_ofSymbol hop hsym])]
      rcases prefix_cases hsym with hunary | hunary
      · rw [if_pos (by simpa using hunary)]
      · rcases connects_of_due h with rfl | ⟨hends, hconnects⟩
        · obtain ⟨hminus, hplus⟩ := hsign op rfl
          exact absurd hunary (by simp [hminus, hplus])
        · rw [if_neg (by rcases hunary with hunary | hunary <;> rw [hunary] <;> decide), if_neg (by simp [hends]),
            if_pos (by simpa using hunary), if_pos hconnects]
    · obtain ⟨hconnects, hnot, hcomplement⟩ := connects_of_binary hop hsym
      obtain ⟨t', us', hstart, hsuffix, hspine⟩ := operandStart_spine h htight.tail
      have hlast : (t :: op :: rest).getLast? = (t' :: us').getLast? := by
        obtain ⟨pre, rfl⟩ := hsuffix
        exact List.getLast?_append_of_ne_nil (t :: op :: pre) (List.cons_ne_nil t' us')
      have hlength := hsuffix.length_le
      rw [hlast] at hsign ⊢
      rw [extend, if_neg (by simp [hconnects]), if_neg (by simp [hnot, hcomplement]), if_pos (endsOperand_of_spine h),
        hstart]
      simp only [List.length_cons] at hfuel hlength
      exact ih hspine (htight.tail.suffix hsuffix).tail hsign (by omega)

end Extend

/-! ### The subject -/

section Subject
variable {t name : Token} {ts us : List Token} {line : Text} {d : Decoration}

/-- A name by itself, or with a suffix. -/
def isLoneName : List Token → Bool
  | [t] => t.kind.isName
  | [t, s] => t.kind.isName && s.kind.isSuffix
  | _ => false

theorem takeSuffixes_of_ne (ht : t.kind.isSuffix = false) : takeSuffixes d (t :: ts) = (d, t :: ts) := by
  unfold takeSuffixes
  split
  · rename_i hk
    rw [hk] at ht
    cases ht
  · rfl

theorem readHead_of_ne (h : (takeSuffixes d ts).2 = t :: us) (ht : t.kind ≠ .closeBracket) :
    (readHead line d ts).rest = t :: us := by
  unfold readHead
  generalize takeSuffixes d ts = passed at h
  obtain ⟨e, rest⟩ := passed
  obtain rfl : rest = t :: us := h
  dsimp only
  split
  · rename_i hclose _
    exact absurd hclose ht
  · rfl

/-- A name with something before it ends an expression. -/
theorem endsExpression_spine (h : Spine 0 true ts) (hne : ts ≠ []) (hsign : ∀ f ∈ ts.getLast?, f.lexeme ≠ ['-']) :
    endsExpression name ts = true := by
  rcases h.of_due with rfl | ⟨op, rest, rfl, hop, hbehind⟩
  · exact absurd rfl hne
  · have hconnects : connects op = true := by
      rcases connects_of_due h with hnil | ⟨-, hconnects⟩
      · cases hnil
      · exact hconnects
    have hbefore (hminus : op.lexeme = ['-']) :
        rest.head?.any (fun t => endsOperand t || connects t || isOpenParen t) = true := by
      have hany {p q : Token → Bool} (hpq : ∀ t, p t = true → q t = true) (hp : rest.head?.any p = true) :
          rest.head?.any q = true := by
        cases rest with
        | nil => cases hp
        | cons x xs => exact hpq x hp
      rcases hbehind with ⟨-, h⟩ | ⟨-, h⟩
      · rcases connects_of_due h with rfl | ⟨-, hconnects⟩
        · exact absurd hminus (hsign op rfl)
        · exact hany (fun t ht => by simp [ht]) hconnects
      · exact hany (fun t ht => by simp [ht]) (endsOperand_of_spine h)
    have hparen : isOpenParen op = false := by simp [isOpenParen, hop]
    simp only [endsExpression, hop, hparen, hconnects]
    by_cases hminus : op.lexeme = ['-']
    · simp [hminus, hbefore hminus]
    · simp [hminus]

/-- Before an arrow the tokens of an expression are its subject, unless they are a name. -/
theorem subjectBefore_spine (h : Spine 0 false ts) (htight : ts.IsChain (flip Tight))
    (hlone : isLoneName ts.reverse = false) (hsign : ∀ f ∈ ts.getLast?, f.lexeme ≠ ['-'] ∧ f.lexeme ≠ ['+']) :
    subjectBefore line .rightArrow d ts = expressionBefore line d ts := by
  have hword {t : Token} {us : List Token} (hrest : (readHead line d ts).rest = t :: us)
      (hname : t.kind.isName = true → endsExpression t us = true) :
      subjectBefore line .rightArrow d ts = expressionBefore line d ts := by
    unfold subjectBefore
    dsimp only
    rw [hrest]
    dsimp only
    split
    · rename_i h
      rw [if_neg (by simp [hname h])]
    · rfl
  have hends {t : Token} {us : List Token} (h : Spine 0 true us) (hne : us ≠ []) (hsuffix : us <:+ ts) :
      endsExpression t us = true := by
    refine endsExpression_spine h hne fun f hf => (hsign f ?_).1
    obtain ⟨pre, rfl⟩ := hsuffix
    rwa [List.getLast?_append_of_ne_nil pre hne]
  cases h with
  | @number _ us t _ _ _ h ht =>
    have hpassed : (takeSuffixes d (t :: us)).2 = t :: us := by rw [takeSuffixes_of_ne (by rw [ht]; rfl)]
    exact hword (readHead_of_ne hpassed (by simp [ht])) (by simp [ht, Kind.isName])
  | @close _ _ us t h ht =>
    have hpassed : (takeSuffixes d (t :: us)).2 = t :: us := by rw [takeSuffixes_of_ne (by rw [ht]; rfl)]
    exact hword (readHead_of_ne hpassed (by simp [ht])) (by simp [ht, Kind.isName])
  | @name _ us t h ht =>
    have hpassed : (takeSuffixes d (t :: us)).2 = t :: us := by rw [takeSuffixes_of_ne (by rw [ht]; rfl)]
    refine hword (readHead_of_ne hpassed (by simp [ht])) fun _ => hends h ?_ (List.suffix_cons t us)
    rintro rfl
    simp [isLoneName, ht, Kind.isName] at hlone
  | @suffix _ us t x e h hx ht =>
    obtain ⟨hsingle, -⟩ := (List.isChain_cons_cons.mp htight).1.2 (by rw [ht]; rfl)
    have hname : x.kind = .name := by simpa [hsingle] using hx
    have hpassed : (takeSuffixes d (t :: x :: us)).2 = x :: us := by
      rw [takeSuffixes, ht]
      exact congrArg Prod.snd (takeSuffixes_of_ne hsingle)
    refine hword (readHead_of_ne hpassed (by simp [hname])) fun _ =>
      hends (h.of_word (by rw [hname]; rfl)).2 ?_ ((List.suffix_cons x us).trans (List.suffix_cons t _))
    rintro rfl
    simp [isLoneName, hname, ht, Kind.isName, Kind.isSuffix] at hlone

theorem expressionBefore_spine (line : Text) (d : Decoration) (h : Spine 0 false ts)
    (htight : ts.IsChain (flip Tight))
    (hsign : ∀ f ∈ ts.getLast?, f.lexeme ≠ ['-'] ∧ f.lexeme ≠ ['+']) : ∃ last first, ts.head? = some last ∧
      ts.getLast? = some first ∧ expressionBefore line d ts =
        some ⟨.expression (Text.trim (Text.slice line first.offset last.endOffset)), first.offset, d⟩ := by
  obtain ⟨t, us, hstart, hsuffix, hspine⟩ := operandStart_spine h htight
  have hlast : ts.getLast? = (t :: us).getLast? := by
    obtain ⟨pre, rfl⟩ := hsuffix
    exact List.getLast?_append_of_ne_nil pre (List.cons_ne_nil t us)
  have hlength : us.length ≤ ts.length := Nat.le_of_succ_le hsuffix.length_le
  have hwalk : expressionStart ts = ts.getLast?.toList := by
    rw [expressionStart, hstart, hlast]
    exact extend_spine hspine (htight.suffix hsuffix).tail (hlast ▸ hsign) hlength
  cases ts with
  | nil => cases h
  | cons last rest =>
    have hsome : (last :: rest).getLast? = some ((last :: rest).getLast (List.cons_ne_nil last rest)) :=
      List.getLast?_eq_some_getLast _
    rw [hsome] at hwalk
    refine ⟨last, _, rfl, hsome, ?_⟩
    unfold expressionBefore
    rw [hwalk]
    rfl

end Subject

/-! ### The line -/

section Line
variable {e : Text} {ts us : List Token}

theorem quiet_of_isPart {t : Token} (h : isPart t.kind = true) (depth : Nat) :
    t.kind.marker? = none ∧ deeper depth t = depth := by
  unfold deeper
  generalize t.kind = k at h ⊢
  cases k <;> first | exact ⟨rfl, rfl⟩ | cases h

theorem candidates_of_isPart (h : ∀ t ∈ ts, isPart t.kind = true) (depth index : Nat) :
    candidates depth index (ts ++ us) = candidates depth (index + ts.length) us := by
  have hquiet : candidates depth index ts = [] ∧ ts.foldl deeper depth = depth := by
    induction ts generalizing index with
    | nil => exact ⟨rfl, rfl⟩
    | cons t ts ih =>
      obtain ⟨ht, hts⟩ := List.forall_mem_cons.mp h
      obtain ⟨hmarker, hdeeper⟩ := quiet_of_isPart ht depth
      rw [candidates_deeper, List.foldl_cons, hmarker, hdeeper]
      exact ih hts (index + 1)
  rw [candidates_append, hquiet.1, hquiet.2]
  rfl

/-- The tokens of a text but for its end. -/
def body (e : Text) : List Token := (tokenize e).dropLast

theorem exists_tokenize (e : Text) : ∃ f, tokenize e = body e ++ [f] ∧ f.kind = .finish ∧ f.length = 0 ∧
    ∀ t ∈ body e, t.kind.isFinish = false ∧ t.endOffset ≤ e.length := by
  obtain ⟨ts, f, htokens, hkind, hlength, hoffset, hproper⟩ := (tokenize_tiles e).finish
  have hordered := (tokenize_tiles e).ordered
  have hbody : body e = ts := by rw [body, htokens, List.dropLast_concat]
  rw [htokens] at hordered
  rw [hbody]
  refine ⟨f, htokens, hkind, hlength, fun t ht => ⟨(hproper t ht).1, ?_⟩⟩
  rw [← hoffset]
  exact (List.pairwise_append.mp hordered).2.2 t ht f (List.mem_singleton_self f)

/-- What a text has before its first token and behind its last one are blanks. -/
theorem trim_body {first last : Token} (hfirst : (body e).head? = some first) (hlast : (body e).getLast? = some last) :
    Text.trim (Text.slice e first.offset last.endOffset) = Text.trim e := by
  obtain ⟨f, htokens, -, hlength, -⟩ := exists_tokenize e
  obtain ⟨-, hordered, -, hgaps, -⟩ := tokenize_tiles e
  have hfrom : ∀ t ∈ tokenize e, first.offset ≤ t.offset := by
    obtain ⟨rest, hrest⟩ := List.head?_eq_some_iff.mp hfirst
    rw [htokens, hrest, List.cons_append] at hordered ⊢
    refine List.forall_mem_cons.mpr ⟨Nat.le_refl _, fun t ht => ?_⟩
    exact Nat.le_trans (Nat.le_add_right _ _) (List.rel_of_pairwise_cons hordered ht)
  have huntil : ∀ t ∈ body e, t.endOffset ≤ last.endOffset := by
    obtain ⟨init, hinit⟩ := List.getLast?_eq_some_iff.mp hlast
    rw [htokens, hinit] at hordered
    have hbefore := (List.pairwise_append.mp (List.pairwise_append.mp hordered).1).2.2
    rw [hinit]
    intro t ht
    rcases List.mem_append.mp ht with ht | ht
    · exact Nat.le_trans (hbefore t ht last (List.mem_singleton_self _)) (Nat.le_add_right _ _)
    · rw [List.mem_singleton.mp ht]
  have hmem : last ∈ tokenize e := htokens ▸ List.mem_append_left _ (List.mem_of_getLast? hlast)
  refine Text.trim_slice (Nat.le_trans (hfrom last hmem) (Nat.le_add_right _ _)) (fun c hc => ?_) fun c hc => ?_
  · obtain ⟨i, hi, rfl⟩ := List.mem_take_iff_getElem.mp hc
    refine hgaps i _ (List.getElem?_eq_getElem (by omega)) fun t ht hcovers => ?_
    have := hfrom t ht
    have := hcovers.1
    omega
  · obtain ⟨i, hi, rfl⟩ := List.mem_drop_iff_getElem.mp hc
    refine hgaps (last.endOffset + i) _ (List.getElem?_eq_getElem (by omega)) fun t ht hcovers => ?_
    obtain ⟨hbegin, hend⟩ := hcovers
    rw [htokens] at ht
    rcases List.mem_append.mp ht with ht | ht
    · have := huntil t ht
      omega
    · rw [List.mem_singleton.mp ht] at hbegin hend
      have hempty : f.endOffset = f.offset := by rw [Token.endOffset, hlength, Nat.add_zero]
      omega

/-- An expression that an arrow shows as a whole: the arrow takes nothing from it, it is no lone name and begins with no
    sign, and calls and suffixes touch their names. -/
structure Shown (e : Text) : Prop where
  line : '\n' ∉ e
  bare : Bare e
  parses : ∃ x, parseExpr e = .ok x
  arrow : ∃ a f, tokenize (e ++ ['-', '>']) = body e ++ [a, f] ∧ a.kind = .marker .rightArrow {} ∧ f.kind = .finish
  lone : isLoneName (body e) = false
  sign : ∀ t ∈ (body e).head?, t.lexeme ≠ ['-'] ∧ t.lexeme ≠ ['+']
  tight : (body e).IsChain Tight

theorem spine_of_parseExpr {x : Expr} (hbare : Bare e) (hline : '\n' ∉ e) (h : parseExpr e = .ok x) :
    Spine 0 false (body e).reverse ∧ ∀ t ∈ body e, t.kind.isSilent = false := by
  obtain ⟨f, htokens, hkind, -, hproper⟩ := exists_tokenize e
  have hloud : ∀ t ∈ body e, t.kind.isSilent = false := fun t ht =>
    hbare.loud hline (htokens ▸ List.mem_append_left [f] ht : t ∈ tokenize e) (hproper t ht).1
  rw [parseExpr, htokens] at h
  exact ⟨spine_of_parseTokens hloud hkind h, hloud⟩

/-- The whole expression is what the line gives a value for. -/
theorem classifyLine_shown (h : Shown e) : ∃ l first, classifyLine (e ++ ['-', '>']) = some l ∧
    (body e).head? = some first ∧ l.subject = .expression (Text.trim e) ∧ l.labelEnd = first.offset ∧
    l.marker = .rightArrow := by
  obtain ⟨x, hx⟩ := h.parses
  obtain ⟨hspine, hloud⟩ := spine_of_parseExpr h.bare h.line hx
  obtain ⟨a, f, htokens, ha, hf⟩ := h.arrow
  have htight : (body e).reverse.IsChain (flip Tight) := List.isChain_reverse.mpr h.tight
  have hsign : ∀ f ∈ (body e).reverse.getLast?, f.lexeme ≠ ['-'] ∧ f.lexeme ≠ ['+'] := by
    rw [List.getLast?_reverse]
    exact h.sign
  obtain ⟨last, first, hlast, hfirst, hbefore⟩ := expressionBefore_spine e {} hspine htight hsign
  rw [List.head?_reverse] at hlast
  rw [List.getLast?_reverse] at hfirst
  have hsignificant : significant (tokenize (e ++ ['-', '>'])) = body e ++ [a] := by
    rw [htokens, significant, List.filter_append, List.filter_eq_self.mpr fun t ht => by rw [hloud t ht]; rfl]
    simp [ha, hf, Kind.isSilent]
  have hchoose : choose (candidates 0 0 (body e ++ [a])) = some ((body e).length, .rightArrow) := by
    have hparts : ∀ t ∈ body e, isPart t.kind = true := fun t ht => hspine.isPart t (List.mem_reverse.mpr ht)
    rw [candidates_of_isPart hparts, Nat.zero_add]
    simp [candidates, ha, Kind.marker?, choose]
  have hsubject : subjectBefore (e ++ ['-', '>']) .rightArrow {} (body e).reverse =
      some ⟨.expression (Text.trim e), first.offset, {}⟩ := by
    obtain ⟨-, -, -, -, hwithin⟩ := exists_tokenize e
    rw [← subjectBefore_take fun t ht => (hwithin t (List.mem_reverse.mp ht)).2, List.take_left,
      subjectBefore_spine hspine htight (by simpa using h.lone) hsign, hbefore, trim_body hfirst hlast]
  have hne : (body e).length ≠ 0 := by
    obtain ⟨rest, hrest⟩ := List.head?_eq_some_iff.mp hfirst
    simp [hrest]
  have hline : classifyLine (e ++ ['-', '>']) = some (lineAt (e ++ ['-', '>']) (tokenize (e ++ ['-', '>']))
      .rightArrow a ⟨.expression (Text.trim e), first.offset, {}⟩) := by
    refine ofTokens_eq_some_iff.mpr ⟨(body e).length, .rightArrow, a, _, ?_, ?_, hne, ?_, ?_, rfl⟩
    · rw [hsignificant, hchoose]
    · simp [hsignificant]
    · simp [hsignificant, opensBlock]
    · rw [hsignificant, List.take_left, ha]
      exact hsubject
  exact ⟨_, first, hline, hfirst, rfl, rfl, rfl⟩

/-- A call with a group in it, prefix operators in a chain, and a name with a suffix. -/
theorem classifyLine_shown_call : ∃ e, e = [' ', 'f', '(', 'a', ';', '(', 'b', ')', ')', '*', '-', '!', 'c', '%', ' '] ∧
    Shown e ∧ ∃ l first, classifyLine (e ++ ['-', '>']) = some l ∧ (body e).head? = some first ∧
      l.subject = .expression (Text.trim e) ∧ l.labelEnd = first.offset ∧ l.marker = .rightArrow := by
  let ts : List Token := [⟨.name, ['f'], 1, 2, 1⟩, ⟨.openParen, ['('], 1, 3, 2⟩, ⟨.name, ['a'], 1, 4, 3⟩,
    ⟨.semicolon, [';'], 1, 5, 4⟩, ⟨.openParen, ['('], 1, 6, 5⟩, ⟨.name, ['b'], 1, 7, 6⟩, ⟨.closeParen, [')'], 1, 8, 7⟩,
    ⟨.closeParen, [')'], 1, 9, 8⟩, ⟨.operator, ['*'], 1, 10, 9⟩, ⟨.operator, ['-'], 1, 11, 10⟩,
    ⟨.operator, ['!'], 1, 12, 11⟩, ⟨.name, ['c'], 1, 13, 12⟩, ⟨.suffix { style := .percent }, ['%'], 1, 14, 13⟩]
  have hbody : body [' ', 'f', '(', 'a', ';', '(', 'b', ')', ')', '*', '-', '!', 'c', '%', ' '] = ts := by rfl
  have harrow : tokenize ([' ', 'f', '(', 'a', ';', '(', 'b', ')', ')', '*', '-', '!', 'c', '%', ' '] ++ ['-', '>']) =
      ts ++ [⟨.marker .rightArrow {}, ['-', '>'], 1, 16, 15⟩, ⟨.finish, [], 1, 18, 17⟩] := by rfl
  have h : Shown [' ', 'f', '(', 'a', ';', '(', 'b', ')', ')', '*', '-', '!', 'c', '%', ' '] := {
    line := by decide
    bare := ⟨by decide, by decide⟩
    parses := ⟨_, by rfl⟩
    arrow := ⟨_, _, by rw [hbody, harrow], rfl, rfl⟩
    lone := by rw [hbody]; decide
    sign := by rw [hbody]; decide
    tight := by rw [hbody]; decide }
  exact ⟨_, rfl, h, classifyLine_shown h⟩

end Line

end Classify
end Worksheet
