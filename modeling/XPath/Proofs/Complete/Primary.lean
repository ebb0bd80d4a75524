import XPath.Proofs.Complete.Opening

/-!
# Completeness of the rules for primary expressions

What is nested one level deeper is read by the rules in `inner`. If these read all that fits the
levels that are left (`Nested.Complete`), the rules here read every primary expression that does
(`primaryExpr_complete`). What is read of a tree is its canonical form.
-/

namespace XPath

open Rule

variable {σ : UriTokens} {levels : Nat}

/-! ## What closes an expression -/

/-- A token in front of which every expression ends. -/
structure IsCloser (t : Token) : Prop where
  isWord : t.isWord
  rank : t.rank = 0
  no_step : Grammar.canStartStep [t] = false
  no_occurrence : isOccurrence t = false

theorem isCloser_comma : IsCloser "," := ⟨rfl, by decide, by decide, by decide⟩

theorem isCloser_paren : IsCloser ")" := ⟨rfl, by decide, by decide, by decide⟩

theorem isCloser_bracket : IsCloser "]" := ⟨rfl, by decide, by decide, by decide⟩

theorem isCloser_brace : IsCloser "\x7d" := ⟨rfl, by decide, by decide, by decide⟩

theorem isCloser_colon : IsCloser ":" := ⟨rfl, by decide, by decide, by decide⟩

theorem Form.last?_mem {α : Type} {f : Form α} {e : α} (h : f.last? = some e) : e ∈ f.children := by
  cases f with
  | expr items => exact List.mem_of_getLast? h
  | chain level first rest =>
    cases hl : rest.getLast? with
    | none =>
      obtain rfl : first = e := by simpa [last?, hl] using h
      exact List.mem_cons_self
    | some x =>
      obtain rfl : x.2 = e := by simpa [last?, hl] using h
      exact List.mem_cons_of_mem _ (List.mem_map_of_mem (List.mem_of_getLast? hl))
  | _ => simp_all [last?, children]

/-- Any expression may be followed by a token that closes. -/
theorem Tree.admits_closer (n : Node) {t : Token} (ht : IsCloser t) : n.admits t := by
  induction n using Tree.induct with
  | node l f ih =>
    cases hl : f.last? with
    | some c =>
      rw [admits_of_last hl]
      exact ih c (Form.last?_mem hl)
    | none =>
      rw [admits_node]
      cases f with
      | path leading relative =>
        obtain rfl : relative = none := hl
        simp [Form.map, Form.admits, ht.no_step]
      | instanceOf | treat => simp [Form.map, Form.admits, ht.no_occurrence]
      | chain => cases hl
      | expr items =>
        obtain rfl : items = [] := by simpa [Form.last?] using hl
        rfl
      | _ => first | rfl | cases hl

/-- A token that closes ends expressions of any rank. -/
theorem Ends.of_closer {k : Nat} {t : Token} {rest mid : List Token} (ht : IsCloser t)
    (hcolon : t ≠ ":") (h : Follows t rest mid) (hk : 0 < k) : Ends k rest :=
  .of_follows h ht.isWord (by rwa [ht.rank]) hcolon

theorem Tree.ReadBefore.of_closer {k : Nat} {n : Node} (hrank : k ≤ n.rank) (h : n.Fits levels)
    {t : Token} {rest mid : List Token} (ht : IsCloser t) (hfollows : Follows t rest mid) :
    n.ReadBefore k levels rest where
  rank_le := hrank
  fits := h
  admits u hu := by
    rw [hfollows.skipSpace_eq ht.isWord] at hu
    obtain rfl : t = u := by simpa using hu
    exact n.admits_closer ht

namespace Grammar

theorem IsSingle.before {n : Node} (h : IsSingle levels n) {rest : List Token}
    (hadmits : ∀ t ∈ (Token.skipSpace rest).head?, n.admits t) : SingleBefore levels n rest := by
  obtain ⟨hrank, k, hk, hn⟩ := h
  exact ⟨k, hk, hrank, hn, hadmits⟩

/-- In front of a token that closes, any single expression is read. -/
theorem IsSingle.before_closer {n : Node} (h : IsSingle levels n) {t : Token}
    {rest mid : List Token} (ht : IsCloser t) (hfollows : Follows t rest mid) :
    SingleBefore levels n rest := by
  obtain ⟨hrank, k, hk, hn⟩ := h
  exact ⟨k, hk, .of_closer hrank hn ht hfollows⟩

/-- A single expression is solid. -/
theorem IsSingle.solid {n : Node} (h : IsSingle levels n) : Solid n.pieces := by
  obtain ⟨-, k, -, hn⟩ := h
  exact n.solid hn

/-! ## Nested expressions -/

/-- The rule reads every expression of the rank, or of a higher one, in front of what ends it. -/
def Completes (σ : UriTokens) (levels rank : Nat) (r : Rule Node) : Prop :=
  ∀ ⦃n : Node⦄ ⦃rest : List Token⦄, n.ReadBefore rank levels rest → Ends rank rest →
    r.Reads (Piece.write σ n.pieces) n.canon rest

/-- A rule reads what binds tighter than its own construct, and its own construct. -/
theorem Completes.of_rank {k : Nat} {r : Rule Node}
    (htighter : ∀ ⦃n : Node⦄ ⦃rest : List Token⦄, n.ReadBefore (k + 1) levels rest →
      Ends k rest → r.Reads (Piece.write σ n.pieces) n.canon rest)
    (hown : ∀ ⦃f : Form Node⦄ ⦃rest : List Token⦄, f.rank = k → f.FitsIn levels →
      (∀ t ∈ (Token.skipSpace rest).head?, (Node.of f).admits t) → Ends k rest →
        r.Reads (Piece.write σ (Node.of f).pieces) (Node.of f).canon rest) :
    Completes σ levels k r := by
  intro n rest h hrest
  by_cases hrank : k + 1 ≤ n.rank
  · exact htighter { h with rank_le := hrank } hrest
  · obtain ⟨⟨⟩, f⟩ := n
    exact hown (Nat.le_antisymm (Nat.le_of_lt_succ (Nat.lt_of_not_le hrank)) h.rank_le)
      (Tree.fits_node.mp h.fits) h.admits hrest

/-- The rules for what is nested are complete, with so many levels left. -/
structure Nested.Complete (σ : UriTokens) (inner : Nested) (levels : Nat) : Prop where
  exprSingle : ∀ ⦃n : Node⦄ ⦃rest : List Token⦄, SingleBefore levels n rest → Ends 1 rest →
    inner.exprSingle.Reads (Piece.write σ n.pieces) n.canon rest
  itemType : ItemsComplete σ inner.itemType levels

/-- No expression begins with a token that closes one. -/
theorem IsSingle.head?_ne {n : Node} (h : IsSingle levels n) {t : Token}
    (ht : t ∈ [")", "]", "\x7d"]) : (Piece.write σ n.pieces).head? ≠ some t := by
  obtain ⟨hrank, k, -, hn⟩ := h
  obtain ⟨u, hu, hb⟩ := Tree.beginsWith (σ := σ) hn hrank
  rw [hu]
  rintro ⟨⟩
  have ht : t = ")" ∨ t = "]" ∨ t = "\x7d" := by simpa using ht
  cases hb with
  | step h => rcases ht with rfl | rfl | rfl <;> exact absurd h (by decide)
  | slash op h _ => cases op <;> subst h <;> exact absurd ht (by decide)
  | sign op h _ => cases op <;> subst h <;> exact absurd ht (by decide)

variable {inner : Nested}

/-- An expression is a list of single ones. -/
theorem kind_eq_expr {f : Form Node} (h : f.kind = .expr) : ∃ items, f = .expr items := by
  cases f with
  | expr items => exact ⟨items, rfl⟩
  | chain level => cases level <;> cases h
  | _ => cases h

theorem kind_eq_parenthesized {f : Form Node} (h : f.kind = .parenthesizedExpr) :
    ∃ o, f = .parenthesized o := by
  cases f with
  | parenthesized o => exact ⟨o, rfl⟩
  | chain level => cases level <;> cases h
  | _ => cases h

theorem pieces_expr (items : List Node) :
    (Node.of (.expr items)).pieces = Piece.commaSeparated (items.map Tree.pieces) := by
  rw [Node.of, Tree.pieces_node]
  simp only [Form.map, Form.pieces, List.map_map, Tree.snd_comp_withPieces]

/-- Single expressions are read with commas between them. -/
theorem expr_complete (hi : inner.Complete σ levels) {n : Node} (hkind : n.kind = .expr)
    (hn : n.Fits levels) {rest : List Token} (hrest : Ends 1 rest)
    (hcomma : isNext "," rest = false) (hadmits : ∀ t ∈ (Token.skipSpace rest).head?, n.admits t) :
    (expr inner).Reads (Piece.write σ n.pieces) n.canon rest := by
  obtain ⟨⟨⟩, f⟩ := n
  obtain ⟨items, rfl⟩ := kind_eq_expr hkind
  have hf := Tree.fits_node.mp hn
  rw [show Tree.node () (Form.expr items) = Node.of (.expr items) from rfl, pieces_expr,
    Tree.canon_of]
  suffices hlist : (commaList inner.exprSingle).Reads
      (Piece.write σ (Piece.commaSeparated (items.map Tree.pieces)))
        (items.map Tree.canon) rest from
    fun us hus => bind_of_ok (hlist us hus) _
  refine commaList_reads hf.proper (fun e he => IsSingle.solid (hf.single e he))
    (fun e he rest' mid hmid => ?_) (fun e he => ?_) hcomma
  · exact hi.exprSingle (IsSingle.before_closer (hf.single e he) isCloser_comma hmid)
      (.of_closer isCloser_comma (by decide) hmid (by decide))
  · refine hi.exprSingle
      (IsSingle.before (hf.single e (List.mem_of_getLast? he)) fun t ht => ?_) hrest
    rw [← Tree.admits_of_last (l := ()) (f := .expr items) he]
    exact hadmits t ht

/-- An expression in front of the token that closes its bracket. -/
theorem expr_before (hi : inner.Complete σ levels) {n : Node} (hkind : n.kind = .expr)
    (hn : n.Fits levels) {closing : Token} (hc : closing ∈ [")", "]", "\x7d"])
    {rest mid : List Token} (h : Follows closing rest mid) :
    (expr inner).Reads (Piece.write σ n.pieces) n.canon rest := by
  have hcloser : IsCloser closing := by
    rcases (by simpa using hc :
      closing = ")" ∨ closing = "]" ∨ closing = "\x7d") with rfl | rfl | rfl
    · exact isCloser_paren
    · exact isCloser_bracket
    · exact isCloser_brace
  have hne : closing ≠ ":" ∧ closing ≠ "," := by
    constructor <;> rintro rfl <;> exact absurd hc (by decide)
  exact expr_complete hi hkind hn (.of_closer hcloser hne.1 h (by decide))
    (isNext_of_follows h hcloser.isWord hne.2)
    (Tree.ReadBefore.of_closer (Nat.le_refl _) hn hcloser h).admits

/-! ## Brackets -/

/-- Brackets are written around what stands in them. -/
theorem write_brackets {opening : Token} (ho : opening.isWord) (ps : List Piece) (closing : Token) :
    Piece.write σ ([.text opening] ++ ps ++ [.text closing]) =
      opening :: Piece.lay σ false (ps ++ [.text closing]) := by
  rw [List.append_assoc, List.singleton_append, Piece.write_text ho]

theorem content_head?_ne {n : Node} (hkind : n.kind = .expr) (hn : n.Fits levels) {t : Token}
    (ht : t ∈ [")", "]", "\x7d"]) : (Piece.write σ n.pieces).head? ≠ some t := by
  obtain ⟨⟨⟩, f⟩ := n
  obtain ⟨items, rfl⟩ := kind_eq_expr hkind
  have hf := Tree.fits_node.mp hn
  obtain ⟨e, items, rfl⟩ := List.exists_cons_of_ne_nil hf.proper
  have he : IsSingle levels e := hf.single e (List.mem_cons_self ..)
  have hwrite : Piece.write σ (Piece.commaSeparated ((e :: items).map Tree.pieces)) ++ [] =
      Piece.write σ e.pieces ++ commaTokens σ Tree.pieces items [] :=
    write_commaSeparated he.solid
  rw [List.append_nil] at hwrite
  rw [show Tree.node () (Form.expr (e :: items)) = Node.of (.expr (e :: items)) from rfl,
    pieces_expr, hwrite, Piece.head?_write_append he.solid.starts]
  exact he.head?_ne ht

theorem isWord_of_mem_closers {t : Token} (h : t ∈ [")", "]", "\x7d"]) : t.isWord := by
  rcases (by simpa using h : t = ")" ∨ t = "]" ∨ t = "\x7d") with rfl | rfl | rfl <;> rfl

theorem exprUntil_apply (closing : Token) (ts : List Token) : exprUntil inner closing ts =
    (if isNext closing ts then pure none else expr inner >>= fun n => pure (some n)
      : Rule (Option Node)) ts :=
  rfl

/-- An expression is read up to its bracket. -/
theorem exprUntil_some (hi : inner.Complete σ levels) {n : Node} (hkind : n.kind = .expr)
    (hn : n.Fits levels) {closing : Token} (hc : closing ∈ [")", "]", "\x7d"])
    {rest mid : List Token} (h : Follows closing rest mid) :
    (exprUntil inner closing).Reads (Piece.write σ n.pieces) (some n.canon) rest := by
  intro us hus
  have hnext : isNext closing us = false := by
    refine isNext_eq_false ?_
    rw [hus, Piece.head?_write_append (n.solid hn).starts]
    exact content_head?_ne hkind hn hc
  rw [exprUntil_apply, hnext, if_neg (by decide)]
  exact bind_of_ok (expr_before hi hkind hn hc h us hus) _

/-- Nothing is read where the bracket closes at once. -/
theorem exprUntil_none {closing : Token} (hc : closing.isWord) (rest : List Token) :
    exprUntil inner closing (closing :: rest) = .ok (none, closing :: rest) := by
  rw [exprUntil_apply, isNext_cons hc, if_pos rfl, pure_apply]

/-- An expression up to its bracket, or nothing. -/
theorem exprUntil_complete (hi : inner.Complete σ levels) {o : Option Node}
    (ho : ∀ n ∈ o, n.kind = .expr ∧ n.Fits levels) {closing : Token}
    (hc : closing ∈ [")", "]", "\x7d"]) (rest : List Token) :
    (exprUntil inner closing).ReadsUntil closing
      (Piece.lay σ false (o.elim [] Tree.pieces ++ [.text closing])) (o.map Tree.canon) rest := by
  have hword := isWord_of_mem_closers hc
  cases o with
  | none =>
    refine ⟨closing :: rest, ?_, skipSpace_of_isWord hword⟩
    rw [Option.elim_none, List.nil_append, Piece.lay_word hword]
    exact exprUntil_none hword rest
  | some n =>
    obtain ⟨hkind, hn⟩ := ho n rfl
    exact (exprUntil_some hi hkind hn hc (.inl rfl)).until hword (n.solid hn)

/-- Parentheses are read, with an expression in them or not. -/
theorem parenthesizedExpr_complete (hi : inner.Complete σ levels) {o : Option Node}
    (ho : ∀ n ∈ o, n.kind = .expr ∧ n.Fits levels) (rest : List Token) :
    (parenthesizedExpr inner).Reads (Piece.write σ (Node.of (.parenthesized o)).pieces)
      (Node.of (.parenthesized o)).canon rest := by
  have hpieces : (Node.of (.parenthesized o)).pieces =
      [.text "("] ++ o.elim [] Tree.pieces ++ [.text ")"] := by
    rw [Node.of, Tree.pieces_node]
    cases o <;> rfl
  rw [hpieces, write_brackets rfl, Tree.canon_of]
  have hgroup : (group "(" ")" "ParenthesizedExpr" (exprUntil inner ")")).Reads _ _ rest :=
    group_reads rfl (exprUntil_complete hi ho (by decide) rest)
  exact fun us hus => bind_of_ok (hgroup us hus) _

/-- An expression is read in its brackets. -/
theorem group_complete (hi : inner.Complete σ levels) {n : Node}
    (hn : n.kind = .parenthesizedExpr ∧ n.Fits levels) (rest : List Token) :
    (parenthesizedExpr inner).Reads (Piece.write σ n.pieces) n.canon rest := by
  obtain ⟨⟨⟩, f⟩ := n
  obtain ⟨o, rfl⟩ := kind_eq_parenthesized hn.1
  have hf := Tree.fits_node.mp hn.2
  exact parenthesizedExpr_complete hi
    (fun e he => hf.content e (by simpa [Form.contents] using he)) rest

theorem predicate_complete (hi : inner.Complete σ levels) {n : Node}
    (hn : n.kind = .expr ∧ n.Fits levels) (rest : List Token) :
    (predicate inner).Reads (Piece.write σ (predicatePieces n.withPieces)) n.canon rest := by
  rw [predicatePieces, write_brackets rfl]
  exact group_reads rfl ((expr_before hi hn.1 hn.2 (by decide) (.inl rfl)).until rfl (n.solid hn.2))

/-- Braces have a space inside, unless they are empty. -/
theorem enclosedExpr_complete (hi : inner.Complete σ levels) {o : Option Node}
    (ho : ∀ n ∈ o, n.kind = .expr ∧ n.Fits levels) (rest : List Token) :
    (enclosedExpr inner).Reads (Piece.write σ (enclosedPieces (o.map Tree.withPieces)))
      (o.map Tree.canon) rest := by
  cases o with
  | none =>
    have hbody : (exprUntil inner "\x7d").ReadsUntil "\x7d" ["\x7d"] none rest :=
      ⟨"\x7d" :: rest, exprUntil_none rfl rest, skipSpace_of_isWord rfl⟩
    exact group_reads (show Token.isWord "\x7b" from rfl) hbody
  | some n =>
    obtain ⟨hkind, hn⟩ := ho n rfl
    have hs := n.solid hn
    have hwrite : Piece.write σ (enclosedPieces ((some n).map Tree.withPieces)) =
        "\x7b" :: Token.space :: (Piece.write σ n.pieces ++ [Token.space, "\x7d"]) := by
      rw [Option.map_some, enclosedPieces, List.append_assoc, List.cons_append,
        Piece.write_text rfl, List.singleton_append, Piece.lay_gap_false]
      exact congrArg _ (congrArg _ (Piece.write_solid_append hs _))
    rw [hwrite]
    refine group_reads rfl ⟨Token.space :: "\x7d" :: rest, ?_, rfl⟩
    have := (exprUntil_some hi hkind hn (by decide)
      (.inr rfl : Follows "\x7d" (Token.space :: "\x7d" :: rest) rest)).space
    simpa using this

/-! ## Arguments and keys -/

theorem argument_apply (ts : List Token) : argument inner ts =
    (match Token.skipSpace ts with
    | "?" :: us => if isNext "," us || isNext ")" us then advance >>= fun _ => pure .placeholder
      else inner.exprSingle >>= fun e => pure (.expr e)
    | _ => inner.exprSingle >>= fun e => pure (.expr e) : Rule (Argument Node))
      (Token.skipSpace ts) :=
  rfl

/-- An argument is read as the expression that it is. -/
theorem argument_expr (hi : inner.Complete σ levels) {e : Node} (he : IsSingle levels e)
    {t : Token} (ht : IsCloser t) (hcolon : t ≠ ":") {rest mid : List Token}
    (h : Follows t rest mid) :
    (argument inner).Reads (Piece.write σ e.pieces) (.expr e.canon) rest := by
  have hends : Ends 1 rest := .of_closer ht hcolon h (by decide)
  have hread : (inner.exprSingle >>= fun e => pure (Argument.expr e))
      (Piece.write σ e.pieces ++ rest) = .ok (.expr e.canon, rest) :=
    bind_of_ok ((hi.exprSingle (he.before_closer ht h) hends).write he.solid.starts) _
  intro us hus
  rw [argument_apply, hus]
  generalize hws : Piece.write σ e.pieces ++ rest = ws at hread ⊢
  split
  next vs =>
    obtain ⟨hrank, k, -, hn⟩ := he
    obtain ⟨hcomma, hparen⟩ := Tree.not_placeholder hn hrank hends hws
    rw [hcomma, hparen, Bool.or_self, if_neg (by decide)]
    exact hread
  · exact hread

/-- A question mark is read as a placeholder where the argument ends behind it. -/
theorem argument_placeholder {t : Token} (ht : t = "," ∨ t = ")") {rest mid : List Token}
    (h : Follows t rest mid) : (argument inner).Reads ["?"] .placeholder rest := by
  intro us hus
  have hnext : (isNext "," rest || isNext ")" rest) = true := by
    rcases ht with rfl | rfl
    · rw [isNext_iff_cons.mpr ⟨mid, h.skipSpace_eq rfl⟩, Bool.true_or]
    · rw [isNext_iff_cons.mpr ⟨mid, h.skipSpace_eq rfl⟩, Bool.or_true]
  rw [argument_apply, hus, List.singleton_append]
  simp only [hnext, if_true]
  rw [bind_of_ok (advance_cons _ _), pure_apply]

/-- Arguments are read in their parentheses. -/
theorem argumentList_complete (hi : inner.Complete σ levels) {args : List (Argument Node)}
    (h : ∀ e ∈ args.flatMap Argument.children, IsSingle levels e) (rest : List Token) :
    (argumentList inner).Reads (Piece.write σ (argumentPieces (args.map (·.map Tree.withPieces))))
      (args.map (·.map Tree.canon)) rest := by
  have hexpr {e : Node} (he : .expr e ∈ args) : IsSingle levels e :=
    h e (List.mem_flatMap.mpr ⟨_, he, by simp [Argument.children]⟩)
  rw [argumentPieces, write_brackets rfl, List.map_map]
  suffices hlist : (separated ")" (argument inner)).ReadsUntil ")"
      (Piece.lay σ false (Piece.commaSeparated
        (args.map (Argument.pieces ∘ fun a => a.map Tree.withPieces)) ++ [.text ")"]))
      (args.map (·.map Tree.canon)) rest from group_reads rfl hlist
  refine separated_reads rfl (by decide) (fun a ha => ?_) (fun a ha => ?_)
    fun a ha t rest' mid ht hfollows => ?_
  · cases a with
    | expr e => exact (hexpr ha).solid
    | placeholder => exact .singleton rfl
  · cases a with
    | expr e => exact (hexpr ha).head?_ne (by decide)
    | placeholder => simp [Argument.map, Argument.pieces, Piece.write, Piece.lay]
  · cases a with
    | expr e =>
      have hcloser : IsCloser t := by
        rcases ht with rfl | rfl
        · exact isCloser_comma
        · exact isCloser_paren
      exact argument_expr hi (hexpr ha) hcloser (by rcases ht with rfl | rfl <;> decide) hfollows
    | placeholder => exact argument_placeholder ht hfollows

theorem keySpecifier_apply (ts : List Token) : keySpecifier inner ts =
    (match Token.skipSpace ts with
    | [] => fail "KeySpecifier"
    | t :: _ =>
      if t = "*" then advance >>= fun _ => pure .wildcard
      else if t = "(" then parenthesizedExpr inner >>= fun e => pure (.parenthesized e)
      else if t.isDigits then advance >>= fun _ => ofExcept (Integer.ofText t) >>= fun v =>
        pure (.integer v)
      else one Text.startsName "KeySpecifier" >>= fun n => pure (.name ⟨n⟩)
      : Rule (KeySpecifier Node)) (Token.skipSpace ts) :=
  rfl

/-- A key is read as what it is. -/
theorem keySpecifier_complete (hi : inner.Complete σ levels) {key : KeySpecifier Node}
    (hw : key.WellFormed) (hc : ∀ e ∈ key.children, e.kind = .parenthesizedExpr ∧ e.Fits levels)
    (rest : List Token) :
    (keySpecifier inner).Reads (Piece.write σ (key.map Tree.withPieces).pieces)
      (key.map Tree.canon) rest := by
  intro us hus
  rw [keySpecifier_apply, hus]
  cases key with
  | name n =>
    have hne {t : Token} (ht : Text.startsName t = false) : n.text ≠ t := NCName.text_ne hw ht
    rw [show (KeySpecifier.map Tree.withPieces (.name n)).pieces = n.pieces from rfl,
      write_ncName hw]
    simp only [List.singleton_append, if_neg (hne (t := "*") (by decide)),
      if_neg (hne (t := "(") (by decide)), Token.isDigits_of_startsName hw, Bool.false_eq_true,
      if_false]
    exact bind_of_ok (one_eq_ok.mpr ⟨hw, rfl⟩) _
  | integer v =>
    obtain ⟨n, rfl⟩ := Int.eq_ofNat_of_zero_le hw
    have hdigits := Token.isDigits_repr n
    have hne {t : Token} (ht : t.isDigits = false) : Nat.repr n ≠ t := by
      rintro rfl
      simp [ht] at hdigits
    have hvalue : Integer.ofText (Nat.repr n) = .ok n := by
      rw [Integer.ofText_digits hdigits, ofDigitChars_repr]
    simp only [KeySpecifier.map, KeySpecifier.pieces, integer_text]
    rw [Piece.write_word (Token.isWord_of_isDigits hdigits)]
    simp only [if_neg (hne (t := "*") (by decide)), if_neg (hne (t := "(") (by decide)), hdigits,
      if_true]
    rw [bind_of_ok (advance_cons _ _)]
    exact bind_of_ok (ofExcept_eq_ok.mpr ⟨hvalue, rfl⟩) _
  | parenthesized e =>
    have he := hc e (by simp [KeySpecifier.children])
    have hpieces : (KeySpecifier.map Tree.withPieces (.parenthesized e)).pieces = e.pieces := by
      simp [KeySpecifier.map, KeySpecifier.pieces, parenthesizedPieces, Tree.withPieces, he.1]
    have hread := (group_complete hi he rest).write (σ := σ) (e.solid he.2).starts
    obtain ⟨t, ts, hts⟩ := List.exists_cons_of_ne_nil
      (List.length_pos_iff.mp (Piece.length_write_pos σ (e.solid he.2).starts))
    obtain rfl : t = "(" := by
      obtain ⟨⟨⟩, f⟩ := e
      obtain ⟨o, rfl⟩ := kind_eq_parenthesized he.1
      rw [Tree.pieces_node] at hts
      exact (List.cons.inj hts).1.symm
    rw [hts, List.cons_append] at hread
    rw [hpieces, hts, List.cons_append]
    simp only [show ("(" : Token) ≠ "*" by decide, if_false, if_true]
    exact bind_of_ok hread _
  | wildcard => rfl

/-! ## Functions -/

/-- A number of arguments is read behind its `#`. -/
theorem namedFunctionRef_complete {name : EQName} {arity : Nat} (h : arity ≤ maxArity)
    (rest : List Token) : namedFunctionRef name ("#" :: Nat.repr arity :: rest) =
      .ok (.of (.namedFunctionRef name arity), rest) := by
  have hdigits := Token.isDigits_repr arity
  have hone : one Token.isDigits "IntegerLiteral of NamedFunctionRef" (Nat.repr arity :: rest) =
      .ok (Nat.repr arity, rest) :=
    one_eq_ok.mpr ⟨hdigits, rfl⟩
  rw [namedFunctionRef, bind_of_ok (expect_of_skipSpace (skipSpace_of_isWord rfl) _),
    bind_of_ok (space_apply _), skipSpace_of_isWord (Token.isWord_of_isDigits hdigits)]
  refine (bind_of_ok hone _).trans ?_
  simp only [ofDigitChars_repr, if_pos h]
  rfl

/-- A declared type, in front of what does not continue it. -/
theorem declaredType?_complete (hi : inner.Complete σ levels) {o : Option SequenceType}
    (ho : ∀ t ∈ o, t.FitsIn (ItemType.Fits levels)) {t : Token} (ht : t.isWord) (has : t ≠ "as")
    (hoccurrence : isOccurrence t = false) {rest mid : List Token} (h : Follows t rest mid)
    (hrest : EndsType rest) :
    declaredType? inner (Piece.lay σ false
      (o.elim [] fun type => Piece.keyword "as" ++ type.pieces) ++ rest) = .ok (o, rest) := by
  cases o with
  | none => exact bind_of_ok (skip?_of_not_isNext (isNext_of_follows h ht has)) _
  | some type =>
    have hunmarked : UnmarkedBefore type.endsUnmarked rest := fun _ u hu => by
      rw [h.skipSpace_eq ht] at hu
      obtain rfl : t = u := by simpa using hu
      exact hoccurrence
    have hread := (sequenceType_complete hi.itemType (ho type rfl) hunmarked hrest).space
    rw [Option.elim_some, Piece.lay_keyword rfl, declaredType?]
    exact (bind_of_ok (skip?_of_skipSpace rfl) _).trans (bind_of_ok hread _)

/-- A parameter is read with its type. -/
theorem param_complete (hi : inner.Complete σ levels) {p : Param}
    (hp : p.FitsIn (ItemType.Fits levels)) {t : Token} (ht : t = "," ∨ t = ")")
    {rest mid : List Token} (h : Follows t rest mid) :
    (param inner).Reads (Piece.write σ p.pieces) p rest := by
  obtain ⟨name, type⟩ := p
  have hname := EQName.solid hp.name
  have hword : t.isWord := by rcases ht with rfl | rfl <;> rfl
  have hrest : EndsType rest := by
    refine .of_follows h hword ?_ ?_ ?_ <;> rcases ht with rfl | rfl <;> decide
  have htype := declaredType?_complete (σ := σ) hi hp.type hword
    (by rcases ht with rfl | rfl <;> decide) (by rcases ht with rfl | rfl <;> decide) h hrest
  have hends : EndsName (Piece.lay σ false
      (type.elim [] fun type => Piece.keyword "as" ++ type.pieces) ++ rest) := by
    cases type with
    | none => exact hrest.toEndsName
    | some type =>
      rw [Option.elim_some, Piece.lay_keyword rfl]
      exact .of_follows (.inr rfl) (show "as" ≠ ":" by decide) (by decide)
  intro us hus
  rw [Param.pieces, List.append_assoc, List.singleton_append, Piece.write_text rfl,
    Piece.lay_false_of_solid hname, List.cons_append, List.append_assoc] at hus
  have hread : after "$" "Param" eqName us = .ok (name, _) :=
    after_eq_ok.mpr ⟨_, hus, (eqName_complete hp.name hends).write hname.starts⟩
  exact (bind_of_ok hread _).trans (bind_of_ok htype _)

theorem Param.solid {p : Param} (hp : p.FitsIn (ItemType.Fits levels)) : Solid p.pieces := by
  obtain ⟨name, type⟩ := p
  have hname : Solid ([.text "$"] ++ name.pieces) :=
    Solid.append (Solid.singleton rfl) (EQName.solid hp.name)
  cases type with
  | none =>
    rw [Param.pieces, Option.elim_none, List.append_nil]
    exact hname
  | some type =>
    have htype := SequenceType.solid (fun _ => ItemType.solid) (hp.type type rfl)
    rw [Param.pieces, Option.elim_some, ← List.append_assoc]
    exact hname.around htype _

/-- Parameters are read up to the closing parenthesis. -/
theorem paramList_complete (hi : inner.Complete σ levels) {ps : List Param}
    (hp : ∀ p ∈ ps, p.FitsIn (ItemType.Fits levels)) (rest : List Token) :
    (paramList inner).ReadsUntil ")"
      (Piece.lay σ false (paramsPieces ps ++ [.text ")"])) ps rest := by
  have hlist : (separated ")" (param inner)).ReadsUntil ")" (Piece.lay σ false
      (Piece.commaSeparated (ps.map Param.pieces) ++ [.text ")"])) (ps.map id) rest :=
    separated_reads rfl (by decide) (fun p hm => Param.solid (hp p hm))
      (fun p _ => by simp [Param.pieces, Piece.write, Piece.lay])
      fun p hm t rest' mid ht h => param_complete hi (hp p hm) ht h
  rwa [List.map_id] at hlist

theorem starts_enclosed (o : Option (Node × List Piece)) : Starts (enclosedPieces o) := by
  cases o <;> rfl

/-- A function is read with its parameters, its type and its body. -/
theorem inlineFunction_complete (hi : inner.Complete σ levels) {params : List Param}
    {result : Option SequenceType} {body : Option Node}
    (h : (Form.inlineFunction params result body).FitsIn levels) (rest : List Token) :
    (inlineFunction inner).Reads
      (Piece.write σ (Node.of (.inlineFunction params result body)).pieces)
      (Node.of (.inlineFunction params result body)).canon rest := by
  have hbody : ∀ n ∈ body, n.kind = .expr ∧ n.Fits levels := fun e he =>
    h.content e (by simpa [Form.contents] using he)
  have hparams := paramList_complete hi h.parts.1
  -- The brace stands after a space, whatever ends the result type.
  obtain ⟨mid, hmid⟩ : ∃ mid, Piece.write σ (enclosedPieces (body.map Tree.withPieces)) ++ rest =
      "\x7b" :: mid := by
    cases body <;> exact ⟨_, rfl⟩
  have hends : EndsType (Token.space :: "\x7b" :: mid) :=
    ⟨⟨by simp [Token.space], by simp [Token.space]⟩, isNext_of_follows (.inr rfl) rfl (by decide)⟩
  have hresult := declaredType?_complete (σ := σ) hi h.parts.2 rfl (by decide) (by decide)
    (.inr rfl) hends
  have henclosed := (enclosedExpr_complete hi hbody rest).space
  rw [hmid] at henclosed
  have hpieces : (Node.of (.inlineFunction params result body)).pieces =
      callPieces "function" (paramsPieces params) ++
        ((result.elim [] fun t => Piece.keyword "as" ++ t.pieces) ++
          .gap :: enclosedPieces (body.map Tree.withPieces)) := by
    rw [Node.of, Tree.pieces_node]
    simp [Form.map, Form.pieces]
  have htail : Piece.lay σ false ((result.elim [] fun t => Piece.keyword "as" ++ t.pieces) ++
        .gap :: enclosedPieces (body.map Tree.withPieces)) ++ rest =
      Piece.lay σ false (result.elim [] fun t => Piece.keyword "as" ++ t.pieces) ++
        Token.space :: "\x7b" :: mid := by
    cases result with
    | none =>
      rw [Option.elim_none, List.nil_append, Piece.lay_gap_false, List.cons_append, ← hmid]
      rfl
    | some t =>
      have ht := SequenceType.solid (fun _ => ItemType.solid) (h.parts.2 t rfl)
      have hkeyword : Closes (Piece.keyword "as" ++ t.pieces) := ht.closes.append _
      rw [Option.elim_some, Piece.lay_append hkeyword, Piece.lay_gap_false, List.append_assoc,
        List.cons_append, ← hmid]
      rfl
  intro us hus
  rw [hpieces, Piece.write_solid_append (solid_call rfl _), write_call rfl,
    List.append_assoc, htail, List.cons_append] at hus
  rw [inlineFunction, bind_of_ok (expect_of_skipSpace hus _)]
  refine (bind_of_ok (bracketed_reads (hparams _) _ (skipSpace_of_isWord rfl)) _).trans ?_
  refine (bind_of_ok hresult _).trans ?_
  refine (bind_of_ok henclosed _).trans ?_
  rw [Tree.canon_of]
  rfl

/-! ## Constructors -/

theorem pieces_mapEntry (e : MapEntry Node) : (e.map Tree.withPieces).pieces =
    e.key.pieces ++ (Piece.keyword ":" ++ e.value.pieces) := by
  simp [MapEntry.map, MapEntry.pieces, Tree.withPieces]

/-- An entry is read if key and value are. -/
theorem mapEntry_complete (hi : inner.Complete σ levels) {e : MapEntry Node}
    (hk : IsSingle levels e.key) (hv : IsSingle levels e.value) {t : Token} (ht : IsCloser t)
    (hcolon : t ≠ ":") {rest mid : List Token} (h : Follows t rest mid) :
    (mapEntry inner).Reads (Piece.write σ (e.map Tree.withPieces).pieces)
      (e.map Tree.canon) rest := by
  intro us hus
  rw [pieces_mapEntry, Piece.write_solid_append hk.solid, Piece.lay_keyword rfl, List.append_assoc,
    List.cons_append, List.cons_append, List.cons_append] at hus
  have hends : Ends 1 (Token.space :: ":" :: Token.space ::
      (Piece.write σ e.value.pieces ++ rest)) :=
    ⟨by simp [Token.skipSpace, Token.isSpace, Token.space]; decide, by simp [Token.space]⟩
  have hkey := hi.exprSingle (hk.before_closer isCloser_colon (.inr rfl)) hends us hus
  have hvalue := (hi.exprSingle (hv.before_closer ht h) (.of_closer ht hcolon h (by decide))).space
  refine (bind_of_ok hkey _).trans ?_
  exact (bind_of_ok (expect_of_skipSpace rfl _) _).trans (bind_of_ok hvalue _)

/-- A map is read with all of its entries. -/
theorem mapConstructor_complete (hi : inner.Complete σ levels) {entries : List (MapEntry Node)}
    (h : (Form.mapConstructor entries).FitsIn levels) (rest : List Token) :
    (mapConstructor inner).Reads (Piece.write σ (Node.of (.mapConstructor entries)).pieces)
      (Node.of (.mapConstructor entries)).canon rest := by
  have hsingle : ∀ e ∈ entries, IsSingle levels e.key ∧ IsSingle levels e.value := fun e he =>
    ⟨h.single _ (List.mem_flatMap.mpr ⟨e, he, by simp⟩),
      h.single _ (List.mem_flatMap.mpr ⟨e, he, by simp⟩)⟩
  have hlist : (separated "\x7d" (mapEntry inner)).ReadsUntil "\x7d" (Piece.lay σ false
      (Piece.commaSeparated (entries.map (MapEntry.pieces ∘ fun e => e.map Tree.withPieces)) ++
        [.text "\x7d"])) (entries.map (·.map Tree.canon)) rest := by
    refine separated_reads rfl (by decide) (fun e he => ?_) (fun e he => ?_)
      fun e he t rest' mid ht hfollows => ?_
    · obtain ⟨hk, hv⟩ := hsingle e he
      exact hk.solid.around hv.solid _
    · obtain ⟨hk, -⟩ := hsingle e he
      rw [Function.comp_apply, pieces_mapEntry, Piece.write_solid_append hk.solid,
        Piece.head?_write_append hk.solid.starts]
      exact hk.head?_ne (by decide)
    · obtain ⟨hk, hv⟩ := hsingle e he
      have hcloser : IsCloser t := by
        rcases ht with rfl | rfl
        · exact isCloser_comma
        · exact isCloser_brace
      exact mapEntry_complete hi hk hv hcloser (by rcases ht with rfl | rfl <;> decide) hfollows
  have hpieces : (Node.of (.mapConstructor entries)).pieces = .text "map" :: .text "\x7b" ::
      (Piece.commaSeparated (entries.map (MapEntry.pieces ∘ fun e => e.map Tree.withPieces)) ++
        [.text "\x7d"]) := by
    rw [Node.of, Tree.pieces_node]
    simp [Form.map, Form.pieces]
  intro us hus
  rw [hpieces, Piece.write_text rfl, Piece.lay_text rfl, List.cons_append] at hus
  rw [mapConstructor, bind_of_ok (expect_of_skipSpace hus _)]
  refine (bind_of_ok (bracketed_reads hlist _ (skipSpace_of_isWord rfl)) _).trans ?_
  rw [Tree.canon_of]
  rfl

/-- An array is read with all of its members. -/
theorem squareArray_complete (hi : inner.Complete σ levels) {members : List Node}
    (h : (Form.squareArray members).FitsIn levels) (rest : List Token) :
    (squareArray inner).Reads (Piece.write σ (Node.of (.squareArray members)).pieces)
      (Node.of (.squareArray members)).canon rest := by
  have hsingle : ∀ e ∈ members, IsSingle levels e := h.single
  have hlist : (separated "]" inner.exprSingle).ReadsUntil "]" (Piece.lay σ false
      (Piece.commaSeparated (members.map Tree.pieces) ++ [.text "]"])) (members.map Tree.canon)
      rest := by
    refine separated_reads rfl (by decide) (fun e he => (hsingle e he).solid)
      (fun e he => (hsingle e he).head?_ne (by decide)) fun e he t rest' mid ht hfollows => ?_
    have hcloser : IsCloser t := by
      rcases ht with rfl | rfl
      · exact isCloser_comma
      · exact isCloser_bracket
    exact hi.exprSingle ((hsingle e he).before_closer hcloser hfollows)
      (.of_closer hcloser (by rcases ht with rfl | rfl <;> decide) hfollows (by decide))
  have hpieces : (Node.of (.squareArray members)).pieces =
      [.text "["] ++ Piece.commaSeparated (members.map Tree.pieces) ++ [.text "]"] := by
    rw [Node.of, Tree.pieces_node]
    simp [Form.map, Form.pieces, Tree.snd_comp_withPieces]
  rw [hpieces, write_brackets rfl, Tree.canon_of]
  have hgroup : (group "[" "]" "SquareArrayConstructor" (separated "]" inner.exprSingle)).Reads
      _ _ rest := group_reads rfl hlist
  exact fun us hus => bind_of_ok (hgroup us hus) _

theorem curlyArray_complete (hi : inner.Complete σ levels) {body : Option Node}
    (h : (Form.curlyArray body).FitsIn levels) (rest : List Token) :
    (curlyArray inner).Reads (Piece.write σ (Node.of (.curlyArray body)).pieces)
      (Node.of (.curlyArray body)).canon rest := by
  have hbody := enclosedExpr_complete hi
    (fun e he => h.content e (by simpa [Form.contents] using he)) rest
  have hpieces : (Node.of (.curlyArray body)).pieces =
      .text "array" :: enclosedPieces (body.map Tree.withPieces) := by
    rw [Node.of, Tree.pieces_node]
    rfl
  have hstart := starts_enclosed (body.map Tree.withPieces)
  intro us hus
  rw [hpieces, Piece.write_text rfl, Piece.lay_of_starts hstart, List.cons_append] at hus
  rw [curlyArray, bind_of_ok (expect_of_skipSpace hus _)]
  refine (bind_of_ok (hbody.write hstart) _).trans ?_
  rw [Tree.canon_of]
  rfl

/-! ## Primary expressions -/

theorem functionExpr_apply (ts : List Token) : functionExpr inner ts =
    (eqName >>= fun name => rest >>= fun us =>
      if isNext "#" us then namedFunctionRef name
      else if isNext "(" us then argumentList inner >>= fun args =>
        pure (.of (.functionCall name args))
      else space >>= fun _ => fail "'(' or '#' after function name" : Rule Node) ts :=
  rfl

theorem pieces_functionCall (name : EQName) (args : List (Argument Node)) :
    (Node.of (.functionCall name args)).pieces =
      name.pieces ++ argumentPieces (args.map (·.map Tree.withPieces)) := by
  rw [Node.of, Tree.pieces_node]
  rfl

theorem pieces_namedFunctionRef (name : EQName) (arity : Nat) :
    (Node.of (.namedFunctionRef name arity)).pieces =
      name.pieces ++ [.text "#", .text (Nat.repr arity)] := by
  rw [Node.of, Tree.pieces_node]
  rfl

theorem write_arguments (args : List (Argument (Node × List Piece))) :
    Piece.write σ (argumentPieces args) = "(" :: Piece.lay σ false
      (Piece.commaSeparated (args.map Argument.pieces) ++ [.text ")"]) := by
  rw [argumentPieces, write_brackets rfl]

/-- A call is read from its name and its arguments. -/
theorem functionCall_complete (hi : inner.Complete σ levels) {name : EQName}
    {args : List (Argument Node)} (h : (Form.functionCall name args).FitsIn levels)
    (rest : List Token) :
    (functionExpr inner).Reads (Piece.write σ (Node.of (.functionCall name args)).pieces)
      (Node.of (.functionCall name args)).canon rest := by
  have hname : name.WellFormed := h.parts
  have hargs := argumentList_complete hi (fun e he => h.single e he) rest
  have hstart := (solid_arguments (args.map (·.map Tree.withPieces))).starts
  intro us hus
  rw [pieces_functionCall, Piece.write_solid_append (EQName.solid hname), List.append_assoc,
    Piece.lay_of_starts hstart] at hus
  have hnext {u : Token} (hu : "(" ≠ u) : isNext u (Piece.write σ
      (argumentPieces (args.map (·.map Tree.withPieces))) ++ rest) = false := by
    rw [write_arguments]
    exact isNext_of_follows (.inl rfl) rfl hu
  have hends : EndsName
      (Piece.write σ (argumentPieces (args.map (·.map Tree.withPieces))) ++ rest) := by
    rw [write_arguments]
    exact .of_follows (.inl rfl) (by decide) (by decide)
  rw [functionExpr_apply, bind_of_ok (eqName_complete hname hends us hus),
    bind_of_ok (rest_apply _),
    hnext (by decide), if_neg (by decide),
    if_pos (by rw [write_arguments]; exact isNext_cons rfl _)]
  refine (bind_of_ok (hargs.write hstart) _).trans ?_
  rw [Tree.canon_of]
  rfl

/-- A reference is read from its name and its number of arguments. -/
theorem functionRef_complete (inner : Nested) {name : EQName} {arity : Nat}
    (h : (Form.namedFunctionRef name arity : Form Node).FitsIn levels) (rest : List Token) :
    (functionExpr inner).Reads (Piece.write σ (Node.of (.namedFunctionRef name arity)).pieces)
      (Node.of (.namedFunctionRef name arity)).canon rest := by
  obtain ⟨hname, harity⟩ := h.parts
  have hlay : Piece.lay σ false [.text "#", .text (Nat.repr arity)] = ["#", Nat.repr arity] := by
    rw [Piece.lay_text rfl, Piece.lay_text (Token.isWord_of_isDigits (Token.isDigits_repr arity))]
    rfl
  intro us hus
  rw [pieces_namedFunctionRef, Piece.write_solid_append (EQName.solid hname), List.append_assoc,
    hlay, List.cons_append, List.singleton_append] at hus
  have hends : EndsName ("#" :: Nat.repr arity :: rest) :=
    .of_follows (.inl rfl) (show "#" ≠ ":" by decide) (by decide)
  rw [functionExpr_apply, bind_of_ok (eqName_complete hname hends us hus),
    bind_of_ok (rest_apply _), if_pos (isNext_cons rfl _)]
  exact namedFunctionRef_complete harity rest

/-- The first token of a name decides for a function, if no brace or parenthesis makes it a
keyword. -/
theorem primaryFrom_name {name : EQName} (h : name.WellFormed) {rest ts : List Token} {t : Token}
    (hts : Piece.write σ name.pieces ++ rest = t :: ts)
    (hfunction : name.unqualified? = some "function" → isNext "(" rest = false)
    (hbrace : isNext "\x7b" rest = false) : primaryFrom inner t ts = functionExpr inner := by
  have hplain {u : Token} (hu : Text.startsName u) (hf : u = "function" → isNext "(" ts = false)
      (hb : u = "map" ∨ u = "array" → isNext "\x7b" ts = false) :
      primaryFrom inner u ts = functionExpr inner := by
    have hne {v : Token} (hv : Text.startsName v = false) : u ≠ v := by
      rintro rfl
      simp [hv] at hu
    have hquote : u.isQuote = false := Token.isQuote_eq_false (Token.isWord_of_startsName hu)
    rw [primaryFrom, if_neg (hne (by decide)), if_neg (hne (by decide)), if_neg (hne (by decide)),
      if_neg (hne (by decide)), if_neg (by simp [hquote]), if_neg (hne (by decide)),
      if_neg fun hc => by simp [hf hc.1] at hc, if_neg fun hc => by simp [hb (.inl hc.1)] at hc,
      if_neg fun hc => by simp [hb (.inr hc.1)] at hc,
      if_neg (by simp [Token.isDigits_of_startsName hu])]
  cases name with
  | qName nsPrefix localName =>
    cases nsPrefix with
    | none =>
      rw [write_unprefixed h.2] at hts
      obtain ⟨rfl, rfl⟩ := List.cons.inj hts
      refine hplain h.2 (fun hf => hfunction ?_) fun _ => hbrace
      rw [EQName.unqualified?, hf]
    | some p =>
      rw [write_prefixed (h.1 p rfl) h.2] at hts
      obtain ⟨rfl, rfl⟩ := List.cons.inj hts
      exact hplain (h.1 p rfl) (fun _ => isNext_of_follows (.inl rfl) rfl (by decide))
        fun _ => isNext_of_follows (.inl rfl) rfl (by decide)
  | uriQualified uri localName =>
    rw [write_uriQualified h.2] at hts
    obtain ⟨rfl, rfl⟩ := List.cons.inj hts
    exact hplain (by decide) (by simp) (by simp)

theorem primaryFrom_digits {t : Token} (ht : t.isDigits) (ts : List Token) :
    primaryFrom inner t ts = numericLiteral := by
  have hne {u : Token} (hu : u.isDigits = false) : t ≠ u := by
    rintro rfl
    simp [hu] at ht
  have hquote : t.isQuote = false := Token.isQuote_eq_false (Token.isWord_of_isDigits ht)
  rw [primaryFrom, if_neg (hne (by decide)), if_neg (hne (by decide)), if_neg (hne (by decide)),
    if_neg (hne (by decide)), if_neg (by simp [hquote]), if_neg (hne (by decide)),
    if_neg fun hc => hne (by decide) hc.1, if_neg fun hc => hne (by decide) hc.1,
    if_neg fun hc => hne (by decide) hc.1, if_pos ht]

theorem primaryExpr_apply (ts : List Token) : primaryExpr inner ts =
    (match Token.skipSpace ts with
    | [] => fail "PrimaryExpr"
    | t :: us => primaryFrom inner t us : Rule Node) (Token.skipSpace ts) :=
  rfl

/-- A rule that the first token chooses reads what the rule for primary expressions reads. -/
theorem primaryExpr_of_first {ps : List Piece} (hs : Starts ps) {r : Rule Node} {n : Node}
    {rest : List Token} (hr : r.Reads (Piece.write σ ps) n rest)
    (hfirst : ∀ t ts, Piece.write σ ps ++ rest = t :: ts → primaryFrom inner t ts = r) :
    (primaryExpr inner).Reads (Piece.write σ ps) n rest := by
  intro us hus
  obtain ⟨t, ts, hts⟩ := List.exists_cons_of_ne_nil (l := Piece.write σ ps ++ rest)
    (by simpa using fun h => absurd h (List.length_pos_iff.mp (Piece.length_write_pos σ hs)))
  have hread := hr.write hs
  rw [primaryExpr_apply, hus, hts]
  rw [hts, ← hfirst t ts hts] at hread
  exact hread

theorem head?_not_digits {k : Nat} {rest : List Token} (h : Ends k rest) (hk : k ≤ 21) :
    rest.head?.any Token.isDigits = false := by
  cases rest with
  | nil => rfl
  | cons t ts =>
    by_cases hs : t.isSpace
    · obtain rfl : t = Token.space := by simpa [Token.isSpace] using hs
      change Token.isDigits Token.space = false
      decide
    · have hrank := h.rank_lt t (by simp [Token.skipSpace, hs])
      refine Token.of_rank_lt (P := fun t => [t].head?.any Token.isDigits = false) ?_
        (Nat.lt_of_lt_of_le hrank hk)
      decide

/-- A point by itself is the context item. -/
theorem contextItem_complete {rest : List Token} (h : Ends 21 rest) :
    (primaryExpr inner).Reads (Piece.write σ (Node.of .contextItem).pieces)
      (Node.of .contextItem).canon rest := by
  intro us hus
  replace hus : Token.skipSpace us = "." :: rest := hus
  have hfirst : primaryFrom inner "." rest = advance >>= fun _ => pure (.of .contextItem) := by
    rw [primaryFrom, if_neg (by decide), if_pos rfl, head?_not_digits h (Nat.le_refl _),
      if_neg (by decide)]
  rw [primaryExpr_apply, hus]
  simp only [hfirst]
  rw [bind_of_ok (advance_cons _ _), pure_apply, Tree.canon_of]
  rfl

/-- A variable is read behind its dollar sign. -/
theorem varRef_complete {name : EQName} (h : name.WellFormed) {rest : List Token}
    (hrest : EndsName rest) :
    (after "$" "VarRef" eqName >>= fun name => pure (Node.of (.varRef name))).Reads
      (Piece.write σ (Node.of (.varRef name)).pieces) (Node.of (.varRef name)).canon rest := by
  have hpieces : (Node.of (.varRef name)).pieces = .text "$" :: name.pieces := by
    rw [Node.of, Tree.pieces_node]
    rfl
  have hs := (EQName.solid h).starts
  intro us hus
  rw [hpieces, Piece.write_text rfl, Piece.lay_of_starts hs, List.cons_append] at hus
  refine (bind_of_ok (after_eq_ok.mpr ⟨_, hus, (eqName_complete h hrest).write hs⟩) _).trans ?_
  rw [Tree.canon_of]
  rfl

/-- A lookup is read with its key. -/
theorem unaryLookup_complete (hi : inner.Complete σ levels) {key : KeySpecifier Node}
    (h : (Form.unaryLookup key).FitsIn levels) (rest : List Token) :
    (after "?" "UnaryLookup" (keySpecifier inner) >>= fun key =>
        pure (Node.of (.unaryLookup key))).Reads
      (Piece.write σ (Node.of (.unaryLookup key)).pieces)
        (Node.of (.unaryLookup key)).canon rest := by
  have hpieces : (Node.of (.unaryLookup key)).pieces =
      .text "?" :: (key.map Tree.withPieces).pieces := by
    rw [Node.of, Tree.pieces_node]
    rfl
  have hs : Solid (key.map Tree.withPieces).pieces :=
    KeySpecifier.solid h.parts fun e he => ⟨(h.group e he).1, e.solid (h.group e he).2⟩
  have hread := keySpecifier_complete hi h.parts h.group rest
  intro us hus
  rw [hpieces, Piece.write_text rfl, Piece.lay_of_starts hs.starts, List.cons_append] at hus
  refine (bind_of_ok (after_eq_ok.mpr ⟨_, hus, hread.write hs.starts⟩) _).trans ?_
  rw [Tree.canon_of]
  rfl

theorem pieces_integer (v : Int) : (Node.of (.integer v)).pieces = readPieces (Integer.text v) := by
  rw [Node.of, Tree.pieces_node]
  rfl

theorem pieces_decimal (d : Decimal) : (Node.of (.decimal d)).pieces = readPieces d.text := by
  rw [Node.of, Tree.pieces_node]
  rfl

theorem pieces_double (x : Double) : (Node.of (.double x)).pieces = readPieces x.text := by
  rw [Node.of, Tree.pieces_node]
  rfl

theorem pieces_string (s : String) : (Node.of (.string s)).pieces = [.string s] := by
  rw [Node.of, Tree.pieces_node]
  rfl

/-- Every primary expression is read if what is nested in it is. -/
theorem primaryExpr_complete (hi : inner.Complete σ levels) {n : Node} (hrank : 21 ≤ n.rank)
    (hn : n.Fits levels) {rest : List Token} (hrest : Ends 21 rest) :
    (primaryExpr inner).Reads (Piece.write σ n.pieces) n.canon rest := by
  have hstart := (n.solid hn).starts
  obtain ⟨⟨⟩, f⟩ := n
  have hf := Tree.fits_node.mp hn
  replace hrank : 21 ≤ f.rank := hrank
  rw [show Tree.node () f = Node.of f from rfl] at hstart ⊢
  have hname := hrest.endsName (Nat.le_refl _)
  have hnumber := EndsNumber.of_ends hrest (Nat.le_refl _)
  cases f with
  | parenthesized o =>
    refine primaryExpr_of_first hstart (parenthesizedExpr_complete hi
      (fun e he => hf.content e (by simpa [Form.contents] using he)) rest) fun t ts hts => ?_
    obtain rfl : "(" = t := (List.cons.inj hts).1
    rfl
  | contextItem => exact contextItem_complete hrest
  | varRef name =>
    refine primaryExpr_of_first hstart (varRef_complete hf.parts hname) fun t ts hts => ?_
    obtain rfl : "$" = t := (List.cons.inj hts).1
    rfl
  | functionCall name args =>
    refine primaryExpr_of_first hstart (functionCall_complete hi hf rest) fun t ts hts => ?_
    rw [pieces_functionCall, Piece.write_solid_append (EQName.solid hf.parts), List.append_assoc,
      Piece.lay_of_starts (solid_arguments _).starts, write_arguments] at hts
    refine primaryFrom_name hf.parts hts (fun hfunction => ?_)
      (isNext_of_follows (.inl rfl) rfl (by decide))
    have := hf.proper
    simp [Form.Proper, isReserved, hfunction] at this
    exact absurd this (by decide)
  | namedFunctionRef name arity =>
    refine primaryExpr_of_first hstart (functionRef_complete inner hf rest) fun t ts hts => ?_
    rw [pieces_namedFunctionRef, Piece.write_solid_append (EQName.solid hf.parts.1),
      List.append_assoc, Piece.lay_text rfl] at hts
    exact primaryFrom_name hf.parts.1 hts (fun _ => isNext_of_follows (.inl rfl) rfl (by decide))
      (isNext_of_follows (.inl rfl) rfl (by decide))
  | inlineFunction params result body =>
    refine primaryExpr_of_first hstart (inlineFunction_complete hi hf rest) fun t ts hts => ?_
    obtain ⟨rfl, rfl⟩ := List.cons.inj hts
    rfl
  | mapConstructor entries =>
    refine primaryExpr_of_first hstart (mapConstructor_complete hi hf rest) fun t ts hts => ?_
    obtain ⟨rfl, rfl⟩ := List.cons.inj hts
    rfl
  | squareArray members =>
    refine primaryExpr_of_first hstart (squareArray_complete hi hf rest) fun t ts hts => ?_
    obtain rfl : "[" = t := (List.cons.inj hts).1
    rfl
  | curlyArray body =>
    refine primaryExpr_of_first hstart (curlyArray_complete hi hf rest) fun t ts hts => ?_
    obtain ⟨rfl, rfl⟩ := List.cons.inj hts
    cases body <;> rfl
  | unaryLookup key =>
    refine primaryExpr_of_first hstart (unaryLookup_complete hi hf rest) fun t ts hts => ?_
    obtain rfl : "?" = t := (List.cons.inj hts).1
    rfl
  | integer v =>
    obtain ⟨n, rfl⟩ := Int.eq_ofNat_of_zero_le hf.parts
    rw [pieces_integer] at hstart ⊢
    refine primaryExpr_of_first hstart (integer_complete n hnumber) fun t ts hts => ?_
    rw [readPieces_integer] at hts
    obtain rfl : Nat.repr n = t := (List.cons.inj hts).1
    exact primaryFrom_digits (Token.isDigits_repr n) ts
  | decimal d =>
    obtain ⟨hd, hscale⟩ := hf.parts
    rw [pieces_decimal] at hstart ⊢
    refine primaryExpr_of_first hstart (decimal_complete hd hscale hnumber) fun t ts hts => ?_
    rw [readPieces_decimal hd] at hts
    obtain rfl : String.ofList d.wholeDigits = t := (List.cons.inj hts).1
    exact primaryFrom_digits
      (Token.isDigits_ofList.mpr ⟨d.wholeDigits_ne_nil, d.wholeDigits_all⟩) ts
  | double x =>
    obtain ⟨hx, hsign⟩ := hf.parts
    rw [pieces_double] at hstart ⊢
    refine primaryExpr_of_first hstart (double_complete hx hsign _) fun t ts hts => ?_
    rw [readPieces_double hx hsign, write_ofTokens x.shortest.isWord_tokens,
      Scientific.tokens] at hts
    have hlead : t = String.ofList x.shortest.leadingDigit := by
      split at hts <;> exact (List.cons.inj hts).1.symm
    exact primaryFrom_digits (hlead ▸ Token.isDigits_ofList.mpr
      ⟨x.shortest.leadingDigit_ne_nil, x.shortest.digits_all.1⟩) ts
  | string s =>
    rw [pieces_string] at hstart ⊢
    refine primaryExpr_of_first (r := stringLiteral >>= fun s => pure (Node.of (.string s))) hstart
      (fun us hus => bind_of_ok (stringLiteral_complete s rest us hus) _) fun t ts hts => ?_
    obtain rfl : "\"" = t := (List.cons.inj hts).1
    rfl
  | chain level first rest => cases level <;> simp [Form.rank, ChainLevel.rank] at hrank
  | _ => simp [Form.rank] at hrank

end Grammar

end XPath
