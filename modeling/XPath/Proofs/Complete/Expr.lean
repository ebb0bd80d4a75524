import XPath.Proofs.Complete.Operator

/-!
# Completeness of the rules for whole expressions

A keyword stands in front of the token that makes it one, and what begins with any other token is
read by the rules for operators (`exprSingleFrom_complete`). The rules for what is nested are
complete by induction on the levels (`nested_complete`).
-/

namespace XPath.Grammar

open Rule

variable {σ : UriTokens} {inner : Nested} {levels : Nat}

/-! ## Keyword expressions -/

/-- A binding is read if its expression is. -/
theorem binding_complete (hi : inner.Complete σ levels) {b : Binding Node} (hw : b.name.WellFormed)
    {rest : List Token} (hb : SingleBefore levels b.expr rest) (hrest : Ends 1 rest) :
    (binding inner b.op).Reads (Piece.write σ (b.map Tree.withPieces).pieces) (b.map Tree.canon)
      rest := by
  obtain ⟨name, op, e⟩ := b
  have hname := EQName.solid hw
  have hword := isWord_bindingOp op
  have hpieces : (Binding.map Tree.withPieces ⟨name, op, e⟩).pieces =
      .text "$" :: (name.pieces ++ (Piece.keyword (Spelled.spelling op) ++ e.pieces)) := by
    simp [Binding.map, Binding.pieces, Tree.withPieces]
  intro us hus
  rw [hpieces, Piece.write_text rfl, Piece.lay_false_of_solid hname, Piece.lay_keyword hword,
    List.cons_append, List.append_assoc] at hus
  have hends : EndsName (Token.space :: Spelled.spelling op :: Token.space ::
      (Piece.write σ e.pieces ++ rest)) := by
    refine .of_follows (.inr rfl : Follows (Spelled.spelling op) _ _) ?_ ?_ <;>
      cases op <;> decide
  have hread : after "$" "SimpleBinding" eqName us = .ok (name, _) :=
    after_eq_ok.mpr ⟨_, hus, (eqName_complete hw hends).write hname.starts⟩
  refine (bind_of_ok hread _).trans ?_
  refine (bind_of_ok (expect_of_skipSpace rfl "SimpleBinding") _).trans ?_
  exact bind_of_ok (hi.exprSingle hb hrest).space _

/-- A word in front of which every single expression ends. -/
structure IsEnd (word : Token) : Prop where
  isWord : word.isWord
  rank : word.rank = 0
  ne_comma : word ≠ ","
  ne_colon : word ≠ ":"

/-- Such a word ends any expression. -/
theorem IsEnd.ends {word : Token} (h : IsEnd word) {rest mid : List Token}
    (hfollows : Follows word rest mid) : Ends 1 rest :=
  .of_follows hfollows h.isWord (by rw [h.rank]; decide) h.ne_colon

theorem isEnd_return : IsEnd "return" := ⟨rfl, by decide, by decide, by decide⟩

theorem isEnd_satisfies : IsEnd "satisfies" := ⟨rfl, by decide, by decide, by decide⟩

theorem isEnd_else : IsEnd "else" := ⟨rfl, by decide, by decide, by decide⟩

/-- In front of the word, the single expression that it follows. -/
theorem IsSingle.before_word {n : Node} (h : IsSingle levels n) {word : Token}
    (hword : IsEnd word) (hadmits : n.admits word) (ts : List Token) :
    SingleBefore levels n (Token.space :: word :: ts) ∧ Ends 1 (Token.space :: word :: ts) := by
  refine ⟨h.before fun t ht => ?_, hword.ends (.inr rfl)⟩
  obtain rfl : word = t := by simpa [Token.skipSpace, Token.isSpace] using ht
  exact hadmits

/-- A binding is solid. -/
theorem Binding.solid {b : Binding Node} (hw : b.name.WellFormed) (h : IsSingle levels b.expr) :
    Solid (b.map Tree.withPieces).pieces := by
  have hfront : Solid ([.text "$"] ++ b.name.pieces) :=
    (Solid.singleton (p := .text "$") rfl).append (EQName.solid hw)
  exact hfront.around h.solid _

/-- Bindings up to the word in front of the body. -/
theorem bindings_complete (hi : inner.Complete σ levels) {op : BindingOp} {word : Token}
    {bindings : List (Binding Node)} (h : BindingsBefore levels op word bindings)
    (hword : IsEnd word) (ts : List Token) :
    (commaList (binding inner op)).Reads
      (Piece.write σ (Piece.commaSeparated (bindings.map fun b => (b.map Tree.withPieces).pieces)))
      (bindings.map (·.map Tree.canon)) (Token.space :: word :: ts) := by
  have hread {b : Binding Node} (hb : b ∈ bindings) {rest : List Token}
      (hbefore : SingleBefore levels b.expr rest) (hrest : Ends 1 rest) :
      (binding inner op).Reads (Piece.write σ (b.map Tree.withPieces).pieces) (b.map Tree.canon)
        rest := by
    have := binding_complete hi (h.name b hb) hbefore hrest
    rwa [h.op_eq b hb] at this
  refine commaList_reads h.ne_nil (fun b hb => Binding.solid (h.name b hb) (h.single b hb))
    (fun b hb rest mid hfollows => ?_) (fun b hb => ?_)
    (isNext_of_follows (.inr rfl) hword.isWord hword.ne_comma)
  · exact hread hb ((h.single b hb).before_closer isCloser_comma hfollows)
      (.of_closer isCloser_comma (by decide) hfollows (by decide))
  · have hmem := List.mem_of_getLast? hb
    obtain ⟨hbefore, hends⟩ := (h.single b hmem).before_word hword (h.admits b hb) ts
    exact hread hmem hbefore hends

/-- A keyword, its bindings, and a body after a word. -/
theorem write_bindings {op : BindingOp} {keyword word : Token} (hkeyword : keyword.isWord)
    (hword : word.isWord) {bindings : List (Binding Node)}
    (h : BindingsBefore levels op word bindings) (body : List Piece) (rest : List Token) :
    Piece.write σ (bindingsPieces keyword (bindings.map (·.map Tree.withPieces)) ++
        Piece.keyword word ++ body) ++ rest =
      keyword :: Token.space ::
        (Piece.write σ (Piece.commaSeparated
          (bindings.map fun b => (b.map Tree.withPieces).pieces)) ++
            (Token.space :: word :: Token.space :: (Piece.write σ body ++ rest))) := by
  obtain ⟨b, others, rfl⟩ := List.exists_cons_of_ne_nil h.ne_nil
  have hs : Solid (Piece.commaSeparated
      ((b :: others).map fun b => (b.map Tree.withPieces).pieces)) :=
    solid_commaSeparated (Binding.solid (h.name b (by simp)) (h.single b (by simp)))
      (by simpa using fun c hc =>
        Binding.solid (h.name c (by simp [hc])) (h.single c (by simp [hc])))
  simp only [bindingsPieces, List.map_map, Function.comp_def, List.append_assoc, List.cons_append,
    List.nil_append]
  rw [Piece.write_text hkeyword, Piece.lay_gap_false, Piece.lay_solid hs, Piece.lay_keyword hword]
  simp

/-- A construct with bindings and a body fits if its parts do. -/
theorem BindingsBefore.of_fitsIn {f : Form Node} (hf : f.FitsIn levels) {op : BindingOp}
    {word : Token} {bindings : List (Binding Node)} {body : Node}
    (hsingles : f.singles = bindings.map Binding.expr ++ [body])
    (hfollow : f.followers = (bindings.getLast?.map fun b => (b.expr, word)).toList)
    (hproper : bindings ≠ [] ∧ ∀ b ∈ bindings, b.op = op)
    (hname : ∀ b ∈ bindings, b.name.WellFormed) :
    BindingsBefore levels op word bindings ∧ IsSingle levels body where
  left :=
    { ne_nil := hproper.1
      name := hname
      op_eq := hproper.2
      single := fun b hb => hf.single b.expr (by
        rw [hsingles]
        exact List.mem_append_left _ (List.mem_map_of_mem hb))
      admits := fun b hb => hf.followed (b.expr, word) (by
        rw [hfollow, Option.mem_def.mp hb]
        exact List.mem_singleton_self _) }
  right := hf.single body (by simp [hsingles])

/-- After its keyword, a construct with bindings is read up to the end of its body. -/
theorem bound_complete (hi : inner.Complete σ levels)
    (form : List (Binding Node) → Node → Form Node)
    {op : BindingOp} {word : Token} (hword : IsEnd word) (owner : String)
    {bindings : List (Binding Node)} (hb : BindingsBefore levels op word bindings) {body : Node}
    {rest : List Token} (hbody : SingleBefore levels body rest) (hrest : Ends 1 rest) :
    (commaList (binding inner op) >>= fun bs => expect word owner >>= fun _ =>
      inner.exprSingle >>= fun e => pure (Node.of (form bs e)))
      (Token.space :: (Piece.write σ (Piece.commaSeparated
          (bindings.map fun b => (b.map Tree.withPieces).pieces)) ++
            (Token.space :: word :: Token.space :: (Piece.write σ body.pieces ++ rest)))) =
      .ok (.of (form (bindings.map (·.map Tree.canon)) body.canon), rest) := by
  rw [bind_of_ok (bindings_complete hi hb hword _).space,
    bind_of_ok (expect_of_skipSpace (show Token.skipSpace (Token.space :: word :: _) = word :: _
      from rfl) owner), bind_of_ok (hi.exprSingle hbody hrest).space]
  rfl

/-- What follows the keyword of a construct with bindings. -/
theorem isNext_binding {bindings : List (Binding Node)} (hne : bindings ≠ []) (ts : List Token) :
    isNext "$" (Token.space :: (Piece.write σ (Piece.commaSeparated
      (bindings.map fun b => (b.map Tree.withPieces).pieces)) ++ ts)) = true := by
  obtain ⟨b, others, rfl⟩ := List.exists_cons_of_ne_nil hne
  rw [List.map_cons, commaSeparated_cons]
  rfl

theorem exprSingleHere_cons (t : Token) (ts : List Token) :
    exprSingleHere inner (t :: ts) = exprSingleFrom inner t ts (t :: ts) :=
  rfl

/-- What may follow a construct may follow its last expression. -/
theorem SingleBefore.of_last {f : Form Node} {body : Node} (hlast : f.last? = some body)
    (h : IsSingle levels body) {rest : List Token}
    (hadmits : ∀ t ∈ (Token.skipSpace rest).head?, (Node.of f).admits t) :
    SingleBefore levels body rest :=
  h.before fun t ht => by
    rw [← Tree.admits_of_last (l := ()) hlast]
    exact hadmits t ht

section Keywords

variable (hi : inner.Complete σ levels) {rest : List Token} (hrest : Ends 1 rest)
include hi hrest

theorem forExpr_complete {bindings : List (Binding Node)} {body : Node}
    (hf : (Form.forExpr bindings body).FitsIn levels)
    (hadmits : ∀ t ∈ (Token.skipSpace rest).head?, (Node.of (.forExpr bindings body)).admits t) :
    exprSingleHere inner (Piece.write σ (Node.of (.forExpr bindings body)).pieces ++ rest) =
      .ok ((Node.of (.forExpr bindings body)).canon, rest) := by
  obtain ⟨hb, hsingle⟩ := BindingsBefore.of_fitsIn hf rfl rfl hf.proper hf.parts
  have hbody : SingleBefore levels body rest := .of_last rfl hsingle hadmits
  rw [Tree.canon_of, Node.of, Tree.pieces_node]
  simp only [Form.map, Form.pieces]
  rw [write_bindings rfl rfl hb, exprSingleHere_cons, exprSingleFrom,
    if_pos ⟨rfl, isNext_binding hb.ne_nil _⟩]
  exact (bind_of_ok (expect_of_skipSpace rfl _) _).trans
    (bound_complete hi .forExpr isEnd_return _ hb hbody hrest)

theorem letExpr_complete {bindings : List (Binding Node)} {body : Node}
    (hf : (Form.letExpr bindings body).FitsIn levels)
    (hadmits : ∀ t ∈ (Token.skipSpace rest).head?, (Node.of (.letExpr bindings body)).admits t) :
    exprSingleHere inner (Piece.write σ (Node.of (.letExpr bindings body)).pieces ++ rest) =
      .ok ((Node.of (.letExpr bindings body)).canon, rest) := by
  obtain ⟨hb, hsingle⟩ := BindingsBefore.of_fitsIn hf rfl rfl hf.proper hf.parts
  have hbody : SingleBefore levels body rest := .of_last rfl hsingle hadmits
  rw [Tree.canon_of, Node.of, Tree.pieces_node]
  simp only [Form.map, Form.pieces]
  rw [write_bindings rfl rfl hb, exprSingleHere_cons, exprSingleFrom, if_neg (by simp),
    if_pos ⟨rfl, isNext_binding hb.ne_nil _⟩]
  exact (bind_of_ok (expect_of_skipSpace rfl _) _).trans
    (bound_complete hi .letExpr isEnd_return _ hb hbody hrest)

/-- A quantified expression is read from its quantifier to its condition. -/
theorem quantifiedExpr_complete {q : Quantifier} {bindings : List (Binding Node)} {body : Node}
    (hf : (Form.quantified q bindings body).FitsIn levels)
    (hadmits : ∀ t ∈ (Token.skipSpace rest).head?,
      (Node.of (.quantified q bindings body)).admits t) :
    exprSingleHere inner (Piece.write σ (Node.of (.quantified q bindings body)).pieces ++ rest) =
      .ok ((Node.of (.quantified q bindings body)).canon, rest) := by
  obtain ⟨hb, hsingle⟩ := BindingsBefore.of_fitsIn hf rfl rfl hf.proper hf.parts
  have hbody : SingleBefore levels body rest := .of_last rfl hsingle hadmits
  have hnext (ts : List Token) := isNext_binding (σ := σ) hb.ne_nil ts
  have hfrom (ts : List Token) (h : isNext "$" ts) :
      exprSingleFrom inner (Spelled.spelling q) ts = quantifiedExpr inner q := by
    rw [exprSingleFrom]
    cases q <;> simp [h, Spelled.spelling]
  rw [Tree.canon_of, Node.of, Tree.pieces_node]
  simp only [Form.map, Form.pieces]
  rw [write_bindings (isWord_quantifier q) rfl hb, exprSingleHere_cons, hfrom _ (hnext _),
    quantifiedExpr, bind_of_ok (advance_cons _ _)]
  exact bound_complete hi (.quantified q) isEnd_satisfies _ hb hbody hrest

/-- A condition is read in its parentheses, and both branches behind their words. -/
theorem ifExpr_complete {c t e : Node} (hf : (Form.ifExpr c t e).FitsIn levels)
    (hadmits : ∀ u ∈ (Token.skipSpace rest).head?, (Node.of (.ifExpr c t e)).admits u) :
    exprSingleHere inner (Piece.write σ (Node.of (.ifExpr c t e)).pieces ++ rest) =
      .ok ((Node.of (.ifExpr c t e)).canon, rest) := by
  obtain ⟨hkind, hc⟩ := hf.content c (by simp [Form.contents])
  have ht : IsSingle levels t := hf.single t (by simp [Form.singles])
  have he : IsSingle levels e := hf.single e (by simp [Form.singles])
  have hbranch : SingleBefore levels e rest := .of_last rfl he hadmits
  obtain ⟨hthen, hends⟩ := ht.before_word isEnd_else
    (hf.followed (t, "else") (by simp [Form.followers]))
      (Token.space :: (Piece.write σ e.pieces ++ rest))
  have hwrite : Piece.write σ (Node.of (.ifExpr c t e)).pieces ++ rest =
      "if" :: Token.space :: "(" :: (Piece.write σ c.pieces ++ ")" ::
        Token.space :: "then" :: Token.space :: (Piece.write σ t.pieces ++
          (Token.space :: "else" :: Token.space :: (Piece.write σ e.pieces ++ rest)))) := by
    rw [Node.of, Tree.pieces_node]
    simp only [Form.map, Form.pieces, Tree.withPieces, List.append_assoc, List.cons_append,
      List.nil_append]
    rw [Piece.write_text rfl, Piece.lay_gap_false, Piece.lay_text rfl,
      Piece.lay_false_of_solid (c.solid hc), Piece.lay_text rfl, Piece.lay_keyword rfl,
      Piece.write_solid_append ht.solid, Piece.lay_keyword rfl]
    simp
  have hcondition (ts : List Token) : bracketed "(" ")" "IfExpr" (expr inner)
      (Token.space :: "(" :: (Piece.write σ c.pieces ++ ")" :: ts)) = .ok (c.canon, ts) := by
    have hread := (expr_before hi hkind hc (by decide)
      (.inl rfl : Follows ")" (")" :: ts) ts)).write
      (σ := σ) (c.solid hc).starts
    exact bracketed_eq_ok.mpr ⟨_, _, rfl, hread, skipSpace_of_isWord rfl⟩
  rw [hwrite, exprSingleHere_cons, exprSingleFrom, if_neg (by simp), if_neg (by simp),
    if_neg (by simp), if_neg (by simp), if_pos ⟨rfl, rfl⟩, Tree.canon_of]
  refine (bind_of_ok (expect_of_skipSpace rfl _) _).trans ?_
  refine (bind_of_ok (hcondition _) _).trans ?_
  refine (bind_of_ok (expect_of_skipSpace rfl _) _).trans ?_
  refine (bind_of_ok (hi.exprSingle hthen hends).space _).trans ?_
  refine (bind_of_ok (expect_of_skipSpace rfl _) _).trans ?_
  exact bind_of_ok (hi.exprSingle hbranch hrest).space _

end Keywords

/-! ## Single expressions -/

/-- A token that is not mistaken for a keyword begins an expression with operators. -/
theorem exprSingleFrom_operators {t : Token} {ts : List Token} (h : Unmistaken t ts) :
    exprSingleFrom inner t ts = orExpr inner := by
  have hbinding {keyword : Token} (hmem : keyword ∈ ["for", "let", "some", "every"]) :
      ¬(t = keyword ∧ isNext "$" ts = true) := by
    rintro ⟨rfl, hnext⟩
    simp [h.binding hmem] at hnext
  have hcondition : ¬(t = "if" ∧ isNext "(" ts = true) := by
    rintro ⟨rfl, hnext⟩
    simp [h.condition rfl] at hnext
  rw [exprSingleFrom, if_neg (hbinding (by decide)), if_neg (hbinding (by decide)),
    if_neg (hbinding (by decide)), if_neg (hbinding (by decide)), if_neg hcondition]

/-- Every single expression is read if what is nested in it is. -/
theorem exprSingleHere_complete (hi : inner.Complete σ levels) {n : Node} {rest : List Token}
    (h : n.ReadBefore 1 levels rest) (hrest : Ends 1 rest) :
    exprSingleHere inner (Piece.write σ n.pieces ++ rest) = .ok (n.canon, rest) := by
  have hs := (n.solid h.fits).starts
  by_cases hrank : 2 ≤ n.rank
  · obtain ⟨t, ts, hts⟩ := List.exists_cons_of_ne_nil (l := Piece.write σ n.pieces ++ rest)
      (List.append_ne_nil_of_left_ne_nil (List.length_pos_iff.mp (Piece.length_write_pos σ hs)) _)
    have hread := (orExpr_complete hi { h with rank_le := hrank } (hrest.mono (by decide))).write
      (σ := σ) hs
    have hclear := Tree.unmistaken h.fits hrank (hrest.mono (Nat.le_of_succ_le hrank)) hts
    rw [hts] at hread ⊢
    rw [exprSingleHere_cons, exprSingleFrom_operators hclear, hread]
  · obtain ⟨⟨⟩, f⟩ := n
    have hone : f.rank = 1 := Nat.le_antisymm (Nat.le_of_lt_succ (Nat.lt_of_not_le hrank)) h.rank_le
    have hf := Tree.fits_node.mp h.fits
    cases f with
    | forExpr bindings body => exact forExpr_complete hi hrest hf h.admits
    | letExpr bindings body => exact letExpr_complete hi hrest hf h.admits
    | quantified q bindings body => exact quantifiedExpr_complete hi hrest hf h.admits
    | ifExpr c t e => exact ifExpr_complete hi hrest hf h.admits
    | chain level => cases level <;> cases hone
    | _ => cases hone

/-- By induction on the levels of nesting, all rules are complete. -/
theorem nested_complete (σ : UriTokens) (levels : Nat) :
    Nested.Complete σ (nested levels) levels := by
  induction levels with
  | zero =>
    refine ⟨fun n rest h => ?_, itemType_complete σ 0⟩
    obtain ⟨k, hk, -⟩ := h
    cases hk
  | succ levels ih =>
    refine ⟨fun n rest h hrest us hus => ?_, itemType_complete σ (levels + 1)⟩
    obtain ⟨k, hk, hn⟩ := h
    cases hk
    change exprSingleHere (nested levels) (Token.skipSpace us) = _
    rw [hus]
    exact exprSingleHere_complete ih hn hrest

end XPath.Grammar
