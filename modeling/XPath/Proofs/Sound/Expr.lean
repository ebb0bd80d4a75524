import XPath.Grammar.Expr
import XPath.Proofs.Sound.Path

/-!
# Soundness of the rules for operators and whole expressions

Each level of operators is sound if the next tighter one is, down to paths. The rules for what is
nested are sound by induction on the levels (`nested_sound`), and so every expression that is read
is well formed and spelled by the tokens it takes (`exprSingle_sound`).
-/

namespace XPath.Grammar

open Rule

variable {inner : Nested} {levels : Nat}

/-! ## Operators -/

theorem simpleMapExpr_sound (hi : inner.Sound levels) :
    (simpleMapExpr inner).Sound Tree.pieces (Tree.ReadBefore 17 levels) :=
  chainOf_sound (show ChainLevel.simpleMap.rank < 18 by decide) (pathExpr_sound hi)

theorem isWord_unaryOp (op : UnaryOp) : (Spelled.spelling op).isWord := by
  cases op <;> rfl

/-- Signs are spelled one after another, however many there are. -/
theorem unaryOps_sound : (many (operator? (Spelled.ofToken? : Token → Option UnaryOp))).Sound
    (fun ops => ops.map fun op => .text (Spelled.spelling op)) fun _ _ => True := by
  have hread {ts mid : List Token} {op : UnaryOp} (h : operator? Spelled.ofToken? ts =
      .ok (some op, mid)) : Spells ts [.text (Spelled.spelling op)] mid := by
    obtain ⟨t, ht, hop⟩ := operator?_eq_some.mp h
    obtain rfl := Spelled.spelling_of_ofToken? hop
    exact .word (isWord_unaryOp op) ht
  intro ts ops rest h
  refine ⟨?_, trivial⟩
  simp only [List.map_eq_flatMap]
  exact (many_sound (P := fun _ => True) (operator?_advances _)
    (fun _ _ _ h => ⟨hread h, trivial⟩) h).1

/-- What is read with signs is their operand with these in front. -/
theorem unaryExpr_sound (hi : inner.Sound levels) :
    (unaryExpr inner).Sound Tree.pieces (Tree.ReadBefore 16 levels) := by
  intro ts n rest h
  obtain ⟨ops, mid, hops, h⟩ := bind_eq_ok.mp h
  obtain ⟨operand, mid', hoperand, h⟩ := bind_eq_ok.mp h
  obtain ⟨hs, -⟩ := unaryOps_sound hops
  obtain ⟨hs', hp⟩ := simpleMapExpr_sound hi hoperand
  split at h
  next hempty =>
    obtain ⟨rfl, rfl⟩ := pure_eq_ok.mp h
    obtain rfl : ops = [] := by simpa using hempty
    exact ⟨hs.append hs', hp.of_rank_le (by decide)⟩
  next hempty =>
    obtain ⟨rfl, rfl⟩ := pure_eq_ok.mp h
    have hfit : (Form.unary ops operand).FitsIn levels :=
      .of_operands rfl (by simpa [Form.operands] using ⟨hp.rank_le, hp.fits⟩)
        (by simpa [Form.Proper] using hempty) trivial (List.forall_mem_nil _)
    refine ⟨?_, hfit.readBefore_last rfl hp.admits⟩
    rw [Node.of, Tree.pieces_node]
    exact hs.append hs'

/-- A target is spelled as what it is read as: a name, a variable, or parentheses. -/
theorem arrowTarget_sound (hi : inner.Sound levels) :
    (arrowTarget inner).Sound (fun t => (t.map Tree.withPieces).pieces) fun t _ =>
      t.WellFormed ∧ ∀ e ∈ t.children, e.kind = .parenthesizedExpr ∧ e.Fits levels := by
  intro ts target rest h
  suffices hs : Spells (Token.skipSpace ts) (target.map Tree.withPieces).pieces rest ∧
      target.WellFormed ∧ ∀ e ∈ target.children, e.kind = .parenthesizedExpr ∧ e.Fits levels from
    ⟨.of_skipSpace hs.1, hs.2⟩
  rw [arrowTarget, bind_of_ok (space_apply ts), bind_of_ok (rest_apply _)] at h
  generalize Token.skipSpace ts = us at h ⊢
  generalize ht : us.head? = t? at h
  split at h
  · obtain ⟨vs, rfl⟩ := List.head?_eq_some_iff.mp ht
    rw [bind_of_ok (advance_cons _ vs)] at h
    obtain ⟨name, mid, hname, h⟩ := bind_eq_ok.mp h
    obtain ⟨rfl, rfl⟩ := pure_eq_ok.mp h
    obtain ⟨hs, hw⟩ := eqName_sound hname
    exact ⟨.text rfl hs, hw, by simp [ArrowTarget.children]⟩
  · obtain ⟨n, mid, hn, h⟩ := bind_eq_ok.mp h
    obtain ⟨rfl, rfl⟩ := pure_eq_ok.mp h
    obtain ⟨hs, hkind, hw⟩ := parenthesizedExpr_sound hi hn
    refine ⟨?_, trivial, by simpa [ArrowTarget.children] using ⟨hkind, hw.fits⟩⟩
    simpa [ArrowTarget.map, ArrowTarget.pieces, parenthesizedPieces, Tree.withPieces, hkind]
      using hs
  · obtain ⟨name, mid, hname, h⟩ := bind_eq_ok.mp h
    obtain ⟨rfl, rfl⟩ := pure_eq_ok.mp h
    obtain ⟨hs, hw⟩ := eqName_sound hname
    exact ⟨hs, hw, by simp [ArrowTarget.children]⟩

theorem arrowCall_sound (hi : inner.Sound levels) :
    (arrowCall inner).Sound (fun c => (c.map Tree.withPieces).pieces) fun c _ =>
      c.target.WellFormed ∧
      (∀ e ∈ c.target.children, e.kind = .parenthesizedExpr ∧ e.Fits levels) ∧
      ∀ e ∈ c.args.flatMap Argument.children, IsSingle levels e := by
  intro ts c rest h
  obtain ⟨target, mid, htarget, h⟩ := bind_eq_ok.mp h
  obtain ⟨args, mid', hargs, h⟩ := bind_eq_ok.mp h
  obtain ⟨rfl, rfl⟩ := pure_eq_ok.mp h
  obtain ⟨hs, hw, hgroup⟩ := arrowTarget_sound hi htarget
  obtain ⟨hs', hsingle⟩ := argumentList_sound hi hargs
  exact ⟨hs.append hs', hw, hgroup, hsingle⟩

theorem arrow_eq {t : Token} {op : ArrowOp} (h : Spelled.ofToken? t = some op) : t = "=>" :=
  (Spelled.spelling_of_ofToken? h).symm

/-- Calls are spelled behind their arrows, and what they are made on stands in front. -/
theorem arrowExpr_sound (hi : inner.Sound levels) :
    (arrowExpr inner).Sound Tree.pieces (Tree.ReadBefore 15 levels) := by
  intro ts n rest h
  have hcall := arrowCall_sound hi
  obtain ⟨⟨first, calls⟩, mid, hchain, h⟩ := bind_eq_ok.mp h
  obtain ⟨us, hfirst, hl⟩ := links_of_chain hcall.shrinks hchain
  obtain ⟨hs, hp⟩ := unaryExpr_sound hi hfirst
  cases calls with
  | nil =>
    obtain ⟨rfl, rfl⟩ := pure_eq_ok.mp h
    cases hl
    exact ⟨hs, hp.of_rank_le (by decide)⟩
  | cons x calls =>
    obtain ⟨rfl, rfl⟩ := pure_eq_ok.mp h
    have hall : ∀ c ∈ (x :: calls).map Prod.snd, c.target.WellFormed ∧
        (∀ e ∈ c.target.children, e.kind = .parenthesizedExpr ∧ e.Fits levels) ∧
        ∀ e ∈ c.args.flatMap Argument.children, IsSingle levels e := by
      intro c hc
      obtain ⟨y, hy, rfl⟩ := List.mem_map.mp hc
      obtain ⟨-, hy⟩ := hl.forall_mem hcall y hy
      exact hy
    have hfit : (Form.arrow first ((x :: calls).map Prod.snd)).FitsIn levels := by
      constructor
      case operand =>
        intro e he
        obtain rfl : e = first := by simpa [Form.operands] using he
        exact ⟨hp.rank_le, hp.fits⟩
      case single =>
        intro e he
        obtain ⟨c, hc, he⟩ := List.mem_flatMap.mp he
        exact (hall c hc).2.2 e he
      case group =>
        intro e he
        obtain ⟨c, hc, he⟩ := List.mem_flatMap.mp he
        exact (hall c hc).2.1 e he
      case followed =>
        intro p hp'
        obtain rfl : p = (first, "=>") := by simpa [Form.followers] using hp'
        cases hl with
        | cons hmid ht => exact hp.admits "=>" (by simp [hmid, arrow_eq ht])
      case proper => exact List.cons_ne_nil _ _
      case parts => exact fun c hc => (hall c hc).1
      case content => simp [Form.contents]
    refine ⟨?_, Form.FitsIn.readBefore hfit (fun _ => rfl) _⟩
    rw [Node.of, Tree.pieces_node]
    simp only [Form.map, Form.pieces, List.map_map, List.flatMap_map]
    refine hs.append (hl.spells (fun _ => Piece.keyword "=>") hcall fun hmid ht => ?_)
    exact .keyword rfl (arrow_eq ht ▸ hmid)

/-- What a level of types asks of its construct: the operand, its end, and the type. -/
theorem typed_sound {τ : Type} {form : Node → τ → Form Node} {w : Token} {ws : List Token}
    {operand : Rule Node} {type : Rule τ} {pieces : τ → List Piece} {P : τ → List Token → Prop}
    {j k : Nat} (hjk : j < k) (hws : ∀ v ∈ w :: ws, v.isWord)
    (hop : operand.Sound Tree.pieces (Tree.ReadBefore k levels)) (htype : type.Sound pieces P)
    (hform : ∀ {e t mid rest}, e.ReadBefore k levels mid → e.admits w → P t rest →
      (Node.of (form e t)).ReadBefore j levels rest)
    (hpieces : ∀ e t, (Node.of (form e t)).pieces =
      e.pieces ++ (w :: ws).flatMap Piece.keyword ++ pieces t) :
    (typed form (w :: ws) operand type).Sound Tree.pieces (Tree.ReadBefore j levels) := by
  intro ts n rest h
  obtain ⟨⟨e, t?⟩, mid, hfollowed, h⟩ := bind_eq_ok.mp h
  obtain ⟨us, he, hor⟩ := followedBy_eq_ok hfollowed
  obtain ⟨hs, hp⟩ := hop he
  obtain ⟨rfl, rfl, -⟩ | ⟨expected, vs, t, rfl, hwords, ht⟩ := hor
  · obtain ⟨rfl, rfl⟩ := pure_eq_ok.mp h
    exact ⟨hs, hp.of_rank_le (Nat.le_of_lt hjk)⟩
  · obtain ⟨rfl, rfl⟩ := pure_eq_ok.mp h
    obtain ⟨hs', ht⟩ := htype ht
    obtain ⟨us', hus, -⟩ := words_cons_eq_ok.mp hwords
    refine ⟨?_, hform hp (hp.admits w (by simp [hus])) ht⟩
    rw [hpieces]
    exact (hs.append (.words hws hwords)).append hs'

/-- A cast is spelled as its operand with the type behind it. -/
theorem castExpr_sound (hi : inner.Sound levels) :
    (castExpr inner).Sound Tree.pieces (Tree.ReadBefore 14 levels) := by
  refine typed_sound (show 14 < 15 by decide) (by decide) (arrowExpr_sound hi) singleType_sound
    (fun {e t mid rest} he hw ht => ?_) fun e t => ?_
  · have hfit : (Form.cast e t).FitsIn levels :=
      .of_operands rfl (by simpa [Form.operands] using ⟨he.rank_le, he.fits⟩) trivial ht
        (by simpa [Form.followers] using hw)
    exact hfit.readBefore (fun _ => rfl) rest
  · rw [Node.of, Tree.pieces_node]
    simp [Form.map, Form.pieces, Tree.withPieces]

theorem castableExpr_sound (hi : inner.Sound levels) :
    (castableExpr inner).Sound Tree.pieces (Tree.ReadBefore 13 levels) := by
  refine typed_sound (show 13 < 14 by decide) (by decide) (castExpr_sound hi) singleType_sound
    (fun {e t mid rest} he hw ht => ?_) fun e t => ?_
  · have hfit : (Form.castable e t).FitsIn levels :=
      .of_operands rfl (by simpa [Form.operands] using ⟨he.rank_le, he.fits⟩) trivial ht
        (by simpa [Form.followers] using hw)
    exact hfit.readBefore (fun _ => rfl) rest
  · rw [Node.of, Tree.pieces_node]
    simp [Form.map, Form.pieces, Tree.withPieces]

/-- Behind a type that could take a mark, no mark is left. -/
theorem not_marked {ends : Bool} {rest : List Token} (h : UnmarkedBefore ends rest) :
    ∀ t ∈ (Token.skipSpace rest).head?, (!(ends && isOccurrence t)) = true := by
  intro t ht
  cases ends with
  | false => rfl
  | true => simp [h rfl t ht]

/-- A type behind `treat as` has taken the mark that follows, if it could. -/
theorem treatExpr_sound (hi : inner.Sound levels) :
    (treatExpr inner).Sound Tree.pieces (Tree.ReadBefore 12 levels) := by
  refine typed_sound (show 12 < 13 by decide) (by decide) (castableExpr_sound hi)
    (sequenceType_sound hi.itemType) (fun {e t mid rest} he hw ht => ?_) fun e t => ?_
  · have hfit : (Form.treat e t).FitsIn levels :=
      .of_operands rfl (by simpa [Form.operands] using ⟨he.rank_le, he.fits⟩) trivial ht.1
        (by simpa [Form.followers] using hw)
    exact ⟨Nat.le_refl _, Tree.fits_node.mpr hfit, not_marked ht.2⟩
  · rw [Node.of, Tree.pieces_node]
    simp [Form.map, Form.pieces, Tree.withPieces]

theorem instanceOfExpr_sound (hi : inner.Sound levels) :
    (instanceOfExpr inner).Sound Tree.pieces (Tree.ReadBefore 11 levels) := by
  refine typed_sound (show 11 < 12 by decide) (by decide) (treatExpr_sound hi)
    (sequenceType_sound hi.itemType) (fun {e t mid rest} he hw ht => ?_) fun e t => ?_
  · have hfit : (Form.instanceOf e t).FitsIn levels :=
      .of_operands rfl (by simpa [Form.operands] using ⟨he.rank_le, he.fits⟩) trivial ht.1
        (by simpa [Form.followers] using hw)
    exact ⟨Nat.le_refl _, Tree.fits_node.mpr hfit, not_marked ht.2⟩
  · rw [Node.of, Tree.pieces_node]
    simp [Form.map, Form.pieces, Tree.withPieces]

theorem intersectExceptExpr_sound (hi : inner.Sound levels) :
    (intersectExceptExpr inner).Sound Tree.pieces (Tree.ReadBefore 10 levels) :=
  chainOf_sound (show ChainLevel.intersectExcept.rank < 11 by decide) (instanceOfExpr_sound hi)

theorem unionExpr_sound (hi : inner.Sound levels) :
    (unionExpr inner).Sound Tree.pieces (Tree.ReadBefore 9 levels) :=
  chainOf_sound (show ChainLevel.union.rank < 10 by decide) (intersectExceptExpr_sound hi)

theorem multiplicativeExpr_sound (hi : inner.Sound levels) :
    (multiplicativeExpr inner).Sound Tree.pieces (Tree.ReadBefore 8 levels) :=
  chainOf_sound (show ChainLevel.multiplicative.rank < 9 by decide) (unionExpr_sound hi)

theorem additiveExpr_sound (hi : inner.Sound levels) :
    (additiveExpr inner).Sound Tree.pieces (Tree.ReadBefore 7 levels) :=
  chainOf_sound (show ChainLevel.additive.rank < 8 by decide) (multiplicativeExpr_sound hi)

/-- The bounds of a range are no ranges themselves. -/
theorem rangeExpr_sound (hi : inner.Sound levels) :
    (rangeExpr inner).Sound Tree.pieces (Tree.ReadBefore 6 levels) := by
  refine typed_sound (show 6 < 7 by decide) (by decide) (additiveExpr_sound hi)
    (additiveExpr_sound hi) (fun {e t mid rest} he hw ht => ?_) fun e t => ?_
  · have hfit : (Form.range e t).FitsIn levels :=
      .of_operands rfl (by simpa [Form.operands] using ⟨⟨he.rank_le, he.fits⟩, ht.rank_le, ht.fits⟩)
        trivial trivial (by simpa [Form.followers] using hw)
    exact hfit.readBefore_last rfl ht.admits
  · rw [Node.of, Tree.pieces_node]
    simp [Form.map, Form.pieces, Tree.withPieces]

theorem stringConcatExpr_sound (hi : inner.Sound levels) :
    (stringConcatExpr inner).Sound Tree.pieces (Tree.ReadBefore 5 levels) :=
  chainOf_sound (show ChainLevel.stringConcat.rank < 6 by decide) (rangeExpr_sound hi)

theorem isWord_comparisonOp (op : ComparisonOp) : (Spelled.spelling op).isWord := by
  cases op <;> rfl

/-- The operands of a comparison are no comparisons themselves. -/
theorem comparisonExpr_sound (hi : inner.Sound levels) :
    (comparisonExpr inner).Sound Tree.pieces (Tree.ReadBefore 4 levels) := by
  intro ts n rest h
  obtain ⟨left, mid, hleft, h⟩ := bind_eq_ok.mp h
  obtain ⟨hs, hl⟩ := stringConcatExpr_sound hi hleft
  obtain ⟨op?, mid', hop, h⟩ := bind_eq_ok.mp h
  cases op? with
  | none =>
    obtain ⟨rfl, -⟩ := operator?_eq_none.mp hop
    obtain ⟨rfl, rfl⟩ := pure_eq_ok.mp h
    exact ⟨hs, hl.of_rank_le (by decide)⟩
  | some op =>
    obtain ⟨right, mid'', hright, h⟩ := bind_eq_ok.mp h
    obtain ⟨rfl, rfl⟩ := pure_eq_ok.mp h
    obtain ⟨hs', hr⟩ := stringConcatExpr_sound hi hright
    obtain ⟨t, ht, hread⟩ := operator?_eq_some.mp hop
    obtain rfl := Spelled.spelling_of_ofToken? hread
    have hfit : (Form.comparison left op right).FitsIn levels :=
      .of_operands rfl (by simpa [Form.operands] using ⟨⟨hl.rank_le, hl.fits⟩, hr.rank_le, hr.fits⟩)
        trivial trivial (by simpa [Form.followers] using hl.admits _ (by simp [ht]))
    refine ⟨?_, hfit.readBefore_last rfl hr.admits⟩
    rw [Node.of, Tree.pieces_node]
    exact (hs.append (.keyword (isWord_comparisonOp op) ht)).append hs'

theorem andExpr_sound (hi : inner.Sound levels) :
    (andExpr inner).Sound Tree.pieces (Tree.ReadBefore 3 levels) :=
  chainOf_sound (show ChainLevel.and.rank < 4 by decide) (comparisonExpr_sound hi)

theorem orExpr_sound (hi : inner.Sound levels) :
    (orExpr inner).Sound Tree.pieces (Tree.ReadBefore 2 levels) :=
  chainOf_sound (show ChainLevel.or.rank < 3 by decide) (andExpr_sound hi)

/-! ## Keyword expressions -/

theorem isWord_bindingOp (op : BindingOp) : (Spelled.spelling op).isWord := by
  cases op <;> rfl

/-- A bound expression is a single one, and ends where the binding does. -/
theorem binding_sound (hi : inner.Sound levels) (op : BindingOp) :
    (binding inner op).Sound (fun b => (b.map Tree.withPieces).pieces) fun b rest =>
      b.name.WellFormed ∧ b.op = op ∧ SingleBefore levels b.expr rest := by
  intro ts b rest h
  obtain ⟨name, mid, hname, h⟩ := bind_eq_ok.mp h
  obtain ⟨_, mid', hop, h⟩ := bind_eq_ok.mp h
  obtain ⟨e, mid'', he, h⟩ := bind_eq_ok.mp h
  obtain ⟨rfl, rfl⟩ := pure_eq_ok.mp h
  obtain ⟨us, hdollar, hname⟩ := after_eq_ok.mp hname
  obtain ⟨hs, hw⟩ := eqName_sound hname
  obtain ⟨hs', he⟩ := hi.exprSingle he
  refine ⟨?_, hw, rfl, he⟩
  exact (((Spells.word rfl hdollar).append hs).append
    (.keyword (isWord_bindingOp op) (expect_eq_ok.mp hop))).append hs'

/-- The bindings of a keyword expression, up to the word in front of its body. -/
structure BindingsBefore (levels : Nat) (op : BindingOp) (word : Token)
    (bindings : List (Binding Node)) : Prop where
  ne_nil : bindings ≠ []
  name : ∀ b ∈ bindings, b.name.WellFormed
  op_eq : ∀ b ∈ bindings, b.op = op
  single : ∀ b ∈ bindings, IsSingle levels b.expr
  admits : ∀ b ∈ bindings.getLast?, b.expr.admits word

/-- Bindings are spelled behind their keyword, up to the word behind the last one. -/
theorem bindings_sound (hi : inner.Sound levels) (op : BindingOp) {keyword word : Token}
    (hkeyword : keyword.isWord) (hword : word.isWord) {ts us mid rest : List Token}
    {bindings : List (Binding Node)} (hus : Token.skipSpace ts = keyword :: us)
    (h : commaList (binding inner op) us = .ok (bindings, mid))
    (hmid : Token.skipSpace mid = word :: rest) :
    Spells ts (bindingsPieces keyword (bindings.map (·.map Tree.withPieces)) ++
        Piece.keyword word) rest ∧
      BindingsBefore levels op word bindings := by
  obtain ⟨hs, hne, hall, hlast⟩ := commaList_sound (binding_sound hi op) h
  refine ⟨?_, hne, fun b hb => ?_, fun b hb => ?_, fun b hb => ?_, fun b hb => ?_⟩
  · have hkw : Spells ts [.text keyword, .gap] us :=
      (Spells.word hkeyword hus).append (.gap (.nil us))
    simp only [bindingsPieces, List.map_map]
    exact (hkw.append hs).append (.keyword hword hmid)
  · exact (hall b hb).choose_spec.1
  · exact (hall b hb).choose_spec.2.1
  · exact (hall b hb).choose_spec.2.2.isSingle
  · obtain ⟨-, -, k, -, hb⟩ := hlast b hb
    exact hb.admits word (by simp [hmid])

/-- The bound expressions and the body are single expressions. -/
theorem BindingsBefore.single_all {op : BindingOp} {word : Token} {bindings : List (Binding Node)}
    {body : Node} (h : BindingsBefore levels op word bindings) (hbody : IsSingle levels body) :
    ∀ e ∈ bindings.map Binding.expr ++ [body], IsSingle levels e := by
  intro e he
  rcases List.mem_append.mp he with he | he
  · obtain ⟨b, hb, rfl⟩ := List.mem_map.mp he
    exact h.single b hb
  · obtain rfl : e = body := by simpa using he
    exact hbody

/-- The last bound expression may be followed by the word behind the bindings. -/
theorem BindingsBefore.followed {op : BindingOp} {word : Token} {bindings : List (Binding Node)}
    (h : BindingsBefore levels op word bindings) :
    ∀ p ∈ (bindings.getLast?.map fun b => (b.expr, word)).toList, p.1.admits p.2 := by
  intro p hp
  obtain ⟨b, hb, rfl⟩ : ∃ b, bindings.getLast? = some b ∧ (b.expr, word) = p := by
    simpa using hp
  exact h.admits b hb

/-- A keyword expression ends as its body does. -/
theorem SingleBefore.admits {n : Node} {rest : List Token} (h : SingleBefore levels n rest) :
    ∀ t ∈ (Token.skipSpace rest).head?, n.admits t := by
  obtain ⟨k, -, hn⟩ := h
  exact hn.admits

/-- After its keyword, a construct with bindings takes tokens up to the end of its body. -/
theorem bound_sound (hi : inner.Sound levels) (form : List (Binding Node) → Node → Form Node)
    {op : BindingOp} {keyword word owner : Token} (hkeyword : keyword.isWord) (hword : word.isWord)
    (hform : ∀ {bs e}, BindingsBefore levels op word bs → IsSingle levels e →
      (form bs e).FitsIn levels ∧ (form bs e).rank = 1 ∧ (form bs e).last? = some e)
    (hpieces : ∀ bs e, (Node.of (form bs e)).pieces =
      bindingsPieces keyword (bs.map (·.map Tree.withPieces)) ++ Piece.keyword word ++ e.pieces)
    {ts us rest : List Token} {n : Node} (hus : Token.skipSpace ts = keyword :: us)
    (h : (commaList (binding inner op) >>= fun bs => expect word owner >>= fun _ =>
      inner.exprSingle >>= fun e => pure (Node.of (form bs e))) us = .ok (n, rest)) :
    Spells ts n.pieces rest ∧ n.ReadBefore 1 levels rest := by
  obtain ⟨bindings, mid, hbindings, h⟩ := bind_eq_ok.mp h
  obtain ⟨_, vs, hexpect, h⟩ := bind_eq_ok.mp h
  obtain ⟨body, rest', hbody, h⟩ := bind_eq_ok.mp h
  obtain ⟨rfl, rfl⟩ := pure_eq_ok.mp h
  obtain ⟨hs, hb⟩ := bindings_sound hi op hkeyword hword hus hbindings (expect_eq_ok.mp hexpect)
  obtain ⟨hs', hw⟩ := hi.exprSingle hbody
  obtain ⟨hfit, hrank, hlast⟩ := hform hb hw.isSingle
  refine ⟨?_, hrank ▸ hfit.readBefore_last hlast hw.admits⟩
  rw [hpieces]
  exact hs.append hs'

theorem forExpr_sound (hi : inner.Sound levels) :
    (forExpr inner).Sound Tree.pieces (Tree.ReadBefore 1 levels) := by
  intro ts n rest h
  obtain ⟨_, us, hfor, h⟩ := bind_eq_ok.mp h
  refine bound_sound hi .forExpr rfl rfl (fun hb hw => ⟨?_, rfl, rfl⟩) (fun bs e => ?_)
    (expect_eq_ok.mp hfor) h
  · exact .of_singles rfl (hb.single_all hw) ⟨hb.ne_nil, hb.op_eq⟩ hb.name hb.followed
  · rw [Node.of, Tree.pieces_node]
    rfl

theorem letExpr_sound (hi : inner.Sound levels) :
    (letExpr inner).Sound Tree.pieces (Tree.ReadBefore 1 levels) := by
  intro ts n rest h
  obtain ⟨_, us, hlet, h⟩ := bind_eq_ok.mp h
  refine bound_sound hi .letExpr rfl rfl (fun hb hw => ⟨?_, rfl, rfl⟩) (fun bs e => ?_)
    (expect_eq_ok.mp hlet) h
  · exact .of_singles rfl (hb.single_all hw) ⟨hb.ne_nil, hb.op_eq⟩ hb.name hb.followed
  · rw [Node.of, Tree.pieces_node]
    rfl

theorem isWord_quantifier (q : Quantifier) : (Spelled.spelling q).isWord := by
  cases q <;> rfl

/-- A quantified expression is spelled from its quantifier to its condition. -/
theorem quantifiedExpr_sound (hi : inner.Sound levels) {q : Quantifier} {ts rest : List Token}
    {n : Node} (h : quantifiedExpr inner q (Spelled.spelling q :: ts) = .ok (n, rest)) :
    Spells (Spelled.spelling q :: ts) n.pieces rest ∧ n.ReadBefore 1 levels rest := by
  have hq := isWord_quantifier q
  rw [quantifiedExpr, bind_of_ok (advance_cons _ ts)] at h
  refine bound_sound hi (.quantified q) hq rfl (fun hb hw => ⟨?_, rfl, rfl⟩) (fun bs e => ?_)
    (skipSpace_of_isWord hq) h
  · exact .of_singles rfl (hb.single_all hw) ⟨hb.ne_nil, hb.op_eq⟩ hb.name hb.followed
  · rw [Node.of, Tree.pieces_node]
    rfl

/-- A condition stands in parentheses, and both branches are single expressions. -/
theorem ifExpr_sound (hi : inner.Sound levels) :
    (ifExpr inner).Sound Tree.pieces (Tree.ReadBefore 1 levels) := by
  intro ts n rest h
  obtain ⟨_, us, hif, h⟩ := bind_eq_ok.mp h
  obtain ⟨condition, vs, hcondition, h⟩ := bind_eq_ok.mp h
  obtain ⟨_, ws, hthen, h⟩ := bind_eq_ok.mp h
  obtain ⟨thenBranch, mid, hthenBranch, h⟩ := bind_eq_ok.mp h
  obtain ⟨_, xs, helse, h⟩ := bind_eq_ok.mp h
  obtain ⟨elseBranch, rest', helseBranch, h⟩ := bind_eq_ok.mp h
  obtain ⟨rfl, rfl⟩ := pure_eq_ok.mp h
  obtain ⟨us', mid', hopen, hc, hclose⟩ := bracketed_eq_ok.mp hcondition
  obtain ⟨hs, hw⟩ := expr_sound hi hc
  obtain ⟨hs', ht⟩ := hi.exprSingle hthenBranch
  obtain ⟨hs'', he⟩ := hi.exprSingle helseBranch
  have hfit : (Form.ifExpr condition thenBranch elseBranch).FitsIn levels :=
    { operand := List.forall_mem_nil _
      single := by simpa [Form.singles] using ⟨ht.isSingle, he.isSingle⟩
      content := by simpa [Form.contents] using hw
      group := List.forall_mem_nil _
      proper := trivial
      parts := trivial
      followed := by
        simpa [Form.followers] using ht.admits "else" (by simp [expect_eq_ok.mp helse]) }
  refine ⟨?_, hfit.readBefore_last rfl he.admits⟩
  have hhead : Spells ts [.text "if", .gap] us :=
    (Spells.word rfl (expect_eq_ok.mp hif)).append (.gap (.nil us))
  have hcond := hhead.append (Spells.bracketed rfl rfl hopen hs hclose)
  have hbranches := ((hcond.append (.keyword rfl (expect_eq_ok.mp hthen))).append hs').append
    (.keyword rfl (expect_eq_ok.mp helse))
  rw [Node.of, Tree.pieces_node]
  simpa [Form.map, Form.pieces, Tree.withPieces] using hbranches.append hs''

/-! ## Single expressions -/

/-- The first token decides which construct is spelled. -/
theorem exprSingleFrom_sound (hi : inner.Sound levels) {t : Token} {ts rest : List Token} {n : Node}
    (h : exprSingleFrom inner t ts (t :: ts) = .ok (n, rest)) :
    Spells (t :: ts) n.pieces rest ∧ n.ReadBefore 1 levels rest := by
  unfold exprSingleFrom at h
  split at h
  · exact forExpr_sound hi h
  split at h
  · exact letExpr_sound hi h
  split at h
  next hc =>
    obtain ⟨rfl, -⟩ := hc
    exact quantifiedExpr_sound (q := .some) hi h
  split at h
  next hc =>
    obtain ⟨rfl, -⟩ := hc
    exact quantifiedExpr_sound (q := .every) hi h
  split at h
  · exact ifExpr_sound hi h
  · obtain ⟨hs, hp⟩ := orExpr_sound hi h
    exact ⟨hs, hp.of_rank_le (by decide)⟩

theorem exprSingleHere_sound (hi : inner.Sound levels) :
    (exprSingleHere inner).Sound Tree.pieces (Tree.ReadBefore 1 levels) := by
  intro ts n rest h
  rw [exprSingleHere, bind_of_ok (rest_apply ts)] at h
  cases ts with
  | nil => cases h
  | cons t ts => exact exprSingleFrom_sound hi h

/-- By induction on the levels of nesting, all rules are sound. -/
theorem nested_sound (levels : Nat) : (nested levels).Sound levels := by
  induction levels with
  | zero =>
    refine ⟨fun ts n rest h => ?_, itemType_sound 0⟩
    cases h
  | succ levels ih =>
    refine ⟨fun ts n rest h => ?_, itemType_sound (levels + 1)⟩
    obtain ⟨hs, hp⟩ := exprSingleHere_sound ih
      (show exprSingleHere (nested levels) (Token.skipSpace ts) = .ok (n, rest) from h)
    exact ⟨.of_skipSpace hs, levels, rfl, hp⟩

end XPath.Grammar
