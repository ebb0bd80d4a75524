import XPath.Proofs.Complete.SequenceType

/-!
# How constructs begin

What is written of a tree begins as its leftmost part does, which has no operand in front
(`Tree.exists_leftmost`). A rule that looks at the first tokens to choose what to read is decided by
that part.
-/

namespace XPath

open Rule

variable {α ι : Type} {σ : UriTokens} {levels : Nat}

/-! ## The leftmost part -/

/-- The operand with which a construct begins. -/
def Form.leading? : Form α → Option α
  | chain _ first _ => some first
  | comparison left _ _ => some left
  | range first _ => some first
  | instanceOf e _ | treat e _ => some e
  | castable e _ | cast e _ => some e
  | arrow first _ => some first
  | suffixed primary _ => some primary
  | _ => none

/-- The leftmost part is an operand. -/
theorem Form.leading?_mem {f : Form α} {e : α} (h : f.leading? = some e) : e ∈ f.operands := by
  cases f <;> simp_all [leading?, operands]

namespace Ends

/-- The operand of a construct ends in front of the operator. -/
theorem of_keyword {k : Nat} {t : Token} (ht : t.isWord) (hk : t.rank < k) (ps : List Piece)
    (rest : List Token) : Ends k (Piece.lay σ false (Piece.keyword t ++ ps) ++ rest) := by
  rw [Piece.lay_keyword ht]
  exact ⟨by simpa [Token.skipSpace, Token.isSpace, Token.space] using hk,
    by simp [Token.space]⟩

/-- A word that continues expressions of a lower rank ends an operand. -/
theorem of_text {k : Nat} {t : Token} (ht : t.isWord) (hk : t.rank < k) (hcolon : t ≠ ":")
    (ps : List Piece) (rest : List Token) : Ends k (Piece.lay σ false (.text t :: ps) ++ rest) := by
  rw [Piece.lay_text ht]
  exact of_follows (.inl rfl) ht hk hcolon

theorem of_operator {k : Nat} {level : ChainLevel} {op : ChainOp} (hop : op.level = level)
    (hk : level.rank < k) (ps : List Piece) (rest : List Token) :
    Ends k (Piece.lay σ false (level.operatorPieces op ++ ps) ++ rest) := by
  have hrank : Token.rank (Spelled.spelling op) < k := by rwa [Token.rank_chainOp, hop]
  unfold ChainLevel.operatorPieces
  split
  · exact of_text (Grammar.isWord_chainOp op) hrank (by cases op <;> decide) ps rest
  · exact of_keyword (Grammar.isWord_chainOp op) hrank ps rest

end Ends

/-- A suffix begins with its bracket or its mark. -/
theorem Suffix.pieces_eq {ι : Type} (s : Suffix (Tree ι × List Piece)) :
    ∃ t ps, s.pieces = .text t :: ps ∧ (t = "[" ∨ t = "(" ∨ t = "?") := by
  cases s with
  | predicate e => exact ⟨"[", _, rfl, .inl rfl⟩
  | arguments args => exact ⟨"(", _, rfl, .inr (.inl rfl)⟩
  | lookup key => exact ⟨"?", _, rfl, .inr (.inr rfl)⟩

/-- A construct begins with its leading operand, which ends there. -/
theorem Form.write_leading {f : Form Node} {c : Node} (hf : f.FitsIn levels)
    (hc : f.leading? = some c) (rest : List Token) :
    ∃ rest', Piece.write σ (Node.of f).pieces ++ rest = Piece.write σ c.pieces ++ rest' ∧
      Ends c.rank rest' := by
  obtain ⟨hrank, hfits⟩ := hf.operand c (leading?_mem hc)
  have hs := c.solid hfits
  have hsplit (qs : List Piece) : Piece.write σ (c.pieces ++ qs) ++ rest =
      Piece.write σ c.pieces ++ (Piece.lay σ false qs ++ rest) := by
    rw [Piece.write_solid_append hs, List.append_assoc]
  rw [Node.of, Tree.pieces_node]
  cases f with
  | chain level first others =>
    obtain ⟨rfl⟩ := hc
    obtain ⟨⟨op, e⟩, others, rfl⟩ := List.exists_cons_of_ne_nil hf.proper.1
    refine ⟨_, hsplit _, ?_⟩
    simp only [List.map_cons, List.flatMap_cons, List.append_assoc]
    exact .of_operator (hf.proper.2 _ (List.mem_cons_self ..)) hrank _ _
  | comparison left op right =>
    obtain ⟨rfl⟩ := hc
    simp only [map, Form.pieces, Tree.withPieces, List.append_assoc]
    refine ⟨_, hsplit _, .of_keyword (Grammar.isWord_comparisonOp op) ?_ _ _⟩
    rwa [Token.rank_comparisonOp]
  | range first last =>
    obtain ⟨rfl⟩ := hc
    simp only [map, Form.pieces, Tree.withPieces, List.append_assoc]
    exact ⟨_, hsplit _, .of_keyword rfl hrank _ _⟩
  | instanceOf e type | treat e type | castable e type | cast e type =>
    obtain ⟨rfl⟩ := hc
    simp only [map, Form.pieces, Tree.withPieces, List.append_assoc]
    exact ⟨_, hsplit _, .of_keyword rfl hrank _ _⟩
  | arrow first calls =>
    obtain ⟨rfl⟩ := hc
    obtain ⟨call, calls, rfl⟩ := List.exists_cons_of_ne_nil hf.proper
    refine ⟨_, hsplit _, ?_⟩
    simp only [List.map_cons, List.flatMap_cons, List.append_assoc]
    exact .of_keyword rfl hrank _ _
  | suffixed primary suffixes =>
    obtain ⟨rfl⟩ := hc
    obtain ⟨s, suffixes, rfl⟩ := List.exists_cons_of_ne_nil hf.proper
    refine ⟨_, hsplit _, ?_⟩
    obtain ⟨t, ps, hps, ht⟩ := (s.map Tree.withPieces).pieces_eq
    rw [List.map_cons, List.flatMap_cons, hps, List.cons_append]
    rcases ht with rfl | rfl | rfl <;> exact .of_text rfl hrank (by decide) _ _
  | _ => cases hc

/-- The part with which the tree begins. -/
theorem Tree.exists_leftmost (n : Node) (h : n.Fits levels) {rest : List Token}
    (hrest : Ends n.rank rest) : ∃ (f : Form Node) (rest' : List Token),
      f.leading? = none ∧ n.rank ≤ f.rank ∧ f.FitsIn levels ∧ Ends f.rank rest' ∧
        Piece.write σ n.pieces ++ rest = Piece.write σ (Node.of f).pieces ++ rest' := by
  induction n using Tree.induct generalizing rest with
  | node l f ih =>
    have hf := fits_node.mp h
    cases hc : f.leading? with
    | none => exact ⟨f, rest, hc, Nat.le_refl _, hf, hrest, rfl⟩
    | some c =>
      have hmem := Form.leading?_mem hc
      obtain ⟨hrank, hfits⟩ := hf.operand c hmem
      obtain ⟨rest', hwrite, hends⟩ := Form.write_leading (σ := σ) hf hc rest
      obtain ⟨g, rest'', hg, hle, hfit, hends', heq⟩ :=
        ih c (Form.mem_children.mpr (.inl hmem)) hfits hends
      exact ⟨g, rest'', hg, Nat.le_trans (Nat.le_of_lt hrank) hle, hfit, hends',
        hwrite.trans heq⟩

/-! ## First tokens -/

theorem Token.canStartStep_of_startsName {t : Token} (h : Text.startsName t) :
    Grammar.canStartStep [t] := by
  simp [Grammar.canStartStep, h]

theorem Token.canStartStep_of_isDigits {t : Token} (h : t.isDigits) : Grammar.canStartStep [t] := by
  simp [Grammar.canStartStep, h]

/-- A name begins like a name also where this is the `Q` of its URI. -/
theorem EQName.exists_head (n : EQName) (h : n.WellFormed) (ps : List Piece) :
    ∃ t, (Piece.write σ (n.pieces ++ ps)).head? = some t ∧ Text.startsName t := by
  obtain ⟨t, ht, hname⟩ := EQName.head?_write (σ := σ) h
  have hs := EQName.solid h
  refine ⟨t, ?_, hname⟩
  rwa [Piece.write_solid_append hs, Piece.head?_write_append hs.starts]

theorem NodeTest.exists_head (t : NodeTest) (h : t.WellFormed) (ps : List Piece) :
    ∃ u, (Piece.write σ (t.pieces ++ ps)).head? = some u ∧ (Text.startsName u ∨ u = "*") := by
  cases t with
  | kindTest t =>
    obtain ⟨keyword, qs, test, hpieces, -, hname, -, -⟩ := Grammar.kindTest_keyword (σ := σ) h
    refine ⟨keyword, ?_, .inl hname⟩
    rw [show (NodeTest.kindTest t).pieces = t.pieces from rfl, hpieces]
    rfl
  | nameTest t =>
    cases t with
    | name n =>
      obtain ⟨u, hu, hname⟩ := n.exists_head (σ := σ) h ps
      exact ⟨u, hu, .inl hname⟩
    | wildcard => exact ⟨"*", rfl, .inr rfl⟩
    | nsWildcard w =>
      cases w with
      | anyLocal p => exact ⟨p.text, rfl, .inl h⟩
      | anyNamespace n => exact ⟨"*", rfl, .inr rfl⟩
      | anyLocalIn uri => exact ⟨"Q", rfl, .inl (by decide)⟩

/-- The first token of a construct: that of a step, or a slash or sign of its own. -/
inductive BeginsWith (rank : Nat) (t : Token) : Prop
  | step (h : Grammar.canStartStep [t])
  | slash (op : PathOp) (ht : Spelled.spelling op = t) (h : rank ≤ 18)
  | sign (op : UnaryOp) (ht : Spelled.spelling op = t) (h : rank ≤ 16)

/-- A construct that has no leftmost part begins with a token of its own. -/
theorem Form.beginsWith {f : Form Node} (hf : f.FitsIn levels) (hleaf : f.leading? = none)
    (hpos : 0 < f.rank) :
    ∃ t, (Piece.write σ (Node.of f).pieces).head? = some t ∧ BeginsWith f.rank t := by
  rw [Node.of, Tree.pieces_node]
  cases f with
  | expr items => exact absurd hpos (Nat.lt_irrefl 0)
  | forExpr bindings body => exact ⟨"for", rfl, .step (by decide)⟩
  | letExpr bindings body => exact ⟨"let", rfl, .step (by decide)⟩
  | quantified q bindings body => exact ⟨Spelled.spelling q, rfl, .step (by cases q <;> decide)⟩
  | ifExpr c t e => exact ⟨"if", rfl, .step (by decide)⟩
  | unary ops operand =>
    obtain ⟨op, ops, rfl⟩ := List.exists_cons_of_ne_nil hf.proper
    exact ⟨Spelled.spelling op, rfl, .sign op rfl (Nat.le_refl _)⟩
  | path leading relative =>
    exact ⟨Spelled.spelling leading, rfl, .slash leading rfl (Nat.le_refl _)⟩
  | axisStep axis test predicates =>
    cases axis with
    | none =>
      obtain ⟨t, ht, hor⟩ := test.exists_head (σ := σ) hf.parts
        ((predicates.map Tree.withPieces).flatMap predicatePieces)
      refine ⟨t, ht, .step ?_⟩
      rcases hor with hname | rfl
      · exact Token.canStartStep_of_startsName hname
      · decide
    | some axis =>
      cases axis with
      | named a => exact ⟨Spelled.spelling a, rfl, .step (by cases a <;> decide)⟩
      | atSign => exact ⟨"@", rfl, .step (by decide)⟩
  | parentStep => exact ⟨"..", rfl, .step (by decide)⟩
  | parenthesized inner => exact ⟨"(", rfl, .step (by decide)⟩
  | contextItem => exact ⟨".", rfl, .step (by decide)⟩
  | varRef name => exact ⟨"$", rfl, .step (by decide)⟩
  | functionCall name args =>
    obtain ⟨t, ht, hname⟩ := name.exists_head (σ := σ) hf.parts
      (argumentPieces (args.map (·.map Tree.withPieces)))
    exact ⟨t, ht, .step (Token.canStartStep_of_startsName hname)⟩
  | namedFunctionRef name arity =>
    obtain ⟨t, ht, hname⟩ := name.exists_head (σ := σ) hf.parts.1
      [.text "#", .text (Nat.repr arity)]
    exact ⟨t, ht, .step (Token.canStartStep_of_startsName hname)⟩
  | inlineFunction params result body => exact ⟨"function", rfl, .step (by decide)⟩
  | mapConstructor entries => exact ⟨"map", rfl, .step (by decide)⟩
  | squareArray members => exact ⟨"[", rfl, .step (by decide)⟩
  | curlyArray body => exact ⟨"array", rfl, .step (by decide)⟩
  | unaryLookup key => exact ⟨"?", rfl, .step (by decide)⟩
  | integer v =>
    obtain ⟨n, rfl⟩ := Int.eq_ofNat_of_zero_le hf.parts
    simp only [map, Form.pieces, readPieces_integer]
    exact ⟨Nat.repr n, rfl, .step (Token.canStartStep_of_isDigits (Token.isDigits_repr n))⟩
  | decimal d =>
    simp only [map, Form.pieces, readPieces_decimal hf.parts.1]
    exact ⟨String.ofList d.wholeDigits, rfl, .step (Token.canStartStep_of_isDigits
      (Token.isDigits_ofList.mpr ⟨d.wholeDigits_ne_nil, d.wholeDigits_all⟩))⟩
  | double x =>
    simp only [map, Form.pieces, readPieces_double hf.parts.1 hf.parts.2]
    exact ⟨String.ofList x.shortest.leadingDigit, rfl, .step (Token.canStartStep_of_isDigits
      (Token.isDigits_ofList.mpr ⟨x.shortest.leadingDigit_ne_nil, x.shortest.digits_all.1⟩))⟩
  | string s => exact ⟨"\"", rfl, .step (by decide)⟩
  | _ => cases hleaf

/-- An expression begins as its leftmost part does. -/
theorem Tree.beginsWith {n : Node} (h : n.Fits levels) (hpos : 0 < n.rank) :
    ∃ t, (Piece.write σ n.pieces).head? = some t ∧ BeginsWith n.rank t := by
  obtain ⟨f, rest, hleaf, hle, hf, -, heq⟩ := n.exists_leftmost (σ := σ) h .nil
  obtain ⟨t, ht, hb⟩ := Form.beginsWith (σ := σ) hf hleaf (Nat.lt_of_lt_of_le hpos hle)
  refine ⟨t, ?_, ?_⟩
  · rw [List.append_nil] at heq
    rw [heq, Piece.head?_write_append ((Node.of f).solid (fits_node.mpr hf)).starts, ht]
  · cases hb with
    | step h => exact .step h
    | slash op ht h => exact .slash op ht (Nat.le_trans hle h)
    | sign op ht h => exact .sign op ht (Nat.le_trans hle h)

/-! ## Words that could be mistaken -/

/-- The first tokens `t :: ts` are none of those that make a keyword of a name, or a placeholder of
a question mark. -/
structure Unmistaken (t : Token) (ts : List Token) : Prop where
  binding : t ∈ ["for", "let", "some", "every"] → isNext "$" ts = false
  condition : t = "if" → isNext "(" ts = false
  placeholder : t = "?" → isNext "," ts = false ∧ isNext ")" ts = false

/-- Only a few words can be mistaken. -/
theorem Unmistaken.of_notMem {t : Token} (h : t ∉ ["for", "let", "some", "every", "if", "?"])
    (ts : List Token) : Unmistaken t ts := by
  constructor <;> simp_all

theorem Unmistaken.of_head {u t : Token} {us ts : List Token}
    (hu : u ∉ ["for", "let", "some", "every", "if", "?"]) (h : u :: us = t :: ts) :
    Unmistaken t ts := by
  obtain ⟨rfl, rfl⟩ := List.cons.inj h
  exact .of_notMem hu _

/-- A name in front of what follows names. -/
theorem EQName.unmistaken {n : EQName} (hn : n.WellFormed) {rest ts : List Token} {t : Token}
    (hts : Piece.write σ n.pieces ++ rest = t :: ts) (hdollar : isNext "$" rest = false)
    (hparen : n.unqualified? = some "if" → isNext "(" rest = false) : Unmistaken t ts := by
  have hcolon (us : List Token) : isNext "$" (":" :: us) = false ∧ isNext "(" (":" :: us) = false :=
    ⟨isNext_of_follows (.inl rfl) rfl (by decide), isNext_of_follows (.inl rfl) rfl (by decide)⟩
  have hmark {m : NCName} (hm : m.WellFormed) : m.text ≠ "?" := NCName.text_ne hm (by decide)
  cases n with
  | qName nsPrefix localName =>
    cases nsPrefix with
    | none =>
      rw [write_unprefixed hn.2] at hts
      obtain ⟨rfl, rfl⟩ := List.cons.inj hts
      refine ⟨fun _ => hdollar, fun hif => hparen ?_, fun h => absurd h (hmark hn.2)⟩
      rw [unqualified?, hif]
    | some p =>
      have hp : p.WellFormed := hn.1 p rfl
      rw [write_prefixed hp hn.2] at hts
      obtain ⟨rfl, rfl⟩ := List.cons.inj hts
      exact ⟨fun _ => (hcolon _).1, fun _ => (hcolon _).2, fun h => absurd h (hmark hp)⟩
  | uriQualified uri localName =>
    rw [write_uriQualified hn.2] at hts
    obtain ⟨rfl, rfl⟩ := List.cons.inj hts
    exact .of_notMem (by decide) _

/-- Where a word is laid out, no other token comes next. -/
theorem isNext_suffix {t u : Token} (ht : t.isWord) (hne : t ≠ u) (ps : List Piece)
    (rest : List Token) : isNext u (Piece.lay σ false (.text t :: ps) ++ rest) = false := by
  rw [Piece.lay_text ht]
  exact isNext_of_follows (.inl rfl) ht hne

/-- Predicates, and what follows them. -/
theorem isNext_predicates {u : Token} (hu : u ≠ "[") {rest : List Token}
    (hrest : isNext u rest = false) (es : List (Tree ι × List Piece)) :
    isNext u (Piece.lay σ false (es.flatMap predicatePieces) ++ rest) = false := by
  cases es with
  | nil => exact hrest
  | cons e es => exact isNext_suffix rfl hu.symm _ rest

theorem KeySpecifier.exists_head {key : KeySpecifier Node} (hw : key.WellFormed)
    (hc : ∀ e ∈ key.children, e.kind = .parenthesizedExpr ∧ e.Fits levels) :
    ∃ t, (Piece.write σ (key.map Tree.withPieces).pieces).head? = some t ∧
      Grammar.canStartStep [t] := by
  cases key with
  | name n => exact ⟨n.text, rfl, Token.canStartStep_of_startsName hw⟩
  | integer v =>
    obtain ⟨n, rfl⟩ := Int.eq_ofNat_of_zero_le hw
    refine ⟨Integer.text n, rfl, ?_⟩
    rw [integer_text]
    exact Token.canStartStep_of_isDigits (Token.isDigits_repr n)
  | parenthesized e =>
    obtain ⟨hkind, hfits⟩ := hc e (by simp [children])
    obtain ⟨⟨⟩, f⟩ := e
    cases f with
    | parenthesized inner => exact ⟨"(", rfl, by decide⟩
    | chain level first rest => cases level <;> cases hkind
    | _ => cases hkind
  | wildcard => exact ⟨"*", rfl, by decide⟩

/-- What a lookup looks for is no end of an argument. -/
theorem KeySpecifier.not_placeholder {key : KeySpecifier Node} (hw : key.WellFormed)
    (hc : ∀ e ∈ key.children, e.kind = .parenthesizedExpr ∧ e.Fits levels) (rest : List Token) :
    isNext "," (Piece.lay σ false (key.map Tree.withPieces).pieces ++ rest) = false ∧
      isNext ")" (Piece.lay σ false (key.map Tree.withPieces).pieces ++ rest) = false := by
  obtain ⟨u, hu, hstep⟩ := KeySpecifier.exists_head (σ := σ) hw hc
  have hs : Solid (key.map Tree.withPieces).pieces :=
    KeySpecifier.solid hw fun e he => ⟨(hc e he).1, e.solid (hc e he).2⟩
  have hne {v : Token} (hv : Grammar.canStartStep [v] = false) :
      isNext v (Piece.write σ (key.map Tree.withPieces).pieces ++ rest) = false := by
    refine isNext_write hs.starts rest ?_
    rw [hu]
    rintro ⟨⟩
    simp [hv] at hstep
  rw [Piece.lay_of_starts hs.starts]
  exact ⟨hne (by decide), hne (by decide)⟩

/-- A step without an axis. -/
theorem NodeTest.unmistaken {test : NodeTest} (h : test.WellFormed) {rest ts : List Token}
    {t : Token}
    (hrest : Ends 20 rest) (predicates : List Node)
    (hts : Piece.write σ (test.pieces ++
      (predicates.map Tree.withPieces).flatMap predicatePieces) ++ rest = t :: ts) :
    Unmistaken t ts := by
  cases test with
  | kindTest k =>
    obtain ⟨keyword, qs, test, hpieces, hkeyword, -⟩ := Grammar.kindTest_keyword (σ := σ) h
    rw [NodeTest.pieces, hpieces] at hts
    have hall : ∀ v ∈ ["for", "let", "some", "every", "if", "?"], ¬KindTest.isKeyword v := by decide
    exact .of_head (fun hmem => hall keyword hmem hkeyword) hts
  | nameTest test =>
    have hnext {u : Token} (hu : u ≠ "[") (hr : 20 ≤ u.rank) :
        isNext u (Piece.lay σ false ((predicates.map Tree.withPieces).flatMap predicatePieces) ++
          rest) = false :=
      isNext_predicates hu (hrest.not_isNext hr) _
    rw [NodeTest.pieces, Piece.write_solid_append (NameTest.solid h), List.append_assoc] at hts
    cases test with
    | name n =>
      exact EQName.unmistaken h hts (hnext (by decide) (by decide)) fun _ =>
        hnext (by decide) (by decide)
    | wildcard => exact .of_head (by decide) hts
    | nsWildcard w =>
      cases w with
      | anyLocal p =>
        rw [write_anyLocal h] at hts
        obtain ⟨rfl, rfl⟩ := List.cons.inj hts
        refine ⟨fun _ => ?_, fun _ => ?_, fun h' => absurd h' (NCName.text_ne h (by decide))⟩
          <;> exact isNext_of_follows (.inl rfl) rfl (by decide)
      | anyNamespace n => exact .of_head (by decide) hts
      | anyLocalIn uri => exact .of_head (by decide) hts

/-- No construct but those with keywords is mistaken for one of these. -/
theorem Form.unmistaken {f : Form Node} (hf : f.FitsIn levels) (hleaf : f.leading? = none)
    (hrank : 2 ≤ f.rank) {rest ts : List Token} {t : Token} (hrest : Ends f.rank rest)
    (hts : Piece.write σ (Node.of f).pieces ++ rest = t :: ts) : Unmistaken t ts := by
  have hdigits {u : Token} {us : List Token} (hu : u.isDigits) (h : u :: us = t :: ts) :
      Unmistaken t ts := by
    have hall : ∀ v ∈ ["for", "let", "some", "every", "if", "?"], ¬Token.isDigits v := by decide
    exact .of_head (fun hmem => hall u hmem hu) h
  rw [Node.of, Tree.pieces_node] at hts
  cases f with
  | unary ops operand =>
    obtain ⟨op, ops, rfl⟩ := List.exists_cons_of_ne_nil hf.proper
    exact .of_head (by cases op <;> decide) hts
  | path leading relative => exact .of_head (by cases leading <;> decide) hts
  | axisStep axis test predicates =>
    cases axis with
    | some axis =>
      cases axis with
      | named a => exact .of_head (by cases a <;> decide) hts
      | atSign => exact .of_head (by decide) hts
    | none => exact NodeTest.unmistaken hf.parts hrest predicates hts
  | parentStep => exact .of_head (by decide) hts
  | parenthesized inner => exact .of_head (by decide) hts
  | contextItem => exact .of_head (by decide) hts
  | varRef name => exact .of_head (by decide) hts
  | functionCall name args =>
    simp only [map, Form.pieces] at hts
    rw [Piece.write_solid_append (EQName.solid hf.parts), List.append_assoc] at hts
    refine EQName.unmistaken hf.parts hts (isNext_suffix rfl (by decide) _ _) fun hif => ?_
    have := hf.proper
    simp [Proper, Grammar.isReserved, hif] at this
    exact absurd this (by decide)
  | namedFunctionRef name arity =>
    simp only [map, Form.pieces] at hts
    rw [Piece.write_solid_append (EQName.solid hf.parts.1), List.append_assoc] at hts
    exact EQName.unmistaken hf.parts.1 hts (isNext_suffix rfl (by decide) _ _) fun _ =>
      isNext_suffix rfl (by decide) _ _
  | inlineFunction params result body => exact .of_head (by decide) hts
  | mapConstructor entries => exact .of_head (by decide) hts
  | squareArray members => exact .of_head (by decide) hts
  | curlyArray body => exact .of_head (by decide) hts
  | unaryLookup key =>
    simp only [map, Form.pieces, List.singleton_append] at hts
    rw [Piece.write_text rfl, List.cons_append] at hts
    obtain ⟨rfl, rfl⟩ := List.cons.inj hts
    exact ⟨by simp, by simp, fun _ => KeySpecifier.not_placeholder hf.parts hf.group rest⟩
  | integer v =>
    obtain ⟨n, rfl⟩ := Int.eq_ofNat_of_zero_le hf.parts
    simp only [map, Form.pieces, readPieces_integer] at hts
    exact hdigits (Token.isDigits_repr n) hts
  | decimal d =>
    simp only [map, Form.pieces, readPieces_decimal hf.parts.1] at hts
    exact hdigits (Token.isDigits_ofList.mpr ⟨d.wholeDigits_ne_nil, d.wholeDigits_all⟩) hts
  | double x =>
    simp only [map, Form.pieces, readPieces_double hf.parts.1 hf.parts.2] at hts
    exact hdigits (Token.isDigits_ofList.mpr
      ⟨x.shortest.leadingDigit_ne_nil, x.shortest.digits_all.1⟩) hts
  | string s => exact .of_head (by decide) hts
  | expr | forExpr | letExpr | quantified | ifExpr => exact absurd hrank (by simp [rank])
  | _ => cases hleaf

/-- No expression but those with keywords is mistaken for one of these. -/
theorem Tree.unmistaken {n : Node} (h : n.Fits levels) (hrank : 2 ≤ n.rank) {rest ts : List Token}
    {t : Token} (hrest : Ends n.rank rest) (hts : Piece.write σ n.pieces ++ rest = t :: ts) :
    Unmistaken t ts := by
  obtain ⟨f, rest', hleaf, hle, hf, hends, heq⟩ := n.exists_leftmost (σ := σ) h hrest
  exact Form.unmistaken hf hleaf (Nat.le_trans hrank hle) hends (heq ▸ hts)

/-- A question mark that begins an expression is not all of it. -/
theorem Tree.not_placeholder {n : Node} (h : n.Fits levels) (hrank : 0 < n.rank)
    {rest ts : List Token} (hrest : Ends 1 rest)
    (hts : Piece.write σ n.pieces ++ rest = "?" :: ts) :
    isNext "," ts = false ∧ isNext ")" ts = false := by
  by_cases hkeyword : 2 ≤ n.rank
  · exact (unmistaken h hkeyword (hrest.mono hrank) hts).placeholder rfl
  · obtain ⟨⟨⟩, f⟩ := n
    have hone : f.rank = 1 := by
      change 0 < f.rank at hrank
      change ¬ 2 ≤ f.rank at hkeyword
      omega
    rw [pieces_node] at hts
    cases f with
    | quantified q bindings body =>
      have : Spelled.spelling q = "?" := (List.cons.inj hts).1
      cases q <;> exact absurd this (by decide)
    | forExpr | letExpr | ifExpr => exact absurd (List.cons.inj hts).1 (by decide)
    | chain level => cases level <;> cases hone
    | _ => cases hone

end XPath
