import XPath.Grammar.Path
import XPath.Proofs.Role

/-!
# Well-formed expressions

The types of the model allow more trees than the grammar makes. A tree is well formed if at every
node the operands bind tighter than the construct that takes them, an `Expr` stands just where a
bracket or the root asks for one, and no list is empty that the grammar never leaves empty
(`Form.WellFormed`).

That a tree can be read from its own tokens needs more (`Tree.Fits`): its names and numbers are such
as tokens can spell, its expressions and types nest no deeper than the levels there are, and what is
written after a child does not continue it. Only two constructs can be continued by a token that
their rank does not exclude (`Tree.admits`): a lone slash by whatever begins a step, and a type
without an occurrence indicator by one.
-/

namespace XPath

variable {α ι : Type}

/-! ## Names -/

/-- The text begins as names do. -/
def NCName.WellFormed (n : NCName) : Prop := Text.startsName n.text

/-- A URI is a single token between its braces, and then no brace. -/
def wellFormedUri (uri : String) : Prop := uri ≠ "\x7b" ∧ uri ≠ "\x7d"

/-- Every part of the name is a name, and the URI could be written. -/
def EQName.WellFormed : EQName → Prop
  | qName nsPrefix localName => (∀ p ∈ nsPrefix, p.WellFormed) ∧ localName.WellFormed
  | uriQualified uri localName => wellFormedUri uri ∧ localName.WellFormed

/-- What is given of the name could be written. -/
def NsWildcard.WellFormed : NsWildcard → Prop
  | anyLocal n | anyNamespace n => n.WellFormed
  | anyLocalIn uri => wellFormedUri uri

/-- The name that is tested for could be written. -/
def NameTest.WellFormed : NameTest → Prop
  | name n => n.WellFormed
  | wildcard => True
  | nsWildcard w => w.WellFormed

/-- The name could be written. -/
def NameOrWildcard.WellFormed : NameOrWildcard → Prop
  | name n => n.WellFormed
  | wildcard => True

/-! ## Types -/

/-- No type is asked for without a name, and no mark without a type. -/
structure ElementTest.WellFormed (t : ElementTest) : Prop where
  name : ∀ n ∈ t.name, n.WellFormed
  typeName : ∀ n ∈ t.typeName, n.WellFormed
  named : t.typeName.isSome → t.name.isSome
  typed : t.nillable → t.typeName.isSome

/-- No type is asked for without a name. -/
structure AttributeTest.WellFormed (t : AttributeTest) : Prop where
  name : ∀ n ∈ t.name, n.WellFormed
  typeName : ∀ n ∈ t.typeName, n.WellFormed
  named : t.typeName.isSome → t.name.isSome

/-- The test of the element could be written. -/
def DocumentContent.WellFormed : DocumentContent → Prop
  | element t => t.WellFormed
  | schemaElement n => n.WellFormed

/-- A target that is a name is one. -/
def PITarget.WellFormed : PITarget → Prop
  | name n => n.WellFormed
  | literal _ => True

/-- What the test asks for could be written. -/
def KindTest.WellFormed : KindTest → Prop
  | document content => ∀ c ∈ content, c.WellFormed
  | element t => t.WellFormed
  | attr t => t.WellFormed
  | schemaElement n | schemaAttribute n => n.WellFormed
  | processingInstruction target => ∀ t ∈ target, t.WellFormed
  | _ => True

/-- The test could be written. -/
def NodeTest.WellFormed : NodeTest → Prop
  | kindTest t => t.WellFormed
  | nameTest t => t.WellFormed

/-- An occurrence indicator after the type would be read as its own. -/
def SequenceType.endsUnmarked : SequenceType → Bool
  | .empty => false
  | .items _ occurrence => occurrence.isNone

/-- The result type of a function type ends it. -/
def ItemType.endsUnmarked : ItemType → Bool
  | .function _ result => result.endsUnmarked
  | _ => false

/-- A type whose item types are in `inner`. -/
def SequenceType.FitsIn (inner : ItemType → Prop) : SequenceType → Prop
  | .empty => True
  | .items type occurrence => inner type ∧ (occurrence.isSome → type.endsUnmarked = false)

/-- The parts of a type fit, where `inner` says which types may stand in parentheses. -/
def ItemType.FitsIn (inner : ItemType → Prop) : ItemType → Prop
  | .kindTest t => t.WellFormed
  | .function params result => (∀ p ∈ params, p.FitsIn inner) ∧ result.FitsIn inner
  | .map key value => key.WellFormed ∧ value.FitsIn inner
  | .array member => member.FitsIn inner
  | .atomic name => name.WellFormed
  | .parenthesized type => inner type
  | _ => True

/-- A well-formed item type with at most so many levels of nesting. -/
def ItemType.Fits : (levels : Nat) → ItemType → Prop
  | 0 => fun _ => False
  | levels + 1 => ItemType.FitsIn (ItemType.Fits levels)

/-! ## Constructs -/

/-- The lists that cannot be empty, and the operators that fit their place. -/
def Form.Proper : Form α → Prop
  | expr items => items ≠ []
  | forExpr bindings _ | quantified _ bindings _ =>
    bindings ≠ [] ∧ ∀ b ∈ bindings, b.op = .inItems
  | letExpr bindings _ => bindings ≠ [] ∧ ∀ b ∈ bindings, b.op = .assign
  | chain level _ rest => rest ≠ [] ∧ ∀ p ∈ rest, p.1.level = level
  | arrow _ calls => calls ≠ []
  | unary ops _ => ops ≠ []
  | path leading relative => relative = none → leading = .slash
  | suffixed _ suffixes => suffixes ≠ []
  | functionCall name _ => Grammar.isReserved name = false
  | _ => True

/-- What the grammar makes sure of at each construct. -/
structure Form.WellFormed (f : Form (Tree ι)) : Prop where
  operand_rank : ∀ e ∈ f.operands, f.rank < e.rank
  single_rank : ∀ e ∈ f.singles, 0 < e.rank
  content_kind : ∀ e ∈ f.contents, e.kind = .expr
  group_kind : ∀ e ∈ f.groups, e.kind = .parenthesizedExpr
  proper : f.Proper

/-- No key that is a number is negative. -/
def KeySpecifier.WellFormed : KeySpecifier α → Prop
  | name n => n.WellFormed
  | integer v => 0 ≤ v
  | _ => True

/-- The key of a lookup could be written. -/
def Suffix.WellFormed : Suffix α → Prop
  | lookup key => key.WellFormed
  | _ => True

/-- The name of a target is one. -/
def ArrowTarget.WellFormed : ArrowTarget α → Prop
  | name n | var n => n.WellFormed
  | parenthesized _ => True

/-- The name of a parameter is one, and its type fits. -/
structure Param.FitsIn (inner : ItemType → Prop) (p : Param) : Prop where
  name : p.name.WellFormed
  type : ∀ t ∈ p.type, t.FitsIn inner

/-- The names, types and numbers of a construct can be spelled. -/
def Form.PartsFit (inner : ItemType → Prop) : Form α → Prop
  | forExpr bindings _ | letExpr bindings _ | quantified _ bindings _ =>
    ∀ b ∈ bindings, b.name.WellFormed
  | instanceOf _ type | treat _ type => type.FitsIn inner
  | castable _ type | cast _ type => type.name.WellFormed
  | arrow _ calls => ∀ c ∈ calls, c.target.WellFormed
  | axisStep _ test _ => test.WellFormed
  | suffixed _ suffixes => ∀ s ∈ suffixes, s.WellFormed
  | varRef name | functionCall name _ => name.WellFormed
  | namedFunctionRef name arity => name.WellFormed ∧ arity ≤ Grammar.maxArity
  | inlineFunction params result _ =>
    (∀ p ∈ params, p.FitsIn inner) ∧ ∀ t ∈ result, t.FitsIn inner
  | unaryLookup key => key.WellFormed
  | integer v => 0 ≤ v
  | decimal d => 0 ≤ d.unscaled ∧ d.scale ≤ Integer.maxScale
  | double x => x.isFinite ∧ x.negative = false
  | _ => True

/-! ## Ends -/

/-- Whether a token could be the mark for a number of items. -/
def isOccurrence (t : Token) : Bool := (Spelled.ofToken? t : Option Occurrence).isSome

/-- A construct is not continued by the token, where it is known of each child whether it is. -/
def Form.admits (t : Token) : Form Bool → Bool
  | path _ none => !Grammar.canStartStep [t]
  | instanceOf _ type | treat _ type => !(type.endsUnmarked && isOccurrence t)
  | f => f.last?.getD true

/-- What is read of the tree is not continued by the token. -/
def Tree.admits (n : Tree ι) (t : Token) : Bool := n.fold fun _ => Form.admits t

/-- The children after which a certain token has to come, with that token. -/
def Form.followers : Form α → List (α × Token)
  | forExpr bindings _ | letExpr bindings _ =>
    (bindings.getLast?.map fun b => (b.expr, "return")).toList
  | quantified _ bindings _ => (bindings.getLast?.map fun b => (b.expr, "satisfies")).toList
  | ifExpr _ t _ => [(t, "else")]
  | chain _ first rest =>
    (first :: rest.map Prod.snd).zip (rest.map fun (op, _) => Spelled.spelling op)
  | comparison left op _ => [(left, Spelled.spelling op)]
  | range first _ => [(first, "to")]
  | instanceOf e _ => [(e, "instance")]
  | treat e _ => [(e, "treat")]
  | castable e _ => [(e, "castable")]
  | cast e _ => [(e, "cast")]
  | arrow first _ => [(first, "=>")]
  | _ => []

theorem Form.last?_map {β : Type} (g : α → β) (f : Form α) : (f.map g).last? = f.last?.map g := by
  cases f with
  | chain level first rest => cases h : rest.getLast? <;> simp [map, last?, h]
  | _ => simp [map, last?]

/-- What may follow a node is said by its form. -/
theorem Tree.admits_node {l : ι} {f : Form (Tree ι)} {t : Token} :
    (node l f).admits t = (f.map (·.admits t)).admits t :=
  fold_node _ l f

/-- What may follow a construct may follow its last child. -/
theorem Form.admits_of_last {f : Form Bool} {t : Token} {b : Bool} (h : f.last? = some b) :
    f.admits t = b := by
  cases f with
  | path leading relative => cases relative <;> simp_all [last?, admits]
  | _ => simp_all [last?, admits]

/-- A construct ends as its last child does. -/
theorem Tree.admits_of_last {l : ι} {f : Form (Tree ι)} {t : Token} {c : Tree ι}
    (h : f.last? = some c) : (node l f).admits t = c.admits t := by
  rw [admits_node]
  exact Form.admits_of_last (by rw [Form.last?_map, h, Option.map_some])

/-! ## Trees -/

/-- A tree that can be read from its tokens with so many levels of nesting left. Its single
expressions have one level less. -/
def Tree.Fits : Tree ι → (levels : Nat) → Prop :=
  para fun _ f levels => (f.map Prod.fst).WellFormed ∧
    (f.map Prod.fst).PartsFit (ItemType.Fits levels) ∧
    (∀ p ∈ (f.map Prod.fst).followers, p.1.admits p.2) ∧
    (∀ c ∈ f.operands ++ f.contents ++ f.groups, c.2 levels) ∧
    ∀ c ∈ f.singles, ∃ k, levels = k + 1 ∧ c.2 k

/-- What a construct asks of its parts to fit the levels. -/
structure Form.FitsIn (levels : Nat) (f : Form (Tree ι)) : Prop where
  operand : ∀ e ∈ f.operands, f.rank < e.rank ∧ e.Fits levels
  single : ∀ e ∈ f.singles, 0 < e.rank ∧ ∃ k, levels = k + 1 ∧ e.Fits k
  content : ∀ e ∈ f.contents, e.kind = .expr ∧ e.Fits levels
  group : ∀ e ∈ f.groups, e.kind = .parenthesizedExpr ∧ e.Fits levels
  proper : f.Proper
  parts : f.PartsFit (ItemType.Fits levels)
  followed : ∀ p ∈ f.followers, p.1.admits p.2

namespace Form.FitsIn

variable {levels : Nat} {f : Form (Tree ι)}

/-- A construct with no other children than operands. -/
theorem of_operands (h : f.singles ++ f.contents ++ f.groups = [])
    (operand : ∀ e ∈ f.operands, f.rank < e.rank ∧ e.Fits levels) (proper : f.Proper)
    (parts : f.PartsFit (ItemType.Fits levels)) (followed : ∀ p ∈ f.followers, p.1.admits p.2) :
    f.FitsIn levels := by
  simp only [List.append_eq_nil_iff] at h
  obtain ⟨⟨hs, hc⟩, hg⟩ := h
  exact ⟨operand, by simp [hs], by simp [hc], by simp [hg], proper, parts, followed⟩

/-- A construct with no other children than single expressions. -/
theorem of_singles (h : f.operands ++ f.contents ++ f.groups = [])
    (single : ∀ e ∈ f.singles, 0 < e.rank ∧ ∃ k, levels = k + 1 ∧ e.Fits k) (proper : f.Proper)
    (parts : f.PartsFit (ItemType.Fits levels)) (followed : ∀ p ∈ f.followers, p.1.admits p.2) :
    f.FitsIn levels := by
  simp only [List.append_eq_nil_iff] at h
  obtain ⟨⟨ho, hc⟩, hg⟩ := h
  exact ⟨by simp [ho], single, by simp [hc], by simp [hg], proper, parts, followed⟩

/-- A construct with no other children than contents, which a bracket follows. -/
theorem of_contents (h : f.operands ++ f.singles ++ f.groups = []) (hfollow : f.followers = [])
    (content : ∀ e ∈ f.contents, e.kind = .expr ∧ e.Fits levels) (proper : f.Proper)
    (parts : f.PartsFit (ItemType.Fits levels)) : f.FitsIn levels := by
  simp only [List.append_eq_nil_iff] at h
  obtain ⟨⟨ho, hs⟩, hg⟩ := h
  exact ⟨by simp [ho], by simp [hs], content, by simp [hg], proper, parts, by simp [hfollow]⟩

/-- A construct without children fits if its parts do. -/
theorem of_leaf (h : f.operands ++ f.singles ++ f.groups = []) (hc : f.contents = [])
    (hfollow : f.followers = []) (proper : f.Proper) (parts : f.PartsFit (ItemType.Fits levels)) :
    f.FitsIn levels :=
  of_contents h hfollow (by simp [hc]) proper parts

end Form.FitsIn

/-- What fits is well formed. -/
theorem Form.FitsIn.wellFormed {levels : Nat} {f : Form (Tree ι)} (h : f.FitsIn levels) :
    f.WellFormed where
  operand_rank e he := (h.operand e he).1
  single_rank e he := (h.single e he).1
  content_kind e he := (h.content e he).1
  group_kind e he := (h.group e he).1
  proper := h.proper

/-- A tree fits as its root does. -/
theorem Tree.fits_node {l : ι} {f : Form (Tree ι)} {levels : Nat} :
    (node l f).Fits levels ↔ f.FitsIn levels := by
  rw [Fits, para_node]
  simp only [Form.map_fst, Form.operands_map, Form.contents_map, Form.groups_map, Form.singles_map,
    ← List.map_append, List.forall_mem_map]
  constructor
  · rintro ⟨hw, hp, hfol, hs, hk⟩
    refine ⟨fun e he => ?_, fun e he => ⟨hw.single_rank e he, hk e he⟩, fun e he => ?_,
      fun e he => ?_, hw.proper, hp, hfol⟩
    · exact ⟨hw.operand_rank e he, hs e (by simp [he])⟩
    · exact ⟨hw.content_kind e he, hs e (by simp [he])⟩
    · exact ⟨hw.group_kind e he, hs e (by simp [he])⟩
  · intro h
    refine ⟨h.wellFormed, h.parts, h.followed, fun e he => ?_, fun e he => (h.single e he).2⟩
    rcases List.mem_append.mp he with he | he
    · rcases List.mem_append.mp he with he | he
      · exact (h.operand e he).2
      · exact (h.content e he).2
    · exact (h.group e he).2

/-- In a tree that fits, all constructs are well formed. -/
theorem Tree.all_wellFormed_of_fits (n : Tree ι) :
    ∀ {levels : Nat}, n.Fits levels → n.All Form.WellFormed := by
  induction n using Tree.induct with
  | node l f ih =>
    intro levels h
    have hf := fits_node.mp h
    refine all_node.mpr ⟨hf.wellFormed, fun c hc => ?_⟩
    rcases Form.mem_children.mp hc with ho | ho | ho | ho
    · exact ih c hc (hf.operand c ho).2
    · obtain ⟨k, -, hk⟩ := (hf.single c ho).2
      exact ih c hc hk
    · exact ih c hc (hf.content c ho).2
    · exact ih c hc (hf.group c ho).2

/-- The tree binds no looser than `rank`, fits the levels, and is not continued by what is left. -/
structure Tree.ReadBefore (rank levels : Nat) (n : Tree ι) (rest : List Token) : Prop where
  rank_le : rank ≤ n.rank
  fits : n.Fits levels
  admits : ∀ t ∈ (Token.skipSpace rest).head?, n.admits t

/-- What is read with a rank is read with any lower one. -/
theorem Tree.ReadBefore.of_rank_le {k rank levels : Nat} {n : Tree ι} {rest : List Token}
    (h : n.ReadBefore rank levels rest) (hk : k ≤ rank) : n.ReadBefore k levels rest :=
  { h with rank_le := Nat.le_trans hk h.rank_le }

/-- A construct that ends with a bracket or a word. -/
theorem Form.FitsIn.readBefore {levels : Nat} {f : Form Node} (h : f.FitsIn levels)
    (hend : ∀ t, (f.map (·.admits t)).admits t) (rest : List Token) :
    (Node.of f).ReadBefore f.rank levels rest where
  rank_le := Nat.le_refl _
  fits := Tree.fits_node.mpr h
  admits t _ := Tree.admits_node.trans (hend t)

/-- A construct that ends with a child, and as the child does. -/
theorem Form.FitsIn.readBefore_last {levels : Nat} {f : Form Node} (h : f.FitsIn levels) {c : Node}
    (hlast : f.last? = some c) {rest : List Token}
    (hc : ∀ t ∈ (Token.skipSpace rest).head?, c.admits t) :
    (Node.of f).ReadBefore f.rank levels rest where
  rank_le := Nat.le_refl _
  fits := Tree.fits_node.mpr h
  admits t ht := (Tree.admits_of_last hlast).trans (hc t ht)

end XPath
