import XPath.Tree

/-!
# Roles and ranks

A child of a construct stands in one of four places (`Form.mem_children`). It is an operand, which
is written without any bracket beside an operator of the construct; or a single expression, between
commas and keywords; or the content of a bracket; or the parenthesized expression that a key or an
arrow applies.

`Form.rank` numbers the levels of operators, from the keyword expressions, which bind nothing, up to
the primary expressions. What needs no bracket as an operand has a higher rank than the operator.

`Form.last?` is the child a construct ends with, if no bracket or word ends it.
-/

namespace XPath

variable {α β : Type}

/-! ## Roles -/

/-- The arguments of a suffix. -/
def Suffix.singles : Suffix α → List α
  | arguments args => args.flatMap Argument.children
  | _ => []

/-- The expression in square brackets. -/
def Suffix.contents : Suffix α → List α
  | predicate e => [e]
  | _ => []

/-- The key, if it is in parentheses. -/
def Suffix.groups : Suffix α → List α
  | lookup key => key.children
  | _ => []

namespace Form

/-- The children that stand beside an operator, with no bracket around them. -/
def operands : Form α → List α
  | chain _ first rest => first :: rest.map Prod.snd
  | comparison left _ right => [left, right]
  | range first last => [first, last]
  | instanceOf e _ => [e]
  | treat e _ => [e]
  | castable e _ => [e]
  | cast e _ => [e]
  | arrow first _ => [first]
  | unary _ operand => [operand]
  | path _ relative => relative.toList
  | suffixed primary _ => [primary]
  | _ => []

/-- Items, bound expressions, bodies, branches, arguments, members, keys and values. -/
def singles : Form α → List α
  | expr items => items
  | forExpr bindings body => bindings.map Binding.expr ++ [body]
  | letExpr bindings body => bindings.map Binding.expr ++ [body]
  | quantified _ bindings body => bindings.map Binding.expr ++ [body]
  | ifExpr _ t e => [t, e]
  | arrow _ calls => calls.flatMap fun c => c.args.flatMap Argument.children
  | suffixed _ suffixes => suffixes.flatMap Suffix.singles
  | functionCall _ args => args.flatMap Argument.children
  | mapConstructor entries => entries.flatMap fun e => [e.key, e.value]
  | squareArray members => members
  | _ => []

/-- What stands in brackets: conditions, predicates, enclosed and parenthesized expressions. -/
def contents : Form α → List α
  | ifExpr c _ _ => [c]
  | axisStep _ _ predicates => predicates
  | suffixed _ suffixes => suffixes.flatMap Suffix.contents
  | parenthesized inner => inner.toList
  | inlineFunction _ _ body => body.toList
  | curlyArray body => body.toList
  | _ => []

/-- Keys and arrow targets that are parenthesized expressions. -/
def groups : Form α → List α
  | arrow _ calls => calls.flatMap fun c => c.target.children
  | suffixed _ suffixes => suffixes.flatMap Suffix.groups
  | unaryLookup key => key.children
  | _ => []

end Form

/-- A child of a suffix has one of three roles. -/
theorem Suffix.mem_children {s : Suffix α} {e : α} :
    e ∈ s.children ↔ e ∈ s.singles ∨ e ∈ s.contents ∨ e ∈ s.groups := by
  cases s <;> simp [children, singles, contents, groups]

/-- A child has one of four roles. -/
theorem Form.mem_children {f : Form α} {e : α} :
    e ∈ f.children ↔ e ∈ f.operands ∨ e ∈ f.singles ∨ e ∈ f.contents ∨ e ∈ f.groups := by
  cases f with
  | arrow first calls =>
    simp only [children, operands, singles, contents, groups, ArrowCall.children, List.mem_cons,
      List.mem_flatMap, List.mem_append, List.not_mem_nil]
    grind
  | suffixed primary suffixes =>
    simp only [children, operands, singles, contents, groups, List.mem_cons, List.mem_flatMap,
      Suffix.mem_children, List.not_mem_nil]
    grind
  | ifExpr c t e =>
    simp only [children, operands, singles, contents, groups, List.mem_cons, List.not_mem_nil]
    grind
  | _ => simp [children, operands, singles, contents, groups]

theorem Suffix.singles_map (g : α → β) (s : Suffix α) : (s.map g).singles = s.singles.map g := by
  cases s <;> simp [map, singles, List.map_flatMap, List.flatMap_map, Argument.children_map]

theorem Suffix.contents_map (g : α → β) (s : Suffix α) : (s.map g).contents = s.contents.map g := by
  cases s <;> rfl

theorem Suffix.groups_map (g : α → β) (s : Suffix α) : (s.map g).groups = s.groups.map g := by
  cases s <;> simp [map, groups, KeySpecifier.children_map]

theorem ArrowTarget.children_map (g : α → β) (t : ArrowTarget α) :
    (t.map g).children = t.children.map g := by
  cases t <;> rfl

/-- Operands stay operands when they change. -/
theorem Form.operands_map (g : α → β) (f : Form α) : (f.map g).operands = f.operands.map g := by
  cases f with
  | path leading relative => cases relative <;> rfl
  | _ => simp [map, operands, Function.comp_def]

/-- Single expressions stay so when they change. -/
theorem Form.singles_map (g : α → β) (f : Form α) : (f.map g).singles = f.singles.map g := by
  cases f <;>
    simp [map, singles, Binding.map, MapEntry.map, ArrowCall.map, Suffix.singles_map,
      List.map_flatMap, List.flatMap_map, Argument.children_map, Function.comp_def]

/-- The contents of brackets stay so when they change. -/
theorem Form.contents_map (g : α → β) (f : Form α) : (f.map g).contents = f.contents.map g := by
  cases f with
  | parenthesized inner => cases inner <;> rfl
  | inlineFunction params result body => cases body <;> rfl
  | curlyArray body => cases body <;> rfl
  | _ => simp [map, contents, Suffix.contents_map, List.map_flatMap, List.flatMap_map]

/-- What has brackets of its own stays so when it changes. -/
theorem Form.groups_map (g : α → β) (f : Form α) : (f.map g).groups = f.groups.map g := by
  cases f <;>
    simp [map, groups, ArrowCall.map, ArrowTarget.children_map, Suffix.groups_map,
      KeySpecifier.children_map, List.map_flatMap, List.flatMap_map]

/-! ## Ranks -/

/-- How tightly the operators of a level bind. -/
def ChainLevel.rank : ChainLevel → Nat
  | or => 2
  | and => 3
  | stringConcat => 5
  | additive => 7
  | multiplicative => 8
  | union => 9
  | intersectExcept => 10
  | simpleMap => 17
  | relativePath => 19

/-- The level of a construct: the comma first, then the keyword expressions, the operators from the
loosest to the tightest, the steps, and the primary expressions. -/
def Form.rank : Form α → Nat
  | expr _ => 0
  | forExpr _ _ | letExpr _ _ | quantified _ _ _ | ifExpr _ _ _ => 1
  | chain level _ _ => level.rank
  | comparison _ _ _ => 4
  | range _ _ => 6
  | instanceOf _ _ => 11
  | treat _ _ => 12
  | castable _ _ => 13
  | cast _ _ => 14
  | arrow _ _ => 15
  | unary _ _ => 16
  | path _ _ => 18
  | axisStep _ _ _ | parentStep | suffixed _ _ => 20
  | _ => 21

/-- The rank does not depend on the children. -/
theorem Form.rank_map (g : α → β) (f : Form α) : (f.map g).rank = f.rank := by
  cases f <;> rfl

/-- The rank of the construct at the root. -/
def Tree.rank {ι : Type} (t : Tree ι) : Nat := t.form.rank

/-! ## Ends -/

/-- The child with which a construct ends. -/
def Form.last? : Form α → Option α
  | expr items => items.getLast?
  | forExpr _ body | letExpr _ body | quantified _ _ body => some body
  | ifExpr _ _ e => some e
  | chain _ first rest => some ((rest.getLast?.map Prod.snd).getD first)
  | comparison _ _ right => some right
  | range _ last => some last
  | unary _ operand => some operand
  | path _ relative => relative
  | _ => none

/-! ## All constructs of a tree -/

/-- `p` holds of the construct at every node. -/
def Tree.All {ι : Type} (p : Form (Tree ι) → Prop) : Tree ι → Prop :=
  Tree.para fun _ f => p (f.map Prod.fst) ∧ ∀ c ∈ f.children, c.2

/-- A property of all constructs is one of the root, and of those below. -/
theorem Tree.all_node {ι : Type} {p : Form (Tree ι) → Prop} {l : ι} {f : Form (Tree ι)} :
    (Tree.node l f).All p ↔ p f ∧ ∀ c ∈ f.children, c.All p := by
  rw [Tree.All, Tree.para_node, Form.map_fst, Form.children_map]
  simp only [List.mem_map, forall_exists_index, and_imp, forall_apply_eq_imp_iff₂]

end XPath
