import XPath.SequenceType
import XPath.Value.Decimal
import XPath.Value.Double

/-!
# Forms of expressions

`Form α` is one construct of the expression grammar with its sub-expressions in `α`. What the
grammar fixes (names, types, operators, where a placeholder stands) belongs to the form; what is
again an expression is one of its `children`, in source order.

Everything that is done to the children of a construct is said here once: `Form.map` changes each,
`Form.mapM` does so with effects from left to right and tells for each child which construct owns
it, and `Form.agree` compares two forms child by child. What is left without the children is the
`Form.shape`.
-/

namespace XPath

variable {α β : Type}

/-! ## Parts of forms -/

/-- `$name in e` or `$name := e`. -/
structure Binding (α : Type) where
  name : EQName
  op : BindingOp
  expr : α
  deriving DecidableEq

/-- An argument of a call. -/
inductive Argument (α : Type) where
  | expr (e : α)
  /-- `?`, for an argument to be given later. -/
  | placeholder
  deriving DecidableEq

/-- What a lookup looks for. -/
inductive KeySpecifier (α : Type) where
  | name (name : NCName)
  | integer (value : Int)
  | parenthesized (e : α)
  | wildcard
  deriving DecidableEq

/-- What follows a primary expression. -/
inductive Suffix (α : Type) where
  | predicate (e : α)
  | arguments (args : List (Argument α))
  | lookup (key : KeySpecifier α)
  deriving DecidableEq

/-- The function that an arrow applies. -/
inductive ArrowTarget (α : Type) where
  | name (name : EQName)
  | var (name : EQName)
  | parenthesized (e : α)
  deriving DecidableEq

/-- One call of an arrow expression, behind its `=>`. -/
structure ArrowCall (α : Type) where
  target : ArrowTarget α
  args : List (Argument α)
  deriving DecidableEq

/-- `key : value` in a map constructor. -/
structure MapEntry (α : Type) where
  key : α
  value : α
  deriving DecidableEq

/-- A parameter of an inline function, with its type if it has one. -/
structure Param where
  name : EQName
  type : Option SequenceType
  deriving DecidableEq

/-- An axis as it is written: by name, or `@` for `attribute`. -/
inductive StepAxis where
  | named (axis : Axis)
  | atSign
  deriving DecidableEq

/-- The axis of a step, `child` where none is written. -/
def StepAxis.effective : Option StepAxis → Axis
  | some (named axis) => axis
  | some atSign => .attribute
  | none => .child

/-! ## Forms -/

/-- The constructs of the expression grammar, each with the fields that the grammar gives it. -/
inductive Form (α : Type) where
  | expr (items : List α)
  | forExpr (bindings : List (Binding α)) (body : α)
  | letExpr (bindings : List (Binding α)) (body : α)
  | quantified (quantifier : Quantifier) (bindings : List (Binding α)) (body : α)
  | ifExpr (condition thenBranch elseBranch : α)
  | chain (level : ChainLevel) (first : α) (rest : List (ChainOp × α))
  | comparison (left : α) (op : ComparisonOp) (right : α)
  | range (first last : α)
  | instanceOf (e : α) (type : SequenceType)
  | treat (e : α) (type : SequenceType)
  | castable (e : α) (type : SingleType)
  | cast (e : α) (type : SingleType)
  | arrow (first : α) (calls : List (ArrowCall α))
  | unary (ops : List UnaryOp) (operand : α)
  /-- A path with a leading slash; a lone `/` has nothing after it. -/
  | path (leading : PathOp) (relative : Option α)
  | axisStep (axis : Option StepAxis) (test : NodeTest) (predicates : List α)
  | parentStep
  | suffixed (primary : α) (suffixes : List (Suffix α))
  | parenthesized (inner : Option α)
  | contextItem
  | varRef (name : EQName)
  | functionCall (name : EQName) (args : List (Argument α))
  | namedFunctionRef (name : EQName) (arity : Nat)
  | inlineFunction (params : List Param) (result : Option SequenceType) (body : Option α)
  | mapConstructor (entries : List (MapEntry α))
  | squareArray (members : List α)
  | curlyArray (body : Option α)
  | unaryLookup (key : KeySpecifier α)
  | integer (value : Int)
  | decimal (value : Decimal)
  | double (value : Double)
  | string (value : String)
  deriving DecidableEq

/-- The construct that the operators of a level make of their operands. -/
def ChainLevel.kind : ChainLevel → Kind
  | or => .orExpr
  | and => .andExpr
  | stringConcat => .stringConcatExpr
  | additive => .additiveExpr
  | multiplicative => .multiplicativeExpr
  | union => .unionExpr
  | intersectExcept => .intersectExceptExpr
  | simpleMap => .simpleMapExpr
  | relativePath => .relativePathExpr

/-- The name that the grammar has for the construct. -/
def Form.kind : Form α → Kind
  | expr _ => .expr
  | forExpr _ _ => .forExpr
  | letExpr _ _ => .letExpr
  | quantified _ _ _ => .quantifiedExpr
  | ifExpr _ _ _ => .ifExpr
  | chain level _ _ => level.kind
  | comparison _ _ _ => .comparisonExpr
  | range _ _ => .rangeExpr
  | instanceOf _ _ => .instanceOfExpr
  | treat _ _ => .treatExpr
  | castable _ _ => .castableExpr
  | cast _ _ => .castExpr
  | arrow _ _ => .arrowExpr
  | unary _ _ => .unaryExpr
  | path _ _ => .pathExpr
  | axisStep _ _ _ => .axisStep
  | parentStep => .parentAxisStep
  | suffixed _ _ => .postfixExpr
  | parenthesized _ => .parenthesizedExpr
  | contextItem => .contextItemExpr
  | varRef _ => .varRef
  | functionCall _ _ => .functionCall
  | namedFunctionRef _ _ => .namedFunctionRef
  | inlineFunction _ _ _ => .inlineFunctionExpr
  | mapConstructor _ => .mapConstructor
  | squareArray _ => .squareArrayConstructor
  | curlyArray _ => .curlyArrayConstructor
  | unaryLookup _ => .unaryLookup
  | integer _ => .integerLiteral
  | decimal _ => .decimalLiteral
  | double _ => .doubleLiteral
  | string _ => .stringLiteral

/-- A run of signs changes the sign of its operand if an odd number of them is minus. -/
def Form.isNegated : Form α → Bool
  | unary ops _ => ops.count .minus % 2 == 1
  | _ => false

/-! ## Children -/

/-- The expression that an argument is. A placeholder is none. -/
def Argument.children : Argument α → List α
  | expr e => [e]
  | placeholder => []

/-- Only a key in parentheses is an expression of its own. -/
def KeySpecifier.children : KeySpecifier α → List α
  | parenthesized e => [e]
  | _ => []

/-- The predicate, the arguments or the key of a suffix. -/
def Suffix.children : Suffix α → List α
  | predicate e => [e]
  | arguments args => args.flatMap Argument.children
  | lookup key => key.children

/-- Only a target in parentheses is an expression of its own. -/
def ArrowTarget.children : ArrowTarget α → List α
  | parenthesized e => [e]
  | _ => []

/-- The target comes in front of the arguments. -/
def ArrowCall.children (c : ArrowCall α) : List α :=
  c.target.children ++ c.args.flatMap Argument.children

/-- The sub-expressions, in source order. -/
def Form.children : Form α → List α
  | expr items => items
  | forExpr bindings body => bindings.map Binding.expr ++ [body]
  | letExpr bindings body => bindings.map Binding.expr ++ [body]
  | quantified _ bindings body => bindings.map Binding.expr ++ [body]
  | ifExpr c t e => [c, t, e]
  | chain _ first rest => first :: rest.map Prod.snd
  | comparison left _ right => [left, right]
  | range first last => [first, last]
  | instanceOf e _ => [e]
  | treat e _ => [e]
  | castable e _ => [e]
  | cast e _ => [e]
  | arrow first calls => first :: calls.flatMap ArrowCall.children
  | unary _ operand => [operand]
  | path _ relative => relative.toList
  | axisStep _ _ predicates => predicates
  | suffixed primary suffixes => primary :: suffixes.flatMap Suffix.children
  | parenthesized inner => inner.toList
  | functionCall _ args => args.flatMap Argument.children
  | inlineFunction _ _ body => body.toList
  | mapConstructor entries => entries.flatMap fun e => [e.key, e.value]
  | squareArray members => members
  | curlyArray body => body.toList
  | unaryLookup key => key.children
  | _ => []

/-! ## Change of the children -/

/-- The binding with its expression changed. -/
def Binding.map (g : α → β) (b : Binding α) : Binding β := ⟨b.name, b.op, g b.expr⟩

/-- The argument with its expression changed. -/
def Argument.map (g : α → β) : Argument α → Argument β
  | expr e => .expr (g e)
  | placeholder => .placeholder

/-- The key with its expression changed. -/
def KeySpecifier.map (g : α → β) : KeySpecifier α → KeySpecifier β
  | name n => .name n
  | integer v => .integer v
  | parenthesized e => .parenthesized (g e)
  | wildcard => .wildcard

/-- The suffix with its expressions changed. -/
def Suffix.map (g : α → β) : Suffix α → Suffix β
  | predicate e => .predicate (g e)
  | arguments args => .arguments (args.map (·.map g))
  | lookup key => .lookup (key.map g)

/-- The target with its expression changed. -/
def ArrowTarget.map (g : α → β) : ArrowTarget α → ArrowTarget β
  | name n => .name n
  | var n => .var n
  | parenthesized e => .parenthesized (g e)

/-- The call with its target and its arguments changed. -/
def ArrowCall.map (g : α → β) (c : ArrowCall α) : ArrowCall β :=
  ⟨c.target.map g, c.args.map (·.map g)⟩

/-- The entry with key and value changed. -/
def MapEntry.map (g : α → β) (e : MapEntry α) : MapEntry β := ⟨g e.key, g e.value⟩

/-- The form with every child changed. -/
def Form.map (g : α → β) : Form α → Form β
  | expr items => .expr (items.map g)
  | forExpr bindings body => .forExpr (bindings.map (·.map g)) (g body)
  | letExpr bindings body => .letExpr (bindings.map (·.map g)) (g body)
  | quantified q bindings body => .quantified q (bindings.map (·.map g)) (g body)
  | ifExpr c t e => .ifExpr (g c) (g t) (g e)
  | chain level first rest => .chain level (g first) (rest.map fun (op, e) => (op, g e))
  | comparison left op right => .comparison (g left) op (g right)
  | range first last => .range (g first) (g last)
  | instanceOf e type => .instanceOf (g e) type
  | treat e type => .treat (g e) type
  | castable e type => .castable (g e) type
  | cast e type => .cast (g e) type
  | arrow first calls => .arrow (g first) (calls.map (·.map g))
  | unary ops operand => .unary ops (g operand)
  | path leading relative => .path leading (relative.map g)
  | axisStep axis test predicates => .axisStep axis test (predicates.map g)
  | parentStep => .parentStep
  | suffixed primary suffixes => .suffixed (g primary) (suffixes.map (·.map g))
  | parenthesized inner => .parenthesized (inner.map g)
  | contextItem => .contextItem
  | varRef name => .varRef name
  | functionCall name args => .functionCall name (args.map (·.map g))
  | namedFunctionRef name arity => .namedFunctionRef name arity
  | inlineFunction params result body => .inlineFunction params result (body.map g)
  | mapConstructor entries => .mapConstructor (entries.map (·.map g))
  | squareArray members => .squareArray (members.map g)
  | curlyArray body => .curlyArray (body.map g)
  | unaryLookup key => .unaryLookup (key.map g)
  | integer v => .integer v
  | decimal v => .decimal v
  | double v => .double v
  | string v => .string v

/-! ## Visits to the children -/

section Visits

variable {m : Type → Type} [Monad m] (visit : Kind → α → m β)

/-- The owner of a bound expression is the binding, whatever construct this belongs to. -/
def Binding.mapM (b : Binding α) : m (Binding β) :=
  return ⟨b.name, b.op, ← visit .simpleBinding b.expr⟩

/-- The owner of an argument is its list, whatever is called. -/
def Argument.mapM : Argument α → m (Argument β)
  | expr e => return .expr (← visit .argumentList e)
  | placeholder => return .placeholder

/-- A key belongs to the lookup it stands in. -/
def KeySpecifier.mapM (owner : Kind) : KeySpecifier α → m (KeySpecifier β)
  | name n => return .name n
  | integer v => return .integer v
  | parenthesized e => return .parenthesized (← visit owner e)
  | wildcard => return .wildcard

/-- A predicate, an argument or a key is visited, from left to right. -/
def Suffix.mapM : Suffix α → m (Suffix β)
  | predicate e => return .predicate (← visit .predicate e)
  | arguments args => return .arguments (← args.mapM (Argument.mapM visit))
  | lookup key => return .lookup (← key.mapM visit .lookup)

/-- A target in parentheses belongs to the function of its call. -/
def ArrowTarget.mapM : ArrowTarget α → m (ArrowTarget β)
  | name n => return .name n
  | var n => return .var n
  | parenthesized e => return .parenthesized (← visit .arrowFunctionExpr e)

/-- The target is visited first, then the arguments. -/
def ArrowCall.mapM (c : ArrowCall α) : m (ArrowCall β) :=
  return ⟨← c.target.mapM visit, ← c.args.mapM (Argument.mapM visit)⟩

/-- `visit` at every child from left to right, with the kind of the construct that owns the child:
the binding, argument list, predicate, lookup, arrow call or enclosed expression it stands in, and
otherwise the form itself. -/
def Form.mapM (f : Form α) : m (Form β) :=
  match f with
  | expr items => return .expr (← items.mapM (visit .expr))
  | forExpr bindings body =>
    return .forExpr (← bindings.mapM (Binding.mapM visit)) (← visit .forExpr body)
  | letExpr bindings body =>
    return .letExpr (← bindings.mapM (Binding.mapM visit)) (← visit .letExpr body)
  | quantified q bindings body =>
    return .quantified q (← bindings.mapM (Binding.mapM visit)) (← visit .quantifiedExpr body)
  | ifExpr c t e => return .ifExpr (← visit .ifExpr c) (← visit .ifExpr t) (← visit .ifExpr e)
  | chain level first rest =>
    return .chain level (← visit level.kind first)
      (← rest.mapM fun (op, e) => return (op, ← visit level.kind e))
  | comparison left op right =>
    return .comparison (← visit .comparisonExpr left) op (← visit .comparisonExpr right)
  | range first last => return .range (← visit .rangeExpr first) (← visit .rangeExpr last)
  | instanceOf e type => return .instanceOf (← visit .instanceOfExpr e) type
  | treat e type => return .treat (← visit .treatExpr e) type
  | castable e type => return .castable (← visit .castableExpr e) type
  | cast e type => return .cast (← visit .castExpr e) type
  | arrow first calls =>
    return .arrow (← visit .arrowExpr first) (← calls.mapM (ArrowCall.mapM visit))
  | unary ops operand => return .unary ops (← visit .unaryExpr operand)
  | path leading relative => return .path leading (← relative.mapM (visit .pathExpr))
  | axisStep axis test predicates =>
    return .axisStep axis test (← predicates.mapM (visit .predicate))
  | parentStep => return .parentStep
  | suffixed primary suffixes =>
    return .suffixed (← visit .postfixExpr primary) (← suffixes.mapM (Suffix.mapM visit))
  | parenthesized inner => return .parenthesized (← inner.mapM (visit .parenthesizedExpr))
  | contextItem => return .contextItem
  | varRef name => return .varRef name
  | functionCall name args => return .functionCall name (← args.mapM (Argument.mapM visit))
  | namedFunctionRef name arity => return .namedFunctionRef name arity
  | inlineFunction params result body =>
    return .inlineFunction params result (← body.mapM (visit .enclosedExpr))
  | mapConstructor entries =>
    return .mapConstructor (← entries.mapM fun e =>
      return ⟨← visit .mapConstructor e.key, ← visit .mapConstructor e.value⟩)
  | squareArray members => return .squareArray (← members.mapM (visit .squareArrayConstructor))
  | curlyArray body => return .curlyArray (← body.mapM (visit .enclosedExpr))
  | unaryLookup key => return .unaryLookup (← key.mapM visit .unaryLookup)
  | integer v => return .integer v
  | decimal v => return .decimal v
  | double v => return .double v
  | string v => return .string v

end Visits

/-! ## Comparison -/

/-- What is left of a form without its children. -/
def Form.shape (f : Form α) : Form Unit := f.map fun _ => ()

/-- Two lists of one length, related place by place. -/
def agreeAll (r : α → β → Bool) : List α → List β → Bool
  | [], [] => true
  | a :: as, b :: bs => r a b && agreeAll r as bs
  | _, _ => false

/-- One construct with related children. Decimals and doubles agree if their values are equal. -/
def Form.agree (r : α → β → Bool) (f : Form α) (g : Form β) : Bool :=
  match f, g with
  | decimal a, decimal b => a.sameValue b
  | double a, double b => a.sameValue b
  | _, _ => f.shape == g.shape && agreeAll r f.children g.children

end XPath
