import XPath.Grammar.Path

/-!
# Rules for operators and whole expressions

Each level of operators takes its operands from the next tighter one, from `or` down to paths. A
level without its operator is its operand.

Every nesting of expressions passes through `exprSingle`, and every nesting of item types through
`itemType`. Both are defined by the number of levels that are left, and all other rules take the two
for the next level as an argument. That is why the grammar needs no other recursion.
-/

namespace XPath.Grammar

open Rule

variable (inner : Nested)

/-! ## Operators -/

/-- `PathExpr ("!" PathExpr)*`. -/
def simpleMapExpr : Rule Node := chainOf .simpleMap (pathExpr inner)

/-- `("-" | "+")* SimpleMapExpr`. Without a sign it is the operand. -/
def unaryExpr : Rule Node := do
  let ops ← many (operator? Spelled.ofToken?)
  let operand ← simpleMapExpr inner
  if ops.isEmpty then return operand
  else return .of (.unary ops operand)

/-- A variable, an expression in parentheses, or the name of a function. -/
def arrowTarget : Rule (ArrowTarget Node) := do
  space
  match (← rest).head? with
  | some "$" =>
    advance
    return .var (← eqName)
  | some "(" => return .parenthesized (← parenthesizedExpr inner)
  | _ => return .name (← eqName)

/-- The target of a call and its arguments. -/
def arrowCall : Rule (ArrowCall Node) := do
  let target ← arrowTarget inner
  return ⟨target, ← argumentList inner⟩

/-- `UnaryExpr ("=>" ArrowFunctionSpecifier ArgumentList)*`. -/
def arrowExpr : Rule Node := do
  match ← chain (Spelled.ofToken? : Token → Option ArrowOp) (unaryExpr inner) (arrowCall inner) with
  | (first, []) => return first
  | (first, calls) => return .of (.arrow first (calls.map Prod.snd))

/-- An operand, with what it is tested or converted by if `words` follow it. -/
def typed {τ : Type} (form : Node → τ → Form Node) (words : List Token) (operand : Rule Node)
    (type : Rule τ) : Rule Node := do
  match ← followedBy words operand type with
  | (e, none) => return e
  | (e, some t) => return .of (form e t)

/-- `ArrowExpr ("cast" "as" SingleType)?`. -/
def castExpr : Rule Node := typed .cast ["cast", "as"] (arrowExpr inner) singleType

/-- `CastExpr ("castable" "as" SingleType)?`. -/
def castableExpr : Rule Node := typed .castable ["castable", "as"] (castExpr inner) singleType

/-- `CastableExpr ("treat" "as" SequenceType)?`. -/
def treatExpr : Rule Node :=
  typed .treat ["treat", "as"] (castableExpr inner) (sequenceType inner.itemType)

/-- `TreatExpr ("instance" "of" SequenceType)?`. -/
def instanceOfExpr : Rule Node :=
  typed .instanceOf ["instance", "of"] (treatExpr inner) (sequenceType inner.itemType)

/-- `InstanceofExpr (("intersect" | "except") InstanceofExpr)*`. -/
def intersectExceptExpr : Rule Node := chainOf .intersectExcept (instanceOfExpr inner)

/-- `IntersectExceptExpr (("union" | "|") IntersectExceptExpr)*`. -/
def unionExpr : Rule Node := chainOf .union (intersectExceptExpr inner)

/-- `UnionExpr (("*" | "div" | "idiv" | "mod") UnionExpr)*`. -/
def multiplicativeExpr : Rule Node := chainOf .multiplicative (unionExpr inner)

/-- `MultiplicativeExpr (("+" | "-") MultiplicativeExpr)*`. -/
def additiveExpr : Rule Node := chainOf .additive (multiplicativeExpr inner)

/-- `AdditiveExpr ("to" AdditiveExpr)?`. -/
def rangeExpr : Rule Node := typed .range ["to"] (additiveExpr inner) (additiveExpr inner)

/-- `RangeExpr ("||" RangeExpr)*`. -/
def stringConcatExpr : Rule Node := chainOf .stringConcat (rangeExpr inner)

/-- Comparisons do not associate: a second one is left. -/
def comparisonExpr : Rule Node := do
  let left ← stringConcatExpr inner
  match ← operator? Spelled.ofToken? with
  | none => return left
  | some op => return .of (.comparison left op (← stringConcatExpr inner))

/-- `ComparisonExpr ("and" ComparisonExpr)*`. -/
def andExpr : Rule Node := chainOf .and (comparisonExpr inner)

/-- `AndExpr ("or" AndExpr)*`. -/
def orExpr : Rule Node := chainOf .or (andExpr inner)

/-! ## Keyword expressions -/

/-- A variable and what it is bound to, with the operator of the construct between them. -/
def binding (op : BindingOp) : Rule (Binding Node) := do
  let name ← after "$" "SimpleBinding" eqName
  expect (Spelled.spelling op) "SimpleBinding"
  return ⟨name, op, ← inner.exprSingle⟩

/-- `"for" SimpleForBinding ("," SimpleForBinding)* "return" ExprSingle`. -/
def forExpr : Rule Node := do
  expect "for" "ForExpr"
  let bindings ← commaList (binding inner .inItems)
  expect "return" "ForExpr"
  return .of (.forExpr bindings (← inner.exprSingle))

/-- `"let" SimpleLetBinding ("," SimpleLetBinding)* "return" ExprSingle`. -/
def letExpr : Rule Node := do
  expect "let" "LetExpr"
  let bindings ← commaList (binding inner .assign)
  expect "return" "LetExpr"
  return .of (.letExpr bindings (← inner.exprSingle))

/-- `some` or `every`, in front of its bindings. -/
def quantifiedExpr (quantifier : Quantifier) : Rule Node := do
  advance
  let bindings ← commaList (binding inner .inItems)
  expect "satisfies" "QuantifiedExpr"
  return .of (.quantified quantifier bindings (← inner.exprSingle))

/-- `"if" "(" Expr ")" "then" ExprSingle "else" ExprSingle`. -/
def ifExpr : Rule Node := do
  expect "if" "IfExpr"
  let condition ← bracketed "(" ")" "IfExpr" (expr inner)
  expect "then" "IfExpr"
  let thenBranch ← inner.exprSingle
  expect "else" "IfExpr"
  return .of (.ifExpr condition thenBranch (← inner.exprSingle))

/-! ## Single expressions -/

/-- What begins with the token `t`, in front of the tokens `ts`. A keyword is one only in front of
the token that makes it one; `for` alone is a step. -/
def exprSingleFrom (t : Token) (ts : List Token) : Rule Node :=
  if t = "for" ∧ isNext "$" ts then forExpr inner
  else if t = "let" ∧ isNext "$" ts then letExpr inner
  else if t = "some" ∧ isNext "$" ts then quantifiedExpr inner .some
  else if t = "every" ∧ isNext "$" ts then quantifiedExpr inner .every
  else if t = "if" ∧ isNext "(" ts then ifExpr inner
  else orExpr inner

/-- A single expression that begins at the next token, with no space before it. -/
def exprSingleHere : Rule Node := do
  match ← rest with
  | [] => fail "ExprSingle"
  | t :: ts => exprSingleFrom inner t ts

/-- A single expression with at most so many levels of nesting. -/
def exprSingle : (levels : Nat) → Rule Node
  | 0 => do
    space
    tooDeep
  | levels + 1 => do
    space
    exprSingleHere ⟨exprSingle levels, itemType levels⟩

/-- The rules for what has so many levels of nesting left. -/
def nested (levels : Nat) : Nested := ⟨exprSingle levels, itemType levels⟩

end XPath.Grammar
