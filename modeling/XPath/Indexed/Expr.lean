import XPath.Indexed.Path
import XPath.Parse

/-!
# Expressions and constructs at an index

Operators from the loosest to the tightest, the expressions with keywords, and all that can be read
on its own (`StartSymbol.parseAt`).
-/

namespace XPath

namespace Input

variable (input : Input) (inner : Nested)

/-! ## Operators -/

/-- `path ("!" path)*` -/
def simpleMapExpr : IndexRule Node := input.chainOf .simpleMap (input.pathExpr inner)

/-- Signs and their operand. -/
def unaryExpr : IndexRule Node := fun i => do
  let (ops, next) ← input.many (input.operator? Spelled.ofToken?) i
  let (operand, next) ← input.simpleMapExpr inner next
  if ops.isEmpty then return (operand, next) else return (.of (.unary ops operand), next)

/-- What is called after an arrow. -/
def arrowTarget : IndexRule (ArrowTarget Node) := fun i =>
  let here := input.skipSpace i
  match input.get here with
  | some "$" => input.eqName.map .var (here + 1)
  | some "(" => (input.parenthesizedExpr inner).map .parenthesized here
  | _ => input.eqName.map .name here

/-- What is called after an arrow, with its arguments. -/
def arrowCall : IndexRule (ArrowCall Node) := fun i => do
  let (target, next) ← input.arrowTarget inner i
  (input.argumentList inner).map (fun args => ⟨target, args⟩) next

/-- `unary ("=>" call)*` -/
def arrowExpr : IndexRule Node := fun i => do
  let read : Token → Option ArrowOp := Spelled.ofToken?
  match ← input.chain read (input.unaryExpr inner) (input.arrowCall inner) i with
  | ((first, []), next) => return (first, next)
  | ((first, calls), next) => return (.of (.arrow first (calls.map Prod.snd)), next)

/-- An operand, with what it is tested or converted by if `words` follow it. -/
def typed {τ : Type} (form : Node → τ → Form Node) (words : List Token) (operand : IndexRule Node)
    (type : IndexRule τ) : IndexRule Node := fun i => do
  match ← input.followedBy words operand type i with
  | ((e, none), next) => return (e, next)
  | ((e, some t), next) => return (.of (form e t), next)

/-- `arrow ("cast" "as" type)?` -/
def castExpr : IndexRule Node :=
  input.typed .cast ["cast", "as"] (input.arrowExpr inner) input.singleType

/-- `cast ("castable" "as" type)?` -/
def castableExpr : IndexRule Node :=
  input.typed .castable ["castable", "as"] (input.castExpr inner) input.singleType

/-- `castable ("treat" "as" type)?` -/
def treatExpr : IndexRule Node :=
  input.typed .treat ["treat", "as"] (input.castableExpr inner) (input.sequenceType inner.itemType)

/-- `treat ("instance" "of" type)?` -/
def instanceOfExpr : IndexRule Node :=
  input.typed .instanceOf ["instance", "of"] (input.treatExpr inner)
    (input.sequenceType inner.itemType)

/-- `instanceOf (("intersect" | "except") instanceOf)*` -/
def intersectExceptExpr : IndexRule Node :=
  input.chainOf .intersectExcept (input.instanceOfExpr inner)

/-- `intersectExcept (("union" | "|") intersectExcept)*` -/
def unionExpr : IndexRule Node := input.chainOf .union (input.intersectExceptExpr inner)

/-- `union (("*" | "div" | "idiv" | "mod") union)*` -/
def multiplicativeExpr : IndexRule Node := input.chainOf .multiplicative (input.unionExpr inner)

/-- `multiplicative (("+" | "-") multiplicative)*` -/
def additiveExpr : IndexRule Node := input.chainOf .additive (input.multiplicativeExpr inner)

/-- `additive ("to" additive)?` -/
def rangeExpr : IndexRule Node :=
  input.typed .range ["to"] (input.additiveExpr inner) (input.additiveExpr inner)

/-- `range ("||" range)*` -/
def stringConcatExpr : IndexRule Node := input.chainOf .stringConcat (input.rangeExpr inner)

/-- Comparisons do not associate: a second one is left. -/
def comparisonExpr : IndexRule Node := fun i => do
  let (left, next) ← input.stringConcatExpr inner i
  match ← input.operator? Spelled.ofToken? next with
  | (none, next) => return (left, next)
  | (some op, next) =>
    (input.stringConcatExpr inner).map (fun right => .of (.comparison left op right)) next

/-- `comparison ("and" comparison)*` -/
def andExpr : IndexRule Node := input.chainOf .and (input.comparisonExpr inner)

/-- `and ("or" and)*` -/
def orExpr : IndexRule Node := input.chainOf .or (input.andExpr inner)

/-! ## Keyword expressions -/

/-- A variable and what it is bound to. -/
def binding (op : BindingOp) : IndexRule (Binding Node) := fun i => do
  let (name, next) ← input.after "$" "SimpleBinding" input.eqName i
  let next ← input.expect (Spelled.spelling op) "SimpleBinding" next
  inner.exprSingle.map (fun e => ⟨name, op, e⟩) next

/-- Bindings, and after the token `word` the expression they are for. -/
def bound (form : List (Binding Node) → Node → Form Node) (op : BindingOp) (word : Token)
    (owner : String) : IndexRule Node := fun i => do
  let (bindings, next) ← input.commaList (input.binding inner op) i
  let next ← input.expect word owner next
  inner.exprSingle.map (fun body => .of (form bindings body)) next

/-- `for bindings return body` -/
def forExpr : IndexRule Node :=
  input.after "for" "ForExpr" (input.bound inner .forExpr .inItems "return" "ForExpr")

/-- `let bindings return body` -/
def letExpr : IndexRule Node :=
  input.after "let" "LetExpr" (input.bound inner .letExpr .assign "return" "LetExpr")

/-- `quantifier bindings satisfies body` -/
def quantifiedExpr : IndexRule Node := fun i =>
  let here := input.skipSpace i
  match (input.get here).bind Spelled.ofToken? with
  | some quantifier =>
    input.bound inner (.quantified quantifier) .inItems "satisfies" "QuantifiedExpr" (here + 1)
  | none => .error (input.unexpected here "'some' or 'every'")

/-- `if (condition) then thenBranch else elseBranch` -/
def ifExpr : IndexRule Node := fun i => do
  let next ← input.expect "if" "IfExpr" i
  let (condition, next) ← input.bracketed "(" ")" "IfExpr" (input.expr inner) next
  let (thenBranch, next) ← inner.exprSingle (← input.expect "then" "IfExpr" next)
  inner.exprSingle.map (fun elseBranch => .of (.ifExpr condition thenBranch elseBranch))
    (← input.expect "else" "IfExpr" next)

/-! ## Single expressions -/

/-- A single expression that starts here. A keyword is one only in front of the token that makes it
one. -/
def exprSingleHere : IndexRule Node := fun here =>
  match input.get here with
  | none => .error (input.unexpected here "ExprSingle")
  | some t =>
    if t = "for" ∧ input.isNext "$" (here + 1) then input.forExpr inner here
    else if t = "let" ∧ input.isNext "$" (here + 1) then input.letExpr inner here
    else if (t = "some" ∨ t = "every") ∧ input.isNext "$" (here + 1) then
      input.quantifiedExpr inner here
    else if t = "if" ∧ input.isNext "(" (here + 1) then input.ifExpr inner here
    else input.orExpr inner here

/-- A single expression with at most so many levels of nesting. -/
def exprSingle : (levels : Nat) → IndexRule Node
  | 0, i => .error (.tooDeep input.maxDepth (input.skipSpace i))
  | levels + 1, i =>
    input.exprSingleHere ⟨exprSingle levels, input.itemType levels⟩ (input.skipSpace i)

/-- The rules for what has so many levels of nesting left. -/
def nested (levels : Nat) : Nested := ⟨input.exprSingle levels, input.itemType levels⟩

end Input

/-- Reads a construct at an index. -/
def StartSymbol.parseAt (input : Input) (s : StartSymbol) : IndexRule s.Value :=
  let inner := input.nested input.maxDepth
  match s with
  | expr => input.expr inner
  | sequenceType => input.sequenceType inner.itemType
  | itemType => inner.itemType
  | singleType => input.singleType
  | kindTest => input.kindTest
  | nodeTest => input.nodeTest
  | nameTest => input.nameTest
  | eqName => input.eqName
  | ncName => input.ncName
  | predicate => input.predicate inner
  | argumentList => input.argumentList inner
  | paramList => input.paramList inner
  | enclosedExpr => input.enclosedExpr inner

end XPath
