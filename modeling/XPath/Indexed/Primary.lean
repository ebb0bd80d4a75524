import XPath.Grammar.Primary
import XPath.Indexed.SequenceType

/-!
# Primary expressions at an index

Literals, variables, calls, constructors and whatever stands in brackets. The rules for what is
nested one level deeper are handed on (`Input.Nested`).
-/

namespace XPath.Input

/-- The rules for what is nested one level deeper. -/
structure Nested where
  exprSingle : IndexRule Node
  itemType : IndexRule ItemType

variable (input : Input) (inner : Nested)

/-- `ExprSingle ("," ExprSingle)*` -/
def expr : IndexRule Node := (input.commaList inner.exprSingle).map fun items => .of (.expr items)

/-- An expression, unless the bracket it stands in is closed at once. -/
def exprUntil (closing : Token) : IndexRule (Option Node) := fun i =>
  if input.isNext closing i then return (none, i) else (input.expr inner).map some i

/-! ## Brackets -/

/-- `(expr?)` -/
def parenthesizedExpr : IndexRule Node :=
  (input.group "(" ")" "ParenthesizedExpr" (input.exprUntil inner ")")).map
    fun n? => .of (.parenthesized n?)

/-- An expression, or none, in braces. -/
def enclosedExpr : IndexRule (Option Node) :=
  input.group "\x7b" "\x7d" "EnclosedExpr" (input.exprUntil inner "\x7d")

/-- `[expr]` -/
def predicate : IndexRule Node := input.group "[" "]" "Predicate" (input.expr inner)

/-- `?` is a placeholder only if it is the whole argument. -/
def argument : IndexRule (Argument Node) := fun i =>
  let here := input.skipSpace i
  if input.get here = some "?" ∧ (input.isNext "," (here + 1) || input.isNext ")" (here + 1)) then
    return (.placeholder, here + 1)
  else inner.exprSingle.map .expr here

/-- Arguments in parentheses. -/
def argumentList : IndexRule (List (Argument Node)) :=
  input.group "(" ")" "ArgumentList" (input.separated ")" (input.argument inner))

/-- What is looked up. -/
def keySpecifier : IndexRule (KeySpecifier Node) := fun i => do
  let here := input.skipSpace i
  match input.get here with
  | none => .error (input.unexpected here "KeySpecifier")
  | some t =>
    if t = "*" then return (.wildcard, here + 1)
    else if t = "(" then (input.parenthesizedExpr inner).map .parenthesized here
    else if t.isDigits then
      return (.integer (← (Integer.ofText t).mapError .value), here + 1)
    else (input.one Text.startsName "KeySpecifier").map (fun name => .name ⟨name⟩) here

/-! ## Functions -/

/-- `name#arity`, after the name. -/
def namedFunctionRef (name : EQName) : IndexRule Node := fun i => do
  let here := input.skipSpace (← input.expect "#" "NamedFunctionRef" i)
  let (digits, next) ← input.one Token.isDigits "IntegerLiteral of NamedFunctionRef" here
  let arity := Nat.ofDigitChars 10 digits.toList 0
  if arity ≤ Grammar.maxArity then return (.of (.namedFunctionRef name arity), next)
  else .error (.value (.invalidNumber digits))

/-- `as type`, if a type is declared. -/
def declaredType? : IndexRule (Option SequenceType) := fun i =>
  if input.isNext "as" i then
    (input.sequenceType inner.itemType).map some (input.skipSpace i + 1)
  else return (none, i)

/-- A parameter, with a type or without one. -/
def param : IndexRule Param := fun i => do
  let (name, next) ← input.after "$" "Param" input.eqName i
  (input.declaredType? inner).map (fun type => ⟨name, type⟩) next

/-- Parameters up to the parenthesis that closes them. -/
def paramList : IndexRule (List Param) := input.separated ")" (input.param inner)

/-- `function(params) as type {body}` -/
def inlineFunction : IndexRule Node := fun i => do
  let next ← input.expect "function" "InlineFunctionExpr" i
  let (params, next) ← input.bracketed "(" ")" "InlineFunctionExpr" (input.paramList inner) next
  let (result, next) ← input.declaredType? inner next
  (input.enclosedExpr inner).map (fun body => .of (.inlineFunction params result body)) next

/-! ## Constructors -/

/-- `key : value` -/
def mapEntry : IndexRule (MapEntry Node) := fun i => do
  let (key, next) ← inner.exprSingle i
  inner.exprSingle.map (fun value => ⟨key, value⟩) (← input.expect ":" "MapConstructorEntry" next)

/-- `map` and its entries in braces. -/
def mapConstructor : IndexRule Node := fun i => do
  let next ← input.expect "map" "MapConstructor" i
  (input.bracketed "\x7b" "\x7d" "MapConstructor"
    (input.separated "\x7d" (input.mapEntry inner))).map
    (fun entries => .of (.mapConstructor entries)) next

/-- `[members]` -/
def squareArray : IndexRule Node :=
  (input.group "[" "]" "SquareArrayConstructor" (input.separated "]" inner.exprSingle)).map
    fun members => .of (.squareArray members)

/-- `array` and an expression in braces. -/
def curlyArray : IndexRule Node := fun i => do
  let next ← input.expect "array" "CurlyArrayConstructor" i
  (input.enclosedExpr inner).map (fun body => .of (.curlyArray body)) next

/-! ## Primary expressions -/

/-- A call of a function, or a reference to one. -/
def functionExpr : IndexRule Node := fun i => do
  let (name, next) ← input.eqName i
  if input.isNext "#" next then input.namedFunctionRef name next
  else if input.isNext "(" next then
    (input.argumentList inner).map (fun args => .of (.functionCall name args)) next
  else .error (input.unexpected (input.skipSpace next) "'(' or '#' after function name")

/-- What begins with the token `t`, which stands at the index. -/
def primaryFrom (t : Token) : IndexRule Node := fun here =>
  if t = "(" then input.parenthesizedExpr inner here
  else if t = "." then
    if (input.get (here + 1)).any Token.isDigits then input.numericLiteral here
    else return (.of .contextItem, here + 1)
  else if t = "$" then
    (input.after "$" "VarRef" input.eqName).map (fun name => .of (.varRef name)) here
  else if t = "?" then
    (input.after "?" "UnaryLookup" (input.keySpecifier inner)).map
      (fun key => .of (.unaryLookup key)) here
  else if t.isQuote then input.stringLiteral.map (fun s => .of (.string s)) here
  else if t = "[" then input.squareArray inner here
  else if t = "function" ∧ input.isNext "(" (here + 1) then input.inlineFunction inner here
  else if t = "map" ∧ input.isNext "\x7b" (here + 1) then input.mapConstructor inner here
  else if t = "array" ∧ input.isNext "\x7b" (here + 1) then input.curlyArray inner here
  else if t.isDigits then input.numericLiteral here
  else input.functionExpr inner here

/-- A primary expression. -/
def primaryExpr : IndexRule Node := fun i =>
  let here := input.skipSpace i
  match input.get here with
  | none => .error (input.unexpected here "PrimaryExpr")
  | some t => input.primaryFrom inner t here

end XPath.Input
