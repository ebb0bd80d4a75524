import XPath.Grammar.SequenceType

/-!
# Rules for primary expressions

Literals, variables, calls, constructors and whatever stands in brackets. An expression inside has
one level of nesting less; its rules are given as `Nested`, so that nothing here is recursive.
-/

namespace XPath.Grammar

-- Powers as core has them, also where Mathlib is imported.
attribute [local instance (5000)] instPowNat

open Rule

/-- The rules for what is nested one level deeper. -/
structure Nested where
  exprSingle : Rule Node
  itemType : Rule ItemType

variable (inner : Nested)

/-- `ExprSingle ("," ExprSingle)*` -/
def expr : Rule Node :=
  return .of (.expr (← commaList inner.exprSingle))

/-- An expression, unless the bracket it stands in is closed at once. -/
def exprUntil (closing : Token) : Rule (Option Node) := do
  if isNext closing (← rest) then return none
  else return some (← expr inner)

/-! ## Brackets -/

/-- `"(" Expr? ")"`. -/
def parenthesizedExpr : Rule Node :=
  return .of (.parenthesized (← group "(" ")" "ParenthesizedExpr" (exprUntil inner ")")))

/-- An expression or nothing in braces. -/
def enclosedExpr : Rule (Option Node) :=
  group "\x7b" "\x7d" "EnclosedExpr" (exprUntil inner "\x7d")

/-- `"[" Expr "]"`. -/
def predicate : Rule Node := group "[" "]" "Predicate" (expr inner)

/-- `?` is a placeholder only if it is the whole argument. -/
def argument : Rule (Argument Node) := do
  space
  match ← rest with
  | "?" :: ts =>
    if isNext "," ts || isNext ")" ts then
      advance
      return .placeholder
    else return .expr (← inner.exprSingle)
  | _ => return .expr (← inner.exprSingle)

/-- Arguments in parentheses, with commas between them. -/
def argumentList : Rule (List (Argument Node)) :=
  group "(" ")" "ArgumentList" (separated ")" (argument inner))

/-- `NCName | IntegerLiteral | ParenthesizedExpr | "*"`. -/
def keySpecifier : Rule (KeySpecifier Node) := do
  space
  match ← rest with
  | [] => fail "KeySpecifier"
  | t :: _ =>
    if t = "*" then
      advance
      return .wildcard
    else if t = "(" then return .parenthesized (← parenthesizedExpr inner)
    else if t.isDigits then
      advance
      return .integer (← ofExcept (Integer.ofText t))
    else return .name ⟨← one Text.startsName "KeySpecifier"⟩

/-! ## Functions -/

/-- The largest arity that is counted. -/
def maxArity : Nat := 2 ^ (64 : Nat) - 1

/-- `name#arity`, after the name. -/
def namedFunctionRef (name : EQName) : Rule Node := do
  expect "#" "NamedFunctionRef"
  space
  let digits ← one Token.isDigits "IntegerLiteral of NamedFunctionRef"
  let arity := Nat.ofDigitChars 10 digits.toList 0
  if arity ≤ maxArity then return .of (.namedFunctionRef name arity)
  else failWith (.invalidNumber digits)

/-- `as type`, if a type is declared. -/
def declaredType? : Rule (Option SequenceType) := do
  if ← skip? "as" then return some (← sequenceType inner.itemType)
  else return none

/-- `"$" EQName TypeDeclaration?`. -/
def param : Rule Param := do
  let name ← after "$" "Param" eqName
  return ⟨name, ← declaredType? inner⟩

/-- Parameters up to the parenthesis that closes them. -/
def paramList : Rule (List Param) := separated ")" (param inner)

/-- `"function" "(" ParamList? ")" ("as" SequenceType)? FunctionBody`. -/
def inlineFunction : Rule Node := do
  expect "function" "InlineFunctionExpr"
  let params ← bracketed "(" ")" "InlineFunctionExpr" (paramList inner)
  let result ← declaredType? inner
  return .of (.inlineFunction params result (← enclosedExpr inner))

/-! ## Constructors -/

/-- `ExprSingle ":" ExprSingle`. -/
def mapEntry : Rule (MapEntry Node) := do
  let key ← inner.exprSingle
  expect ":" "MapConstructorEntry"
  return ⟨key, ← inner.exprSingle⟩

/-- Entries in braces behind `map`. -/
def mapConstructor : Rule Node := do
  expect "map" "MapConstructor"
  return .of (.mapConstructor
    (← bracketed "\x7b" "\x7d" "MapConstructor" (separated "\x7d" (mapEntry inner))))

/-- The members of an array in square brackets. -/
def squareArray : Rule Node :=
  return .of (.squareArray
    (← group "[" "]" "SquareArrayConstructor" (separated "]" inner.exprSingle)))

/-- `"array" EnclosedExpr`. -/
def curlyArray : Rule Node := do
  expect "array" "CurlyArrayConstructor"
  return .of (.curlyArray (← enclosedExpr inner))

/-! ## Primary expressions -/

/-- A call of a function, or a reference to one. -/
def functionExpr : Rule Node := do
  let name ← eqName
  let ts ← rest
  if isNext "#" ts then namedFunctionRef name
  else if isNext "(" ts then return .of (.functionCall name (← argumentList inner))
  else
    space
    fail "'(' or '#' after function name"

/-- What begins with the token `t`, in front of the tokens `ts`. -/
def primaryFrom (t : Token) (ts : List Token) : Rule Node :=
  if t = "(" then parenthesizedExpr inner
  else if t = "." then
    if ts.head?.any Token.isDigits then numericLiteral
    else do
      advance
      return .of .contextItem
  else if t = "$" then return .of (.varRef (← after "$" "VarRef" eqName))
  else if t = "?" then return .of (.unaryLookup (← after "?" "UnaryLookup" (keySpecifier inner)))
  else if t.isQuote then return .of (.string (← stringLiteral))
  else if t = "[" then squareArray inner
  else if t = "function" ∧ isNext "(" ts then inlineFunction inner
  else if t = "map" ∧ isNext "\x7b" ts then mapConstructor inner
  else if t = "array" ∧ isNext "\x7b" ts then curlyArray inner
  else if t.isDigits then numericLiteral
  else functionExpr inner

/-- A primary expression, after space. -/
def primaryExpr : Rule Node := do
  space
  match ← rest with
  | [] => fail "PrimaryExpr"
  | t :: ts => primaryFrom inner t ts

end XPath.Grammar
