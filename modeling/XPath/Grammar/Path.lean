import XPath.Grammar.Primary

/-!
# Rules for paths

A step is a primary expression with its suffixes, or an axis step. Which of them is decided by
looking ahead (`couldBePrimary`): a name makes a primary expression only as the name of a function,
and some names are kept for other uses (`reservedFunctionNames`).

A slash may stand alone, for the root. It does if the path after it fails right at its start, and
what stands there could not begin a step (`canStartStep`).
-/

namespace XPath.Grammar

open Rule

/-! ## Looking ahead -/

/-- Names without a prefix that are no functions, even in front of a parenthesis. -/
def reservedFunctionNames : List String :=
  ["array", "empty-sequence", "function", "if", "item", "map", "switch", "typeswitch"]

/-- A name without a prefix that no function can be called by. -/
def isReserved (name : EQName) : Bool :=
  name.unqualified?.any fun n => KindTest.isKeyword n || reservedFunctionNames.contains n

/-- A primary expression may start here, rather than an axis step. -/
def couldBePrimary : List Token → Bool
  | [] => false
  | t :: ts =>
    ["(", ".", "$", "?", "[", "'", "\""].contains t || t == "function" && isNext "(" ts ||
      (t == "map" || t == "array") && isNext "\x7b" ts || t.isDigits ||
      match eqName (t :: ts) with
      | .ok (name, more) => isNext "#" more || isNext "(" more && !isReserved name
      | .error _ => false

/-- An axis and the colons after it. -/
def startsAxis : List Token → Bool
  | t :: ts => (Spelled.ofToken? t : Option Axis).isSome && isNext "::" ts
  | [] => false

/-- Some step begins with the first of these tokens. -/
def canStartStep : List Token → Bool
  | t :: _ =>
    Text.startsName t || t.isDigits ||
      ["*", "@", ".", "..", "(", "$", "?", "[", "'", "\""].contains t
  | [] => false

/-! ## Steps -/

variable (inner : Nested)

/-- The next suffix of a primary expression, if one follows. -/
def suffix? : Rule (Option (Suffix Node)) := do
  match (Token.skipSpace (← rest)).head? with
  | some "[" =>
    space
    return some (.predicate (← predicate inner))
  | some "(" =>
    space
    return some (.arguments (← argumentList inner))
  | some "?" =>
    space
    return some (.lookup (← after "?" "Lookup" (keySpecifier inner)))
  | _ => return none

/-- `PrimaryExpr (Predicate | ArgumentList | Lookup)*`. -/
def suffixedExpr : Rule Node := do
  let primary ← primaryExpr inner
  match ← many (suffix? inner) with
  | [] => return primary
  | suffixes => return .of (.suffixed primary suffixes)

/-- The axis in front of a node test, if one is written. -/
def axis? : Rule (Option StepAxis) := do
  let ts ← rest
  if ← take? "@" then return some .atSign
  else if startsAxis ts then
    let axis ← operator? Spelled.ofToken?
    space
    advance
    return axis.map .named
  else return none

/-- The next predicate, if one follows. -/
def predicate? : Rule (Option Node) := do
  if isNext "[" (← rest) then return some (← predicate inner)
  else return none

/-- `(ForwardStep | ReverseStep) PredicateList`. The parent step `..` stands alone. -/
def axisStep : Rule Node := do
  space
  if ← take? ".." then return .of .parentStep
  else
    let axis ← axis?
    let test ← nodeTest
    return .of (.axisStep axis test (← many (predicate? inner)))

/-- `PostfixExpr | AxisStep`, told apart by looking ahead. -/
def stepExpr : Rule Node := do
  space
  let ts ← rest
  if !startsAxis ts && couldBePrimary ts then suffixedExpr inner
  else axisStep inner

/-! ## Chains -/

/-- Operands of one level, with operators of the level between them. An operand alone is no chain.
-/
def chainOf (level : ChainLevel) (operand : Rule Node) : Rule Node := do
  match ← chain level.ofToken? operand operand with
  | (first, []) => return first
  | (first, others) => return .of (.chain level first others)

/-- `StepExpr (("/" | "//") StepExpr)*`. -/
def relativePath : Rule Node := chainOf .relativePath (stepExpr inner)

/-- The path after a slash. -/
def pathAfter (leading : PathOp) : Rule Node := fun ts =>
  match relativePath inner ts with
  | .ok (relative, more) => .ok (.of (.path leading (some relative)), more)
  | .error e =>
    match leading, e with
    | .slash, .unexpected at' _ =>
      let step := Token.skipSpace ts
      if at'.length = step.length ∧ !canStartStep step then .ok (.of (.path .slash none), ts)
      else .error e
    | _, _ => .error e

/-- A path with or without a leading slash. -/
def pathExpr : Rule Node := do
  space
  match (← rest).head?.bind Spelled.ofToken? with
  | some leading =>
    advance
    pathAfter inner leading
  | none => relativePath inner

end XPath.Grammar
