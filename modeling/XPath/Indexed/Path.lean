import XPath.Grammar.Path
import XPath.Indexed.Primary

/-!
# Paths at an index

Looking ahead goes to indices further on and comes back. Whether a slash stands alone is decided by
comparing two indices: where the path after it fails, and where its first step would have to be
(`pathExpr`).
-/

namespace XPath.Input

variable (input : Input) (inner : Nested)

/-! ## Looking ahead -/

/-- A primary expression may start here, rather than an axis step. -/
def couldBePrimary (i : Nat) : Bool :=
  match input.get i with
  | none => false
  | some t =>
    ["(", ".", "$", "?", "[", "'", "\""].contains t ||
      t == "function" && input.isNext "(" (i + 1) ||
      (t == "map" || t == "array") && input.isNext "\x7b" (i + 1) || t.isDigits ||
      match input.eqName i with
      | .ok (name, next) =>
        input.isNext "#" next || input.isNext "(" next && !Grammar.isReserved name
      | .error _ => false

/-- The axis here, if colons come after it. -/
def axisHere? (i : Nat) : Option Axis :=
  if input.isNext "::" (i + 1) then (input.get i).bind Spelled.ofToken? else none

/-- Some step begins with the token here. -/
def canStartStep (i : Nat) : Bool := Grammar.canStartStep (input.get i).toList

/-! ## Steps -/

/-- The next suffix of a primary expression, if one follows. -/
def suffix? : IndexRule (Option (Suffix Node)) := fun i =>
  let here := input.skipSpace i
  match input.get here with
  | some "[" => (input.predicate inner).map (fun n => some (.predicate n)) here
  | some "(" => (input.argumentList inner).map (fun args => some (.arguments args)) here
  | some "?" =>
    (input.after "?" "Lookup" (input.keySpecifier inner)).map (fun key => some (.lookup key)) here
  | _ => return (none, i)

/-- A primary expression with its suffixes. -/
def suffixedExpr : IndexRule Node := fun i => do
  let (primary, next) ← input.primaryExpr inner i
  match ← input.many (input.suffix? inner) next with
  | ([], next) => return (primary, next)
  | (suffixes, next) => return (.of (.suffixed primary suffixes), next)

/-- The axis in front of a node test, if one is written, and the index after it. -/
def axis? (i : Nat) : Option StepAxis × Nat :=
  if input.get i = some "@" then (some .atSign, i + 1)
  else
    match input.axisHere? i with
    | some axis => (some (.named axis), input.skipSpace (i + 1) + 1)
    | none => (none, i)

/-- The next predicate, if one follows. -/
def predicate? : IndexRule (Option Node) := fun i =>
  if input.isNext "[" i then (input.predicate inner).map some i else return (none, i)

/-- An axis, a node test and predicates. -/
def axisStep : IndexRule Node := fun i => do
  let here := input.skipSpace i
  if input.get here = some ".." then return (.of .parentStep, here + 1)
  else
    let (axis, next) := input.axis? here
    let (test, next) ← input.nodeTest next
    (input.many (input.predicate? inner)).map
      (fun predicates => .of (.axisStep axis test predicates)) next

/-- A step of either kind. -/
def stepExpr : IndexRule Node := fun i =>
  let here := input.skipSpace i
  if (input.axisHere? here).isNone && input.couldBePrimary here then input.suffixedExpr inner here
  else input.axisStep inner here

/-! ## Paths -/

/-- Operands of one level, with operators of the level between them. An operand alone is no
chain. -/
def chainOf (level : ChainLevel) (operand : IndexRule Node) : IndexRule Node := fun i => do
  match ← input.chain level.ofToken? operand operand i with
  | ((first, []), next) => return (first, next)
  | ((first, others), next) => return (.of (.chain level first others), next)

/-- A path without a slash in front. -/
def relativePath : IndexRule Node := input.chainOf .relativePath (input.stepExpr inner)

/-- The path after a slash. If it fails right where its first step would have to be, and no step
begins there, the slash stands alone. -/
def pathAfter (leading : PathOp) : IndexRule Node := fun i =>
  match input.relativePath inner i with
  | .ok (relative, next) => .ok (.of (.path leading (some relative)), next)
  | .error (.unexpectedToken position found expected) =>
    if leading = .slash ∧ position = input.skipSpace i ∧
      !input.canStartStep (input.skipSpace i) then
      .ok (.of (.path .slash none), i)
    else .error (.unexpectedToken position found expected)
  | .error e => .error e

/-- A path, from the root or a relative one. -/
def pathExpr : IndexRule Node := fun i =>
  let here := input.skipSpace i
  match (input.get here).bind Spelled.ofToken? with
  | some leading => input.pathAfter inner leading (here + 1)
  | none => input.relativePath inner here

end XPath.Input
