import XPath.Grammar.SequenceType
import XPath.Indexed.Name

/-!
# Types at an index

Kind tests, sequence types and item types. Item types nest; the rule for the item types inside is
handed on (`inner`), and `itemType` counts the levels that are left.
-/

namespace XPath.Input

variable (input : Input) {α : Type}

/-! ## Kind tests -/

/-- `keyword(body)` -/
def call (keyword : Token) (body : IndexRule α) : IndexRule α := fun i => do
  input.bracketed "(" ")" keyword body (← input.expect keyword keyword i)

/-- A name, or a star for all names. -/
def nameOrWildcard : IndexRule NameOrWildcard := fun i =>
  let here := input.skipSpace i
  if input.get here = some "*" then return (.wildcard, here + 1)
  else input.eqName.map .name here

/-- `element(name, type?)` -/
def elementTest : IndexRule ElementTest :=
  input.call "element" fun i => do
    if input.isNext ")" i then return (⟨none, none, false⟩, i)
    let (name, next) ← input.nameOrWildcard i
    if input.isNext "," next then
      (input.marked "?" input.eqName).map
        (fun (typeName, nillable) => ⟨some name, some typeName, nillable⟩)
        (input.skipSpace next + 1)
    else return (⟨some name, none, false⟩, next)

/-- `attribute(name, type)` -/
def attributeTest : IndexRule AttributeTest :=
  input.call "attribute" fun i => do
    if input.isNext ")" i then return (⟨none, none⟩, i)
    let (name, next) ← input.nameOrWildcard i
    if input.isNext "," next then
      input.eqName.map (fun typeName => ⟨some name, some typeName⟩) (input.skipSpace next + 1)
    else return (⟨some name, none⟩, next)

/-- `schema-element(name)` -/
def schemaElement : IndexRule EQName := input.call "schema-element" input.eqName

/-- `schema-attribute(name)` -/
def schemaAttribute : IndexRule EQName := input.call "schema-attribute" input.eqName

/-- `document-node(content)` -/
def documentTest : IndexRule (Option DocumentContent) :=
  input.call "document-node" fun i =>
    let here := input.skipSpace i
    match input.get here with
    | some ")" => return (none, i)
    | some "element" => input.elementTest.map (fun t => some (.element t)) here
    | some "schema-element" => input.schemaElement.map (fun n => some (.schemaElement n)) here
    | _ => .error (input.unexpected here "ElementTest or SchemaElementTest")

/-- `processing-instruction(target)` -/
def piTest : IndexRule (Option PITarget) :=
  input.call "processing-instruction" fun i =>
    let here := input.skipSpace i
    match input.get here with
    | none => .error (input.unexpected here "NCName or StringLiteral")
    | some t =>
      if t = ")" then return (none, i)
      else if t.isQuote then input.stringLiteral.map (fun s => some (.literal s)) here
      else if Text.startsName t then input.ncName.map (fun n => some (.name n)) here
      else .error (input.unexpected here "NCName or StringLiteral")

/-- `keyword()` -/
def emptyKind (keyword : Token) (test : KindTest) : IndexRule KindTest :=
  input.call keyword fun i => return (test, i)

/-- The test that a keyword begins. -/
def kindTestOf (keyword : Token) : Option (IndexRule KindTest) :=
  match keyword with
  | "document-node" => some (input.documentTest.map .document)
  | "element" => some (input.elementTest.map .element)
  | "attribute" => some (input.attributeTest.map .attr)
  | "schema-element" => some (input.schemaElement.map .schemaElement)
  | "schema-attribute" => some (input.schemaAttribute.map .schemaAttribute)
  | "processing-instruction" => some (input.piTest.map .processingInstruction)
  | "comment" => some (input.emptyKind "comment" .comment)
  | "text" => some (input.emptyKind "text" .text)
  | "namespace-node" => some (input.emptyKind "namespace-node" .namespaceNode)
  | "node" => some (input.emptyKind "node" .anyKind)
  | _ => none

/-- A kind test of any keyword. -/
def kindTest : IndexRule KindTest := fun i =>
  let here := input.skipSpace i
  match (input.get here).bind input.kindTestOf with
  | some test => test here
  | none => .error (input.unexpected here "KindTest")

/-- A kind test, or a name test. -/
def nodeTest : IndexRule NodeTest := fun i =>
  let here := input.skipSpace i
  if (input.get here).any KindTest.isKeyword && input.isNext "(" (here + 1) then
    input.kindTest.map .kindTest here
  else input.nameTest.map .nameTest here

/-! ## Types -/

/-- A name, with a question mark or without one. -/
def singleType : IndexRule SingleType :=
  (input.marked "?" input.eqName).map fun (name, optional) => ⟨name, optional⟩

/-- Both parentheses of `item()` or `empty-sequence()`. -/
def emptyCall (owner : String) (value : α) : IndexRule α := fun i => do
  let next ← input.expect "(" owner i
  return (value, ← input.expect ")" owner next)

/-- `empty-sequence()`, or an item type and how often it may occur. -/
def sequenceType (inner : IndexRule ItemType) : IndexRule SequenceType := fun i => do
  let here := input.skipSpace i
  if input.get here = some "empty-sequence" ∧ input.isNext "(" (here + 1) then
    input.emptyCall "EmptySequenceType" .empty (here + 1)
  else
    let (type, next) ← inner here
    (input.operator? Spelled.ofToken?).map (.items type) next

/-- `keyword(*)`, or `keyword(body)`. -/
def callOrAny (keyword : Token) (body : IndexRule α) : IndexRule (Option α) :=
  input.call keyword fun i =>
    if input.isNext "*" i then return (none, input.skipSpace i + 1)
    else body.map some i

/-- `function(*)`, or `function(params) as result`. -/
def functionTest (inner : IndexRule ItemType) : IndexRule ItemType := fun i => do
  match ← input.callOrAny "function" (input.separated ")" (input.sequenceType inner)) i with
  | (none, next) => return (.anyFunction, next)
  | (some params, next) =>
    let next ← input.expect "as" "TypedFunctionTest" next
    (input.sequenceType inner).map (.function params) next

/-- `map(*)`, or `map(key, value)`. -/
def mapTest (inner : IndexRule ItemType) : IndexRule ItemType := fun i => do
  let parts ← input.callOrAny "map" (fun i => do
    let (key, next) ← input.eqName i
    let next ← input.expect "," "TypedMapTest" next
    (input.sequenceType inner).map (fun value => (key, value)) next) i
  match parts with
  | (none, next) => return (.anyMap, next)
  | (some (key, value), next) => return (.map key value, next)

/-- `array(*)`, or `array(member)`. -/
def arrayTest (inner : IndexRule ItemType) : IndexRule ItemType := fun i => do
  match ← input.callOrAny "array" (input.sequenceType inner) i with
  | (none, next) => return (.anyArray, next)
  | (some member, next) => return (.array member, next)

/-- An item type in parentheses, or the name of an atomic one. -/
def parenthesizedOrAtomic (inner : IndexRule ItemType) : IndexRule ItemType := fun here =>
  if input.get here = some "(" then
    input.enclosed here do
      let (type, next) ← inner (here + 1)
      return (.parenthesized type, ← input.expect ")" "ParenthesizedItemType" next)
  else input.eqName.map .atomic here

/-- An item type that starts here, with the rule for the item types it contains. -/
def itemTypeHere (inner : IndexRule ItemType) : IndexRule ItemType := fun here =>
  if input.isNext "(" (here + 1) then
    match input.get here with
    | some "item" => input.emptyCall "ItemType" .any (here + 1)
    | some "function" => input.functionTest inner here
    | some "map" => input.mapTest inner here
    | some "array" => input.arrayTest inner here
    | some keyword =>
      if KindTest.isKeyword keyword then input.kindTest.map .kindTest here
      else input.parenthesizedOrAtomic inner here
    | none => input.parenthesizedOrAtomic inner here
  else input.parenthesizedOrAtomic inner here

/-- An item type with at most so many levels of nesting. -/
def itemType : (levels : Nat) → IndexRule ItemType
  | 0, i => .error (.tooDeep input.maxDepth (input.skipSpace i))
  | levels + 1, i => input.itemTypeHere (itemType levels) (input.skipSpace i)

end XPath.Input
