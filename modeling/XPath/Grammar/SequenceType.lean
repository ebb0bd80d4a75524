import XPath.Grammar.Literal
import XPath.Grammar.Name

/-!
# Rules for types

A keyword starts a type or a kind test of its own only in front of a parenthesis; otherwise it is
the name of an atomic type. Item types nest, so the rules that contain them take the rule for the
item types inside (`inner`), and `itemType` hands each nesting one level less.
-/

namespace XPath.Grammar

open Rule

/-! ## Kind tests -/

/-- `keyword(body)` -/
def call {α : Type} (keyword : Token) (body : Rule α) : Rule α := do
  expect keyword keyword
  bracketed "(" ")" keyword body

/-- `EQName | "*"`. -/
def nameOrWildcard : Rule NameOrWildcard := do
  space
  if ← take? "*" then return .wildcard
  else return .name (← eqName)

/-- `"element" "(" (ElementNameOrWildcard ("," TypeName "?"?)?)? ")"`. -/
def elementTest : Rule ElementTest :=
  call "element" do
    if isNext ")" (← rest) then return ⟨none, none, false⟩
    let name ← nameOrWildcard
    if ← skip? "," then
      let (typeName, nillable) ← marked "?" eqName
      return ⟨some name, some typeName, nillable⟩
    return ⟨some name, none, false⟩

/-- `"attribute" "(" (AttribNameOrWildcard ("," TypeName)?)? ")"`. -/
def attributeTest : Rule AttributeTest :=
  call "attribute" do
    if isNext ")" (← rest) then return ⟨none, none⟩
    let name ← nameOrWildcard
    if ← skip? "," then return ⟨some name, some (← eqName)⟩
    return ⟨some name, none⟩

/-- `"schema-element" "(" ElementDeclaration ")"`. -/
def schemaElement : Rule EQName := call "schema-element" eqName

/-- `"schema-attribute" "(" AttributeDeclaration ")"`. -/
def schemaAttribute : Rule EQName := call "schema-attribute" eqName

/-- `"document-node" "(" (ElementTest | SchemaElementTest)? ")"`. -/
def documentTest : Rule (Option DocumentContent) :=
  call "document-node" do
    match (Token.skipSpace (← rest)).head? with
    | some ")" => return none
    | some "element" =>
      space
      return some (.element (← elementTest))
    | some "schema-element" =>
      space
      return some (.schemaElement (← schemaElement))
    | _ =>
      space
      fail "ElementTest or SchemaElementTest"

/-- `"processing-instruction" "(" (NCName | StringLiteral)? ")"`. -/
def piTest : Rule (Option PITarget) :=
  call "processing-instruction" do
    match (Token.skipSpace (← rest)).head? with
    | none =>
      space
      fail "NCName or StringLiteral"
    | some t =>
      if t = ")" then return none
      space
      if t.isQuote then return some (.literal (← stringLiteral))
      else if Text.startsName t then return some (.name (← ncName))
      else fail "NCName or StringLiteral"

/-- The test that a keyword begins. -/
def kindTestOf (keyword : Token) : Option (Rule KindTest) :=
  match keyword with
  | "document-node" => some (KindTest.document <$> documentTest)
  | "element" => some (KindTest.element <$> elementTest)
  | "attribute" => some (KindTest.attr <$> attributeTest)
  | "schema-element" => some (KindTest.schemaElement <$> schemaElement)
  | "schema-attribute" => some (KindTest.schemaAttribute <$> schemaAttribute)
  | "processing-instruction" => some (KindTest.processingInstruction <$> piTest)
  | "comment" => some (call "comment" (pure KindTest.comment))
  | "text" => some (call "text" (pure KindTest.text))
  | "namespace-node" => some (call "namespace-node" (pure KindTest.namespaceNode))
  | "node" => some (call "node" (pure KindTest.anyKind))
  | _ => none

/-- The keyword says which test it is. -/
def kindTest : Rule KindTest := do
  space
  match (← rest).head?.bind kindTestOf with
  | some test => test
  | none => fail "KindTest"

/-- A kind test's keyword and a parenthesis. -/
def startsKindTest : List Token → Bool
  | t :: ts => KindTest.isKeyword t && isNext "(" ts
  | [] => false

/-- `KindTest | NameTest`. -/
def nodeTest : Rule NodeTest := do
  space
  if startsKindTest (← rest) then return .kindTest (← kindTest)
  else return .nameTest (← nameTest)

/-! ## Types -/

/-- `SimpleTypeName "?"?`. -/
def singleType : Rule SingleType := do
  let (name, optional) ← marked "?" eqName
  return ⟨name, optional⟩

/-- An item type and how many items there are, or `empty-sequence()`. -/
def sequenceType (inner : Rule ItemType) : Rule SequenceType := do
  space
  match ← rest with
  | "empty-sequence" :: ts =>
    if isNext "(" ts then
      advance
      expect "(" "EmptySequenceType"
      expect ")" "EmptySequenceType"
      return .empty
    else return .items (← inner) (← operator? Spelled.ofToken?)
  | _ => return .items (← inner) (← operator? Spelled.ofToken?)

/-- `keyword(*)`, or `keyword(body)`. -/
def callOrAny {α : Type} (keyword : Token) (body : Rule α) : Rule (Option α) :=
  call keyword do
    if ← skip? "*" then return none
    else return some (← body)

/-- `AnyFunctionTest | TypedFunctionTest`. -/
def functionTest (inner : Rule ItemType) : Rule ItemType := do
  match ← callOrAny "function" (separated ")" (sequenceType inner)) with
  | none => return .anyFunction
  | some params =>
    expect "as" "TypedFunctionTest"
    return .function params (← sequenceType inner)

/-- `AnyMapTest | TypedMapTest`. -/
def mapTest (inner : Rule ItemType) : Rule ItemType := do
  let parts ← callOrAny "map" do
    let key ← eqName
    expect "," "TypedMapTest"
    return (key, ← sequenceType inner)
  match parts with
  | none => return .anyMap
  | some (key, value) => return .map key value

/-- `AnyArrayTest | TypedArrayTest`. -/
def arrayTest (inner : Rule ItemType) : Rule ItemType := do
  match ← callOrAny "array" (sequenceType inner) with
  | none => return .anyArray
  | some member => return .array member

/-- An item type that starts here, with the rule for the item types it contains. -/
def itemTypeHere (inner : Rule ItemType) : Rule ItemType := do
  match ← rest with
  | [] => return .atomic (← eqName)
  | t :: ts =>
    if isNext "(" ts then
      match t with
      | "item" =>
        advance
        expect "(" "ItemType"
        expect ")" "ItemType"
        return .any
      | "function" => functionTest inner
      | "map" => mapTest inner
      | "array" => arrayTest inner
      | _ =>
        if KindTest.isKeyword t then return .kindTest (← kindTest)
        else parenthesizedOrAtomic t
    else parenthesizedOrAtomic t
where
  parenthesizedOrAtomic (t : Token) : Rule ItemType := do
    if t = "(" then
      let bracket ← rest
      advance
      enclosed bracket do
        let type ← inner
        expect ")" "ParenthesizedItemType"
        return .parenthesized type
    else return .atomic (← eqName)

/-- An item type with at most so many levels of nesting. -/
def itemType : (levels : Nat) → Rule ItemType
  | 0 => do
    space
    tooDeep
  | levels + 1 => do
    space
    itemTypeHere (itemType levels)

end XPath.Grammar
