import XPath.Name
import XPath.Operator

/-!
# Sequence types

What an expression may be declared to return: no item at all, or items of one type in some number.
Item types contain sequence types again, as the parameters and results of functions and the members
of maps and arrays.
-/

namespace XPath

/-! ## Kind tests -/

/-- A test for elements, by their name and their type. -/
structure ElementTest where
  name : Option NameOrWildcard
  typeName : Option EQName
  /-- A `?` after the type name. -/
  nillable : Bool
  deriving DecidableEq

/-- A test for attributes, by their name and their type. -/
structure AttributeTest where
  name : Option NameOrWildcard
  typeName : Option EQName
  deriving DecidableEq

/-- What a document node has to contain. -/
inductive DocumentContent where
  | element (test : ElementTest)
  | schemaElement (name : EQName)
  deriving DecidableEq

/-- The target of a processing instruction, as a name or as a string. -/
inductive PITarget where
  | name (name : NCName)
  | literal (text : String)
  deriving DecidableEq

/-- A test for the kind of a node. -/
inductive KindTest where
  | document (content : Option DocumentContent)
  | element (test : ElementTest)
  | attr (test : AttributeTest)
  | schemaElement (name : EQName)
  | schemaAttribute (name : EQName)
  | processingInstruction (target : Option PITarget)
  | comment
  | text
  | namespaceNode
  | anyKind
  deriving DecidableEq

namespace KindTest

/-- The construct of the grammar that the test is. -/
def kind : KindTest → Kind
  | document _ => .documentTest
  | element _ => .elementTest
  | attr _ => .attributeTest
  | schemaElement _ => .schemaElementTest
  | schemaAttribute _ => .schemaAttributeTest
  | processingInstruction _ => .piTest
  | comment => .commentTest
  | text => .textTest
  | namespaceNode => .namespaceNodeTest
  | anyKind => .anyKindTest

/-- The words that make a kind test when a parenthesis follows. -/
def keywords : List Token :=
  ["document-node", "element", "attribute", "schema-element", "schema-attribute",
    "processing-instruction", "comment", "text", "namespace-node", "node"]

/-- Whether a kind test may begin with this token. -/
def isKeyword (t : Token) : Bool := keywords.contains t

end KindTest

/-- A test for a node, by its kind or by its name. -/
inductive NodeTest where
  | kindTest (test : KindTest)
  | nameTest (test : NameTest)
  deriving DecidableEq

/-- The construct of the grammar that the test is. -/
def NodeTest.kind : NodeTest → Kind
  | kindTest t => t.kind
  | nameTest t => t.kind

/-! ## Types -/

/-- The target of a cast: an atomic type, `?` if the empty sequence is one of its values. -/
structure SingleType where
  name : EQName
  optional : Bool
  deriving DecidableEq

mutual
/-- How many items of which type there are. -/
inductive SequenceType where
  | empty
  | items (type : ItemType) (occurrence : Option Occurrence)

/-- The type of one item. Types of functions, maps and arrays are made of other types. -/
inductive ItemType where
  | any
  | kindTest (test : KindTest)
  | anyFunction
  | function (params : List SequenceType) (result : SequenceType)
  | anyMap
  | map (key : EQName) (value : SequenceType)
  | anyArray
  | array (member : SequenceType)
  | atomic (name : EQName)
  | parenthesized (inner : ItemType)
end

/-- The construct of the grammar that the type is. -/
def SequenceType.kind : SequenceType → Kind
  | .empty => .emptySequenceType
  | .items _ _ => .sequenceType

/-- The construct of the grammar that the type is. -/
def ItemType.kind : ItemType → Kind
  | .any => .anyItemType
  | .kindTest test => test.kind
  | .anyFunction | .function _ _ => .functionTest
  | .anyMap | .map _ _ => .mapTest
  | .anyArray | .array _ => .arrayTest
  | .atomic name => name.kind
  | .parenthesized _ => .parenthesizedItemType

/-! ## Equality -/

mutual
/-- Equality, part by part. -/
def SequenceType.beq : SequenceType → SequenceType → Bool
  | .empty, .empty => true
  | .items s m, .items t n => s.beq t && m == n
  | _, _ => false

/-- Equality, part by part. -/
def ItemType.beq : ItemType → ItemType → Bool
  | .any, .any | .anyFunction, .anyFunction | .anyMap, .anyMap | .anyArray, .anyArray => true
  | .kindTest s, .kindTest t => s == t
  | .function ps r, .function qs s => SequenceType.beqAll ps qs && r.beq s
  | .map k v, .map l w => k == l && v.beq w
  | .array m, .array n => m.beq n
  | .atomic m, .atomic n => m == n
  | .parenthesized s, .parenthesized t => s.beq t
  | _, _ => false

/-- Equality of lists of types. -/
def SequenceType.beqAll : List SequenceType → List SequenceType → Bool
  | [], [] => true
  | s :: ss, t :: ts => s.beq t && SequenceType.beqAll ss ts
  | _, _ => false
end

mutual
/-- Types of equal parts are equal, and only these. -/
theorem SequenceType.beq_iff : ∀ s t : SequenceType, s.beq t ↔ s = t
  | .empty, t => by cases t <;> simp [SequenceType.beq]
  | .items s m, t => by cases t <;> simp [SequenceType.beq, ItemType.beq_iff s]

theorem ItemType.beq_iff : ∀ s t : ItemType, s.beq t ↔ s = t
  | .any, t | .anyFunction, t | .anyMap, t | .anyArray, t => by cases t <;> simp [ItemType.beq]
  | .kindTest s, t | .atomic s, t => by cases t <;> simp [ItemType.beq]
  | .function ps r, t => by
    cases t <;> simp [ItemType.beq, SequenceType.beqAll_iff ps, SequenceType.beq_iff r]
  | .map k v, t => by cases t <;> simp [ItemType.beq, SequenceType.beq_iff v]
  | .array m, t => by cases t <;> simp [ItemType.beq, SequenceType.beq_iff m]
  | .parenthesized s, t => by cases t <;> simp [ItemType.beq, ItemType.beq_iff s]

theorem SequenceType.beqAll_iff : ∀ ss ts : List SequenceType, SequenceType.beqAll ss ts ↔ ss = ts
  | [], ts => by cases ts <;> simp [SequenceType.beqAll]
  | s :: ss, ts => by
    cases ts <;> simp [SequenceType.beqAll, SequenceType.beq_iff s, SequenceType.beqAll_iff ss]
end

instance : DecidableEq SequenceType := fun s t => decidable_of_iff _ (SequenceType.beq_iff s t)

instance : DecidableEq ItemType := fun s t => decidable_of_iff _ (ItemType.beq_iff s t)

end XPath
