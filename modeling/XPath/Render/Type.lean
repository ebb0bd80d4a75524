import XPath.Render.Piece
import XPath.SequenceType

/-!
# Rendering of names and types
-/

namespace XPath

open Piece

/-- The name is one token. -/
def NCName.pieces (n : NCName) : List Piece := [.text n.text]

/-- A prefix and a colon stand in front of a name, or a URI in braces. -/
def EQName.pieces : EQName → List Piece
  | qName none n => n.pieces
  | qName (some p) n => p.pieces ++ [.text ":"] ++ n.pieces
  | uriQualified uri n => [.bracedUri uri] ++ n.pieces

/-- The wildcard stands for the part of the name that is left open. -/
def NsWildcard.pieces : NsWildcard → List Piece
  | anyLocal p => p.pieces ++ [.text ":", .text "*"]
  | anyNamespace n => [.text "*", .text ":"] ++ n.pieces
  | anyLocalIn uri => [.bracedUri uri, .text "*"]

/-- The name or the wildcard that is tested for. -/
def NameTest.pieces : NameTest → List Piece
  | name n => n.pieces
  | wildcard => [.text "*"]
  | nsWildcard w => w.pieces

/-- The name, or `*`. -/
def NameOrWildcard.pieces : NameOrWildcard → List Piece
  | name n => n.pieces
  | wildcard => [.text "*"]

/-- `keyword(body)` -/
def callPieces (keyword : Token) (body : List Piece) : List Piece :=
  [.text keyword, .text "("] ++ body ++ [.text ")"]

/-! ## Kind tests -/

/-- A type name is written only after a name. -/
def ElementTest.pieces (t : ElementTest) : List Piece :=
  match t.name, t.typeName with
  | none, _ => []
  | some n, none => n.pieces
  | some n, some type =>
    n.pieces ++ [.text ",", .gap] ++ type.pieces ++ if t.nillable then [.text "?"] else []

/-- What stands between the parentheses: a name, and a type behind a comma. -/
def AttributeTest.pieces (t : AttributeTest) : List Piece :=
  match t.name, t.typeName with
  | none, _ => []
  | some n, none => n.pieces
  | some n, some type => n.pieces ++ [.text ",", .gap] ++ type.pieces

/-- The test of the element that a document has. -/
def DocumentContent.pieces : DocumentContent → List Piece
  | element t => callPieces "element" t.pieces
  | schemaElement n => callPieces "schema-element" n.pieces

/-- The target as a name or as a string. -/
def PITarget.pieces : PITarget → List Piece
  | name n => n.pieces
  | literal s => [.string s]

/-- The keyword of the test, and in parentheses what it tests for. -/
def KindTest.pieces : KindTest → List Piece
  | document c => callPieces "document-node" (c.elim [] (·.pieces))
  | element t => callPieces "element" t.pieces
  | attr t => callPieces "attribute" t.pieces
  | schemaElement n => callPieces "schema-element" n.pieces
  | schemaAttribute n => callPieces "schema-attribute" n.pieces
  | processingInstruction t => callPieces "processing-instruction" (t.elim [] (·.pieces))
  | comment => callPieces "comment" []
  | text => callPieces "text" []
  | namespaceNode => callPieces "namespace-node" []
  | anyKind => callPieces "node" []

/-- The test as it is. -/
def NodeTest.pieces : NodeTest → List Piece
  | kindTest t => t.pieces
  | nameTest t => t.pieces

/-! ## Types -/

/-- The type, with its mark behind it. -/
def SingleType.pieces (t : SingleType) : List Piece :=
  t.name.pieces ++ if t.optional then [.text "?"] else []

mutual
/-- The item type, with the mark for the number of items behind it. -/
def SequenceType.pieces : SequenceType → List Piece
  | .empty => callPieces "empty-sequence" []
  | .items type occurrence =>
    type.pieces ++ (occurrence.map fun o => .text (Spelled.spelling o)).toList

/-- A type with types for its parts is written as a call of them. -/
def ItemType.pieces : ItemType → List Piece
  | .any => callPieces "item" []
  | .kindTest t => t.pieces
  | .anyFunction => callPieces "function" [.text "*"]
  | .function params result =>
    callPieces "function" (commaSeparated (SequenceType.piecesAll params)) ++ keyword "as" ++
      result.pieces
  | .anyMap => callPieces "map" [.text "*"]
  | .map key value => callPieces "map" (key.pieces ++ [.text ",", .gap] ++ value.pieces)
  | .anyArray => callPieces "array" [.text "*"]
  | .array member => callPieces "array" member.pieces
  | .atomic name => name.pieces
  | .parenthesized inner => [.text "("] ++ inner.pieces ++ [.text ")"]

/-- Each type by itself. -/
def SequenceType.piecesAll : List SequenceType → List (List Piece)
  | [] => []
  | t :: ts => t.pieces :: SequenceType.piecesAll ts
end

end XPath
