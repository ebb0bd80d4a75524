/-!
# Kinds of grammar constructs

The name of every construct, in the order of the grammar: expressions from the loosest to the
primaries, then types, then names. Constructs that are no expressions of their own are listed where
they occur: bindings, predicates, argument lists.
-/

namespace XPath

/-- The constructs of the grammar, those that are no expressions included. -/
inductive Kind where
  | expr
  | forExpr
  | letExpr
  | quantifiedExpr
  | ifExpr
  | simpleBinding
  | orExpr
  | andExpr
  | comparisonExpr
  | stringConcatExpr
  | rangeExpr
  | additiveExpr
  | multiplicativeExpr
  | unionExpr
  | intersectExceptExpr
  | instanceOfExpr
  | treatExpr
  | castableExpr
  | castExpr
  | arrowExpr
  | arrowFunctionExpr
  | unaryExpr
  | simpleMapExpr
  | pathExpr
  | relativePathExpr
  | axisStep
  | parentAxisStep
  | postfixExpr
  | predicate
  | argumentList
  | lookup
  | parenthesizedExpr
  | contextItemExpr
  | varRef
  | functionCall
  | argumentPlaceholder
  | namedFunctionRef
  | inlineFunctionExpr
  | paramList
  | param
  | enclosedExpr
  | mapConstructor
  | squareArrayConstructor
  | curlyArrayConstructor
  | unaryLookup
  | integerLiteral
  | decimalLiteral
  | doubleLiteral
  | stringLiteral
  | sequenceType
  | emptySequenceType
  | singleType
  | anyItemType
  | parenthesizedItemType
  | functionTest
  | mapTest
  | arrayTest
  | documentTest
  | elementTest
  | attributeTest
  | schemaElementTest
  | schemaAttributeTest
  | piTest
  | commentTest
  | textTest
  | namespaceNodeTest
  | anyKindTest
  | ncName
  | qName
  | uriQualifiedName
  | bracedUriLiteral
  | wildcard
  | nsWildcard
  deriving DecidableEq

namespace Kind

/-- The name of the construct in the grammar, as errors and outlines have it. -/
def name : Kind → String
  | expr => "Expr"
  | forExpr => "ForExpr"
  | letExpr => "LetExpr"
  | quantifiedExpr => "QuantifiedExpr"
  | ifExpr => "IfExpr"
  | simpleBinding => "SimpleBinding"
  | orExpr => "OrExpr"
  | andExpr => "AndExpr"
  | comparisonExpr => "ComparisonExpr"
  | stringConcatExpr => "StringConcatExpr"
  | rangeExpr => "RangeExpr"
  | additiveExpr => "AdditiveExpr"
  | multiplicativeExpr => "MultiplicativeExpr"
  | unionExpr => "UnionExpr"
  | intersectExceptExpr => "IntersectExceptExpr"
  | instanceOfExpr => "InstanceofExpr"
  | treatExpr => "TreatExpr"
  | castableExpr => "CastableExpr"
  | castExpr => "CastExpr"
  | arrowExpr => "ArrowExpr"
  | arrowFunctionExpr => "ArrowFunctionExpr"
  | unaryExpr => "UnaryExpr"
  | simpleMapExpr => "SimpleMapExpr"
  | pathExpr => "PathExpr"
  | relativePathExpr => "RelativePathExpr"
  | axisStep => "AxisStep"
  | parentAxisStep => "ParentAxisStep"
  | postfixExpr => "PostfixExpr"
  | predicate => "Predicate"
  | argumentList => "ArgumentList"
  | lookup => "Lookup"
  | parenthesizedExpr => "ParenthesizedExpr"
  | contextItemExpr => "ContextItemExpr"
  | varRef => "VarRef"
  | functionCall => "FunctionCall"
  | argumentPlaceholder => "ArgumentPlaceholder"
  | namedFunctionRef => "NamedFunctionRef"
  | inlineFunctionExpr => "InlineFunctionExpr"
  | paramList => "ParamList"
  | param => "Param"
  | enclosedExpr => "EnclosedExpr"
  | mapConstructor => "MapCons"
  | squareArrayConstructor => "SquareArrayCons"
  | curlyArrayConstructor => "CurlyArrayCons"
  | unaryLookup => "UnaryLookup"
  | integerLiteral => "IntegerLiteral"
  | decimalLiteral => "DecimalLiteral"
  | doubleLiteral => "DoubleLiteral"
  | stringLiteral => "StringLiteral"
  | sequenceType => "SequenceType"
  | emptySequenceType => "EmptySequenceType"
  | singleType => "SingleType"
  | anyItemType => "AnyItemType"
  | parenthesizedItemType => "ParenthesizedItemType"
  | functionTest => "FunctionTest"
  | mapTest => "MapTest"
  | arrayTest => "ArrayTest"
  | documentTest => "DocumentTest"
  | elementTest => "ElementTest"
  | attributeTest => "AttributeTest"
  | schemaElementTest => "SchemaElementTest"
  | schemaAttributeTest => "SchemaAttributeTest"
  | piTest => "PITest"
  | commentTest => "CommentTest"
  | textTest => "TextTest"
  | namespaceNodeTest => "NamespaceNodeTest"
  | anyKindTest => "AnyKindTest"
  | ncName => "NCName"
  | qName => "QName"
  | uriQualifiedName => "URIQualifiedName"
  | bracedUriLiteral => "BracedURILiteral"
  | wildcard => "Wildcard"
  | nsWildcard => "NsWildcard"

/-- Every kind, in the order of the grammar. -/
def all : List Kind :=
  [expr, forExpr, letExpr, quantifiedExpr, ifExpr, simpleBinding, orExpr, andExpr, comparisonExpr,
    stringConcatExpr, rangeExpr, additiveExpr, multiplicativeExpr, unionExpr, intersectExceptExpr,
    instanceOfExpr, treatExpr, castableExpr, castExpr, arrowExpr, arrowFunctionExpr, unaryExpr,
    simpleMapExpr, pathExpr, relativePathExpr, axisStep, parentAxisStep, postfixExpr, predicate,
    argumentList, lookup, parenthesizedExpr, contextItemExpr, varRef, functionCall,
    argumentPlaceholder, namedFunctionRef, inlineFunctionExpr, paramList, param, enclosedExpr,
    mapConstructor, squareArrayConstructor, curlyArrayConstructor, unaryLookup, integerLiteral,
    decimalLiteral, doubleLiteral, stringLiteral, sequenceType, emptySequenceType, singleType,
    anyItemType, parenthesizedItemType, functionTest, mapTest, arrayTest, documentTest,
    elementTest, attributeTest, schemaElementTest, schemaAttributeTest, piTest, commentTest,
    textTest, namespaceNodeTest, anyKindTest, ncName, qName, uriQualifiedName, bracedUriLiteral,
    wildcard, nsWildcard]

/-- No kind is missing in the list. -/
theorem mem_all (k : Kind) : k ∈ all := by
  cases k <;> decide

end Kind

end XPath
