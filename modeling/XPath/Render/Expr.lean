import XPath.Render.Type
import XPath.Token.Join
import XPath.Token.Lexer
import XPath.Tree
import XPath.Value.Decimal.Text
import XPath.Value.Double.Text

/-!
# Rendering of expressions

An expression is rendered into tokens, and the tokens into text (`Tree.text`). Operators have space
around them, except for the slashes of a path; lists have it after their commas, enclosed
expressions inside their braces. Parentheses are those of the tree: what an operator applies to is
written as it is.

A number is written as its text and split into tokens the way that text would be.
-/

namespace XPath

open Piece

/-- A text as the tokens it is read as, or as one token if it is none. -/
def readPieces (s : String) : List Piece :=
  match tokenize s with
  | .ok ts => ofTokens ts
  | .error _ => [.text s]

section Parts

variable {ι : Type}

/-- Some rendered child in parentheses, unless the parentheses are its own. -/
def parenthesizedPieces (c : Tree ι × List Piece) : List Piece :=
  if c.1.kind = .parenthesizedExpr then c.2 else [.text "("] ++ c.2 ++ [.text ")"]

/-- A variable, and what it is bound to behind the operator. -/
def Binding.pieces (b : Binding (Tree ι × List Piece)) : List Piece :=
  [.text "$"] ++ b.name.pieces ++ keyword (Spelled.spelling b.op) ++ b.expr.2

/-- A keyword and the bindings after it. -/
def bindingsPieces (word : Token) (bs : List (Binding (Tree ι × List Piece))) : List Piece :=
  [.text word, .gap] ++ commaSeparated (bs.map Binding.pieces)

/-- The argument as it is. -/
def Argument.pieces : Argument (Tree ι × List Piece) → List Piece
  | expr e => e.2
  | placeholder => [.text "?"]

/-- An argument list in its parentheses. -/
def argumentPieces (args : List (Argument (Tree ι × List Piece))) : List Piece :=
  [.text "("] ++ commaSeparated (args.map Argument.pieces) ++ [.text ")"]

/-- A name, a number, a wildcard, or an expression in parentheses. -/
def KeySpecifier.pieces : KeySpecifier (Tree ι × List Piece) → List Piece
  | name n => n.pieces
  | integer v => [.text (Integer.text v)]
  | parenthesized e => parenthesizedPieces e
  | wildcard => [.text "*"]

/-- A predicate in its brackets. -/
def predicatePieces (e : Tree ι × List Piece) : List Piece := [.text "["] ++ e.2 ++ [.text "]"]

/-- A lookup has its question mark in front of the key. -/
def Suffix.pieces : Suffix (Tree ι × List Piece) → List Piece
  | predicate e => predicatePieces e
  | arguments args => argumentPieces args
  | lookup key => [.text "?"] ++ key.pieces

/-- A name, a variable, or an expression in parentheses. -/
def ArrowTarget.pieces : ArrowTarget (Tree ι × List Piece) → List Piece
  | name n => n.pieces
  | var n => [.text "$"] ++ n.pieces
  | parenthesized e => parenthesizedPieces e

/-- A call without its arrow. -/
def ArrowCall.pieces (c : ArrowCall (Tree ι × List Piece)) : List Piece :=
  c.target.pieces ++ argumentPieces c.args

/-- A parameter, with its type behind `as`. -/
def Param.pieces (p : Param) : List Piece :=
  [.text "$"] ++ p.name.pieces ++ p.type.elim [] fun t => keyword "as" ++ t.pieces

/-- Parameters with commas between them. -/
def paramsPieces (params : List Param) : List Piece :=
  commaSeparated (params.map Param.pieces)

/-- An expression in braces, with space inside of them if there is one. -/
def enclosedPieces : Option (Tree ι × List Piece) → List Piece
  | none => [.text "\x7b", .text "\x7d"]
  | some e => [.text "\x7b", .gap] ++ e.2 ++ [.gap, .text "\x7d"]

/-- A key and a value with a colon between them. -/
def MapEntry.pieces (e : MapEntry (Tree ι × List Piece)) : List Piece :=
  e.key.2 ++ keyword ":" ++ e.value.2

/-- An axis has its colons behind it, or is the abbreviation. -/
def StepAxis.pieces : StepAxis → List Piece
  | named axis => [.text (Spelled.spelling axis), .text "::"]
  | atSign => [.text "@"]

/-- Space around the operators of every chain but a path. -/
def ChainLevel.operatorPieces (level : ChainLevel) (op : ChainOp) : List Piece :=
  if level = .relativePath then [.text (Spelled.spelling op)] else keyword (Spelled.spelling op)

/-- A construct, with every child beside its pieces. -/
def Form.pieces : Form (Tree ι × List Piece) → List Piece
  | expr items => commaSeparated (items.map Prod.snd)
  | forExpr bindings body => bindingsPieces "for" bindings ++ keyword "return" ++ body.2
  | letExpr bindings body => bindingsPieces "let" bindings ++ keyword "return" ++ body.2
  | quantified q bindings body =>
    bindingsPieces (Spelled.spelling q) bindings ++ keyword "satisfies" ++ body.2
  | ifExpr c t e =>
    [.text "if", .gap, .text "("] ++ c.2 ++ [.text ")"] ++ keyword "then" ++ t.2 ++
      keyword "else" ++ e.2
  | chain level first others =>
    first.2 ++ others.flatMap fun (op, e) => level.operatorPieces op ++ e.2
  | comparison left op right => left.2 ++ keyword (Spelled.spelling op) ++ right.2
  | range first last => first.2 ++ keyword "to" ++ last.2
  | instanceOf e type => e.2 ++ keyword "instance" ++ keyword "of" ++ type.pieces
  | treat e type => e.2 ++ keyword "treat" ++ keyword "as" ++ type.pieces
  | castable e type => e.2 ++ keyword "castable" ++ keyword "as" ++ type.pieces
  | cast e type => e.2 ++ keyword "cast" ++ keyword "as" ++ type.pieces
  | arrow first calls =>
    first.2 ++ calls.flatMap fun c => keyword (Spelled.spelling ArrowOp.arrow) ++ c.pieces
  | unary ops operand => ops.map (fun op => .text (Spelled.spelling op)) ++ operand.2
  | path leading relative => [.text (Spelled.spelling leading)] ++ relative.elim [] (·.2)
  | axisStep axis test predicates =>
    axis.elim [] (·.pieces) ++ test.pieces ++ predicates.flatMap predicatePieces
  | parentStep => [.text ".."]
  | suffixed primary suffixes => primary.2 ++ suffixes.flatMap Suffix.pieces
  | parenthesized inner => [.text "("] ++ inner.elim [] (·.2) ++ [.text ")"]
  | contextItem => [.text "."]
  | varRef name => [.text "$"] ++ name.pieces
  | functionCall name args => name.pieces ++ argumentPieces args
  | namedFunctionRef name arity => name.pieces ++ [.text "#", .text (Nat.repr arity)]
  | inlineFunction params result body =>
    callPieces "function" (paramsPieces params) ++
      (result.elim [] fun t => keyword "as" ++ t.pieces) ++ [.gap] ++ enclosedPieces body
  | mapConstructor entries =>
    [.text "map", .text "\x7b"] ++ commaSeparated (entries.map MapEntry.pieces) ++ [.text "\x7d"]
  | squareArray members =>
    [.text "["] ++ commaSeparated (members.map Prod.snd) ++ [.text "]"]
  | curlyArray body => [.text "array"] ++ enclosedPieces body
  | unaryLookup key => [.text "?"] ++ key.pieces
  | integer v => readPieces (Integer.text v)
  | decimal v => readPieces v.text
  | double v => readPieces v.text
  | string s => [.string s]

end Parts

namespace Tree

variable {ι : Type}

/-- The pieces of an expression, from those of its parts. -/
def pieces : Tree ι → List Piece := para fun _ => Form.pieces

/-- The tokens of an expression. -/
def tokens (t : Tree ι) : List Token := Piece.tokens t.pieces

/-- The source text of an expression. -/
def text (t : Tree ι) : String := Token.join t.tokens

end Tree

end XPath
