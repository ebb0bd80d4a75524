import XPath.Grammar.Expr

/-!
# Parsing

Reading an expression, or any construct of the grammar, from tokens or from text. A construct may
start at any token (`StartSymbol.parse`) and leaves what follows it; `parseAll` asks for an
expression and the end after it.

Every entry point takes the largest number of nested expressions and item types it will follow.
-/

namespace XPath

/-- Nesting levels, unless asked for otherwise. -/
def defaultMaxDepth : Nat := 32

/-- Runs a rule on the tokens from index `start` on. The index after what it reads comes with the
value. -/
def Rule.run {α : Type} (rule : Rule α) (maxDepth : Nat) (ts : List Token) (start : Nat) :
    Except ParseError (α × Nat) :=
  match rule (ts.drop start) with
  | .ok (a, rest) => .ok (a, start + ((ts.drop start).length - rest.length))
  | .error e => .error (e.toError maxDepth start (ts.drop start))

/-! ## Constructs -/

/-- The constructs that can be read on their own. -/
inductive StartSymbol where
  | expr
  | sequenceType
  | itemType
  | singleType
  | kindTest
  | nodeTest
  | nameTest
  | eqName
  | ncName
  | predicate
  | argumentList
  | paramList
  | enclosedExpr
  deriving DecidableEq

namespace StartSymbol

/-- What is read. -/
abbrev Value : StartSymbol → Type
  | expr => Node
  | sequenceType => SequenceType
  | itemType => ItemType
  | singleType => SingleType
  | kindTest => KindTest
  | nodeTest => NodeTest
  | nameTest => NameTest
  | eqName => EQName
  | ncName => NCName
  | predicate => Node
  | argumentList => List (Argument Node)
  | paramList => List Param
  | enclosedExpr => Option Node

/-- The rule of each construct, given those for what is nested one level deeper. -/
def rule (inner : Grammar.Nested) : (s : StartSymbol) → Rule s.Value
  | expr => Grammar.expr inner
  | sequenceType => Grammar.sequenceType inner.itemType
  | itemType => inner.itemType
  | singleType => Grammar.singleType
  | kindTest => Grammar.kindTest
  | nodeTest => Grammar.nodeTest
  | nameTest => Grammar.nameTest
  | eqName => Grammar.eqName
  | ncName => Grammar.ncName
  | predicate => Grammar.predicate inner
  | argumentList => Grammar.argumentList inner
  | paramList => Grammar.paramList inner
  | enclosedExpr => Grammar.enclosedExpr inner

/-- Reads a construct from index `start` on. -/
def parse (s : StartSymbol) (maxDepth : Nat) (ts : List Token) (start : Nat) :
    Except ParseError (s.Value × Nat) :=
  (s.rule (Grammar.nested maxDepth)).run maxDepth ts start

/-- The kind of what has been read. -/
def kindOf : (s : StartSymbol) → s.Value → Kind
  | expr, n => n.kind
  | sequenceType, t => t.kind
  | itemType, t => t.kind
  | singleType, _ => .singleType
  | kindTest, t => t.kind
  | nodeTest, t => t.kind
  | nameTest, t => t.kind
  | eqName, n => n.kind
  | ncName, _ => .ncName
  | predicate, _ => .predicate
  | argumentList, _ => .argumentList
  | paramList, _ => .paramList
  | enclosedExpr, _ => .enclosedExpr

end StartSymbol

/-! ## Expressions -/

/-- The longest expression at the start, and the index after it. -/
def parseTokens (maxDepth : Nat) (ts : List Token) : Except ParseError (Node × Nat) :=
  StartSymbol.expr.parse maxDepth ts 0

/-- An expression that only a space may follow. -/
def parseAllTokens (maxDepth : Nat) (ts : List Token) : Except ParseError Node := do
  let (node, next) ← parseTokens maxDepth ts
  match Token.skipSpace (ts.drop next) with
  | [] => return node
  | more => throw (.trailingTokens (ts.length - more.length))

/-- The tokens of a text. An error of the tokenizer is one of parsing. -/
def tokensOf (source : String) : Except ParseError (List Token) :=
  (tokenize source).mapError .lexical

/-- The expression at the start of a text, with the index of the token after it. -/
def parse (maxDepth : Nat) (source : String) : Except ParseError (Node × Nat) := do
  parseTokens maxDepth (← tokensOf source)

/-- The expression that is all of a text. -/
def parseAll (maxDepth : Nat) (source : String) : Except ParseError Node := do
  parseAllTokens maxDepth (← tokensOf source)

end XPath
