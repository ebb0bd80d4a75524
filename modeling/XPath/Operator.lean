import XPath.Token

/-!
# Words and symbols with one spelling

The closed sets of keywords and operators of the grammar. Each member has one spelling, and no two
members of a set share theirs, so `Spelled.ofToken?` undoes `Spelled.spelling`
(`Spelled.ofToken?_spelling`) and nothing else is read (`Spelled.spelling_of_ofToken?`).

The operators that are written between operands of one level, any number of them in a row, are a
single set, `ChainOp`, divided by level (`ChainOp.level`).
-/

namespace XPath

/-- A type of operators or keywords, in which every one has a spelling of its own. -/
class Spelled (α : Type) where
  all : List α
  spelling : α → Token
  find_all : ∀ a, all.find? (spelling · == spelling a) = some a

namespace Spelled

variable {α : Type} [Spelled α]

/-- The operator that a token spells. -/
def ofToken? (t : Token) : Option α :=
  (all : List α).find? (spelling · == t)

/-- The spelling of an operator spells this operator. -/
theorem ofToken?_spelling (a : α) : ofToken? (spelling a) = some a :=
  find_all a

/-- A token is the spelling of the operator that it spells. -/
theorem spelling_of_ofToken? {t : Token} {a : α} (h : ofToken? t = some a) : spelling a = t := by
  simpa using List.find?_some h

end Spelled

/-! ## Chains -/

/-- The levels whose operators are written in a row between operands. -/
inductive ChainLevel where
  | or
  | and
  | stringConcat
  | additive
  | multiplicative
  | union
  | intersectExcept
  | simpleMap
  | relativePath
  deriving DecidableEq

/-- The operators that may follow each other at one level. -/
inductive ChainOp where
  | or
  | and
  | concat
  | plus
  | minus
  | mul
  | div
  | idiv
  | mod
  | union
  | pipe
  | intersect
  | except
  | bang
  | slash
  | doubleSlash
  deriving DecidableEq

namespace ChainOp

/-- The level at which the operator stands. -/
def level : ChainOp → ChainLevel
  | or => .or
  | and => .and
  | concat => .stringConcat
  | plus | minus => .additive
  | mul | div | idiv | mod => .multiplicative
  | union | pipe => .union
  | intersect | except => .intersectExcept
  | bang => .simpleMap
  | slash | doubleSlash => .relativePath

instance : Spelled ChainOp where
  all := [or, and, concat, plus, minus, mul, div, idiv, mod, union, pipe, intersect, except, bang,
    slash, doubleSlash]
  spelling
    | or => "or"
    | and => "and"
    | concat => "||"
    | plus => "+"
    | minus => "-"
    | mul => "*"
    | div => "div"
    | idiv => "idiv"
    | mod => "mod"
    | union => "union"
    | pipe => "|"
    | intersect => "intersect"
    | except => "except"
    | bang => "!"
    | slash => "/"
    | doubleSlash => "//"
  find_all a := by cases a <;> decide

end ChainOp

/-- An operator of the level. -/
def ChainLevel.ofToken? (level : ChainLevel) (t : Token) : Option ChainOp :=
  (Spelled.ofToken? t).filter (·.level == level)

/-! ## Other operators -/

/-- Between the items of a list. -/
inductive Separator where
  | comma
  deriving DecidableEq

instance : Spelled Separator where
  all := [.comma]
  spelling _ := ","
  find_all a := by cases a; decide

/-- The operator of an arrow expression. -/
inductive ArrowOp where
  | arrow
  deriving DecidableEq

instance : Spelled ArrowOp where
  all := [.arrow]
  spelling _ := "=>"
  find_all a := by cases a; decide

/-- Value, general and node comparisons. -/
inductive ComparisonOp where
  | eq
  | ne
  | lt
  | le
  | gt
  | ge
  | generalEq
  | generalNe
  | generalLt
  | generalLe
  | generalGt
  | generalGe
  | is
  | precedes
  | follows
  deriving DecidableEq

instance : Spelled ComparisonOp where
  all := [.eq, .ne, .lt, .le, .gt, .ge, .generalEq, .generalNe, .generalLt, .generalLe, .generalGt,
    .generalGe, .is, .precedes, .follows]
  spelling
    | .eq => "eq"
    | .ne => "ne"
    | .lt => "lt"
    | .le => "le"
    | .gt => "gt"
    | .ge => "ge"
    | .generalEq => "="
    | .generalNe => "!="
    | .generalLt => "<"
    | .generalLe => "<="
    | .generalGt => ">"
    | .generalGe => ">="
    | .is => "is"
    | .precedes => "<<"
    | .follows => ">>"
  find_all a := by cases a <;> decide

/-- The signs in front of an operand. -/
inductive UnaryOp where
  | plus
  | minus
  deriving DecidableEq

instance : Spelled UnaryOp where
  all := [.plus, .minus]
  spelling
    | .plus => "+"
    | .minus => "-"
  find_all a := by cases a <;> decide

/-- The slashes in front of a path. -/
inductive PathOp where
  | slash
  | doubleSlash
  deriving DecidableEq

instance : Spelled PathOp where
  all := [.slash, .doubleSlash]
  spelling
    | .slash => "/"
    | .doubleSlash => "//"
  find_all a := by cases a <;> decide

/-! ## Keywords -/

/-- The keywords of a quantified expression. -/
inductive Quantifier where
  | some
  | every
  deriving DecidableEq

instance : Spelled Quantifier where
  all := [.some, .every]
  spelling
    | .some => "some"
    | .every => "every"
  find_all a := by cases a <;> decide

/-- `in` binds to each item of a sequence, `:=` to the sequence. -/
inductive BindingOp where
  | inItems
  | assign
  deriving DecidableEq

instance : Spelled BindingOp where
  all := [.inItems, .assign]
  spelling
    | .inItems => "in"
    | .assign => ":="
  find_all a := by cases a <;> decide

/-- How many items a sequence type admits. -/
inductive Occurrence where
  | zeroOrOne
  | zeroOrMore
  | oneOrMore
  deriving DecidableEq

instance : Spelled Occurrence where
  all := [.zeroOrOne, .zeroOrMore, .oneOrMore]
  spelling
    | .zeroOrOne => "?"
    | .zeroOrMore => "*"
    | .oneOrMore => "+"
  find_all a := by cases a <;> decide

/-- The axes of a step. -/
inductive Axis where
  | child
  | descendant
  | attribute
  | self
  | descendantOrSelf
  | followingSibling
  | following
  | namespaceAxis
  | parent
  | ancestor
  | precedingSibling
  | preceding
  | ancestorOrSelf
  deriving DecidableEq

namespace Axis

instance : Spelled Axis where
  all := [.child, .descendant, .attribute, .self, .descendantOrSelf, .followingSibling, .following,
    .namespaceAxis, .parent, .ancestor, .precedingSibling, .preceding, .ancestorOrSelf]
  spelling
    | .child => "child"
    | .descendant => "descendant"
    | .attribute => "attribute"
    | .self => "self"
    | .descendantOrSelf => "descendant-or-self"
    | .followingSibling => "following-sibling"
    | .following => "following"
    | .namespaceAxis => "namespace"
    | .parent => "parent"
    | .ancestor => "ancestor"
    | .precedingSibling => "preceding-sibling"
    | .preceding => "preceding"
    | .ancestorOrSelf => "ancestor-or-self"
  find_all a := by cases a <;> decide

/-- Against document order. -/
def isReverse : Axis → Bool
  | .parent | .ancestor | .precedingSibling | .preceding | .ancestorOrSelf => true
  | _ => false

end Axis

end XPath
