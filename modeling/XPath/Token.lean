import XPath.Text.NameChar

/-!
# Tokens

A token is a piece of text: a name, a run of digits, an operator, a bracket. The one-space token
says that white space stood there. A string literal is three tokens: its quote, its content with
quotes no longer doubled, and its quote again, so a content may be any text, and may look like any
other token.
-/

namespace XPath

/-- A token is its text. That of a literal's content may look like any other. -/
abbrev Token := String

namespace Token

/-- The token for white space of any kind and length. -/
def space : Token := " "

/-- The token that stands for white space. -/
def isSpace (t : Token) : Bool := t == space

/-- The tokens that a string literal begins and ends with. -/
def isQuote (t : Token) : Bool := t == "'" || t == "\""

/-- One or more ASCII digits. -/
def isDigits (t : Token) : Bool := !t.isEmpty && t.toList.all Char.isDigit

/-- The tokens after one space, if one leads. -/
def skipSpace : List Token → List Token
  | [] => []
  | t :: ts => if t.isSpace then ts else t :: ts

/-- What is left without the space ends as the tokens do. -/
theorem skipSpace_suffix : ∀ ts : List Token, skipSpace ts <:+ ts
  | [] => List.suffix_rfl
  | t :: ts => by
    rw [skipSpace]
    split
    · exact List.suffix_cons t ts
    · exact List.suffix_rfl

end Token

end XPath
