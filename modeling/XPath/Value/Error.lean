/-!
# Failures of atomic values

What can go wrong while a literal value is read, combined or rounded. Each failure has a stable
code for programs and a message for people; both are functions of the cause.
-/

namespace XPath

/-- Why there is no such value. -/
inductive ValueError where
  | divisionByZero
  /-- A power of ten with a negative exponent is no integer. -/
  | negativeMagnitude (order : Int)
  | nonPositiveLogarithm
  | invalidNumber (literal : String)
  /-- An infinity or NaN, by its text. -/
  | nonFinite (text : String)
  | scaleOutOfRange (scale max : Nat)
  | bracesInUri (uri : String)
  deriving DecidableEq

namespace ValueError

/-- The code that the error is reported with. -/
def code : ValueError → String
  | divisionByZero => "value-division-by-zero"
  | negativeMagnitude _ => "value-negative-magnitude"
  | nonPositiveLogarithm => "value-logarithm"
  | invalidNumber _ => "value-invalid-number"
  | nonFinite _ => "value-non-finite"
  | scaleOutOfRange _ _ => "value-scale"
  | bracesInUri _ => "value-invalid-braced-uri"

/-- The message for the reader of the text. -/
def message : ValueError → String
  | divisionByZero => "Division by zero"
  | negativeMagnitude order =>
    "Negative magnitude " ++ toString order ++ " cannot be represented as an integer"
  | nonPositiveLogarithm => "Cannot take the logarithm of a negative or zero value"
  | invalidNumber literal => "Invalid numeric literal '" ++ literal ++ "'"
  | nonFinite text => "Value " ++ text ++ " is not finite"
  | scaleOutOfRange scale max =>
    "Scale " ++ toString scale ++ " is out of range (maximum " ++ toString max ++ ")"
  | bracesInUri uri => "A braced URI literal may not contain braces: '" ++ uri ++ "'"

end ValueError

end XPath
