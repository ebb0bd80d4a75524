import XPath.Token.Lexer
import XPath.Value.Error

/-!
# Errors of parsing

A rule that fails reports what was left to read where it failed (`Failure`). That is all there is to
know of the place: how far it lies from the end of the sequence fixes its index, and its first token
is the one found there. `Failure.toError` puts index and token into the `ParseError` that callers
see.
-/

namespace XPath

/-- Why a rule fails, in front of the tokens `rest`. -/
inductive Failure where
  | unexpected (rest : List Token) (expected : String)
  | tooDeep (rest : List Token)
  | value (error : ValueError)
  deriving DecidableEq

/-- Why a text is not read, with the index of the token where reading stops. -/
inductive ParseError where
  /-- The token found, or none at the end, is not what the grammar asks for. -/
  | unexpectedToken (position : Nat) (found : Option Token) (expected : String)
  | trailingTokens (position : Nat)
  | tooDeep (limit position : Nat)
  | lexical (error : LexError)
  | value (error : ValueError)
  deriving DecidableEq

/-- The error for a rule that was given the tokens `ts` from index `start` on. -/
def Failure.toError (limit start : Nat) (ts : List Token) : Failure → ParseError
  | unexpected rest expected =>
    .unexpectedToken (start + (ts.length - rest.length)) rest.head? expected
  | tooDeep rest => .tooDeep limit (start + (ts.length - rest.length))
  | value error => .value error

namespace ParseError

/-- The error of finding something else than `expected` at an index. -/
def unexpectedAt (ts : List Token) (position : Nat) (expected : String) : ParseError :=
  .unexpectedToken position ts[position]? expected

/-- An unexpected end of the sequence is reported at the bracket that is still open. -/
def atOpening (ts : List Token) (opening : Nat) : ParseError → ParseError
  | unexpectedToken position found expected =>
    if ts.length ≤ position then unexpectedAt ts opening expected
    else unexpectedToken position found expected
  | e => e

/-- The code that the error is reported with. -/
def code : ParseError → String
  | unexpectedToken _ _ _ => "parse-token"
  | trailingTokens _ => "trailing-tokens"
  | tooDeep _ _ => "parse-depth"
  | lexical e => e.code
  | value e => e.code

/-- The number of the one error that has a number. -/
def number? : ParseError → Option Nat
  | trailingTokens _ => some 51
  | _ => none

/-- An index into the tokens, or into the bytes of a text that cannot be split into tokens. -/
def position? : ParseError → Option Nat
  | unexpectedToken position _ _ | trailingTokens position | tooDeep _ position => some position
  | lexical e => some e.offset
  | value _ => none

/-- The message for the reader of the text. -/
def message : ParseError → String
  | unexpectedToken _ found expected =>
    "unexpected token " ++ (found.map (Text.Quoted.inMessage '"')).getD "[EOL]" ++
      if expected.isEmpty then "" else " (expected " ++ expected ++ ")"
  | trailingTokens position =>
    "Unable to parse all tokens, expected EOF but found trailing tokens at token " ++
      toString position
  | tooDeep limit position =>
    "Expression nesting exceeds the limit of " ++ toString limit ++ " at token " ++
      toString position
  | lexical e => e.message
  | value e => e.message

end ParseError

end XPath
