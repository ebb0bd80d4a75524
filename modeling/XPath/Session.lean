import XPath.Parse
import XPath.Render.Expr
import XPath.Transform
import XPath.Value.Decimal

/-!
# Sessions

A session is the parser, the transforms of trees and decimal division under one choice of settings.
Settings that allow no expression at all make no session (`Settings.session`).

Whatever fails in a session has a message that says in which of its parts it failed, and a
diagnostic for programs, in which a parse error speaks for itself.
-/

namespace XPath

/-- What a session is asked for: limits, and how trees are transformed. -/
structure Settings where
  maxDepth : Nat := defaultMaxDepth
  /-- Places of a quotient. -/
  divisionPlaces : Nat := Decimal.defaultPlaces
  mode : TransformMode := .eager
  deriving DecidableEq

/-- Settings under which at least one expression can be read. -/
structure Session extends Settings where
  maxDepth_pos : 0 < maxDepth

/-- Why a session gives no result. -/
inductive SessionError where
  | parse (error : ParseError)
  | value (error : ValueError)
  | settings (reason : String)
  deriving DecidableEq

/-- A failure as programs see it. -/
structure Diagnostic where
  code : String
  message : String
  position : Option Nat
  deriving DecidableEq

namespace SessionError

/-- The code of the error that has come up. -/
def code : SessionError → String
  | parse e => e.code
  | value e => e.code
  | settings _ => "config"

/-- What went wrong, and where. -/
def message : SessionError → String
  | parse e => "Parsing failed: " ++ e.message
  | value e => "Arithmetic failed: " ++ e.message
  | settings reason => "Invalid configuration: " ++ reason

/-- An error of parsing has a position, others have none. -/
def diagnostic : SessionError → Diagnostic
  | parse e => ⟨e.code, e.message, e.position?⟩
  | e => ⟨e.code, e.message, none⟩

end SessionError

/-- The session with these settings, if they admit an expression at all. -/
def Settings.session (s : Settings) : Except SessionError Session :=
  if h : 0 < s.maxDepth then .ok ⟨s, h⟩
  else .error (.settings "max depth must allow at least one expression level")

namespace Session

/-- The session under the default settings. -/
def default : Session := ⟨{}, by decide⟩

/-- The tokens of a text, which no setting has a say in. -/
def tokenize (source : String) : Except SessionError (List Token) :=
  (tokensOf source).mapError .parse

variable (session : Session)

/-- The expression at the start of a text, with the index of the token after it. -/
def parse (source : String) : Except SessionError (Node × Nat) :=
  (XPath.parse session.maxDepth source).mapError .parse

/-- The expression that is all of a text. -/
def parseAll (source : String) : Except SessionError Node :=
  (XPath.parseAll session.maxDepth source).mapError .parse

/-- The quotient, to the places that the session gives. -/
def divide (a b : Decimal) : Except SessionError Decimal :=
  (a.div b (some session.divisionPlaces)).mapError .value

end Session

end XPath
