import XPath.Grammar.Literal
import XPath.Grammar.Name
import XPath.Indexed.Input

/-!
# Names and literals at an index

The parts of a name stand at indices in a row, and so do the tokens of a number. What the tokens say
of a number's value is not asked a second time (`Grammar.doubleOf` and others).
-/

namespace XPath.Input

variable (input : Input)

/-! ## Names -/

/-- A name without a colon. -/
def ncName : IndexRule NCName := fun i =>
  (input.one Text.startsName "NCName").map NCName.mk (input.skipSpace i)

/-- The local part of a name whose other part has just been read. -/
def localPart (owner : String) : IndexRule NCName :=
  (input.one Text.startsName ("NCName of " ++ owner)).map NCName.mk

/-- A braced URI starts right here. -/
def startsBracedUri (i : Nat) : Bool :=
  input.get i == some "Q" && input.get (i + 1) == some "\x7b"

/-- The tokens up to a closing brace, after those of `uri`. -/
def uriText (uri : String) (i : Nat) : Except ParseError (String × Nat) :=
  match h : input.get i with
  | none => .error (input.unexpected i "'\x7d' of BracedURILiteral")
  | some t =>
    if t = "\x7d" then .ok (uri, i + 1)
    else if t = "\x7b" then .error (.value (.bracesInUri (uri ++ "\x7b")))
    else uriText (uri ++ t) (i + 1)
termination_by input.tokens.length - i
decreasing_by
  have hlt : i < input.tokens.length := (List.getElem?_eq_some_iff.mp h).1
  omega

/-- `Q{uri}` -/
def bracedUri : IndexRule String := fun i =>
  let here := input.skipSpace i
  if input.startsBracedUri here then input.enclosed (here + 1) (input.uriText "" (here + 2))
  else .error (input.unexpected here "'Q\x7b' of BracedURILiteral")

/-- `Q{uri}local` -/
def uriQualifiedName : IndexRule EQName := fun i => do
  let (uri, next) ← input.bracedUri i
  (input.localPart "URIQualifiedName").map (EQName.uriQualified uri) next

/-- The name of `:local`, if it comes right here. -/
def colonName? (i : Nat) : Option NCName :=
  if input.get i = some ":" then ((input.get (i + 1)).filter Text.startsName).map NCName.mk
  else none

/-- `prefix:local`, `local` or `Q{uri}local`. A colon that no name follows is left. -/
def eqName : IndexRule EQName := fun i => do
  let here := input.skipSpace i
  if input.startsBracedUri here then input.uriQualifiedName here
  else
    let (first, next) ← input.ncName here
    match input.colonName? next with
    | some name => return (.qName (some first) name, next + 2)
    | none => return (.qName none first, next)

/-- The prefix of `prefix:*`, if it comes right here. -/
def prefixWildcard? (i : Nat) : Option NCName :=
  if input.get (i + 1) = some ":" ∧ input.get (i + 2) = some "*" then
    ((input.get i).filter Text.startsName).map NCName.mk
  else none

/-- A name or a wildcard. -/
def nameTest : IndexRule NameTest := fun i => do
  let here := input.skipSpace i
  if input.get here = some "*" then
    match input.colonName? (here + 1) with
    | some name => return (.nsWildcard (.anyNamespace name), here + 3)
    | none => return (.wildcard, here + 1)
  else if input.startsBracedUri here then
    let (uri, next) ← input.bracedUri here
    if input.get next = some "*" then return (.nsWildcard (.anyLocalIn uri), next + 1)
    else
      (input.localPart "URIQualifiedName").map (fun name => .name (.uriQualified uri name)) next
  else
    match input.prefixWildcard? here with
    | some name => return (.nsWildcard (.anyLocal name), here + 3)
    | none => input.eqName.map .name here

/-! ## Literals -/

/-- A number as it is read up to its exponent. -/
def mantissa : IndexRule Grammar.Mantissa := fun i =>
  match input.get i with
  | none => .error (input.unexpected i "NumericLiteral")
  | some t =>
    if t.isDigits then
      if input.get (i + 1) = some "." then
        match (input.get (i + 2)).filter Token.isDigits with
        | some fraction => return (⟨t, some fraction⟩, i + 3)
        | none => return (⟨t, some ""⟩, i + 2)
      else return (⟨t, none⟩, i + 1)
    else
      match input.get (i + 1) with
      | some fraction =>
        if t = "." ∧ fraction.isDigits then return (⟨"0", some fraction⟩, i + 2)
        else .error (input.unexpected i "NumericLiteral")
      | none => .error (input.unexpected i "NumericLiteral")

/-- The text of the exponent, without its mark, if one comes right here, and the index after it. -/
def exponent? (i : Nat) : Option String × Nat :=
  match (input.get i).bind Grammar.wholeExponent? with
  | some e => (some e, i + 1)
  | none =>
    match input.get i, input.get (i + 1), input.get (i + 2) with
    | some mark, some sign, some digits =>
      if (mark = "e" ∨ mark = "E") ∧ (sign = "+" ∨ sign = "-") ∧ digits.isDigits then
        (some (sign ++ digits), i + 3)
      else (none, i)
    | _, _, _ => (none, i)

/-- An integer, a decimal or a double. -/
def numericLiteral : IndexRule Node := fun i => do
  let (m, next) ← input.mantissa (input.skipSpace i)
  let (e?, next) := input.exponent? next
  match e?, m.fraction with
  | some e, _ => return (.of (.double (← (Grammar.doubleOf m e).mapError .value)), next)
  | none, some f =>
    return (.of (.decimal (← (Decimal.ofText (m.whole ++ "." ++ f)).mapError .value)), next)
  | none, none => return (.of (.integer (← (Integer.ofText m.whole).mapError .value)), next)

/-- Quote, content, the same quote. The content may be any token. -/
def stringLiteral : IndexRule String := fun i => do
  let here := input.skipSpace i
  let (quote, next) ← input.one Token.isQuote "StringLiteral" here
  input.enclosed here do
    let (content, next) ← input.one (fun _ => true) "StringLiteral" next
    let (_, next) ← input.one (· == quote) ("closing " ++ quote ++ " of StringLiteral") next
    return (content, next)

end XPath.Input
