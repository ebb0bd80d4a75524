import XPath.Grammar.Rule
import XPath.Name

/-!
# Rules for names

The parts of a name stand side by side: a space ends it. A braced URI takes every token up to its
closing brace, whatever it is.
-/

namespace XPath.Grammar

open Rule

/-- A name without colons. -/
def ncName : Rule NCName := do
  space
  return ⟨← one Text.startsName "NCName"⟩

/-- The local part of a name whose other part has just been read. -/
def localPart (owner : String) : Rule NCName :=
  return ⟨← one Text.startsName ("NCName of " ++ owner)⟩

/-- Whether the first two tokens are `Q` and a brace. -/
def startsBracedUri : List Token → Bool
  | q :: b :: _ => q == "Q" && b == "\x7b"
  | _ => false

/-- The tokens up to a closing brace, after those of `uri`. -/
def uriText (uri : String) : Rule String
  | [] => fail "'\x7d' of BracedURILiteral" []
  | t :: ts =>
    if t = "\x7d" then .ok (uri, ts)
    else if t = "\x7b" then .error (.value (.bracesInUri (uri ++ "\x7b")))
    else uriText (uri ++ t) ts

/-- `Q{uri}`, in front of which `startsBracedUri` holds. -/
def bracedUri : Rule String := do
  let q ← rest
  enclosed (q.drop 1) fun _ => uriText "" (q.drop 2)

/-- `BracedURILiteral NCName`. -/
def uriQualifiedName : Rule EQName := do
  let uri ← bracedUri
  return .uriQualified uri (← localPart "URIQualifiedName")

/-- `:local`, if it comes right here. -/
def colonName? : Rule (Option NCName)
  | colon :: name :: ts =>
    if colon = ":" ∧ Text.startsName name then .ok (some ⟨name⟩, ts)
    else .ok (none, colon :: name :: ts)
  | ts => .ok (none, ts)

/-- A colon that no name follows is left. -/
def eqName : Rule EQName := do
  space
  if startsBracedUri (← rest) then uriQualifiedName
  else
    let first ← ncName
    match ← colonName? with
    | some name => return .qName (some first) name
    | none => return .qName none first

/-- `prefix:*`, if it comes right here. -/
def prefixWildcard? : Rule (Option NCName)
  | name :: colon :: star :: ts =>
    if Text.startsName name ∧ colon = ":" ∧ star = "*" then .ok (some ⟨name⟩, ts)
    else .ok (none, name :: colon :: star :: ts)
  | ts => .ok (none, ts)

/-- `EQName | Wildcard`. What stands in front of a colon decides which wildcard it is. -/
def nameTest : Rule NameTest := do
  space
  if startsBracedUri (← rest) then
    let uri ← bracedUri
    if ← take? "*" then return .nsWildcard (.anyLocalIn uri)
    else return .name (.uriQualified uri (← localPart "URIQualifiedName"))
  else if ← take? "*" then
    match ← colonName? with
    | some name => return .nsWildcard (.anyNamespace name)
    | none => return .wildcard
  else
    match ← prefixWildcard? with
    | some name => return .nsWildcard (.anyLocal name)
    | none => return .name (← eqName)

end XPath.Grammar
