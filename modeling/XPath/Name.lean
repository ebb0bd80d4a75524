import XPath.Kind

/-!
# Names

A name stands alone, after the prefix of a namespace, or after the namespace itself in braces. A
name test may leave one of the parts open.
-/

namespace XPath

/-- A name without a colon. -/
structure NCName where
  text : String
  deriving DecidableEq

/-- `prefix:local`, `local` or `Q{uri}local`. -/
inductive EQName where
  | qName (nsPrefix : Option NCName) (localName : NCName)
  | uriQualified (uri : String) (localName : NCName)
  deriving DecidableEq

namespace EQName

/-- The name without its prefix or namespace. -/
def localName : EQName → NCName
  | qName _ n | uriQualified _ n => n

/-- The prefix, if the name is written with one. -/
def nsPrefix? : EQName → Option NCName
  | qName p _ => p
  | uriQualified _ _ => none

/-- The namespace, if the name is written with one. -/
def uri? : EQName → Option String
  | qName _ _ => none
  | uriQualified u _ => some u

/-- The construct of the grammar that the name is. -/
def kind : EQName → Kind
  | qName _ _ => .qName
  | uriQualified _ _ => .uriQualifiedName

/-- The text of a name with neither prefix nor URI. -/
def unqualified? : EQName → Option String
  | qName none n => some n.text
  | _ => none

end EQName

/-- `prefix:*`, `*:local` or `Q{uri}*`. -/
inductive NsWildcard where
  | anyLocal (nsPrefix : NCName)
  | anyNamespace (localName : NCName)
  | anyLocalIn (uri : String)
  deriving DecidableEq

/-- What the name of a node is tested for. -/
inductive NameTest where
  | name (name : EQName)
  | wildcard
  | nsWildcard (test : NsWildcard)
  deriving DecidableEq

/-- The construct of the grammar that the test is. -/
def NameTest.kind : NameTest → Kind
  | name n => n.kind
  | wildcard => .wildcard
  | nsWildcard _ => .nsWildcard

/-- The name that an element or attribute test asks for. -/
inductive NameOrWildcard where
  | name (name : EQName)
  | wildcard
  deriving DecidableEq

end XPath
