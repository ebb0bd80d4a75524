import XPath.Text.Quoted

/-!
# JSON documents

Reports for other programs. `Json.pretty` writes one value of an array or object on each line, two
spaces deeper than its bracket; empty brackets stay together.
-/

namespace XPath.Text

/-- A value of JSON. -/
inductive Json where
  | null
  | bool (b : Bool)
  | number (n : Nat)
  | string (s : String)
  | array (items : List Json)
  | object (fields : List (String × Json))

namespace Json

/-- A value that may not be there is `null` then. -/
def ofOption {α : Type} (f : α → Json) : Option α → Json
  | none => null
  | some a => f a

/-- A line break and the indentation of the next line. -/
def lineBreak (indent : Nat) : String :=
  "\n" ++ String.ofList (List.replicate (2 * indent) ' ')

/-- Parts on lines of their own between brackets. -/
def block (opening closing : String) (indent : Nat) : List String → String
  | [] => opening ++ closing
  | parts =>
    opening ++ lineBreak (indent + 1) ++ ("," ++ lineBreak (indent + 1)).intercalate parts ++
      lineBreak indent ++ closing

mutual
/-- The text of a value that stands so many levels deep. -/
def prettyAt (indent : Nat) : Json → String
  | null => "null"
  | bool b => if b then "true" else "false"
  | number n => Nat.repr n
  | string s => Quoted.inJson s
  | array items => block "[" "]" indent (prettyItems (indent + 1) items)
  | object fields => block "\x7b" "\x7d" indent (prettyFields (indent + 1) fields)

/-- The texts of the items, each on a line of its own. -/
def prettyItems (indent : Nat) : List Json → List String
  | [] => []
  | j :: js => prettyAt indent j :: prettyItems indent js

/-- The texts of the fields, each on a line of its own. -/
def prettyFields (indent : Nat) : List (String × Json) → List String
  | [] => []
  | (k, j) :: fields => (Quoted.inJson k ++ ": " ++ prettyAt indent j) :: prettyFields indent fields
end

/-- The text of a value, two columns in for every level. -/
def pretty (j : Json) : String := prettyAt 0 j

end Json

end XPath.Text
