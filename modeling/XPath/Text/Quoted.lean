import XPath.Text.Hidden

/-!
# Quoted text

Two ways to put any text between quotes. Messages (`Quoted.inMessage`) escape the quote in use, the
backslash and what has no visible shape, the latter by its code point. JSON (`Quoted.inJson`)
escapes only what its grammar does not allow in a string.
-/

namespace XPath.Text.Quoted

/-- Lower-case hexadecimal digits, with zeros in front up to `width`. -/
def hex (width n : Nat) : List Char :=
  let digits := Nat.toDigits 16 n
  List.replicate (width - digits.length) '0' ++ digits

/-- One character of a message between `quote`s. -/
def messageChar (quote c : Char) : List Char :=
  if c = '\t' then ['\\', 't']
  else if c = '\n' then ['\\', 'n']
  else if c = '\r' then ['\\', 'r']
  else if c = '\x00' then ['\\', '0']
  else if c = '\\' ∨ c = quote then ['\\', c]
  else if isHidden c then ['\\', 'u', '\x7b'] ++ hex 0 c.toNat ++ ['\x7d']
  else [c]

/-- Text as a message quotes it. -/
def inMessage (quote : Char) (s : String) : String :=
  String.ofList ([quote] ++ s.toList.flatMap (messageChar quote) ++ [quote])

/-- One character of a JSON string. -/
def jsonChar (c : Char) : List Char :=
  if c = '"' ∨ c = '\\' then ['\\', c]
  else if c = '\n' then ['\\', 'n']
  else if c = '\r' then ['\\', 'r']
  else if c = '\t' then ['\\', 't']
  else if c = '\x08' then ['\\', 'b']
  else if c = '\x0c' then ['\\', 'f']
  else if c.toNat < 32 then ['\\', 'u'] ++ hex 4 c.toNat
  else [c]

/-- Text as a JSON string. -/
def inJson (s : String) : String :=
  String.ofList (['"'] ++ s.toList.flatMap jsonChar ++ ['"'])

end XPath.Text.Quoted
