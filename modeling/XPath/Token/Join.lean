import XPath.Token

/-!
# From tokens to text

Tokens are written one after another. Three tokens that form a string literal, a quote and that
quote again with a content between, get the quotes of the content doubled, so that the literal is
read as it was meant.
-/

namespace XPath.Token

/-- A content with every occurrence of the quote written twice. -/
def doubled (quote content : Token) : List Char :=
  content.toList.flatMap fun c => if String.singleton c = quote then [c, c] else [c]

/-- The characters of a token sequence. Literals are looked for from left to right. -/
def joinChars : List Token → List Char
  | [] => []
  | opening :: content :: closing :: ts =>
    if opening.isQuote ∧ closing = opening then
      opening.toList ++ doubled opening content ++ closing.toList ++ joinChars ts
    else opening.toList ++ joinChars (content :: closing :: ts)
  | t :: ts => t.toList ++ joinChars ts

/-- The text of a token sequence. -/
def join (ts : List Token) : String := String.ofList (joinChars ts)

end XPath.Token
