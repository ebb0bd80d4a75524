import XPath.Token

/-!
# Pieces of rendered text

What is rendered is a sequence of tokens and of places where a space has to come between two of
them. A string literal and a braced URI are pieces of their own, of several tokens each: what stands
between the quotes or the braces is no word of the grammar.

A gap adds its space only after a token, and not after another space; a space at the end is
dropped. So gaps can be asked for freely (`Piece.keyword` asks for two).
-/

namespace XPath

/-- What a construct is written with: a token, a string, a URI, or a gap. -/
inductive Piece where
  | text (t : Token)
  /-- A string in double quotes. -/
  | string (content : String)
  /-- `Q{uri}`, with the whole URI as one token. -/
  | bracedUri (uri : String)
  | gap
  deriving DecidableEq

namespace Piece

/-- A word with space around it. -/
def keyword (word : Token) : List Piece := [gap, text word, gap]

/-- `,` and a gap between the parts. -/
def commaSeparated : List (List Piece) → List Piece
  | [] => []
  | [ps] => ps
  | ps :: qs => ps ++ [text ",", gap] ++ commaSeparated qs

/-- Tokens with nothing between them. -/
def ofTokens (ts : List Token) : List Piece := ts.map text

/-- The tokens to be written after a token `last`, or at the start. -/
def tokensAfter (last : Option Token) : List Piece → List Token
  | [] => []
  | text t :: ps => t :: tokensAfter (some t) ps
  | string s :: ps => "\"" :: s :: "\"" :: tokensAfter (some "\"") ps
  | bracedUri u :: ps => "Q" :: "\x7b" :: u :: "\x7d" :: tokensAfter (some "\x7d") ps
  | gap :: ps =>
    if last.all Token.isSpace then tokensAfter last ps
    else Token.space :: tokensAfter (some Token.space) ps

/-- The tokens without a space at the end. -/
def dropFinalSpace : List Token → List Token
  | [] => []
  | [t] => if t.isSpace then [] else [t]
  | t :: ts => t :: dropFinalSpace ts

/-- The tokens of finished pieces. -/
def tokens (ps : List Piece) : List Token := dropFinalSpace (tokensAfter none ps)

end Piece

end XPath
