import XPath.Text.Quoted
import XPath.Token

/-!
# From text to tokens

A text is read as one lexeme after another (`Lexeme.read`), each as long as its class lets it be: a
run of white space, a string literal, a name, a run of one operator's characters, or one character
of punctuation. Every lexeme takes at least its first character (`Lexeme.read_length`), so
`Lexeme.scan` ends: at the end of the text, or in front of a character that begins no lexeme. That
is a quote whose literal is never closed, or a character of no class.

Offsets in errors count bytes of UTF-8.
-/

namespace XPath

-- Sums as core has them, also where Mathlib is imported.
attribute [local instance (5000)] Zero.ofOfNat0

/-- A piece of text that the tokenizer takes at once. -/
inductive Lexeme where
  | space
  | plain (text : List Char)
  /-- The content stands between two quotes and has each such quote once. -/
  | literal (quote : Char) (content : List Char)
  deriving DecidableEq

namespace Lexeme

/-- The tokens of a lexeme: one, or three for a string literal. -/
def tokens : Lexeme → List Token
  | space => [Token.space]
  | plain text => [String.ofList text]
  | literal quote content => [String.singleton quote, String.ofList content, String.singleton quote]

/-! ## Classes of characters -/

/-- The white space of the grammar. -/
def isBlank (c : Char) : Bool := c == '\t' || c == '\n' || c == '\r' || c == ' '

/-- The characters that a string literal may begin with. -/
def isQuote (c : Char) : Bool := c == '\'' || c == '"'

/-- The characters that are tokens by themselves. -/
def isPunctuation (c : Char) : Bool := c ∈ "#$%&()*+,-;?@[\\]^`\x7b\x7d~".toList

/-- For a character that begins a run, the characters that continue it. -/
def continuation? (c : Char) : Option (Char → Bool) :=
  if c = '.' then some (· == '.')
  else if c = '/' then some (· == '/')
  else if c.isDigit then some Char.isDigit
  else if c = ':' then some fun d => d == ':' || d == '='
  else if c = '<' ∨ c = '=' ∨ c = '>' then some fun d => d == '<' || d == '=' || d == '>'
  else if c = '|' then some (· == '|')
  else if isPunctuation c then some fun _ => false
  else if Text.isNameStart c then some Text.isNameChar
  else none

/-! ## One lexeme -/

/-- The content of a literal whose opening quote has been read, and the text after its closing
quote. A doubled quote is a quote of the content. -/
def readContent (quote : Char) : List Char → Option (List Char × List Char)
  | [] => none
  | c :: cs =>
    if c ≠ quote then (readContent quote cs).map fun (content, rest) => (c :: content, rest)
    else
      match cs with
      | [] => some ([], [])
      | d :: ds =>
        if d = quote then (readContent quote ds).map fun (content, rest) => (d :: content, rest)
        else some ([], d :: ds)

/-- The lexeme that begins with `c`, and the text after it. -/
def read (c : Char) (cs : List Char) : Option (Lexeme × List Char) :=
  if isBlank c then some (space, cs.dropWhile isBlank)
  else if isQuote c then (readContent c cs).map fun (content, rest) => (literal c content, rest)
  else if c = '!' then
    match cs with
    | '=' :: rest => some (plain ['!', '='], rest)
    | _ => some (plain ['!'], cs)
  else (continuation? c).map fun p => (plain (c :: cs.takeWhile p), cs.dropWhile p)

/-- What is left of a run is no longer than the text. -/
theorem dropWhile_length_le (p : Char → Bool) (cs : List Char) :
    (cs.dropWhile p).length ≤ cs.length :=
  (List.dropWhile_suffix p).length_le

/-- Reading a content takes at least the closing quote. -/
theorem readContent_length {quote : Char} {cs content rest : List Char}
    (h : readContent quote cs = some (content, rest)) : rest.length < cs.length := by
  fun_induction readContent quote cs generalizing content rest with
  | case1 => simp at h
  | case2 c cs hc ih =>
    obtain ⟨⟨a, b⟩, hab, he⟩ := Option.map_eq_some_iff.mp h
    cases he
    exact Nat.lt_succ_of_lt (ih hab)
  | case3 => cases h; simp
  | case4 c ds _ ih =>
    obtain ⟨⟨a, b⟩, hab, he⟩ := Option.map_eq_some_iff.mp h
    cases he
    exact Nat.lt_succ_of_lt (Nat.lt_succ_of_lt (ih hab))
  | case5 => cases h; simp

/-- What is left after a lexeme is no longer than the text after its first character. -/
theorem read_length {c : Char} {cs rest : List Char} {l : Lexeme}
    (h : read c cs = some (l, rest)) : rest.length ≤ cs.length := by
  unfold read at h
  split at h
  · cases h
    exact dropWhile_length_le _ _
  split at h
  · obtain ⟨⟨a, b⟩, hab, he⟩ := Option.map_eq_some_iff.mp h
    cases he
    exact Nat.le_of_lt (readContent_length hab)
  split at h
  · split at h <;> cases h <;> simp
  · obtain ⟨p, _, he⟩ := Option.map_eq_some_iff.mp h
    cases he
    exact dropWhile_length_le _ _

/-! ## All lexemes -/

/-- The lexemes of a text, or the first character that begins none with the text after it. -/
def scan : List Char → Except (Char × List Char) (List Lexeme)
  | [] => .ok []
  | c :: cs =>
    match _h : read c cs with
    | none => .error (c, cs)
    | some (l, rest) => (scan rest).map (l :: ·)
termination_by cs => cs.length
decreasing_by
  have := read_length _h
  simp only [List.length_cons]
  omega

end Lexeme

/-! ## Tokens of a text -/

/-- Why a text is no sequence of lexemes, and the offset of the character that begins none. -/
inductive LexError where
  | unterminatedString (quote : Char) (offset : Nat)
  | unexpectedCharacter (c : Char) (offset : Nat)
  deriving DecidableEq

namespace LexError

/-- The code that the error is reported with. -/
def code : LexError → String
  | unterminatedString _ _ => "tokenize-strlit"
  | unexpectedCharacter _ _ => "tokenize-unexpected"

/-- The offset of the character, in bytes. -/
def offset : LexError → Nat
  | unterminatedString _ offset | unexpectedCharacter _ offset => offset

/-- The message for the reader of the text. -/
def message : LexError → String
  | unterminatedString quote offset =>
    "Mismatching number of quote characters \x60" ++ String.singleton quote ++
      "\x60 (string starts at offset " ++ toString offset ++ ")"
  | unexpectedCharacter c offset =>
    "Unexpected character " ++ Text.Quoted.inMessage '\'' (String.singleton c) ++ " at offset " ++
      toString offset

end LexError

/-- The bytes of a text in UTF-8. -/
def utf8Length (cs : List Char) : Nat := (cs.map Char.utf8Size).sum

/-- The tokens of a text, unless some character begins no lexeme. -/
def tokenize (source : String) : Except LexError (List Token) :=
  match Lexeme.scan source.toList with
  | .ok lexemes => .ok (lexemes.flatMap Lexeme.tokens)
  | .error (c, rest) =>
    let offset := utf8Length source.toList - utf8Length (c :: rest)
    .error (if Lexeme.isQuote c then .unterminatedString c offset
      else .unexpectedCharacter c offset)

end XPath
