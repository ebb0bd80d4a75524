import XPath.Grammar.Rule
import XPath.Tree
import XPath.Value.Decimal.Text
import XPath.Value.Double.Text

/-!
# Rules for literals

A number is written in several tokens: digits, a point, more digits, and an exponent, which is a
name token `e10` or `e-3`, or the three tokens `e`, `+` and digits. They have to stand side by side.
Digits alone are an integer, a point makes a decimal, an exponent a double. A string is always three
tokens.
-/

namespace XPath.Grammar

open Rule

/-- Digits around a point. Without a point there is no fraction; digits may be missing on one side
of it. -/
structure Mantissa where
  whole : Token
  fraction : Option Token

/-- A number as it is read up to its exponent. -/
def mantissa : Rule Mantissa
  | t :: ts =>
    if t.isDigits then
      match ts with
      | point :: more =>
        if point = "." then
          match more with
          | f :: ts' =>
            if Token.isDigits f then .ok (⟨t, some f⟩, ts') else .ok (⟨t, some ""⟩, more)
          | [] => .ok (⟨t, some ""⟩, [])
        else .ok (⟨t, none⟩, ts)
      | [] => .ok (⟨t, none⟩, [])
    else
      match ts with
      | f :: ts' =>
        if t = "." ∧ Token.isDigits f then .ok (⟨"0", some f⟩, ts')
        else fail "NumericLiteral" (t :: ts)
      | [] => fail "NumericLiteral" [t]
  | [] => fail "NumericLiteral" []

section Mantissa

variable {t f : Token} {rest : List Token}

/-- Digits with no point behind them are all. -/
theorem mantissa_whole (ht : t.isDigits) (hrest : rest.head? ≠ some ".") :
    mantissa (t :: rest) = .ok (⟨t, none⟩, rest) := by
  cases rest with
  | nil => simp [mantissa, ht]
  | cons u rest =>
    have hu : u ≠ "." := by simpa using hrest
    simp [mantissa, ht, hu]

/-- A point ends the digits where no fraction comes behind it. -/
theorem mantissa_whole_point (ht : t.isDigits) (hrest : ∀ f ∈ rest.head?, f.isDigits = false) :
    mantissa (t :: "." :: rest) = .ok (⟨t, some ""⟩, rest) := by
  cases rest with
  | nil => simp [mantissa, ht]
  | cons f rest => simp [mantissa, ht, hrest f rfl]

/-- Digits on both sides of a point. -/
theorem mantissa_fraction (ht : t.isDigits) (hf : f.isDigits) (rest : List Token) :
    mantissa (t :: "." :: f :: rest) = .ok (⟨t, some f⟩, rest) := by
  simp [mantissa, ht, hf]

/-- A fraction has a zero in front of its point if nothing is written there. -/
theorem mantissa_point (hf : f.isDigits) (rest : List Token) :
    mantissa ("." :: f :: rest) = .ok (⟨"0", some f⟩, rest) := by
  simp [mantissa, hf, show Token.isDigits "." = false by decide]

/-- Elsewhere no number begins. -/
theorem mantissa_of_not (ht : t.isDigits = false)
    (hrest : t = "." → ∀ f ∈ rest.head?, f.isDigits = false) :
    mantissa (t :: rest) = fail "NumericLiteral" (t :: rest) := by
  cases rest with
  | nil => simp [mantissa, ht]
  | cons f rest =>
    have hnot : ¬ (t = "." ∧ f.isDigits) := fun h =>
      absurd h.2 (Bool.eq_false_iff.mp (hrest h.1 f rfl))
    simp [mantissa, ht, hnot]

end Mantissa

/-- The four ways to write a number in front of its exponent, with what stands behind it. -/
inductive MantissaTokens : List Token → Mantissa → List Token → Prop
  | fraction {t f : Token} {rest : List Token} (ht : t.isDigits) (hf : f.isDigits) :
    MantissaTokens (t :: "." :: f :: rest) ⟨t, some f⟩ rest
  | wholePoint {t : Token} {rest : List Token} (ht : t.isDigits)
    (hrest : ∀ f ∈ rest.head?, f.isDigits = false) :
    MantissaTokens (t :: "." :: rest) ⟨t, some ""⟩ rest
  | whole {t : Token} {rest : List Token} (ht : t.isDigits) (hrest : rest.head? ≠ some ".") :
    MantissaTokens (t :: rest) ⟨t, none⟩ rest
  | point {f : Token} {rest : List Token} (hf : f.isDigits) :
    MantissaTokens ("." :: f :: rest) ⟨"0", some f⟩ rest

/-- The mantissa is read from its tokens. -/
theorem MantissaTokens.read {ts rest : List Token} {m : Mantissa} (h : MantissaTokens ts m rest) :
    mantissa ts = .ok (m, rest) := by
  cases h with
  | fraction ht hf => exact mantissa_fraction ht hf rest
  | wholePoint ht hrest => exact mantissa_whole_point ht hrest
  | whole ht hrest => exact mantissa_whole ht hrest
  | point hf => exact mantissa_point hf rest

/-- A mantissa begins here, or a number is missing. -/
theorem mantissa_cases (ts : List Token) : (∃ m rest, MantissaTokens ts m rest) ∨
    mantissa ts = .error (.unexpected ts "NumericLiteral") := by
  cases ts with
  | nil => exact .inr rfl
  | cons t ts =>
    by_cases ht : t.isDigits
    · by_cases hpoint : ts.head? = some "."
      · obtain ⟨more, rfl⟩ := List.head?_eq_some_iff.mp hpoint
        by_cases hf : ∃ f ∈ more.head?, Token.isDigits f
        · obtain ⟨f, hhead, hf⟩ := hf
          obtain ⟨rest, rfl⟩ := List.head?_eq_some_iff.mp hhead
          exact .inl ⟨_, rest, .fraction ht hf⟩
        · exact .inl ⟨_, more, .wholePoint ht fun f hhead =>
            Bool.eq_false_iff.mpr fun hd => hf ⟨f, hhead, hd⟩⟩
      · exact .inl ⟨_, ts, .whole ht hpoint⟩
    · by_cases hf : t = "." ∧ ∃ f ∈ ts.head?, Token.isDigits f
      · obtain ⟨rfl, f, hhead, hf⟩ := hf
        obtain ⟨rest, rfl⟩ := List.head?_eq_some_iff.mp hhead
        exact .inl ⟨_, rest, .point hf⟩
      · exact .inr (mantissa_of_not (Bool.eq_false_iff.mpr ht) fun hpoint f hhead =>
          Bool.eq_false_iff.mpr fun hd => hf ⟨hpoint, f, hhead, hd⟩)

/-- What has been read is written in one of the four ways. -/
theorem mantissa_tokens {ts rest : List Token} {m : Mantissa} (h : mantissa ts = .ok (m, rest)) :
    MantissaTokens ts m rest := by
  obtain ⟨m', rest', htokens⟩ | herror := mantissa_cases ts
  · obtain ⟨rfl, rfl⟩ : m' = m ∧ rest' = rest := by simpa using htokens.read.symm.trans h
    exact htokens
  · cases herror.symm.trans h

/-- The letter in front of an exponent. -/
def isExponentMark (c : Char) : Bool := c == 'e' || c == 'E'

/-- The exponent of one token: a mark, a sign if one is written, and digits. -/
def wholeExponent? (t : Token) : Option String :=
  match t.toList with
  | mark :: cs =>
    if isExponentMark mark ∧ (Integer.ofDigits? (Integer.splitSign cs).2).isSome then
      some (String.ofList cs)
    else none
  | [] => none

/-- The text of the exponent, without its mark, if one comes right here. -/
def exponent? : Rule (Option String)
  | t :: ts =>
    match wholeExponent? t with
    | some e => .ok (some e, ts)
    | none =>
      match ts with
      | sign :: digits :: ts' =>
        if (t = "e" ∨ t = "E") ∧ (sign = "+" ∨ sign = "-") ∧ digits.isDigits then
          .ok (some (sign ++ digits), ts')
        else .ok (none, t :: ts)
      | _ => .ok (none, t :: ts)
  | [] => .ok (none, [])

/-- The tokens of an exponent, and its text. -/
inductive ExponentTokens : List Token → String → Prop
  | whole {t : Token} {e : String} (h : wholeExponent? t = some e) : ExponentTokens [t] e
  | signed {t sign digits : Token} (hw : wholeExponent? t = none) (ht : t = "e" ∨ t = "E")
    (hs : sign = "+" ∨ sign = "-") (hd : digits.isDigits) :
    ExponentTokens [t, sign, digits] (sign ++ digits)

namespace ExponentTokens

variable {w : List Token} {e : String}

/-- The exponent is read from its tokens. -/
theorem read (h : ExponentTokens w e) (ts : List Token) :
    exponent? (w ++ ts) = .ok (some e, ts) := by
  cases h with
  | whole h => simp [exponent?, h]
  | signed hw ht hs hd => simp [exponent?, hw, ht, hs, hd]

/-- Its tokens are of kinds that no space, bracket or quote is of. -/
theorem forall_mem {P : Token → Prop} (h : ExponentTokens w e)
    (hwhole : ∀ t, (wholeExponent? t).isSome → P t) (hdigits : ∀ t : Token, t.isDigits → P t)
    (hmark : ∀ t ∈ ["e", "E", "+", "-"], P t) : ∀ t ∈ w, P t := by
  cases h with
  | @whole t e h => simpa using hwhole t (by simp [h])
  | @signed t sign digits _ ht hs hd =>
    have ht : P t := by rcases ht with rfl | rfl <;> exact hmark _ (by simp)
    have hs : P sign := by rcases hs with rfl | rfl <;> exact hmark _ (by simp)
    simpa using ⟨ht, hs, hdigits digits hd⟩

end ExponentTokens

/-- An exponent is read, or nothing is. -/
theorem exponent?_cases (ts : List Token) : exponent? ts = .ok (none, ts) ∨
    ∃ w e rest, ExponentTokens w e ∧ ts = w ++ rest ∧ exponent? ts = .ok (some e, rest) := by
  unfold exponent?
  split
  next t ts =>
    split
    next e he => exact .inr ⟨[t], e, ts, .whole he, rfl, rfl⟩
    next hw =>
      split
      next sign digits ts' =>
        split
        next h => exact .inr ⟨[t, sign, digits], _, ts', .signed hw h.1 h.2.1 h.2.2, rfl, rfl⟩
        · exact .inl rfl
      · exact .inl rfl
  · exact .inl rfl

/-- The value of an exponent's text. -/
def exponentValue (e : String) : Int :=
  let (negative, digits) := Integer.splitSign e.toList
  Integer.withSign negative (Nat.ofDigitChars 10 digits 0)

/-- The double nearest to the number that mantissa and exponent denote, if one is near. -/
def doubleOf (m : Mantissa) (e : String) : Except ValueError Double :=
  let fraction := m.fraction.getD ""
  let x := Double.ofScientific false (Nat.ofDigitChars 10 (m.whole ++ fraction).toList 0)
    (exponentValue e - fraction.length)
  if x.isFinite then .ok x
  else .error (.nonFinite (m.whole ++ "." ++ (if fraction = "" then "0" else fraction) ++ "e" ++ e))

/-- An exponent makes a double, a point alone a decimal, and neither an integer. -/
def numericLiteral : Rule Node := do
  space
  let m ← mantissa
  match ← exponent? with
  | some e => return .of (.double (← ofExcept (doubleOf m e)))
  | none =>
    match m.fraction with
    | some f => return .of (.decimal (← ofExcept (Decimal.ofText (m.whole ++ "." ++ f))))
    | none => return .of (.integer (← ofExcept (Integer.ofText m.whole)))

/-- Quote, content, the same quote. The content may be any token. -/
def stringLiteral : Rule String := do
  space
  let here ← rest
  let quote ← one Token.isQuote "StringLiteral"
  enclosed here do
    let content ← one (fun _ => true) "StringLiteral"
    discard <| one (· == quote) ("closing " ++ quote ++ " of StringLiteral")
    return content

end XPath.Grammar
