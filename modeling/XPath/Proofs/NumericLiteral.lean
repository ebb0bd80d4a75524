import XPath.Proofs.DecimalText
import XPath.Proofs.DoubleRounding
import XPath.Proofs.LexFailure
import XPath.Proofs.LoneOperand
import XPath.Proofs.TextRoundTrip

/-!
# Numbers in a text

A number is split where its characters change class: into the digits in front of the point, the
point, and the digits after it (`Numeral.lexemes`). Its exponent is one name, unless a plus sign
stands in it (`Exponent.lexemes`). The rule for numbers puts all of them together again, and each
digit counts. Without an exponent they are an integer or a decimal, with one the nearest double
(`Numeral.parseAll_eq`).
-/

namespace XPath

open Grammar

/-! ## Exponents -/

/-- An exponent as it is written. -/
structure Exponent where
  mark : Char
  sign : Sign
  digits : List Char
  isMark : isExponentMark mark
  all_digits : digits.all Char.isDigit
  ne_nil : digits ≠ []

/-- A sign is split off the digits behind it. -/
theorem Integer.splitSign_chars (sign : Sign) {cs : List Char} (hne : cs ≠ [])
    (hcs : cs.all Char.isDigit) : splitSign (sign.chars ++ cs) = (decide (sign = .minus), cs) := by
  cases sign with
  | absent => simpa [Sign.chars] using splitSign_digits hne hcs []
  | plus | minus => rfl

namespace Exponent

variable (e : Exponent)

/-- The exponent without its mark. -/
def text : String := String.ofList (e.sign.chars ++ e.digits)

/-- The exponent as it is written. -/
def chars : List Char := e.mark :: (e.sign.chars ++ e.digits)

/-- The number that the exponent is. -/
def value : Int := Integer.withSign (e.sign = .minus) (placeValue e.digits)

/-- A plus sign does not go on with a name. -/
def lexemes : List Lexeme :=
  match e.sign with
  | .plus => [.plain [e.mark], .plain ['+'], .plain e.digits]
  | _ => [.plain e.chars]

/-- The lexemes of an exponent are what is written. -/
theorem chars_lexemes : e.lexemes.flatMap Lexeme.chars = e.chars := by
  rw [lexemes, chars]
  cases e.sign <;> simp [Lexeme.chars, Sign.chars]

/-- Two letters mark an exponent. -/
theorem mark_eq : e.mark = 'e' ∨ e.mark = 'E' := by
  simpa [isExponentMark] using e.isMark

theorem mark_ne : e.mark ≠ '.' ∧ e.mark.isDigit = false := by
  rcases e.mark_eq with h | h <;> rw [h] <;> decide

/-- The lexemes of an exponent are read from its text. -/
theorem joined_lexemes : Lexeme.Joined e.lexemes := by
  have hmark : Text.isNameStart e.mark := by
    rcases e.mark_eq with h | h <;> rw [h] <;> decide
  have hname {cs : List Char} (hcs : cs.all Text.isNameChar) :
      (Lexeme.plain (e.mark :: cs)).isWhole :=
    Lexeme.isWhole_plain_iff.mpr (.run (by simp [Lexeme.classes]) hmark hcs)
  have hdigits : e.digits.all Text.isNameChar := List.all_eq_true.mpr fun c hc =>
    Text.isNameChar_digit (List.all_eq_true.mp e.all_digits c hc)
  have hminus : ('-' :: e.digits).all Text.isNameChar := by
    rw [List.all_cons, hdigits]
    decide
  rw [lexemes, chars]
  cases e.sign with
  | absent => exact ⟨hname hdigits, by simp, trivial⟩
  | minus => exact ⟨hname hminus, by simp, trivial⟩
  | plus =>
    refine ⟨hname rfl, ?_, rfl, fun d _ => Lexeme.stopsAt_of_punctuation (by decide) d,
      Lexeme.isWhole_digits e.ne_nil e.all_digits, by simp, trivial⟩
    rintro d ⟨⟩
    exact Lexeme.stopsAt_name hmark (by decide)

/-- The exponent is read as its number. -/
theorem exponentValue_text : exponentValue e.text = e.value := by
  rw [exponentValue, text, String.toList_ofList, Integer.splitSign_chars _ e.ne_nil e.all_digits]
  simp only [ofDigitChars_eq_placeValue, value]

/-- An exponent that is one token is found. -/
theorem wholeExponent?_chars : wholeExponent? (String.ofList e.chars) = some e.text := by
  have hdigits : (Integer.ofDigits? (Integer.splitSign (e.sign.chars ++ e.digits)).2).isSome := by
    rw [Integer.splitSign_chars _ e.ne_nil e.all_digits, Integer.ofDigits?,
      if_pos ⟨e.ne_nil, e.all_digits⟩]
    rfl
  rw [wholeExponent?, String.toList_ofList, chars]
  exact if_pos ⟨e.isMark, hdigits⟩

/-- The tokens of an exponent are found, whether there is a plus sign or not. -/
theorem exponentTokens : Grammar.ExponentTokens (e.lexemes.flatMap Lexeme.tokens) e.text := by
  have hwhole := e.wholeExponent?_chars
  rw [lexemes]
  cases hsign : e.sign with
  | absent | minus => exact .whole hwhole
  | plus =>
    have hmark : String.ofList [e.mark] = "e" ∨ String.ofList [e.mark] = "E" := by
      rcases e.mark_eq with h | h <;> rw [h] <;> decide
    have hnone : wholeExponent? (String.ofList [e.mark]) = none := by
      rcases hmark with h | h <;> rw [h] <;> decide
    have htext : e.text = "+" ++ String.ofList e.digits := by
      rw [text, hsign]
      exact String.ofList_append
    rw [htext]
    exact .signed hnone hmark (.inl rfl) (Token.isDigits_ofList.mpr ⟨e.ne_nil, e.all_digits⟩)

/-- It does not go on with a mantissa. -/
theorem head?_tokens {t : Token} (h : t ∈ (e.lexemes.flatMap Lexeme.tokens).head?) :
    t ≠ "." ∧ t.isDigits = false := by
  obtain ⟨cs, rfl⟩ : ∃ cs, t = String.ofList (e.mark :: cs) := by
    rw [lexemes] at h
    cases hsign : e.sign <;> rw [hsign] at h <;> exact ⟨_, (Option.some.inj h).symm⟩
  constructor
  · rw [Ne, ← String.toList_inj, String.toList_ofList]
    exact fun h => e.mark_ne.1 (List.cons.inj h).1
  · rw [← Bool.not_eq_true, Token.isDigits_ofList]
    simp [e.mark_ne.2]

end Exponent

/-! ## Mantissas -/

namespace Lexeme

/-- The characters in one lexeme, if there are any. -/
def run (cs : List Char) : List Lexeme := if cs = [] then [] else [.plain cs]

theorem chars_run (cs : List Char) : (run cs).flatMap chars = cs := by
  unfold run
  split
  next h => rw [h, List.flatMap_nil]
  next => exact List.flatMap_singleton chars _

theorem tokens_run (cs : List Char) :
    (run cs).flatMap tokens = if cs = [] then [] else [String.ofList cs] := by
  unfold run
  split <;> rfl

theorem joined_run {cs : List Char} (hcs : cs.all Char.isDigit) : Joined (run cs) := by
  unfold run
  split
  next => trivial
  next hne => exact ⟨isWhole_digits hne hcs, by simp, trivial⟩

end Lexeme

namespace Numeral

variable (n : Numeral)

/-- The digits and the point are lexemes of their own. -/
def lexemes : List Lexeme :=
  Lexeme.run n.whole ++ match n.fraction? with
    | none => []
    | some f => .plain ['.'] :: Lexeme.run f

/-- The lexemes of a number are what is written. -/
theorem chars_lexemes : n.lexemes.flatMap Lexeme.chars = n.unsigned := by
  rw [lexemes, List.flatMap_append, Lexeme.chars_run, unsigned]
  cases n.fraction? with
  | none => rfl
  | some f => rw [List.flatMap_cons, Lexeme.chars_run, pointed]; rfl

theorem fraction_all {f : List Char} (h : n.fraction? = some f) : f.all Char.isDigit := by
  simpa [h] using n.fraction_digits

/-- Without digits in front of the point there are some after it. -/
theorem fraction?_eq_some (h : n.whole = []) : ∃ f, n.fraction? = some f ∧ f ≠ [] := by
  have hne := n.ne_nil
  cases hf : n.fraction? with
  | none => simp [h, hf] at hne
  | some f => exact ⟨f, rfl, by simpa [h, hf] using hne⟩

theorem mem_lexemes {l : Lexeme} (h : l ∈ n.lexemes) :
    l = .plain ['.'] ∨ ∃ cs, l = .plain cs ∧ cs.all Char.isDigit := by
  have hrun {cs : List Char} (hcs : cs.all Char.isDigit) (h : l ∈ Lexeme.run cs) :
      ∃ cs, l = .plain cs ∧ cs.all Char.isDigit := by
    unfold Lexeme.run at h
    split at h
    · cases h
    · exact ⟨cs, List.mem_singleton.mp h, hcs⟩
  obtain h | h := List.mem_append.mp h
  · exact .inr (hrun n.whole_digits h)
  · cases hf : n.fraction? with
    | none => simp [hf] at h
    | some f =>
      rw [hf] at h
      exact (List.mem_cons.mp h).imp_right (hrun (n.fraction_all hf))

/-- The lexemes of a number are read from its text. -/
theorem joined_lexemes : Lexeme.Joined n.lexemes := by
  rw [lexemes]
  cases hf : n.fraction? with
  | none => simpa using Lexeme.joined_run n.whole_digits
  | some f =>
    replace hf := n.fraction_all hf
    have hpoint : ∀ d ∈ f.head?, (Lexeme.plain ['.']).stopsAt d := by
      intro d hd
      have hdigit := List.all_eq_true.mp hf d (List.mem_of_mem_head? hd)
      simpa [Lexeme.stopsAt, Lexeme.continuation?] using Lexeme.digit_ne hdigit rfl
    refine (Lexeme.joined_run n.whole_digits).append ⟨rfl, ?_, Lexeme.joined_run hf⟩ ?_
    · rwa [Lexeme.chars_run]
    · rintro l hl d ⟨⟩
      unfold Lexeme.run at hl
      split at hl
      · cases hl
      · rw [List.mem_singleton.mp hl]
        exact Lexeme.stopsAt_digits n.whole_digits rfl

/-- So they are with an exponent behind them. -/
theorem joined_exponent (e : Exponent) : Lexeme.Joined (n.lexemes ++ e.lexemes) := by
  refine n.joined_lexemes.append e.joined_lexemes fun l hl d hd => ?_
  rw [e.chars_lexemes] at hd
  obtain rfl : e.mark = d := Option.some.inj hd
  obtain rfl | ⟨cs, rfl, hcs⟩ := n.mem_lexemes hl
  · simpa [Lexeme.stopsAt, Lexeme.continuation?] using e.mark_ne.1
  · exact Lexeme.stopsAt_digits hcs e.mark_ne.2

/-- What the rule for numbers makes of it, where a zero stands for no digits. -/
def mantissa : Mantissa where
  whole := if n.whole = [] then "0" else String.ofList n.whole
  fraction := n.fraction?.map String.ofList

/-- The parts are put together again, up to a token that is neither a point nor digits. -/
theorem mantissa_tokens {rest : List Token}
    (hrest : ∀ t ∈ rest.head?, t ≠ "." ∧ t.isDigits = false) :
    Grammar.mantissa (n.lexemes.flatMap Lexeme.tokens ++ rest) = .ok (n.mantissa, rest) := by
  rw [lexemes, mantissa]
  by_cases hwhole : n.whole = []
  · obtain ⟨f, hf, hfne⟩ := n.fraction?_eq_some hwhole
    have hdigits := Token.isDigits_ofList.mpr ⟨hfne, n.fraction_all hf⟩
    rw [hf, List.flatMap_append, List.flatMap_cons, Lexeme.tokens_run, Lexeme.tokens_run,
      if_pos hwhole, if_neg hfne, if_pos hwhole]
    exact mantissa_point hdigits rest
  · have hdigits := Token.isDigits_ofList.mpr ⟨hwhole, n.whole_digits⟩
    rw [List.flatMap_append, Lexeme.tokens_run, if_neg hwhole, if_neg hwhole]
    cases hf : n.fraction? with
    | none =>
      refine mantissa_whole hdigits fun hhead => ?_
      exact (hrest "." hhead).1 rfl
    | some f =>
      rw [List.flatMap_cons, Lexeme.tokens_run]
      by_cases hfnil : f = []
      · subst hfnil
        exact mantissa_whole_point hdigits fun t ht => (hrest t ht).2
      · rw [if_neg hfnil]
        exact mantissa_fraction hdigits (Token.isDigits_ofList.mpr ⟨hfnil, n.fraction_all hf⟩) rest

/-! ## Literals -/

/-- Without an exponent, a number with a point is a decimal, and one without is an integer. -/
def literal : Form Node :=
  match n.fraction? with
  | none => .integer (placeValue n.whole)
  | some f => .decimal ⟨placeValue (n.whole ++ f), f.length⟩

/-- The exact number that is written with an exponent. -/
def scaled (e : Exponent) : ℚ :=
  placeValue (n.whole ++ n.fraction) * 10 ^ (e.value - n.fraction.length)

/-- All of the number, with a digit on both sides of the point. -/
def fullText (e : Exponent) : String :=
  String.ofList ((if n.whole = [] then ['0'] else n.whole) ++ '.' ::
    (if n.fraction = [] then ['0'] else n.fraction) ++ 'e' :: (e.sign.chars ++ e.digits))

/-- A zero in front does not count. -/
theorem placeValue_zero_cons (cs : List Char) : placeValue ('0' :: cs) = placeValue cs := by
  rw [← ofDigitChars_eq_placeValue, Nat.ofDigitChars_cons]
  exact ofDigitChars_eq_placeValue cs

theorem toList_whole : n.mantissa.whole.toList = if n.whole = [] then ['0'] else n.whole := by
  rw [mantissa]
  dsimp only
  split
  next => rfl
  next => exact String.toList_ofList

theorem toList_fraction : (n.mantissa.fraction.getD "").toList = n.fraction := by
  rw [mantissa, fraction]
  cases n.fraction? with
  | none => rfl
  | some f => exact String.toList_ofList

theorem placeValue_digits :
    placeValue (n.mantissa.whole.toList ++ n.fraction) = placeValue (n.whole ++ n.fraction) := by
  rw [toList_whole]
  split
  next h => rw [h]; exact placeValue_zero_cons _
  next => rfl

/-- A double is made of all digits and the scale of the fraction. -/
theorem doubleOf_eq (e : Exponent) : doubleOf n.mantissa e.text =
    let x := Double.ofScientific false (placeValue (n.whole ++ n.fraction))
      (e.value - n.fraction.length)
    if x.isFinite then .ok x else .error (.nonFinite (n.fullText e)) := by
  have hlength : (n.mantissa.fraction.getD "").length = n.fraction.length := by
    rw [← String.length_toList, toList_fraction]
  have hempty : n.mantissa.fraction.getD "" = "" ↔ n.fraction = [] := by
    rw [← toList_fraction, String.toList_eq_nil_iff]
  have htext : n.mantissa.whole ++ "." ++ (if n.mantissa.fraction.getD "" = "" then "0"
      else n.mantissa.fraction.getD "") ++ "e" ++ e.text = n.fullText e := by
    rw [← String.toList_inj]
    simp only [String.toList_append, toList_whole, apply_ite String.toList, toList_fraction, hempty,
      fullText, Exponent.text, String.toList_ofList]
    simp
  simp only [doubleOf, String.toList_append, toList_fraction, ofDigitChars_eq_placeValue,
    placeValue_digits, hlength, e.exponentValue_text, htext]

/-- The tokens of a number begin one. -/
theorem beginsNumber (rest : List Token) : ∃ t us,
    n.lexemes.flatMap Lexeme.tokens ++ rest = t :: us ∧ BeginsNumber t us := by
  rw [lexemes, List.flatMap_append, Lexeme.tokens_run]
  by_cases hwhole : n.whole = []
  · obtain ⟨f, hf, hfne⟩ := n.fraction?_eq_some hwhole
    have hdigits := Token.isDigits_ofList.mpr ⟨hfne, n.fraction_all hf⟩
    rw [hf, if_pos hwhole, List.flatMap_cons, Lexeme.tokens_run, if_neg hfne]
    exact ⟨".", _, rfl, .inl ⟨rfl, hdigits⟩⟩
  · rw [if_neg hwhole]
    exact ⟨_, _, rfl, .inr (Token.isDigits_ofList.mpr ⟨hwhole, n.whole_digits⟩)⟩

theorem isDigits_whole : n.mantissa.whole.isDigits := by
  rw [Token.isDigits_iff, toList_whole]
  split
  next => decide
  next h => exact ⟨h, n.whole_digits⟩

/-- Without a point the digits are an integer. -/
theorem integer_mantissa (h : n.fraction? = none) :
    Integer.ofText n.mantissa.whole = .ok (placeValue n.whole) := by
  have hvalue := n.placeValue_digits
  rw [fraction, h, Option.getD_none, List.append_nil, List.append_nil] at hvalue
  rw [Integer.ofText_digits n.isDigits_whole, ofDigitChars_eq_placeValue, hvalue]

/-- With a point the digits are a decimal. -/
theorem decimal_mantissa {f : List Char} (h : n.fraction? = some f)
    (hscale : f.length ≤ Integer.maxScale) :
    Decimal.ofText (n.mantissa.whole ++ "." ++ String.ofList f) =
      .ok ⟨placeValue (n.whole ++ f), f.length⟩ := by
  have hvalue := n.placeValue_digits
  rw [fraction, h, Option.getD_some] at hvalue
  have hdigits : (String.ofList f).toList.all Char.isDigit := by
    rw [String.toList_ofList]
    exact n.fraction_all h
  rw [Decimal.ofText_digits n.isDigits_whole hdigits, String.toList_ofList, String.length_ofList,
    ofDigitChars_eq_placeValue, hvalue, if_neg (Nat.not_lt.mpr hscale)]

/-- Without an exponent a number is read as its literal. -/
theorem numericLiteral_literal (h : n.fraction.length ≤ Integer.maxScale) :
    numericLiteral (n.lexemes.flatMap Lexeme.tokens) = .ok (.of n.literal, []) := by
  obtain ⟨t, us, hts, hbegins⟩ := n.beginsNumber []
  have hmantissa : Grammar.mantissa (n.lexemes.flatMap Lexeme.tokens ++ []) =
      .ok (n.mantissa, []) :=
    n.mantissa_tokens nofun
  have hexponent : exponent? [] = .ok (none, []) := rfl
  rw [List.append_nil] at hts hmantissa
  rw [numericLiteral_apply, hts, hbegins.skipSpace_eq, ← hts]
  refine (Rule.bind_of_ok hmantissa _).trans <| (Rule.bind_of_ok hexponent _).trans ?_
  cases hf : n.fraction? with
  | none =>
    rw [mantissa, literal, hf]
    exact Rule.bind_of_ok (Rule.ofExcept_eq_ok.mpr ⟨n.integer_mantissa hf, rfl⟩) _
  | some f =>
    rw [fraction, hf] at h
    rw [literal, hf, show n.mantissa.fraction = some (String.ofList f) by rw [mantissa, hf]; rfl]
    exact Rule.bind_of_ok (Rule.ofExcept_eq_ok.mpr ⟨n.decimal_mantissa hf h, rfl⟩) _

/-- With an exponent a number is read as a double, or fails as this does. -/
theorem numericLiteral_scaled (e : Exponent) :
    numericLiteral ((n.lexemes ++ e.lexemes).flatMap Lexeme.tokens) =
      Rule.ofExcept ((doubleOf n.mantissa e.text).map fun x => Node.of (.double x)) [] := by
  obtain ⟨t, us, hts, hbegins⟩ := n.beginsNumber (e.lexemes.flatMap Lexeme.tokens)
  have hexponent := e.exponentTokens.read []
  rw [List.append_nil] at hexponent
  rw [numericLiteral_apply, List.flatMap_append, hts, hbegins.skipSpace_eq, ← hts]
  refine (Rule.bind_of_ok (n.mantissa_tokens fun t ht => e.head?_tokens ht) _).trans <|
    (Rule.bind_of_ok hexponent _).trans ?_
  dsimp only
  cases doubleOf n.mantissa e.text <;> rfl

/-! ## Texts -/

/-- A text that is split as a number is the expression that is this number. -/
theorem parseAll_lexemes {ls : List Lexeme} (hls : Lexeme.Joined ls) {t : Token} {us : List Token}
    (hts : ls.flatMap Lexeme.tokens = t :: us) (hbegins : BeginsNumber t us)
    {x : Except ValueError Node} (hx : numericLiteral (t :: us) = Rule.ofExcept x [])
    (maxDepth : ℕ) :
    parseAll (maxDepth + 1) (String.ofList (ls.flatMap Lexeme.chars)) =
      (x.map fun n => .of (.expr [n])).mapError .value := by
  have htokens : tokensOf (String.ofList (ls.flatMap Lexeme.chars)) = .ok (t :: us) := by
    rw [tokensOf, tokenize, String.toList_ofList, Lexeme.scan_chars hls, ← hts]
    rfl
  rw [parseAll, htokens]
  exact hbegins.parseAllTokens_eq hx maxDepth

/-- A number without an exponent is an expression by itself. -/
theorem parseAll_unsigned (h : n.fraction.length ≤ Integer.maxScale) (maxDepth : ℕ) :
    parseAll (maxDepth + 1) (String.ofList n.unsigned) = .ok (.of (.expr [.of n.literal])) := by
  obtain ⟨t, us, hts, hbegins⟩ := n.beginsNumber []
  have hliteral := n.numericLiteral_literal h
  rw [List.append_nil] at hts
  rw [hts] at hliteral
  rw [← n.chars_lexemes]
  exact parseAll_lexemes n.joined_lexemes hts hbegins (x := .ok _) hliteral maxDepth

/-- A number with an exponent is an expression by itself, if its double is finite. -/
theorem parseAll_scaled (e : Exponent) (maxDepth : ℕ) :
    parseAll (maxDepth + 1) (String.ofList (n.unsigned ++ e.chars)) =
      let x := Double.ofScientific false (placeValue (n.whole ++ n.fraction))
        (e.value - n.fraction.length)
      if x.isFinite then .ok (.of (.expr [.of (.double x)]))
      else .error (.value (.nonFinite (n.fullText e))) := by
  obtain ⟨t, us, hts, hbegins⟩ := n.beginsNumber (e.lexemes.flatMap Lexeme.tokens)
  have hliteral := n.numericLiteral_scaled e
  rw [← List.flatMap_append] at hts
  rw [hts] at hliteral
  rw [← n.chars_lexemes, ← e.chars_lexemes, ← List.flatMap_append,
    parseAll_lexemes (n.joined_exponent e) hts hbegins hliteral, doubleOf_eq]
  dsimp only
  split <;> rfl

/-- A number is the expression that is its exact value, however many digits it has. With an exponent
it is the nearest double, or an error if that is infinity. -/
theorem parseAll_eq (n : Numeral) (maxDepth : ℕ) :
    (n.fraction.length < 2 ^ 32 →
      parseAll (maxDepth + 1) (String.ofList n.unsigned) = .ok (.of (.expr [.of n.literal]))) ∧
    ∀ e : Exponent, ∃ x, Double.IsNearest (n.scaled e) x ∧
      (∀ y, Double.IsNearest (n.scaled e) y → y = x) ∧
      parseAll (maxDepth + 1) (String.ofList (n.unsigned ++ e.chars)) =
        if x.isFinite then .ok (.of (.expr [.of (.double x)]))
        else .error (.value (.nonFinite (n.fullText e))) := by
  refine ⟨fun h => n.parseAll_unsigned (Nat.le_sub_one_of_lt h) maxDepth, fun e => ?_⟩
  have hnearest := Double.isNearest_ofScientific (placeValue (n.whole ++ n.fraction))
    (e.value - n.fraction.length)
  exact ⟨_, hnearest, fun y hy => hy.unique hnearest, n.parseAll_scaled e maxDepth⟩

/-- Leading zeros, a zero at the end, and an exponent in three tokens. -/
theorem parseAll_eq_zeros :
    ['5', '0'].length < 2 ^ 32 ∧
      parseAll 32 "007.50" = .ok (.of (.expr [.of (.decimal ⟨750, 2⟩)])) ∧
      ∃ x, Double.IsNearest 75000000000 x ∧
        parseAll 32 "007.50E+10" = .ok (.of (.expr [.of (.double x)])) := by
  let n : Numeral := ⟨.absent, ['0', '0', '7'], some ['5', '0'], by decide, by decide, by decide⟩
  let e : Exponent := ⟨'E', .plus, ['1', '0'], by decide, by decide, by decide⟩
  have hlength : n.fraction.length < 2 ^ 32 := by decide
  obtain ⟨hplain, hexponent⟩ := n.parseAll_eq 31
  obtain ⟨x, hx, hunique, hparse⟩ := hexponent e
  have hvalue : n.scaled e = 75000000000 := by
    have hdigits : placeValue (n.whole ++ n.fraction) = 750 := by decide
    have hplaces : e.value - n.fraction.length = 8 := by decide
    rw [Numeral.scaled, hdigits, hplaces]
    norm_num
  have hnearest := Double.isNearest_ofScientific 750 8
  have hfinite : x.isFinite := by
    have hq : ((750 : ℕ) : ℚ) * 10 ^ (8 : ℤ) = n.scaled e := by
      rw [hvalue]
      norm_num
    rw [← hunique _ (hq ▸ hnearest)]
    decide +kernel
  rw [if_pos hfinite] at hparse
  exact ⟨hlength, hplain hlength, x, hvalue ▸ hx, hparse⟩

end Numeral

end XPath
