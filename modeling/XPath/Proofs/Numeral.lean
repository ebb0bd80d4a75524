import XPath.Grammar.Literal
import XPath.Proofs.Lexeme
import XPath.Render.Expr

/-!
# Numbers as tokens

The text of an integer is one token, that of a decimal three, and that of a double two or four: the
exponent is a name token `e10` or `e-3` after its digits (`readPieces_integer`,
`readPieces_decimal`, `readPieces_double`).
-/

namespace XPath

/-! ## Digits -/

/-- Digits are there, and nothing else is. -/
theorem Token.isDigits_iff {t : Token} :
    t.isDigits ↔ t.toList ≠ [] ∧ t.toList.all Char.isDigit := by
  simp [isDigits]

theorem Token.isDigits_ofList {cs : List Char} :
    isDigits (String.ofList cs) ↔ cs ≠ [] ∧ cs.all Char.isDigit := by
  rw [isDigits_iff, String.toList_ofList]

/-- A name does not begin with a digit. -/
theorem Token.isDigits_of_startsName {t : Token} (h : Text.startsName t) : t.isDigits = false := by
  refine Bool.eq_false_iff.mpr fun hd => ?_
  obtain ⟨hne, hall⟩ := Token.isDigits_iff.mp hd
  rw [Text.startsName] at h
  generalize t.toList = cs at h hne hall
  cases cs with
  | nil => exact hne rfl
  | cons c cs =>
    have hstart : Text.isNameStart c := h
    have hdigit : c.isDigit := by
      rw [List.all_cons, Bool.and_eq_true] at hall
      exact hall.1
    have : 0x30 ≤ c.toNat ∧ c.toNat ≤ 0x39 := by
      simpa [Char.isDigit, UInt32.le_iff_toNat_le] using hdigit
    simp only [Text.isNameStart, Text.nameStartRanges, Text.inRanges] at hstart
    grind

/-- A natural number is written in digits. -/
theorem Token.isDigits_repr (n : Nat) : isDigits (Nat.repr n) := by
  rw [isDigits_iff, Nat.toList_repr, List.all_eq_true]
  exact ⟨Nat.toDigits_ne_nil, fun c hc => Nat.isDigit_of_mem_toDigits (by decide) (by decide) hc⟩

/-- The digits of a natural number are read as this number. -/
theorem ofDigitChars_repr (n : Nat) : Nat.ofDigitChars 10 (Nat.repr n).toList 0 = n := by
  rw [Nat.toList_repr, Nat.ofDigitChars_ten_toDigits]

namespace Lexeme

theorem continuation?_digit {c : Char} (h : c.isDigit) : continuation? c = some Char.isDigit := by
  have h1 : c ≠ '.' := by
    rintro rfl
    exact absurd h (by decide)
  have h2 : c ≠ '/' := by
    rintro rfl
    exact absurd h (by decide)
  rw [continuation?, if_neg h1, if_neg h2, if_pos h]

theorem digit_ne {c d : Char} (h : c.isDigit) (hd : d.isDigit = false) : c ≠ d := by
  rintro rfl
  simp [h] at hd

/-- Digits are one lexeme. -/
theorem isWhole_digits {cs : List Char} (hne : cs ≠ []) (h : cs.all Char.isDigit) :
    (plain cs).isWhole := by
  cases cs with
  | nil => exact absurd rfl hne
  | cons c cs =>
    obtain ⟨hc, hcs⟩ : c.isDigit ∧ cs.all Char.isDigit := by simpa using h
    have hb : isBlank c = false := by simp [isBlank, digit_ne hc]
    have hq : isQuote c = false := by simp [isQuote, digit_ne hc]
    have hx : c ≠ '!' := digit_ne hc rfl
    simp [isWhole, hb, hq, hx, continuation?_digit hc, hcs]

/-- Digits stop at anything else. -/
theorem stopsAt_digits {cs : List Char} {d : Char} (h : cs.all Char.isDigit)
    (hd : d.isDigit = false) : (plain cs).stopsAt d := by
  cases cs with
  | nil => rfl
  | cons c cs =>
    obtain ⟨hc, -⟩ : c.isDigit ∧ cs.all Char.isDigit := by simpa using h
    have hx : c ≠ '!' := digit_ne hc rfl
    simp [stopsAt, hx, continuation?_digit hc, hd]

end Lexeme

/-! ## Reading a text back -/

/-- The text of joined lexemes is read as their tokens. -/
theorem readPieces_of_joined {ls : List Lexeme} (h : Lexeme.Joined ls) :
    readPieces (String.ofList (ls.flatMap Lexeme.chars)) =
      Piece.ofTokens (ls.flatMap Lexeme.tokens) := by
  simp [readPieces, tokenize, Lexeme.scan_chars h]

/-- Digits are read as one token. -/
theorem readPieces_digits {t : Token} (h : t.isDigits) : readPieces t = [.text t] := by
  obtain ⟨hne, hall⟩ := Token.isDigits_iff.mp h
  have hj : Lexeme.Joined [.plain t.toList] :=
    ⟨Lexeme.isWhole_digits hne hall, by simp, trivial⟩
  have := readPieces_of_joined hj
  simpa [Lexeme.chars, Lexeme.tokens, Piece.ofTokens] using this

theorem integer_text (n : Nat) : Integer.text n = Nat.repr n := by
  simp [Integer.text]

/-- An integer is read as one token. -/
theorem readPieces_integer (n : Nat) : readPieces (Integer.text n) = [.text (Nat.repr n)] := by
  rw [integer_text, readPieces_digits (Token.isDigits_repr n)]

/-! ## Signs -/

/-- No sign is split off in front of a digit. -/
theorem Integer.splitSign_digits {cs : List Char} (hne : cs ≠ []) (h : cs.all Char.isDigit)
    (rest : List Char) : splitSign (cs ++ rest) = (false, cs ++ rest) := by
  obtain ⟨c, cs, rfl⟩ := List.exists_cons_of_ne_nil hne
  have hc : c.isDigit := (by simpa using h : c.isDigit ∧ _).1
  have hm : c ≠ '-' := Lexeme.digit_ne hc rfl
  have hp : c ≠ '+' := Lexeme.digit_ne hc rfl
  unfold splitSign
  split <;> simp_all

/-- Digits are the integer that they stand for. -/
theorem Integer.ofText_digits {t : Token} (h : t.isDigits) :
    ofText t = .ok (Nat.ofDigitChars 10 t.toList 0 : Nat) := by
  obtain ⟨hne, hall⟩ := Token.isDigits_iff.mp h
  have := splitSign_digits hne hall []
  rw [List.append_nil] at this
  rw [ofText, this]
  simp [ofDigits?, hne, hall, withSign]

/-- Digits stop at the point. -/
theorem Decimal.splitPoint_append {whole rest : List Char} (hw : whole.all Char.isDigit)
    (hrest : ∀ c ∈ rest.head?, c = '.') : splitPoint (whole ++ rest) = (whole, rest.drop 1) := by
  have hwhole : whole.all fun c => decide (c ≠ '.') := by
    rw [List.all_eq_true] at hw ⊢
    exact fun c hc => by simpa using Lexeme.digit_ne (hw c hc) rfl
  obtain ⟨htake, hdrop⟩ := Lexeme.takeWhile_append hwhole fun c hc => by simpa using hrest c hc
  rw [splitPoint, htake, hdrop]

/-- Digits with a point among them are the decimal that they stand for. -/
theorem Decimal.ofText_digits {whole fraction : Token} (hw : whole.isDigits)
    (hf : fraction.toList.all Char.isDigit) :
    ofText (whole ++ "." ++ fraction) =
      if Integer.maxScale < fraction.length then
        .error (.scaleOutOfRange fraction.length Integer.maxScale)
      else .ok ⟨Nat.ofDigitChars 10 (whole.toList ++ fraction.toList) 0, fraction.length⟩ := by
  obtain ⟨hne, hall⟩ := Token.isDigits_iff.mp hw
  have hs : (whole ++ "." ++ fraction).toList = whole.toList ++ '.' :: fraction.toList := by
    simp
  have hp : splitPoint (whole.toList ++ '.' :: fraction.toList) =
      (whole.toList, fraction.toList) :=
    splitPoint_append hall (by simp)
  rw [ofText, hs, Integer.splitSign_digits hne hall]
  have hd : Integer.ofDigits? (whole.toList ++ fraction.toList) =
      some (Nat.ofDigitChars 10 (whole.toList ++ fraction.toList) 0) := by
    rw [Integer.ofDigits?, if_pos ⟨by simp [hne], by simp [hall, hf]⟩]
  simp [hp, hd, Integer.withSign, String.length_toList]

/-! ## Decimals -/

namespace Decimal

/-- The digits in front of the point. -/
def wholeDigits (d : Decimal) : List Char :=
  let digits := padded (d.scale + 1) d.unscaled.natAbs
  digits.take (digits.length - d.scale)

/-- The digits after the point, one zero if there are none. -/
def fractionDigits (d : Decimal) : List Char :=
  let digits := padded (d.scale + 1) d.unscaled.natAbs
  if d.scale = 0 then ['0'] else digits.drop (digits.length - d.scale)

theorem padded_all (width n : Nat) : (padded width n).all Char.isDigit := by
  have := (Token.isDigits_iff.mp (Token.isDigits_repr n)).2
  rw [padded, List.all_append, this, Bool.and_true, List.all_replicate]
  split <;> rfl

/-- Padding gives at least as many digits as asked for. -/
theorem le_length_padded (width n : Nat) : width ≤ (padded width n).length := by
  rw [padded, List.length_append, List.length_replicate]
  omega

/-- The zeros that are put in front do not count. -/
theorem ofDigitChars_padded (width n : Nat) : Nat.ofDigitChars 10 (padded width n) 0 = n := by
  rw [padded, Nat.ofDigitChars_append, Nat.ofDigitChars_replicate_zero, Nat.mul_zero,
    ofDigitChars_repr]

/-- There is always a digit in front of the point. -/
theorem wholeDigits_ne_nil (d : Decimal) : d.wholeDigits ≠ [] := by
  have := le_length_padded (d.scale + 1) d.unscaled.natAbs
  rw [wholeDigits, ne_eq, List.take_eq_nil_iff, not_or]
  exact ⟨by omega, fun h => by simp [h] at this⟩

theorem wholeDigits_all (d : Decimal) : d.wholeDigits.all Char.isDigit := by
  have := padded_all (d.scale + 1) d.unscaled.natAbs
  rw [List.all_eq_true] at this ⊢
  exact fun c hc => this c (List.mem_of_mem_take hc)

/-- There are as many digits behind the point as the scale says, but one at least. -/
theorem length_fractionDigits (d : Decimal) : d.fractionDigits.length = max d.scale 1 := by
  have := le_length_padded (d.scale + 1) d.unscaled.natAbs
  rw [fractionDigits]
  split
  next h => simp [h]
  next h =>
    rw [List.length_drop]
    omega

/-- There is always a digit behind the point. -/
theorem fractionDigits_ne_nil (d : Decimal) : d.fractionDigits ≠ [] := by
  rw [← List.length_pos_iff, length_fractionDigits]
  omega

theorem fractionDigits_all (d : Decimal) : d.fractionDigits.all Char.isDigit := by
  have := padded_all (d.scale + 1) d.unscaled.natAbs
  rw [fractionDigits]
  split
  · rfl
  · rw [List.all_eq_true] at this ⊢
    exact fun c hc => this c (List.mem_of_mem_drop hc)

/-- The text of a decimal is its sign and its digits on both sides of the point. -/
theorem text_eq (d : Decimal) :
    d.text = String.ofList ((if d.unscaled < 0 then ['-'] else []) ++
      (d.wholeDigits ++ '.' :: d.fractionDigits)) := by
  rw [← String.toList_inj]
  by_cases hs : d.scale = 0 <;> by_cases hd : d.unscaled < 0 <;>
    simp [text, wholeDigits, fractionDigits, hs, hd]

/-- Without a sign the text of a decimal is its digits. -/
theorem text_of_nonneg {d : Decimal} (h : 0 ≤ d.unscaled) :
    d.text = String.ofList (d.wholeDigits ++ '.' :: d.fractionDigits) := by
  rw [text_eq, if_neg (Int.not_lt.mpr h), List.nil_append]

/-- The decimal that the digits of the text denote: a whole number has one place. -/
def shown (d : Decimal) : Decimal :=
  if d.scale = 0 then ⟨d.unscaled * 10, 1⟩ else d

/-- What is shown has a digit behind the point. -/
theorem scale_shown (d : Decimal) : d.shown.scale = max d.scale 1 := by
  rw [shown]
  split
  next h => simp [h]
  next h => omega

/-- What is shown has the same sign. -/
theorem unscaled_shown_neg_iff (d : Decimal) : d.shown.unscaled < 0 ↔ d.unscaled < 0 := by
  rw [shown]
  split
  · simp only
    omega
  · rfl

/-- The digits on both sides of the point are those of what is shown. -/
theorem ofDigitChars_digits (d : Decimal) :
    Nat.ofDigitChars 10 (d.wholeDigits ++ d.fractionDigits) 0 = d.shown.unscaled.natAbs := by
  have hp := ofDigitChars_padded (d.scale + 1) d.unscaled.natAbs
  by_cases hs : d.scale = 0
  · have : d.wholeDigits = padded (d.scale + 1) d.unscaled.natAbs := by simp [wholeDigits, hs]
    have hz : Nat.ofDigitChars 10 ['0'] d.unscaled.natAbs = 10 * d.unscaled.natAbs := by
      simp [Nat.ofDigitChars_cons]
    rw [Nat.ofDigitChars_append, this, hp, fractionDigits, if_pos hs, hz, shown, if_pos hs]
    simp only
    omega
  · rw [wholeDigits, fractionDigits, if_neg hs, List.take_append_drop, hp, shown, if_neg hs]

end Decimal

/-- A decimal without a sign is read as its two numbers and the point. -/
theorem readPieces_decimal {d : Decimal} (h : 0 ≤ d.unscaled) :
    readPieces d.text = [.text (String.ofList d.wholeDigits), .text ".",
      .text (String.ofList d.fractionDigits)] := by
  have hj : Lexeme.Joined [.plain d.wholeDigits, .plain ['.'], .plain d.fractionDigits] := by
    obtain ⟨c, cs, hc⟩ := List.exists_cons_of_ne_nil d.fractionDigits_ne_nil
    have hdigit : c.isDigit := by
      have := d.fractionDigits_all
      rw [hc] at this
      exact (by simpa using this : c.isDigit ∧ _).1
    refine ⟨Lexeme.isWhole_digits d.wholeDigits_ne_nil d.wholeDigits_all, ?_, rfl, ?_,
      Lexeme.isWhole_digits d.fractionDigits_ne_nil d.fractionDigits_all, by simp, trivial⟩
    · intro e he
      obtain rfl : '.' = e := by simpa [Lexeme.chars] using he
      exact Lexeme.stopsAt_digits d.wholeDigits_all rfl
    · intro e he
      obtain rfl : c = e := by simpa [Lexeme.chars, hc] using he
      simpa [Lexeme.stopsAt, Lexeme.continuation?] using Lexeme.digit_ne hdigit rfl
  have := readPieces_of_joined hj
  rw [Decimal.text_of_nonneg h]
  simpa [Lexeme.chars, Lexeme.tokens, Piece.ofTokens] using this

/-! ## Exponents -/

/-- The text of an integer is its sign and its digits. -/
theorem Integer.text_toList (a : Int) :
    (text a).toList = (if a < 0 then ['-'] else []) ++ (Nat.repr a.natAbs).toList := by
  rw [text, String.toList_append]
  split <;> rfl

/-- The sign of an integer is split off its digits. -/
theorem Integer.splitSign_text (a : Int) :
    splitSign (text a).toList = (decide (a < 0), (Nat.repr a.natAbs).toList) := by
  obtain ⟨hne, hall⟩ := Token.isDigits_iff.mp (Token.isDigits_repr a.natAbs)
  have := splitSign_digits hne hall []
  rw [text_toList]
  by_cases h : a < 0
  · simp [h, splitSign]
  · rw [List.append_nil] at this
    rw [if_neg h, List.nil_append, this, decide_eq_false h]

/-- The digits of a natural number are digits, and stand for this number. -/
theorem Integer.ofDigits?_repr (n : Nat) : ofDigits? (Nat.repr n).toList = some n := by
  obtain ⟨hne, hall⟩ := Token.isDigits_iff.mp (Token.isDigits_repr n)
  rw [ofDigits?, if_pos ⟨hne, hall⟩, ofDigitChars_repr]

/-- A mark and an exponent, as one token. -/
def exponentToken (e : Int) : Token := "e" ++ Integer.text e

theorem exponentToken_toList (e : Int) :
    (exponentToken e).toList = 'e' :: (Integer.text e).toList := by
  rw [exponentToken, String.toList_append]
  rfl

/-- The exponent of a rendered double is found in one token. -/
theorem wholeExponent?_exponentToken (e : Int) :
    Grammar.wholeExponent? (exponentToken e) = some (Integer.text e) := by
  have : (Integer.ofDigits? (Integer.splitSign (Integer.text e).toList).2).isSome := by
    rw [Integer.splitSign_text, Integer.ofDigits?_repr]
    rfl
  rw [Grammar.wholeExponent?, exponentToken_toList]
  simp [this, Grammar.isExponentMark]

/-- The exponent is read as the number it was written for. -/
theorem exponentValue_text (e : Int) : Grammar.exponentValue (Integer.text e) = e := by
  rw [Grammar.exponentValue, Integer.splitSign_text]
  simp only [ofDigitChars_repr, Integer.withSign]
  split
  next he =>
    have : e < 0 := of_decide_eq_true he
    omega
  next he =>
    have : ¬ e < 0 := of_decide_eq_false (by simpa using he)
    omega

theorem Text.isNameChar_digit {c : Char} (h : c.isDigit) : isNameChar c := by
  have : 0x30 ≤ c.toNat ∧ c.toNat ≤ 0x39 := by
    simpa [Char.isDigit, UInt32.le_iff_toNat_le] using h
  simp only [isNameChar, nameExtraRanges, inRanges, Bool.or_eq_true]
  right
  grind

/-- The exponent of a rendered double is one lexeme. -/
theorem Lexeme.isWhole_exponentToken (e : Int) : (plain (exponentToken e).toList).isWhole := by
  have hall : (Integer.text e).toList.all Text.isNameChar := by
    have := (Token.isDigits_iff.mp (Token.isDigits_repr e.natAbs)).2
    rw [List.all_eq_true] at this
    rw [Integer.text_toList, List.all_append, Bool.and_eq_true]
    refine ⟨by split <;> decide, List.all_eq_true.mpr fun c hc => ?_⟩
    exact Text.isNameChar_digit (this c hc)
  rw [exponentToken_toList, isWhole, if_neg (by decide)]
  have : continuation? 'e' = some Text.isNameChar := by
    rfl
  simp [this, hall, isBlank, isQuote]

/-! ## Doubles -/

/-- Rounding keeps the sign. -/
theorem Double.negative_ofRatio (negative : Bool) (num den : Nat) :
    (ofRatio negative num den).negative = negative := by
  unfold ofRatio
  split <;> rfl

theorem Double.negative_ofScientific (negative : Bool) (digits : Nat) (e : Int) :
    (ofScientific negative digits e).negative = negative := by
  simp only [ofScientific]
  split
  · rfl
  split
  · rfl
  · exact negative_ofRatio _ _ _

namespace Scientific

/-- The digit in front of the point. -/
def leadingDigit (s : Scientific) : List Char := (Nat.repr s.digits).toList.take 1

/-- The digits after the point, which is left out if there are none. -/
def fractionDigits (s : Scientific) : List Char := (Nat.repr s.digits).toList.drop 1

/-- The exponent after the fraction. -/
def shownExponent (s : Scientific) : Int := s.exponent + s.fractionDigits.length

/-- The digits in front of the point and behind it make up all digits. -/
theorem leadingDigit_append (s : Scientific) :
    s.leadingDigit ++ s.fractionDigits = (Nat.repr s.digits).toList :=
  List.take_append_drop 1 _

theorem digits_all (s : Scientific) :
    s.leadingDigit.all Char.isDigit ∧ s.fractionDigits.all Char.isDigit := by
  have := (Token.isDigits_iff.mp (Token.isDigits_repr s.digits)).2
  rwa [← leadingDigit_append, List.all_append, Bool.and_eq_true] at this

/-- There is always a digit in front of the point. -/
theorem leadingDigit_ne_nil (s : Scientific) : s.leadingDigit ≠ [] := by
  have := (Token.isDigits_iff.mp (Token.isDigits_repr s.digits)).1
  rw [leadingDigit, ne_eq, List.take_eq_nil_iff, not_or]
  exact ⟨by decide, this⟩

/-- The text of a double is its digits, with a point if there are several, and its exponent. -/
theorem text_eq (s : Scientific) :
    s.text = String.ofList (s.leadingDigit ++
      (if s.fractionDigits = [] then [] else '.' :: s.fractionDigits) ++
        (exponentToken s.shownExponent).toList) := by
  have he : text s = String.ofList s.leadingDigit ++
      (if s.fractionDigits = [] then "" else "." ++ String.ofList s.fractionDigits) ++ "e" ++
        Integer.text s.shownExponent :=
    rfl
  rw [← String.toList_inj, exponentToken_toList, he]
  by_cases h : s.fractionDigits = [] <;> simp [h]

/-- The tokens of the text. -/
def tokens (s : Scientific) : List Token :=
  String.ofList s.leadingDigit ::
    ((if s.fractionDigits = [] then [] else [".", String.ofList s.fractionDigits]) ++
      [exponentToken s.shownExponent])

end Scientific

/-- The text of a double is read as the tokens it is written with. -/
theorem readPieces_scientific (s : Scientific) : readPieces s.text = Piece.ofTokens s.tokens := by
  have he := Lexeme.isWhole_exponentToken s.shownExponent
  have hlead := Lexeme.isWhole_digits s.leadingDigit_ne_nil s.digits_all.1
  by_cases h : s.fractionDigits = []
  · have hj : Lexeme.Joined [.plain s.leadingDigit,
        .plain (exponentToken s.shownExponent).toList] := by
      refine ⟨hlead, fun e hd => ?_, he, by simp, trivial⟩
      obtain rfl : 'e' = e := by simpa [Lexeme.chars, exponentToken_toList] using hd
      exact Lexeme.stopsAt_digits s.digits_all.1 rfl
    have := readPieces_of_joined hj
    simpa [Scientific.text_eq, Scientific.tokens, Lexeme.chars, Lexeme.tokens, h] using this
  · obtain ⟨c, cs, hc⟩ := List.exists_cons_of_ne_nil h
    have hall := s.digits_all.2
    have hdigit : c.isDigit := by
      rw [hc] at hall
      exact (by simpa using hall : c.isDigit ∧ _).1
    have hj : Lexeme.Joined [.plain s.leadingDigit, .plain ['.'], .plain s.fractionDigits,
        .plain (exponentToken s.shownExponent).toList] := by
      refine ⟨hlead, fun e hd => ?_, rfl, fun e hd => ?_, Lexeme.isWhole_digits h hall,
        fun e hd => ?_, he, by simp, trivial⟩
      · obtain rfl : '.' = e := by simpa [Lexeme.chars] using hd
        exact Lexeme.stopsAt_digits s.digits_all.1 rfl
      · obtain rfl : c = e := by simpa [Lexeme.chars, hc] using hd
        simpa [Lexeme.stopsAt, Lexeme.continuation?] using Lexeme.digit_ne hdigit rfl
      · obtain rfl : 'e' = e := by simpa [Lexeme.chars, exponentToken_toList] using hd
        exact Lexeme.stopsAt_digits hall rfl
    have := readPieces_of_joined hj
    simpa [Scientific.text_eq, Scientific.tokens, Lexeme.chars, Lexeme.tokens, h] using this

/-- A finite double without a sign is read as the tokens it is written with. -/
theorem readPieces_double {x : Double} (hf : x.isFinite) (hn : x.negative = false) :
    readPieces x.text = Piece.ofTokens x.shortest.tokens := by
  rw [Double.text, if_pos hf, if_neg (by simp [hn]), String.empty_append, readPieces_scientific]

end XPath
