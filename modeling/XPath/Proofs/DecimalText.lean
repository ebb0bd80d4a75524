import Mathlib.Data.List.Basic
import Mathlib.Data.Nat.Digits.Defs
import XPath.Proofs.Numeral

/-!
# Decimals written and read

A `Numeral` is a number in digits, after an optional sign and with at most one point. Every text
falls apart at its sign and its first point in one way only (`Integer.exists_sign`,
`Decimal.exists_point`), so the numerals are the texts that are read as decimals
(`Decimal.ofText_numeral`), and no others are (`Decimal.ofText_eq_error`).

The text of a decimal is the numeral of its own digits (`Decimal.numeral`), and nothing could be
left out of it (`Numeral.IsPlain`). What is read back is the decimal as it is shown, where a whole
number has one place (`Decimal.text_format`).
-/

namespace XPath

/-! ## Numerals -/

/-- What stands in front of the digits. -/
inductive Sign where
  | absent
  | plus
  | minus
  deriving DecidableEq

/-- The sign as it is written. -/
def Sign.chars : Sign → List Char
  | absent => []
  | plus => ['+']
  | minus => ['-']

/-- The sign that is written for a number. -/
def Sign.ofInt (a : Int) : Sign := if a < 0 then minus else absent

/-- The point, if there is one, and what follows it. -/
def pointed : Option (List Char) → List Char
  | none => []
  | some fraction => '.' :: fraction

/-- The number that digits denote, the last one being the ones. -/
def placeValue (cs : List Char) : ℕ :=
  Nat.ofDigits 10 (cs.map fun c => c.toNat - '0'.toNat).reverse

/-- A number as it is written. A digit stands on one side of the point at least. -/
structure Numeral where
  sign : Sign
  whole : List Char
  /-- The digits after the point, if it is written. -/
  fraction? : Option (List Char)
  whole_digits : whole.all Char.isDigit
  fraction_digits : (fraction?.getD []).all Char.isDigit
  ne_nil : whole ++ fraction?.getD [] ≠ []

namespace Numeral

/-- The digits behind the point, none if there is no point. -/
def fraction (n : Numeral) : List Char := n.fraction?.getD []

/-- The numeral without its sign. -/
def unsigned (n : Numeral) : List Char := n.whole ++ pointed n.fraction?

/-- The numeral as it is written. -/
def text (n : Numeral) : String := String.ofList (n.sign.chars ++ n.unsigned)

/-- All digits as one integer, which has as many places as there are digits after the point. -/
def decimal (n : Numeral) : Decimal :=
  ⟨Integer.withSign (n.sign = .minus) (placeValue (n.whole ++ n.fraction)), n.fraction.length⟩

/-- Nothing could be left out: no plus sign, no sign of zero, and in front of the point no zero but
a single one. -/
structure IsPlain (n : Numeral) : Prop where
  sign_eq : n.sign = Sign.ofInt n.decimal.unscaled
  whole_ne_nil : n.whole ≠ []
  no_zero : n.whole = ['0'] ∨ n.whole.head? ≠ some '0'

end Numeral

/-- Digits are read by the value of their places. -/
theorem ofDigitChars_eq_placeValue (cs : List Char) :
    Nat.ofDigitChars 10 cs 0 = placeValue cs := by
  induction cs with
  | nil => rfl
  | cons c cs ih =>
    rw [Nat.ofDigitChars_cons, Nat.ofDigitChars_eq_ofDigitChars_zero, ih, placeValue, placeValue,
      List.map_cons, List.reverse_cons, Nat.ofDigits_append, Nat.ofDigits_singleton,
      List.length_reverse, List.length_map, Nat.mul_zero, Nat.zero_add, Nat.add_comm]

/-! ## Reading -/

/-- A text falls apart at its sign. -/
theorem Integer.exists_sign (cs : List Char) : ∃ (sign : Sign) (rest : List Char),
    cs = sign.chars ++ rest ∧ splitSign cs = (decide (sign = .minus), rest) := by
  unfold splitSign
  split
  next rest => exact ⟨.minus, rest, rfl, rfl⟩
  next rest => exact ⟨.plus, rest, rfl, rfl⟩
  next => exact ⟨.absent, cs, rfl, rfl⟩

/-- What is left falls apart at its first point. -/
theorem Decimal.exists_point (cs : List Char) :
    ∃ (whole : List Char) (fraction? : Option (List Char)),
      cs = whole ++ pointed fraction? ∧ splitPoint cs = (whole, fraction?.getD []) := by
  have happend := List.takeWhile_append_dropWhile (p := fun c => decide (c ≠ '.')) (l := cs)
  have hpoint : ∀ c ∈ (cs.dropWhile fun c => decide (c ≠ '.')).head?, decide (c ≠ '.') = false :=
    Lexeme.head?_dropWhile
  unfold splitPoint
  generalize cs.dropWhile (fun c => decide (c ≠ '.')) = rest at *
  cases rest with
  | nil => exact ⟨_, none, happend.symm, rfl⟩
  | cons c fraction =>
    obtain rfl : c = '.' := by simpa using hpoint
    exact ⟨_, some fraction, happend.symm, rfl⟩

/-- The sign of a numeral is split off what is behind it. -/
theorem Numeral.splitSign_text (n : Numeral) :
    Integer.splitSign n.text.toList = (decide (n.sign = .minus), n.unsigned) := by
  rw [text, String.toList_ofList]
  cases n.sign with
  | minus => rfl
  | plus => rfl
  | absent =>
    by_cases hwhole : n.whole = []
    · -- The first character is the point, since there are digits after it.
      have hne := n.ne_nil
      rw [unsigned, hwhole]
      cases hfraction : n.fraction? with
      | none => simp [hwhole, hfraction] at hne
      | some fraction => rfl
    · exact Integer.splitSign_digits hwhole n.whole_digits _

/-- The digits in front of the point are split off those behind it. -/
theorem Numeral.splitPoint_unsigned (n : Numeral) :
    Decimal.splitPoint n.unsigned = (n.whole, n.fraction) := by
  have hpoint : ∀ c ∈ (pointed n.fraction?).head?, c = '.' := by
    cases n.fraction? <;> simp [pointed]
  rw [unsigned, Decimal.splitPoint_append n.whole_digits hpoint, fraction]
  cases n.fraction? <;> rfl

namespace Decimal

/-- A numeral is read as its number, unless its fraction is too long. -/
theorem ofText_numeral {n : Numeral} (h : n.fraction.length ≤ Integer.maxScale) :
    ofText n.text = .ok n.decimal := by
  have hdigits : Integer.ofDigits? (n.whole ++ n.fraction) =
      some (placeValue (n.whole ++ n.fraction)) := by
    rw [← ofDigitChars_eq_placeValue]
    refine if_pos ⟨n.ne_nil, ?_⟩
    rw [List.all_append, Bool.and_eq_true]
    exact ⟨n.whole_digits, n.fraction_digits⟩
  rw [ofText, n.splitSign_text]
  simp only [n.splitPoint_unsigned, hdigits, if_neg (Nat.not_lt.mpr h)]
  rfl

/-- What is no numeral is not read. -/
theorem ofText_eq_error {s : String} (h : ∀ n : Numeral, n.text ≠ s) :
    ofText s = .error (.invalidNumber s) := by
  obtain ⟨sign, rest, hsign, hrest⟩ := Integer.exists_sign s.toList
  obtain ⟨whole, fraction?, hpoint, hparts⟩ := exists_point rest
  have hdigits : Integer.ofDigits? (whole ++ fraction?.getD []) = none := by
    refine if_neg fun ⟨hne, hall⟩ => ?_
    rw [List.all_append, Bool.and_eq_true] at hall
    refine h ⟨sign, whole, fraction?, hall.1, hall.2, hne⟩ (String.toList_inj.mp ?_)
    rw [Numeral.text, String.toList_ofList, Numeral.unsigned, hsign, hpoint]
  rw [ofText, hrest]
  simp only [hparts, hdigits]

end Decimal

/-- A text has no more characters than bytes. -/
theorem length_le_utf8ByteSize (s : String) : s.length ≤ s.utf8ByteSize := by
  rw [← String.length_toList, ← String.ofList_toList (s := s)]
  generalize s.toList = cs
  rw [String.toList_ofList]
  induction cs with
  | nil => exact Nat.zero_le _
  | cons c cs ih =>
    have := c.utf8Size_pos
    rw [String.ofList_cons, String.utf8ByteSize_append, String.utf8ByteSize_singleton,
      List.length_cons]
    omega

/-- A fraction is no longer than the text it stands in. -/
theorem Numeral.length_fraction_le (n : Numeral) : n.fraction.length ≤ n.text.utf8ByteSize := by
  refine le_trans ?_ (length_le_utf8ByteSize _)
  rw [text, String.length_ofList, unsigned, fraction, List.length_append, List.length_append]
  cases n.fraction? with
  | none => exact Nat.zero_le _
  | some fraction =>
    rw [pointed, Option.getD_some, List.length_cons]
    omega

/-! ## Writing -/

theorem Sign.chars_ofInt (a : Int) : (ofInt a).chars = if a < 0 then ['-'] else [] := by
  unfold ofInt
  split <;> rfl

/-- An integer has a minus sign if it is less than zero. -/
theorem Sign.ofInt_eq_minus_iff (a : Int) : ofInt a = .minus ↔ a < 0 := by
  unfold ofInt
  split <;> simp_all

/-- An integer is its magnitude with its sign. -/
theorem Sign.withSign_ofInt (a : Int) : Integer.withSign (ofInt a = .minus) a.natAbs = a := by
  simp only [Integer.withSign, ofInt_eq_minus_iff, decide_eq_true_eq]
  omega

/-- The decimal of a numeral from its sign and the value of its digits. -/
theorem Numeral.decimal_eq {n : Numeral} {a : Int} (hsign : n.sign = Sign.ofInt a)
    (hvalue : placeValue (n.whole ++ n.fraction) = a.natAbs) :
    n.decimal = ⟨a, n.fraction.length⟩ := by
  rw [decimal, hsign, hvalue, Sign.withSign_ofInt]

/-- The digits of a number that is not zero do not begin with a zero. -/
theorem head?_toDigits_ne {n : ℕ} (h : 0 < n) : (Nat.toDigits 10 n).head? ≠ some '0' := by
  induction n using Nat.strong_induction_on with
  | _ n ih =>
    rw [Nat.toDigits_eq_if (by decide)]
    split
    next hlt =>
      have hdigit : ∀ k < 10, 0 < k → [Nat.digitChar k].head? ≠ some '0' := by decide
      exact hdigit n hlt h
    next hle =>
      rw [List.head?_append_of_ne_nil _ Nat.toDigits_ne_nil]
      exact ih (n / 10) (by omega) (by omega)

/-- Only zero begins with a zero. -/
theorem toDigits_no_zero (n : ℕ) :
    Nat.toDigits 10 n = ['0'] ∨ (Nat.toDigits 10 n).head? ≠ some '0' := by
  rcases Nat.eq_zero_or_pos n with rfl | h
  · exact .inl (Nat.toDigits_zero 10)
  · exact .inr (head?_toDigits_ne h)

namespace Integer

/-- The integer as it is written, without a point. -/
def numeral (a : Int) : Numeral where
  sign := .ofInt a
  whole := (Nat.repr a.natAbs).toList
  fraction? := none
  whole_digits := (Token.isDigits_iff.mp (Token.isDigits_repr _)).2
  fraction_digits := List.all_nil
  ne_nil := List.append_ne_nil_of_left_ne_nil (Token.isDigits_iff.mp (Token.isDigits_repr _)).1 _

/-- The numeral of an integer is its text. -/
theorem text_numeral (a : Int) : (numeral a).text = text a := by
  rw [← String.toList_inj, text_toList, ← Sign.chars_ofInt, Numeral.text, String.toList_ofList,
    Numeral.unsigned]
  exact congrArg _ (List.append_nil _)

/-- The numeral of an integer is read as this integer. -/
theorem decimal_numeral (a : Int) : (numeral a).decimal = .ofInt a := by
  refine Numeral.decimal_eq rfl ?_
  rw [← ofDigitChars_eq_placeValue]
  exact (congrArg (Nat.ofDigitChars 10 · 0) (List.append_nil _)).trans (ofDigitChars_repr _)

/-- The numeral of an integer has no sign and no zero that it could do without. -/
theorem isPlain_numeral (a : Int) : (numeral a).IsPlain where
  sign_eq := by
    rw [decimal_numeral]
    rfl
  whole_ne_nil := (Token.isDigits_iff.mp (Token.isDigits_repr _)).1
  no_zero := by
    have h := toDigits_no_zero a.natAbs
    rw [← Nat.toList_repr] at h
    exact h

end Integer

namespace Decimal

/-- In front of the point stands one zero, or none at the start. -/
theorem wholeDigits_no_zero (d : Decimal) :
    d.wholeDigits = ['0'] ∨ d.wholeDigits.head? ≠ some '0' := by
  by_cases hlong : d.scale + 1 < (Nat.repr d.unscaled.natAbs).toList.length
  · -- The digits stand alone, and as there are two of them at least, the first one is not zero.
    have hpadded : padded (d.scale + 1) d.unscaled.natAbs =
        Nat.toDigits 10 d.unscaled.natAbs := by
      rw [padded, Nat.sub_eq_zero_of_le hlong.le, List.replicate_zero, List.nil_append,
        Nat.toList_repr]
    rw [Nat.toList_repr] at hlong
    refine .inr ?_
    rw [wholeDigits, hpadded, List.head?_take, if_neg (by omega)]
    refine (toDigits_no_zero _).resolve_left fun hzero => ?_
    rw [hzero] at hlong
    simp at hlong
  · -- Zeros fill up to one digit in front of the point.
    have hlength : d.wholeDigits.length = 1 := by
      simp only [wholeDigits, padded, List.length_take, List.length_append, List.length_replicate]
      omega
    obtain ⟨c, hc⟩ := List.length_eq_one_iff.mp hlength
    rw [hc]
    by_cases hzero : c = '0'
    · exact .inl (by rw [hzero])
    · exact .inr (by simpa using hzero)

/-- The decimal as it is written. -/
def numeral (d : Decimal) : Numeral where
  sign := .ofInt d.unscaled
  whole := d.wholeDigits
  fraction? := some d.fractionDigits
  whole_digits := d.wholeDigits_all
  fraction_digits := d.fractionDigits_all
  ne_nil := List.append_ne_nil_of_left_ne_nil d.wholeDigits_ne_nil _

/-- The numeral of a decimal is its text. -/
theorem text_numeral (d : Decimal) : d.numeral.text = d.text := by
  rw [text_eq, ← Sign.chars_ofInt]
  rfl

theorem ofInt_unscaled_shown (d : Decimal) :
    Sign.ofInt d.shown.unscaled = Sign.ofInt d.unscaled := by
  simp only [Sign.ofInt, unscaled_shown_neg_iff]

/-- The numeral of a decimal is read as what is shown of it. -/
theorem decimal_numeral (d : Decimal) : d.numeral.decimal = d.shown := by
  have hscale : d.numeral.fraction.length = d.shown.scale :=
    d.length_fractionDigits.trans d.scale_shown.symm
  have hvalue : placeValue (d.numeral.whole ++ d.numeral.fraction) = d.shown.unscaled.natAbs := by
    rw [← ofDigitChars_eq_placeValue]
    exact d.ofDigitChars_digits
  rw [Numeral.decimal_eq d.ofInt_unscaled_shown.symm hvalue, hscale]

theorem isPlain_numeral (d : Decimal) : d.numeral.IsPlain where
  sign_eq := by
    rw [decimal_numeral, ofInt_unscaled_shown]
    rfl
  whole_ne_nil := d.wholeDigits_ne_nil
  no_zero := d.wholeDigits_no_zero

/-- The text of a decimal is read back as what is shown of it. -/
theorem ofText_text {d : Decimal} (h : d.scale ≤ Integer.maxScale) :
    ofText d.text = .ok d.shown := by
  have hlength : d.numeral.fraction.length ≤ Integer.maxScale := by
    have : 1 ≤ Integer.maxScale := by decide
    have : d.numeral.fraction.length = max d.scale 1 := length_fractionDigits d
    omega
  rw [← text_numeral, ofText_numeral hlength, decimal_numeral]

/-- In a text of bounded length all numerals are read, and nothing else. -/
theorem ofText_eq_ok_iff {s : String} (h : s.utf8ByteSize ≤ Integer.maxScale) (d : Decimal) :
    ofText s = .ok d ↔ ∃ n : Numeral, n.text = s ∧ n.decimal = d := by
  constructor
  · intro hd
    obtain ⟨n, rfl⟩ : ∃ n : Numeral, n.text = s := by
      by_contra hno
      rw [ofText_eq_error fun n hn => hno ⟨n, hn⟩] at hd
      cases hd
    rw [ofText_numeral (n.length_fraction_le.trans h)] at hd
    exact ⟨n, rfl, Except.ok.inj hd⟩
  · rintro ⟨n, rfl, rfl⟩
    exact ofText_numeral (n.length_fraction_le.trans h)

/-- What is not read is no numeral. -/
theorem ofText_eq_error_iff {s : String} (h : s.utf8ByteSize ≤ Integer.maxScale) :
    ofText s = .error (.invalidNumber s) ↔ ∀ n : Numeral, n.text ≠ s := by
  refine ⟨fun herror n hn => ?_, ofText_eq_error⟩
  rw [(ofText_eq_ok_iff h n.decimal).mpr ⟨n, hn, rfl⟩] at herror
  cases herror

/-- The texts that are read as decimals, what is read from them, and the one among them that is
written. -/
theorem text_format :
    (∀ s : String, s.utf8ByteSize < 2 ^ 32 →
      (∀ d, ofText s = .ok d ↔ ∃ n : Numeral, n.text = s ∧ n.decimal = d) ∧
        (ofText s = .error (.invalidNumber s) ↔ ∀ n : Numeral, n.text ≠ s)) ∧
    ∀ d : Decimal, d.scale < 2 ^ 32 - 1 →
      (∃ n : Numeral, n.text = d.text ∧ n.IsPlain ∧ (n.sign = .minus ↔ d.unscaled < 0) ∧
        n.fraction?.map List.length = some (max d.scale 1)) ∧
      ofText d.text = .ok (if d.scale = 0 then ⟨d.unscaled * 10, 1⟩ else d) := by
  constructor
  · intro s hs
    have hs : s.utf8ByteSize ≤ Integer.maxScale := Nat.le_sub_one_of_lt hs
    exact ⟨ofText_eq_ok_iff hs, ofText_eq_error_iff hs⟩
  · intro d hd
    refine ⟨⟨d.numeral, d.text_numeral, d.isPlain_numeral, Sign.ofInt_eq_minus_iff _, ?_⟩,
      ofText_text hd.le⟩
    exact congrArg some d.length_fractionDigits

/-- A sign, no digit in front of the point, and a zero at the end. -/
theorem text_format_negative :
    ("-.50".utf8ByteSize < 2 ^ 32 ∧ ofText "-.50" = .ok ⟨-50, 2⟩) ∧
      ((⟨-50, 2⟩ : Decimal).scale < 2 ^ 32 - 1 ∧ ofText (text ⟨-50, 2⟩) = .ok ⟨-50, 2⟩) := by
  have hsize : "-.50".utf8ByteSize < 2 ^ 32 := by decide
  have hscale : (⟨-50, 2⟩ : Decimal).scale < 2 ^ 32 - 1 := by decide
  have hread := (text_format.1 "-.50" hsize).1 ⟨-50, 2⟩
  exact ⟨⟨hsize, hread.mpr ⟨⟨.minus, [], some ['5', '0'], rfl, rfl, by decide⟩, rfl, rfl⟩⟩,
    hscale, (text_format.2 ⟨-50, 2⟩ hscale).2⟩

end Decimal

end XPath
