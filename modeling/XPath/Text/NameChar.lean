/-!
# Characters of names

The classes of XML names without the colon. Every ASCII letter starts a name
(`isNameStart_of_isAlpha`), and what starts a name may go on with it (`isNameChar_of_isNameStart`).
-/

namespace XPath.Text

/-- In one of the closed ranges, which ascend. -/
def inRanges : List (Nat × Nat) → Nat → Bool
  | [], _ => false
  | (lo, hi) :: ranges, n => if n < lo then false else decide (n ≤ hi) || inRanges ranges n

/-- The characters that a name may begin with. -/
def nameStartRanges : List (Nat × Nat) :=
  [(0x41, 0x5a), (0x5f, 0x5f), (0x61, 0x7a), (0xc0, 0xd6), (0xd8, 0xf6), (0xf8, 0x2ff),
    (0x370, 0x37d), (0x37f, 0x1fff), (0x200c, 0x200d), (0x2070, 0x218f), (0x2c00, 0x2fef),
    (0x3001, 0xd7ff), (0xf900, 0xfdcf), (0xfdf0, 0xfffd), (0x10000, 0xeffff)]

/-- Hyphen, full stop, digits, middle dot, combining marks and ties. -/
def nameExtraRanges : List (Nat × Nat) :=
  [(0x2d, 0x2e), (0x30, 0x39), (0xb7, 0xb7), (0x300, 0x36f), (0x203f, 0x2040)]

/-- Whether a name may begin with the character. -/
def isNameStart (c : Char) : Bool := inRanges nameStartRanges c.toNat

/-- Whether a name may go on with the character. -/
def isNameChar (c : Char) : Bool := isNameStart c || inRanges nameExtraRanges c.toNat

/-- The first character starts a name. -/
def startsName (s : String) : Bool := s.toList.head?.any isNameStart

/-- A name may go on with what it may begin with. -/
theorem isNameChar_of_isNameStart {c : Char} (h : isNameStart c) : isNameChar c := by
  simp [isNameChar, h]

theorem isNameStart_of_isAlpha {c : Char} (h : c.isAlpha) : isNameStart c := by
  replace h : (decide (c.val ≥ 65 ∧ c.val ≤ 90) ||
    decide (c.val ≥ 97) && decide (c.val ≤ 122)) = true := h
  have : 0x41 ≤ c.toNat ∧ c.toNat ≤ 0x5a ∨ 0x61 ≤ c.toNat ∧ c.toNat ≤ 0x7a := by
    simpa [UInt32.le_iff_toNat_le] using h
  simp only [isNameStart, nameStartRanges, inRanges]
  grind

end XPath.Text
