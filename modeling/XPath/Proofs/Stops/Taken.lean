import XPath.Proofs.Spelling

/-!
# Tokens that a rule takes

A rule takes a run of tokens in which every bracket is closed again, string literals and braced URIs
aside (`Balanced`), and of which the last one is no space, since a space is stepped over only on the
way to something else (`Taken`).

Where a rule fails it has taken such a run, too, unless a bracket is open. Nothing is open at the
end of the tokens if a bracket moves the failure there to where it was opened (`EndsClosed`); two
constructs with a parenthesis do without that (`EmptyCall`).
-/

namespace XPath

/-! ## Kinds of tokens -/

/-- The brackets that are closed by one another. -/
def Brackets (opening closing : Token) : Prop :=
  (opening, closing) ∈ [("(", ")"), ("[", "]"), ("\x7b", "\x7d")]

/-- Whether two brackets belong together is decided by the list. -/
instance (opening closing : Token) : Decidable (Brackets opening closing) :=
  inferInstanceAs (Decidable ((opening, closing) ∈ _))

/-- Round brackets belong together. -/
theorem parentheses : Brackets "(" ")" := by decide

/-- Square brackets belong together. -/
theorem squareBrackets : Brackets "[" "]" := by decide

/-- Curly brackets belong together. -/
theorem braces : Brackets "\x7b" "\x7d" := by decide

/-- No bracket is a space. -/
theorem Brackets.isSpace_closing {opening closing : Token} (h : Brackets opening closing) :
    closing.isSpace = false := by
  have hall : ∀ b ∈ [("(", ")"), ("[", "]"), ("\x7b", "\x7d")], Token.isSpace b.2 = false := by
    decide
  exact hall _ h

namespace Token

/-- Neither a bracket nor a quote. -/
def isPlain (t : Token) : Bool :=
  !t.isQuote && !(["(", ")", "[", "]", "\x7b", "\x7d"].contains t)

/-- Neither a bracket nor a quote, nor a space. -/
def isOrdinary (t : Token) : Bool := t.isPlain && !t.isSpace

variable {t : Token}

/-- An ordinary token is plain. -/
theorem isPlain_of_isOrdinary (h : t.isOrdinary) : t.isPlain :=
  (Bool.and_eq_true_iff.mp h).1

/-- An ordinary token is no space. -/
theorem isSpace_of_isOrdinary (h : t.isOrdinary) : t.isSpace = false := by
  simpa using (Bool.and_eq_true_iff.mp h).2

/-- Tokens of a kind that no space, bracket or quote is of. -/
theorem isOrdinary_of {p : Token → Bool} (h : p t)
    (hp : ∀ u ∈ [" ", "'", "\"", "(", ")", "[", "]", "\x7b", "\x7d"], p u = false) :
    t.isOrdinary := by
  have hne : ∀ u ∈ [" ", "'", "\"", "(", ")", "[", "]", "\x7b", "\x7d"], t ≠ u := by
    rintro u hu rfl
    simp [hp t hu] at h
  simp only [List.forall_mem_cons] at hne
  simp [isOrdinary, isPlain, isQuote, isSpace, space, hne]

/-- A name is ordinary. -/
theorem isOrdinary_of_startsName (h : Text.startsName t) : t.isOrdinary :=
  isOrdinary_of h (by decide)

/-- Digits are ordinary. -/
theorem isOrdinary_of_isDigits (h : t.isDigits) : t.isOrdinary :=
  isOrdinary_of h (by decide)

/-- What spells an operator is ordinary if all spellings are. -/
theorem isOrdinary_of_spelled {α : Type} [Spelled α]
    (h : ∀ a : α, (Spelled.spelling a).isOrdinary) (t : Token) (a : α)
    (ht : Spelled.ofToken? t = some a) : t.isOrdinary :=
  Spelled.spelling_of_ofToken? ht ▸ h a

end Token

/-! ## Balanced tokens -/

/-- Every bracket is closed. A quote stands in front of a string literal, and `Q` and a brace may
stand in front of a braced URI. -/
inductive Balanced : List Token → Prop
  | nil : Balanced []
  | plain {t ts} (ht : t.isPlain) : Balanced ts → Balanced (t :: ts)
  | string {q s ts} (hq : q.isQuote) : Balanced ts → Balanced (q :: s :: q :: ts)
  | bracedUri {w ts} (hw : ∀ t ∈ w, t ≠ "\x7b" ∧ t ≠ "\x7d") : Balanced ts →
    Balanced ("Q" :: "\x7b" :: (w ++ "\x7d" :: ts))
  | bracket {o c w ts} (h : Brackets o c) :
    Balanced w → Balanced ts → Balanced (o :: (w ++ c :: ts))

/-- `item(` or `empty-sequence(`, spaces aside. -/
def EmptyCall (ts : List Token) : Prop :=
  ∃ keyword us rest, ts = keyword :: us ∧ keyword ∈ ["item", "empty-sequence"] ∧
    Token.skipSpace us = "(" :: rest ∧ Token.skipSpace rest = []

/-- Nothing is open at the end of the tokens, unless they end in an `EmptyCall`. -/
def EndsClosed (ts : List Token) : Prop :=
  Balanced ts ∨ ∃ us vs, ts = us ++ vs ∧ Balanced us ∧ EmptyCall vs

namespace Balanced

/-- Balanced runs one after the other. -/
theorem append {us vs : List Token} (hu : Balanced us) (hv : Balanced vs) :
    Balanced (us ++ vs) := by
  induction hu with
  | nil => exact hv
  | plain ht _ ih => exact .plain ht ih
  | string hq _ ih => exact .string hq ih
  | bracedUri hw _ ih =>
    rw [List.cons_append, List.cons_append, List.append_assoc]
    exact .bracedUri hw ih
  | bracket h hw _ _ ih =>
    rw [List.cons_append, List.append_assoc]
    exact .bracket h hw ih

/-- One plain token. -/
theorem singleton {t : Token} (ht : t.isPlain) : Balanced [t] :=
  .plain ht .nil

/-- Nothing is left open by what stands in front. -/
theorem append_endsClosed {us vs : List Token} (hu : Balanced us) (hv : EndsClosed vs) :
    EndsClosed (us ++ vs) := by
  obtain hv | ⟨us', vs', rfl, hb, hcall⟩ := hv
  · exact .inl (hu.append hv)
  · exact .inr ⟨us ++ us', vs', (List.append_assoc ..).symm, hu.append hb, hcall⟩

/-- A space in front, or none. -/
theorem exists_skipSpace (ts : List Token) : ∃ w, ts = w ++ Token.skipSpace ts ∧ Balanced w := by
  cases ts with
  | nil => exact ⟨[], rfl, .nil⟩
  | cons t ts =>
    rw [Token.skipSpace]
    split
    next hs =>
      obtain rfl : t = Token.space := by simpa [Token.isSpace] using hs
      exact ⟨[Token.space], rfl, .singleton (by decide)⟩
    · exact ⟨[], rfl, .nil⟩

end Balanced

/-! ## Taken tokens -/

/-- Every bracket is closed, and the last token is no space. -/
structure Taken (w : List Token) : Prop where
  balanced : Balanced w
  last : ∀ t ∈ w.getLast?, t.isSpace = false

namespace Taken

/-- Nothing at all. -/
theorem nil : Taken [] :=
  ⟨.nil, nofun⟩

/-- Tokens one after the other, of which none is special. -/
theorem of_ordinary {w : List Token} (h : ∀ t ∈ w, t.isOrdinary) : Taken w where
  balanced := by
    induction w with
    | nil => exact .nil
    | cons t w ih =>
      exact .plain (Token.isPlain_of_isOrdinary (h t (by simp))) (ih fun u hu => h u (by simp [hu]))
  last t ht := Token.isSpace_of_isOrdinary (h t (List.mem_of_getLast? ht))

/-- One ordinary token. -/
theorem singleton {t : Token} (ht : t.isOrdinary) : Taken [t] :=
  .of_ordinary (by simpa using ht)

/-- What ends in a token that is no space. -/
theorem of_last {w : List Token} {t : Token} (h : Balanced (w ++ [t])) (ht : t.isSpace = false) :
    Taken (w ++ [t]) :=
  ⟨h, by simpa using ht⟩

/-- Something behind tokens that may end in a space. -/
theorem behind {u v : List Token} (hu : Balanced u) (hv : Taken v) (hne : v ≠ []) :
    Taken (u ++ v) where
  balanced := hu.append hv.balanced
  last t ht := hv.last t (by
    rwa [List.getLast?_append, List.getLast?_eq_some_getLast hne, Option.some_or,
      ← List.getLast?_eq_some_getLast hne] at ht)

/-- Something behind something else. -/
theorem append {u v : List Token} (hu : Taken u) (hv : Taken v) : Taken (u ++ v) := by
  by_cases hne : v = []
  · rwa [hne, List.append_nil]
  · exact .behind hu.balanced hv hne

/-- What stands between brackets, with both of them. -/
theorem bracket {opening closing : Token} {w : List Token} (h : Brackets opening closing)
    (hw : Balanced w) : Taken (opening :: (w ++ [closing])) :=
  .of_last (w := opening :: w) (.bracket h hw .nil) h.isSpace_closing

end Taken

end XPath
