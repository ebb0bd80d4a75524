import XPath.Proofs.Indexed.Expr

/-!
# Positions

Whoever reads a construct counts from the start of the sequence: the index to start from is given,
and the index after what has been read, or of what is unexpected there, is told. The grammar at an
index (`StartSymbol.parseAt`) has the whole sequence in view and could look in front of the index,
or ask how far it is from the start or from the end. It does compare indices, for the end of the
tokens inside of a bracket (`Input.enclosed`) and for a slash that stands alone (`Input.pathAfter`).

The rules that count nothing and are only given what is left follow it step by step, wherever it
starts (`StartSymbol.parseAt_mirrors`). What is left says all there is to know of an index but how
many tokens are in front. So a construct is read at an index as at the start of the tokens from
there on, and every index moves by the number of tokens in front (`StartSymbol.parse_drop`).
-/

namespace XPath

variable {α : Type}

/-! ## Indices that move -/

/-- The error with `k` more tokens in front. -/
def ParseError.movedBy (k : Nat) : ParseError → ParseError
  | unexpectedToken position found expected => unexpectedToken (k + position) found expected
  | trailingTokens position => trailingTokens (k + position)
  | tooDeep limit position => tooDeep limit (k + position)
  | lexical e => lexical e
  | value e => value e

/-- The token that is found stays the same. -/
theorem ParseError.movedBy_unexpectedAt (k : Nat) (ts : List Token) (position : Nat)
    (expected : String) : (unexpectedAt (ts.drop k) position expected).movedBy k =
      unexpectedAt ts (k + position) expected := by
  rw [unexpectedAt, unexpectedAt, movedBy, List.getElem?_drop]

/-- A value and the index after it, or an error, with `k` more tokens in front. -/
def movedBy (k : Nat) : Except ParseError (α × Nat) → Except ParseError (α × Nat)
  | .ok (a, next) => .ok (a, k + next)
  | .error e => .error (e.movedBy k)

variable {maxDepth k : Nat} {ts : List Token} {x : Except Failure (α × List Token)}
  {y z : Except ParseError (α × Nat)}

/-- The index at which an end of the tokens begins, with and without `k` tokens in front. -/
theorem Input.eq_add_of_drop {i j : Nat} (hk : k ≤ ts.length) (hi : i ≤ ts.length)
    (hj : j ≤ (ts.drop k).length)
    (h : Input.drop ⟨ts.drop k, maxDepth⟩ j = Input.drop ⟨ts, maxDepth⟩ i) : i = k + j := by
  have hlength : (ts.drop k).length - j = ts.length - i := by
    simpa only [length_drop] using congrArg List.length h
  rw [List.length_drop] at hj hlength
  omega

/-- One outcome of a rule, told by the index among all tokens and among those from `k` on. -/
theorem Mirrors.eq_movedBy (hk : k ≤ ts.length) (h : Mirrors ⟨ts, maxDepth⟩ x y)
    (h' : Mirrors ⟨ts.drop k, maxDepth⟩ x z) : y = movedBy k z := by
  cases h' with
  | ok a hj =>
    obtain ⟨i, hi, hdrop, rfl⟩ := mirrors_ok_iff.mp h
    obtain rfl := Input.eq_add_of_drop hk hi hj hdrop
    rfl
  | unexpected e hj =>
    obtain ⟨i, hi, hdrop, rfl⟩ := mirrors_unexpected_iff.mp h
    obtain rfl := Input.eq_add_of_drop hk hi hj hdrop
    simp only [movedBy, Input.unexpected, ParseError.movedBy_unexpectedAt]
  | tooDeep hj =>
    obtain ⟨i, hi, hdrop, rfl⟩ := mirrors_tooDeep_iff.mp h
    obtain rfl := Input.eq_add_of_drop hk hi hj hdrop
    rfl
  | value e =>
    cases h
    rfl

theorem length_sub_drop {us : List Token} {j : Nat} (hj : j ≤ us.length) :
    us.length - (us.drop j).length = j := by
  rw [List.length_drop, Nat.sub_sub_self hj]

/-- A construct on its own is given the tokens from its start on, and its indices are moved. -/
theorem Mirrors.run_eq {r : Rule α} {start : Nat}
    (h : Mirrors ⟨ts.drop start, maxDepth⟩ (r (ts.drop start)) z) :
    r.run maxDepth ts start = movedBy start z := by
  rw [Rule.run]
  generalize r (ts.drop start) = x at h
  cases h with
  | ok a hj => simp only [movedBy, Input.drop, length_sub_drop hj]
  | unexpected e hj =>
    simp only [movedBy, Failure.toError, Input.drop, length_sub_drop hj, Input.unexpected,
      ParseError.movedBy, ParseError.unexpectedAt, List.head?_drop]
  | tooDeep hj =>
    simp only [movedBy, Failure.toError, Input.drop, length_sub_drop hj, ParseError.movedBy]
  | value e => rfl

/-- So it is read at its start among all tokens. -/
theorem run_eq_of_mirrors {r : Rule α} {start : Nat} (hstart : start ≤ ts.length)
    (h : Mirrors ⟨ts, maxDepth⟩ (r (ts.drop start)) y)
    (h' : Mirrors ⟨ts.drop start, maxDepth⟩ (r (ts.drop start)) z) :
    r.run maxDepth ts start = y :=
  h'.run_eq.trans (h.eq_movedBy hstart h').symm

/-! ## Constructs -/

namespace StartSymbol

/-- What a construct's rule reads of the tokens from an index on is read at the index. -/
theorem parseAt_mirrors (s : StartSymbol) (input : Input) {i : Nat} (hi : i ≤ input.tokens.length) :
    Mirrors input (s.rule (Grammar.nested input.maxDepth) (input.drop i)) (s.parseAt input i) := by
  have hnested : Grammar.Nested.Agree input input.maxDepth input.maxDepth
      (Grammar.nested input.maxDepth) (input.nested input.maxDepth) :=
    Grammar.agree_nested_self input.maxDepth
  cases s with
  | expr => exact (Grammar.agree_expr hnested i hi).mirrors
  | sequenceType => exact (Grammar.agree_sequenceType hnested.itemType i hi).mirrors
  | itemType => exact (hnested.itemType i hi).mirrors
  | singleType => exact (Grammar.matches_singleType i hi).mirrors (n := 0)
  | kindTest => exact (Grammar.matches_kindTest i hi).mirrors (n := 0)
  | nodeTest => exact (Grammar.matches_nodeTest i hi).mirrors (n := 0)
  | nameTest => exact (Grammar.matches_nameTest i hi).mirrors (n := 0)
  | eqName => exact (Grammar.matches_eqName i hi).mirrors (n := 0)
  | ncName => exact (Grammar.matches_ncName i hi).mirrors (n := 0)
  | predicate => exact (Grammar.agree_predicate hnested i hi).mirrors
  | argumentList => exact (Grammar.agree_argumentList hnested i hi).mirrors
  | paramList => exact (Grammar.agree_paramList hnested i hi).mirrors
  | enclosedExpr => exact (Grammar.agree_enclosedExpr hnested i hi).mirrors

/-- At an index a construct is read as at the start of the tokens from there on. It gives the same
value or the same error, and all indices are larger by that of the start. No token in front of the
index has a part in it. -/
theorem parse_drop (s : StartSymbol) (maxDepth : Nat) {ts : List Token} {start : Nat}
    (hstart : start ≤ ts.length) :
    s.parseAt ⟨ts, maxDepth⟩ start = movedBy start (s.parseAt ⟨ts.drop start, maxDepth⟩ 0) ∧
      s.parse maxDepth ts start = s.parseAt ⟨ts, maxDepth⟩ start := by
  have hall := s.parseAt_mirrors ⟨ts, maxDepth⟩ hstart
  have hrest := s.parseAt_mirrors ⟨ts.drop start, maxDepth⟩ (Nat.zero_le _)
  have hmoved := hall.eq_movedBy hstart hrest
  exact ⟨hmoved, hrest.run_eq.trans hmoved.symm⟩

/-- A predicate with a slash that stands alone, which is not closed. -/
theorem parse_drop_predicate :
    1 ≤ 4 ∧
      predicate.parseAt ⟨["x", "[", "/", " "], 1⟩ 1 =
        movedBy 1 (predicate.parseAt ⟨["[", "/", " "], 1⟩ 0) ∧
      predicate.parseAt ⟨["[", "/", " "], 1⟩ 0 =
        .error (.unexpectedToken 0 (some "[") "']' of Predicate") := by
  have hstart : 1 ≤ ["x", "[", "/", " "].length := by decide
  exact ⟨hstart, (parse_drop predicate 1 hstart).1, rfl⟩

end StartSymbol

end XPath
