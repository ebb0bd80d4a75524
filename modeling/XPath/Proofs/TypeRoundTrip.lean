import XPath.Proofs.RoundTrip
import XPath.Render.Construct

/-!
# Round trip of types and names

Types and names can be read on their own, and what is read has the tokens that `StartSymbol.pieces`
are written as. A rule that is sound reads only values that fit; one that is complete reads them
from their tokens, if nothing is left that would continue them. At the end of the tokens nothing is,
not even an occurrence indicator that the result type of a function would take for its own. So each
of these rules reads back what it has read (`Rule.Rereads`), and so do the constructs
(`StartSymbol.parse_tokens_of_parse`).
-/

namespace XPath

open Grammar Rule

/-! ## Rules -/

/-- Whatever the rule reads it reads again from its tokens. -/
def Rule.Rereads {α : Type} (r : Rule α) (pieces : α → List Piece) : Prop :=
  ∀ ⦃ts a rest⦄, r ts = .ok (a, rest) →
    Solid (pieces a) ∧ r.Reads (Piece.write .whole (pieces a)) a []

theorem EndsType.nil : EndsType [] := Ends.nil.endsType (Nat.le_refl 20)

theorem unmarkedBefore_nil (endsUnmarked : Bool) : UnmarkedBefore endsUnmarked [] :=
  fun _ _ h => nomatch h

namespace Grammar

theorem ncName_rereads : ncName.Rereads NCName.pieces := by
  intro ts n rest h
  have hn := (ncName_sound h).2
  refine ⟨NCName.solid hn, ?_⟩
  rw [write_ncName hn]
  intro us hus
  have hread := ncName_cons hn []
  rw [ncName_apply, skipSpace_of_isWord (Token.isWord_of_startsName hn)] at hread
  rw [ncName_apply, hus]
  exact hread

theorem eqName_rereads : eqName.Rereads EQName.pieces := by
  intro ts n rest h
  have hn := (eqName_sound h).2
  exact ⟨EQName.solid hn, eqName_complete hn EndsType.nil.toEndsName⟩

theorem nameTest_rereads : nameTest.Rereads NameTest.pieces := by
  intro ts t rest h
  have ht := (nameTest_sound h).2
  exact ⟨NameTest.solid ht, nameTest_complete ht EndsType.nil.toEndsName⟩

theorem kindTest_rereads : kindTest.Rereads KindTest.pieces := by
  intro ts t rest h
  have ht := (kindTest_sound h).2
  exact ⟨KindTest.solid t, kindTest_complete ht []⟩

theorem nodeTest_rereads : nodeTest.Rereads NodeTest.pieces := by
  intro ts t rest h
  have ht := (nodeTest_sound h).2
  exact ⟨NodeTest.solid ht, nodeTest_complete ht .nil⟩

theorem singleType_rereads : singleType.Rereads SingleType.pieces := by
  intro ts t rest h
  have ht := (singleType_sound h).2
  exact ⟨SingleType.solid ht, singleType_complete ht EndsType.nil.toEndsName rfl⟩

theorem itemType_rereads (levels : Nat) : (itemType levels).Rereads ItemType.pieces := by
  intro ts t rest h
  have ht := (itemType_sound levels h).2.1
  exact ⟨ItemType.solid ht, itemType_complete .whole levels ht (unmarkedBefore_nil _) .nil⟩

theorem sequenceType_rereads (levels : Nat) :
    (sequenceType (itemType levels)).Rereads SequenceType.pieces := by
  intro ts t rest h
  have ht := (sequenceType_sound (itemType_sound levels) h).2.1
  exact ⟨SequenceType.solid (fun _ => ItemType.solid) ht,
    sequenceType_complete (itemType_complete .whole levels) ht (unmarkedBefore_nil _) .nil⟩

end Grammar

/-! ## Constructs -/

namespace StartSymbol

/-- The constructs that are types, tests or names. -/
def typesAndNames : List StartSymbol :=
  [sequenceType, itemType, singleType, kindTest, nodeTest, nameTest, eqName, ncName]

theorem rule_rereads {s : StartSymbol} (hs : s ∈ typesAndNames) (levels : Nat) :
    (s.rule (nested levels)).Rereads s.pieces := by
  simp only [typesAndNames, List.mem_cons, List.not_mem_nil, or_false] at hs
  rcases hs with rfl | rfl | rfl | rfl | rfl | rfl | rfl | rfl
  · exact sequenceType_rereads levels
  · exact itemType_rereads levels
  · exact singleType_rereads
  · exact kindTest_rereads
  · exact nodeTest_rereads
  · exact nameTest_rereads
  · exact eqName_rereads
  · exact ncName_rereads

/-- Rendering a type, a test or a name is undone by parsing, wherever it was found: all of its
tokens are read, as the same value. -/
theorem parse_tokens_of_parse {s : StartSymbol} (hs : s ∈ typesAndNames) {maxDepth start next : Nat}
    {ts : List Token} {v : s.Value} (h : s.parse maxDepth ts start = .ok (v, next)) :
    s.parse maxDepth (Piece.tokens (s.pieces v)) 0 =
      .ok (v, (Piece.tokens (s.pieces v)).length) := by
  obtain ⟨rest, hrest, -⟩ := Rule.run_eq_ok.mp h
  obtain ⟨hsolid, hreads⟩ := rule_rereads hs maxDepth hrest
  have hread := hreads.write hsolid.starts
  rw [List.append_nil, ← Piece.tokens_eq_write hsolid.closes] at hread
  exact Rule.run_eq_ok.mpr ⟨[], hread, by simp⟩

/-- The result type of a function takes the mark that it is followed by. -/
theorem parse_tokens_of_parse_function : ∃ v,
    sequenceType.parse 2
      ["?", "function", "(", "map", "(", "*", ")", ")", "as", "item", "(", " ", ")", "*"] 1 =
      .ok (v, 14) ∧
    sequenceType.parse 2 (Piece.tokens v.pieces) 0 = .ok (v, (Piece.tokens v.pieces).length) :=
  have h : sequenceType.parse 2
      ["?", "function", "(", "map", "(", "*", ")", ")", "as", "item", "(", " ", ")", "*"] 1 =
        .ok (.items (.function [.items .anyMap none] (.items .any (some .zeroOrMore))) none,
        14) := rfl
  ⟨_, h, parse_tokens_of_parse (by decide) h⟩

end StartSymbol

end XPath
