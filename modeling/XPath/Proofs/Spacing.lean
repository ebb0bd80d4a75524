import XPath.Proofs.Composition
import XPath.Proofs.RoundTrip

/-!
# Spaces between rendered tokens

A gap adds a space only where a word, a quote or a brace stands before it, so no space follows a
space, or stands in front, as long as no word is a space itself
(`Piece.noSpacesInARow_tokensAfter`). One space may be left at the end, which is dropped. Strings
and URIs may be spaces: they stand between quotes or braces.

Of the words of a tree only its names could be spaces. If none of them is, the tokens of the tree
are spaced normally, whatever else it is made of (`Tree.normallySpaced`). A rule skips one space at
most, so tokens with two in a row would not be read back.
-/

namespace XPath

/-- No two tokens in a row are spaces. -/
def Token.NoSpacesInARow (ts : List Token) : Prop :=
  ts.IsChain fun t u => ¬(t.isSpace ∧ u.isSpace)

/-- No space at the start or the end, and no two in a row. -/
structure NormallySpaced (ts : List Token) : Prop where
  first : ∀ t ∈ ts.head?, t.isSpace = false
  last : ∀ t ∈ ts.getLast?, t.isSpace = false
  inside : Token.NoSpacesInARow ts

namespace Token.NoSpacesInARow

variable {t u : Token} {ts : List Token}

theorem cons (ht : t.isSpace = false) (h : NoSpacesInARow ts) : NoSpacesInARow (t :: ts) :=
  List.isChain_cons.mpr ⟨fun u _ => by simp [ht], h⟩

theorem space_cons (hhead : ∀ t ∈ ts.head?, t.isSpace = false) (h : NoSpacesInARow ts) :
    NoSpacesInARow (space :: ts) :=
  List.isChain_cons.mpr ⟨fun u hu => by simp [hhead u hu], h⟩

/-- What stands between a mark on each side may be a space. -/
theorem between (ht : t.isSpace = false) (hu : u.isSpace = false) (content : Token)
    (h : NoSpacesInARow ts) : NoSpacesInARow (t :: content :: u :: ts) := by
  have hcontent : NoSpacesInARow (content :: u :: ts) :=
    List.isChain_cons.mpr ⟨by simp [hu], h.cons hu⟩
  exact hcontent.cons ht

end Token.NoSpacesInARow

namespace Piece

open Token

variable {ps : List Piece}

/-- A gap adds no space after a space, and none at the start. -/
theorem noSpacesInARow_tokensAfter (h : ∀ t, .text t ∈ ps → t ≠ Token.space)
    (last : Option Token) :
    NoSpacesInARow (tokensAfter last ps) ∧
      (last.all isSpace → ∀ t ∈ (tokensAfter last ps).head?, t.isSpace = false) := by
  induction ps generalizing last with
  | nil => exact ⟨.nil, by simp [tokensAfter]⟩
  | cons p ps ih =>
    have ih := ih fun t ht => h t (List.mem_cons_of_mem _ ht)
    cases p with
    | text t =>
      have ht : t.isSpace = false := by simpa [isSpace] using h t List.mem_cons_self
      exact ⟨(ih (some t)).1.cons ht, fun _ u hu => Option.some.inj hu ▸ ht⟩
    | string s =>
      have hquote : Token.isSpace "\"" = false := by decide
      exact ⟨.between hquote hquote s (ih (some "\"")).1,
        fun _ u hu => Option.some.inj hu ▸ hquote⟩
    | bracedUri u =>
      have hmark : Token.isSpace "Q" = false := by decide
      have hopening : Token.isSpace "\x7b" = false := by decide
      have hclosing : Token.isSpace "\x7d" = false := by decide
      have hbraced := NoSpacesInARow.between hopening hclosing u (ih (some "\x7d")).1
      exact ⟨hbraced.cons hmark, fun _ u hu => Option.some.inj hu ▸ hmark⟩
    | gap =>
      rw [tokensAfter]
      split
      next hlast => exact ih last
      next hlast =>
        obtain ⟨hrest, hhead⟩ := ih (some Token.space)
        exact ⟨hrest.space_cons (hhead rfl), fun hspace => absurd hspace hlast⟩

theorem dropFinalSpace_concat_space (ts : List Token) :
    dropFinalSpace (ts ++ [Token.space]) = ts := by
  induction ts with
  | nil => rfl
  | cons t ts ih =>
    rw [List.cons_append, dropFinalSpace, ih]
    simp

/-- Finishing takes a space away from the end, and there is none before it. -/
theorem normallySpaced_dropFinalSpace {ts : List Token}
    (h : NoSpacesInARow ts) (hhead : ∀ t ∈ ts.head?, t.isSpace = false) :
    NormallySpaced (dropFinalSpace ts) := by
  rcases List.eq_nil_or_concat ts with rfl | ⟨us, u, rfl⟩
  · exact ⟨by simp [dropFinalSpace], by simp [dropFinalSpace], .nil⟩
  rw [List.concat_eq_append] at h hhead ⊢
  cases hu : u.isSpace with
  | false =>
    rw [dropFinalSpace_concat us hu]
    exact ⟨hhead, by simp [hu], h⟩
  | true =>
    obtain rfl : u = Token.space := by simpa [Token.isSpace] using hu
    obtain ⟨hus, -, hlast⟩ := List.isChain_append.mp h
    rw [dropFinalSpace_concat_space]
    refine ⟨fun t ht => hhead t ?_, fun t ht => ?_, hus⟩
    · simp [List.head?_append, Option.mem_def.mp ht]
    · simpa [hu] using hlast t ht Token.space rfl

theorem normallySpaced_tokens (h : ∀ t, .text t ∈ ps → t ≠ Token.space) :
    NormallySpaced (tokens ps) := by
  obtain ⟨hrest, hhead⟩ := noSpacesInARow_tokensAfter h none
  exact normallySpaced_dropFinalSpace hrest (hhead rfl)

end Piece

/-- The tokens of every tree are spaced normally, if none of its names is a space. -/
theorem Tree.normallySpaced {ι : Type} (t : Tree ι) (h : ∀ n ∈ t.ncNames, n.text ≠ " ") :
    NormallySpaced t.tokens := by
  have hcomposed := t.composed (W := fun word => word ≠ Token.space) (fun _ hword => hword) h
  exact Piece.normallySpaced_tokens fun _ => hcomposed.mem

/-- No expression at all, a negative infinity, a string and a namespace that are one space. -/
theorem Tree.normallySpaced_oddities :
    let name : EQName := .uriQualified " " ⟨"x"⟩
    let t : Node := .of (.squareArray [.of (.expr []), .of (.double (.infinity true)),
      .of (.string " "), .of (.varRef name)])
    (∀ n ∈ t.ncNames, n.text ≠ " ") ∧ NormallySpaced t.tokens := by
  intro name t
  have h : ∀ n ∈ t.ncNames, n.text ≠ " " := by decide +kernel
  exact ⟨h, t.normallySpaced h⟩

end XPath
