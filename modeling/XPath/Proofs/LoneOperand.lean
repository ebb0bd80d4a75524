import XPath.Proofs.Alike.Primary
import XPath.Proofs.Complete.Expr

/-!
# An operand that nothing follows

Between an expression and the literal that is all of it stand the rules of every operator. What the
rule below reads up to the end of the tokens is what the rule above reads, since no operator is left
for it, and an error goes up as it is (`Rule.Passes`). So a whole number is read by the rule for
numbers, and nothing else has a say (`BeginsNumber.parseAllTokens_eq`).
-/

namespace XPath

open Rule Grammar

variable {ts : List Token}

namespace Rule

variable {α β γ : Type}

theorem bind_bind (r : Rule α) (k : α → Rule β) (l : β → Rule γ) :
    (r >>= k) >>= l = r >>= fun a => k a >>= l := by
  funext ts
  rw [bind_apply, bind_apply, bind_apply]
  cases r ts <;> rfl

/-- Whatever is read, nothing is left after it. -/
def ReadsAll : Except Failure (α × List Token) → Prop
  | .ok (_, rest) => rest = []
  | .error _ => True

/-- If `s` leaves nothing, `r` comes to the same. -/
def Passes (ts : List Token) (r s : Rule α) : Prop := ReadsAll (s ts) → r ts = s ts

variable {r s u : Rule α}

theorem Passes.trans (h : Passes ts r s) (h' : Passes ts s u) : Passes ts r u := by
  intro hu
  have hs := h' hu
  exact (h (hs ▸ hu)).trans hs

theorem Passes.of_eq (h : r ts = s ts) : Passes ts r s :=
  fun _ => h

/-- Nothing happens at the end. -/
theorem passes_bind {k : α → Rule α} (hk : ∀ a, k a [] = .ok (a, [])) : Passes ts (s >>= k) s := by
  intro hs
  match h : s ts with
  | .ok (a, rest) =>
    rw [h] at hs
    obtain rfl : rest = [] := hs
    rw [bind_of_ok h, hk]
  | .error e => rw [bind_of_error h]

end Rule

namespace Grammar

variable {inner : Nested} {t : Token} {us : List Token}

/-! ## Levels -/

theorem passes_chainOf (level : ChainLevel) {operand : Rule Node} :
    Passes ts (chainOf level operand) operand := by
  rw [chainOf, chain_apply, bind_bind]
  exact passes_bind fun _ => rfl

theorem passes_typed {τ : Type} (form : Node → τ → Form Node) (w : Token) (ws : List Token)
    {operand : Rule Node} {type : Rule τ} :
    Passes ts (typed form (w :: ws) operand type) operand := by
  rw [typed, followedBy, bind_bind]
  exact passes_bind fun _ => rfl

theorem passes_arrowExpr : Passes ts (arrowExpr inner) (unaryExpr inner) := by
  rw [arrowExpr, chain_apply, bind_bind]
  exact passes_bind fun _ => rfl

theorem passes_comparisonExpr : Passes ts (comparisonExpr inner) (stringConcatExpr inner) :=
  passes_bind fun _ => rfl

theorem passes_suffixedExpr : Passes ts (suffixedExpr inner) (primaryExpr inner) :=
  passes_bind fun _ => rfl

theorem passes_unaryExpr
    (h : ∀ t ∈ (Token.skipSpace ts).head?, (Spelled.ofToken? t : Option UnaryOp) = none) :
    Passes ts (unaryExpr inner) (simpleMapExpr inner) := by
  have hsigns : unaryExpr inner ts = (simpleMapExpr inner >>= fun operand => pure operand) ts := by
    rw [unaryExpr_apply, bind_of_ok (signs_nil h)]
    rfl
  exact (Passes.of_eq hsigns).trans (passes_bind fun _ => rfl)

/-- From the loosest level of operators to the path. -/
theorem passes_orExpr
    (h : ∀ t ∈ (Token.skipSpace ts).head?, (Spelled.ofToken? t : Option UnaryOp) = none) :
    Passes ts (orExpr inner) (pathExpr inner) := by
  have hinstance : Passes ts (instanceOfExpr inner) (unaryExpr inner) :=
    (passes_typed _ _ _).trans <| (passes_typed _ _ _).trans <| (passes_typed _ _ _).trans <|
      (passes_typed _ _ _).trans passes_arrowExpr
  have hrange : Passes ts (rangeExpr inner) (instanceOfExpr inner) :=
    (passes_typed _ _ _).trans <| (passes_chainOf _).trans <| (passes_chainOf _).trans <|
      (passes_chainOf _).trans (passes_chainOf _)
  have hor : Passes ts (orExpr inner) (rangeExpr inner) :=
    (passes_chainOf _).trans <| (passes_chainOf _).trans <|
      passes_comparisonExpr.trans (passes_chainOf _)
  exact hor.trans <| hrange.trans <| hinstance.trans <|
    (passes_unaryExpr h).trans (passes_chainOf _)

/-! ## Numbers -/

namespace BeginsNumber

/-- It is no operator, nor another word with a meaning. -/
theorem ofToken?_eq_none (h : BeginsNumber t us) {α : Type} [Spelled α]
    (hall : ∀ a : α, Spelled.spelling a ≠ "." ∧ Token.isDigits (Spelled.spelling a) = false) :
    (Spelled.ofToken? t : Option α) = none :=
  Option.eq_none_iff_forall_ne_some.mpr fun a ha =>
    h.ne (hall a).1 (hall a).2 (Spelled.spelling_of_ofToken? ha).symm

theorem lookahead (h : BeginsNumber t us) :
    startsAxis (t :: us) = false ∧ couldBePrimary (t :: us) = true := by
  obtain ⟨rfl, -⟩ | ht := h
  · exact ⟨startsAxis_of_ne (fun a => by cases a <;> decide) us,
      couldBePrimary_iff.mpr (.inl (by decide))⟩
  · exact lookahead_digits ht us

theorem primaryExpr_eq (h : BeginsNumber t us) :
    primaryExpr inner (t :: us) = numericLiteral (t :: us) := by
  have hfrom : primaryFrom inner t us = numericLiteral := by
    obtain ⟨rfl, hf⟩ | ht := h
    · rw [primaryFrom, if_neg (by decide), if_pos rfl, if_pos hf]
    · exact primaryFrom_digits ht us
  exact (primaryExpr_cons h.skipSpace_eq).trans (congrFun hfrom _)

theorem stepExpr_eq (h : BeginsNumber t us) :
    stepExpr inner (t :: us) = suffixedExpr inner (t :: us) := by
  rw [stepExpr_apply, h.skipSpace_eq, h.lookahead.1, h.lookahead.2]
  rfl

theorem pathExpr_eq (h : BeginsNumber t us) :
    pathExpr inner (t :: us) = relativePath inner (t :: us) := by
  rw [pathExpr_apply, h.skipSpace_eq, List.head?_cons, Option.bind_some,
    h.ofToken?_eq_none fun op => by cases op <;> decide]

theorem exprSingleHere_eq (h : BeginsNumber t us) :
    exprSingleHere inner (t :: us) = orExpr inner (t :: us) := by
  have hwords : ∀ v ∈ ["for", "let", "some", "every", "if", "?"],
      v ≠ "." ∧ Token.isDigits v = false := by decide
  have hnot : t ∉ ["for", "let", "some", "every", "if", "?"] := fun hmem =>
    h.ne (hwords t hmem).1 (hwords t hmem).2 rfl
  rw [exprSingleHere_cons, exprSingleFrom_operators (.of_notMem hnot us)]

/-- A number that nothing follows is all of an expression. -/
theorem passes (h : BeginsNumber t us) (levels : Nat) :
    Passes (t :: us) (exprSingle (levels + 1)) numericLiteral := by
  have hsign : ∀ v ∈ (Token.skipSpace (t :: us)).head?,
      (Spelled.ofToken? v : Option UnaryOp) = none := by
    rw [h.skipSpace_eq, List.head?_cons]
    rintro v ⟨⟩
    exact h.ofToken?_eq_none fun op => by cases op <;> decide
  have hspace : exprSingle (levels + 1) (t :: us) = exprSingleHere (nested levels) (t :: us) := by
    rw [exprSingle, bind_of_ok (space_apply _), h.skipSpace_eq]
    rfl
  have hpath : Passes (t :: us) (pathExpr (nested levels)) numericLiteral :=
    (Passes.of_eq h.pathExpr_eq).trans <| (passes_chainOf _).trans <|
      (Passes.of_eq h.stepExpr_eq).trans <|
        passes_suffixedExpr.trans (Passes.of_eq h.primaryExpr_eq)
  exact (Passes.of_eq hspace).trans <| (Passes.of_eq h.exprSingleHere_eq).trans <|
    (passes_orExpr hsign).trans hpath

/-- Tokens that are read as a number are the expression that is this number. If it has no value,
that is the error. -/
theorem parseAllTokens_eq (h : BeginsNumber t us) {x : Except ValueError Node}
    (hx : numericLiteral (t :: us) = ofExcept x []) (maxDepth : Nat) :
    parseAllTokens (maxDepth + 1) (t :: us) =
      (x.map fun n => .of (.expr [n])).mapError .value := by
  have hsingle : exprSingle (maxDepth + 1) (t :: us) = ofExcept x [] := by
    rw [← hx]
    refine h.passes maxDepth ?_
    rw [hx]
    cases x <;> trivial
  cases x with
  | ok n =>
    have hexpr : expr (nested (maxDepth + 1)) (t :: us) = .ok (.of (.expr [n]), []) := by
      rw [expr, commaList, chain_apply, bind_bind, bind_bind]
      exact bind_of_ok hsingle _
    rw [parseAllTokens_of_ok hexpr]
    rfl
  | error e =>
    have hexpr : expr (nested (maxDepth + 1)) (t :: us) = .error (.value e) := by
      rw [expr, commaList, chain_apply, bind_bind, bind_bind]
      exact bind_of_error hsingle _
    rw [parseAllTokens_of_error hexpr]
    rfl

end BeginsNumber

end Grammar

end XPath
