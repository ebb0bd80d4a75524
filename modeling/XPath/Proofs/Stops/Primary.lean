import XPath.Proofs.Sound.Path
import XPath.Proofs.Stops.SequenceType

/-!
# Where the rules for primary expressions stop

Two functions decide on the first tokens of a primary expression: `couldBePrimary` looks ahead, and
`primaryFrom` reads on. Where the first one says no, the second one is left with a name
(`primaryFrom_of_not`). Where it says yes on account of a name, a parenthesis or a `#` stands behind
that name, also if more spaces are in front of it than the look-ahead has seen
(`couldBePrimary_skipSpace`).

So a primary expression stops as it should where the look-ahead has let it through
(`primaryExpr_stopsAt`). Elsewhere it may fail for a name that is neither called nor referred to,
and nowhere else is anything asked of the tokens.
-/

namespace XPath.Grammar

open Rule

variable {levels : Nat} {inner : Nested}

/-! ## Looking ahead -/

/-- What the look-ahead lets through. -/
theorem couldBePrimary_iff {t : Token} {ts : List Token} : couldBePrimary (t :: ts) = true ↔
    t ∈ ["(", ".", "$", "?", "[", "'", "\""] ∨ t.isDigits = true ∨
      (t = "function" ∧ isNext "(" ts = true) ∨
        ((t = "map" ∨ t = "array") ∧ isNext "\x7b" ts = true) ∨
      ∃ name more, eqName (t :: ts) = .ok (name, more) ∧
        (isNext "#" more = true ∨ isNext "(" more = true ∧ isReserved name = false) := by
  rw [couldBePrimary]
  cases eqName (t :: ts) with
  | error e => simp [or_assoc, or_comm, or_left_comm]
  | ok x =>
    obtain ⟨name, more⟩ := x
    simp [or_assoc, or_comm, or_left_comm]

/-- What the look-ahead has seen behind a space, or two, is seen again without the first one. -/
theorem couldBePrimary_skipSpace {ts : List Token} (h : couldBePrimary ts) :
    couldBePrimary (Token.skipSpace ts) := by
  by_cases hs : ts.head? = some Token.space
  · obtain ⟨us, rfl⟩ := List.head?_eq_some_iff.mp hs
    obtain ⟨name, more, hname, hmore⟩ : ∃ name more, eqName (Token.space :: us) = .ok (name, more) ∧
        (isNext "#" more = true ∨ isNext "(" more = true ∧ isReserved name = false) := by
      obtain h | h | ⟨h, -⟩ | ⟨h | h, -⟩ | h := couldBePrimary_iff.mp h
      · exact absurd h (by decide)
      · exact absurd h (by decide)
      · exact absurd h (by decide)
      · exact absurd h (by decide)
      · exact absurd h (by decide)
      · exact h
    have hskip := eqName_skipSpace hname (hmore.imp id And.left)
    cases hus : Token.skipSpace (Token.space :: us) with
    | nil =>
      rw [hus] at hskip
      cases hskip
    | cons t vs =>
      rw [hus] at hskip
      exact couldBePrimary_iff.mpr (.inr (.inr (.inr (.inr ⟨name, more, hskip, hmore⟩))))
  · rwa [skipSpace_eq_self hs]

/-- Whatever begins a primary expression without a name of its own is seen ahead. -/
theorem primaryFrom_of_not {t : Token} {ts : List Token} (h : couldBePrimary (t :: ts) = false) :
    primaryFrom inner t ts = functionExpr inner := by
  have hnot := mt couldBePrimary_iff.mpr (Bool.not_eq_true _ ▸ h)
  simp only [not_or, List.mem_cons, List.not_mem_nil] at hnot
  obtain ⟨⟨hparen, hdot, hdollar, hmark, hbracket, hquote, hquote', -⟩, hdigits, hfunction,
    hbrace, -⟩ := hnot
  have hq : ¬ t.isQuote = true := by simp [Token.isQuote, hquote, hquote']
  rw [primaryFrom, if_neg hparen, if_neg hdot, if_neg hdollar, if_neg hmark, if_neg hq,
    if_neg hbracket, if_neg hfunction, if_neg fun hmap => hbrace ⟨.inl hmap.1, hmap.2⟩,
    if_neg fun harray => hbrace ⟨.inr harray.1, harray.2⟩, if_neg hdigits]

/-- The rule that a primary expression begins with, and what the look-ahead has seen of it. -/
inductive SeenAhead (inner : Nested) (t : Token) (ts : List Token) : Rule Node → Prop
  | parenthesized (ht : t = "(") : SeenAhead inner t ts (parenthesizedExpr inner)
  | contextItem (ht : t = ".") : SeenAhead inner t ts do
    advance
    return .of .contextItem
  | number (h : BeginsNumber t ts) : SeenAhead inner t ts numericLiteral
  | varRef (ht : t = "$") : SeenAhead inner t ts do
    return .of (.varRef (← after "$" "VarRef" eqName))
  | unaryLookup (ht : t = "?") : SeenAhead inner t ts do
    return .of (.unaryLookup (← after "?" "UnaryLookup" (keySpecifier inner)))
  | string (ht : t.isQuote) : SeenAhead inner t ts do
    return .of (.string (← stringLiteral))
  | squareArray (ht : t = "[") : SeenAhead inner t ts (squareArray inner)
  | inlineFunction (ht : t = "function") : SeenAhead inner t ts (inlineFunction inner)
  | mapConstructor (ht : t = "map") : SeenAhead inner t ts (mapConstructor inner)
  | curlyArray (ht : t = "array") : SeenAhead inner t ts (curlyArray inner)
  | function {name : EQName} {more : List Token} (hname : eqName (t :: ts) = .ok (name, more))
    (hmore : isNext "#" more = true ∨ isNext "(" more = true) :
    SeenAhead inner t ts (functionExpr inner)

/-- A primary expression begins as the look-ahead has seen it. -/
theorem seenAhead (inner : Nested) {t : Token} {ts : List Token} (h : couldBePrimary (t :: ts)) :
    SeenAhead inner t ts (primaryFrom inner t ts) := by
  refine iteInduction .parenthesized fun hparen => iteInduction (fun hdot => ?_) fun hdot =>
    iteInduction .varRef fun hdollar => iteInduction .unaryLookup fun hmark =>
    iteInduction .string fun hquote => iteInduction .squareArray fun hbracket =>
    iteInduction (fun ht => .inlineFunction ht.1) fun hfunction =>
    iteInduction (fun ht => .mapConstructor ht.1) fun hmap =>
    iteInduction (fun ht => .curlyArray ht.1) fun harray =>
    iteInduction (fun ht => .number (.inr ht)) fun hdigits => ?_
  · exact iteInduction (fun hf => .number (.inl ⟨hdot, hf⟩)) fun _ => .contextItem hdot
  -- Of all that the look-ahead accepts a name is left.
  obtain ⟨hsingle, hdouble⟩ : t ≠ "'" ∧ t ≠ "\"" := by simpa [Token.isQuote] using hquote
  obtain h | h | h | ⟨h | h, hbrace⟩ | ⟨name, more, hname, hmore⟩ := couldBePrimary_iff.mp h
  · simp [hparen, hdot, hdollar, hmark, hbracket, hsingle, hdouble] at h
  · exact absurd h hdigits
  · exact absurd h hfunction
  · exact absurd ⟨h, hbrace⟩ hmap
  · exact absurd ⟨h, hbrace⟩ harray
  · exact .function hname (hmore.imp id And.left)

/-- A primary expression is chosen by the first token that is no space. -/
theorem primaryExpr_cons {t : Token} {ts more : List Token} (h : Token.skipSpace ts = t :: more) :
    primaryExpr inner ts = primaryFrom inner t more (t :: more) := by
  rw [primaryExpr, bind_of_ok (space_apply ts), h, bind_of_ok (rest_apply _)]

/-- A name that is called or referred to. -/
theorem functionExpr_of_eqName {ts more : List Token} {name : EQName}
    (hname : eqName ts = .ok (name, more))
    (hmore : isNext "#" more = true ∨ isNext "(" more = true) :
    functionExpr inner ts = (if isNext "#" more then namedFunctionRef name
      else argumentList inner >>= fun args => pure (.of (.functionCall name args)) : Rule Node)
        more := by
  rw [functionExpr, bind_of_ok hname, bind_of_ok (rest_apply more)]
  split
  · rfl
  next hhash => rw [if_pos (hmore.resolve_left hhash)]

/-! ## Brackets -/

/-- The rules for what is nested one level deeper stop as they should. -/
structure Nested.Stops (levels : Nat) (inner : Nested) : Prop where
  exprSingle : inner.exprSingle.Consumes levels
  itemType : inner.itemType.Consumes levels

section Primary

variable (hi : inner.Stops levels)
include hi

/-- An expression. -/
theorem expr_consumes : (expr inner).Consumes levels :=
  (consumes_commaList hi.exprSingle).bind fun _ => mayConsume_pure _

/-- An expression, unless its bracket is closed at once. -/
theorem exprUntil_mayConsume (closing : Token) : (exprUntil inner closing).MayConsume levels :=
  stops_rest fun ts => Stops.ite _ (mayConsume_pure _)
    ((expr_consumes hi).bind fun _ => mayConsume_pure _).mayConsume ts

/-- An expression in parentheses. -/
theorem parenthesizedExpr_consumes : (parenthesizedExpr inner).Consumes (levels + 1) :=
  (consumes_group parentheses (exprUntil_mayConsume hi _)).bind fun _ => mayConsume_pure _

/-- An expression in braces. -/
theorem enclosedExpr_consumes : (enclosedExpr inner).Consumes (levels + 1) :=
  consumes_group braces (exprUntil_mayConsume hi _)

/-- A predicate. -/
theorem predicate_consumes : (predicate inner).Consumes (levels + 1) :=
  consumes_group squareBrackets (expr_consumes hi).mayConsume

/-- An argument, or a placeholder for one. -/
theorem argument_consumes : (argument inner).Consumes levels := by
  have hexpr : (inner.exprSingle >>= fun n => pure (Argument.expr n)).Consumes levels :=
    hi.exprSingle.bind fun _ => mayConsume_pure _
  refine Consumes.space <| stops_rest fun ts => ?_
  split
  next us =>
    split
    · exact (stopsAt_advance (t := "?") (by decide) (mayConsume_pure Argument.placeholder) us).mono
        (Nat.le_succ levels)
    · exact hexpr _
  · exact hexpr ts

/-- The arguments of a call. -/
theorem argumentList_consumes : (argumentList inner).Consumes (levels + 1) :=
  consumes_group parentheses (mayConsume_separated _ (argument_consumes hi))

/-- The key of a lookup. -/
theorem keySpecifier_consumes : (keySpecifier inner).Consumes (levels + 1) := by
  refine Consumes.space <| stops_rest fun ts => ?_
  split
  · exact .unexpected (by decide) []
  next t us =>
    refine stopsAt_ite (fun ht => ?_) fun _ => stopsAt_ite (fun _ => ?_) fun _ =>
      stopsAt_ite (fun hd => ?_) fun _ => ?_
    · subst ht
      exact stopsAt_advance (by decide) (mayConsume_pure KeySpecifier.wildcard) us
    · exact ((parenthesizedExpr_consumes hi).bind fun _ => mayConsume_pure _) _
    · exact stopsAt_advance (Token.isOrdinary_of_isDigits hd)
        ((mayConsume_ofExcept _).followed fun _ => mayConsume_pure _) us
    · exact ((consumes_one (fun _ => Token.isOrdinary_of_startsName) (by decide)).bind fun _ =>
        mayConsume_pure _) _

/-! ## Functions -/

omit hi in
/-- A reference to a function by its name and arity. -/
theorem namedFunctionRef_consumes (name : EQName) : (namedFunctionRef name).Consumes levels := by
  refine (consumes_expect (by decide) _).bind fun _ => Stops.mayConsume <| Consumes.space <|
    (consumes_one (fun _ => Token.isOrdinary_of_isDigits) (by decide)).bind fun digits => ?_
  exact Stops.ite _ (mayConsume_pure _) fun _ => .value _

/-- The type that a parameter or a function is declared with. -/
theorem declaredType?_mayConsume : (declaredType? inner).MayConsume levels :=
  (stops_skip? (by decide)).followed fun _ => Stops.ite _
    ((sequenceType_consumes hi.itemType).bind fun _ => mayConsume_pure _).mayConsume
    (mayConsume_pure _)

/-- A parameter. -/
theorem param_consumes : (param inner).Consumes levels :=
  (consumes_after (by decide) _ eqName_consumes).bind fun _ =>
    (declaredType?_mayConsume hi).followed fun _ => mayConsume_pure _

/-- The parameters of a function, of which there need not be any. -/
theorem paramList_mayConsume : (paramList inner).MayConsume levels :=
  mayConsume_separated _ (param_consumes hi)

/-- What follows the keyword of a function with a body of its own. -/
theorem functionBody_consumes : (bracketed "(" ")" "InlineFunctionExpr" (paramList inner) >>=
    fun params => declaredType? inner >>= fun result => enclosedExpr inner >>= fun body =>
      pure (Node.of (.inlineFunction params result body))).Consumes levels :=
  have hparams : (bracketed "(" ")" "InlineFunctionExpr" (paramList inner)).Consumes levels :=
    (consumes_bracketed parentheses (paramList_mayConsume hi)).mono (Nat.le_succ levels)
  have hbody : (enclosedExpr inner).Consumes levels :=
    (enclosedExpr_consumes hi).mono (Nat.le_succ levels)
  hparams.bind fun _ => Stops.mayConsume <| (declaredType?_mayConsume hi).before fun _ =>
    hbody.bind fun _ => mayConsume_pure _

/-- A function with a body of its own. -/
theorem inlineFunction_consumes : (inlineFunction inner).Consumes (levels + 1) :=
  (consumes_expect (by decide) _).descend fun _ => (functionBody_consumes hi).mayConsume

/-! ## Constructors -/

/-- A key and its value. -/
theorem mapEntry_consumes : (mapEntry inner).Consumes levels :=
  hi.exprSingle.bind fun _ => Stops.mayConsume <| (consumes_expect (by decide) _).before fun _ =>
    hi.exprSingle.bind fun _ => mayConsume_pure _

/-- A map. -/
theorem mapConstructor_consumes : (mapConstructor inner).Consumes (levels + 1) :=
  (consumes_expect (by decide) _).before fun _ => (consumes_bracketed braces
    (mayConsume_separated _ (mapEntry_consumes hi))).bind fun _ => mayConsume_pure _

/-- An array in square brackets. -/
theorem squareArray_consumes : (squareArray inner).Consumes (levels + 1) :=
  (consumes_group squareBrackets (mayConsume_separated _ hi.exprSingle)).bind fun _ =>
    mayConsume_pure _

/-- An array in braces. -/
theorem curlyArray_consumes : (curlyArray inner).Consumes (levels + 1) :=
  (consumes_expect (by decide) _).before fun _ =>
    (enclosedExpr_consumes hi).bind fun _ => mayConsume_pure _

/-! ## Primary expressions -/

/-- What follows the name of a function. -/
theorem functionRest_consumes (name : EQName) (more : List Token) :
    (if isNext "#" more then namedFunctionRef name
      else argumentList inner >>= fun args => pure (.of (.functionCall name args)) :
      Rule Node).Consumes (levels + 1) :=
  Stops.ite _ (namedFunctionRef_consumes name)
    ((argumentList_consumes hi).bind fun _ => mayConsume_pure _)

/-- A name is called or referred to where the look-ahead has seen that. -/
theorem functionExpr_stopsAt {ts more : List Token} {name : EQName}
    (hname : eqName ts = .ok (name, more))
    (hmore : isNext "#" more = true ∨ isNext "(" more = true) :
    StopsAt (levels + 1) (fun _ => True) ts (functionExpr inner ts) := by
  have hts : StopsAt (levels + 1) (fun _ => True) ts (eqName ts) := eqName_consumes ts
  rw [hname] at hts
  obtain ⟨w, rfl, hw, hne⟩ := hts
  rw [functionExpr_of_eqName hname hmore]
  exact (functionRest_consumes hi name more more).after hw (Nat.le_add_right _ _)
    fun _ _ => .inr trivial

/-- Whatever the look-ahead has let through. -/
theorem primaryFrom_stopsAt {t : Token} {ts : List Token} (h : couldBePrimary (t :: ts)) :
    StopsAt (levels + 1) (fun _ => True) (t :: ts) (primaryFrom inner t ts (t :: ts)) := by
  have hseen := seenAhead inner h
  generalize primaryFrom inner t ts = r at hseen ⊢
  cases hseen with
  | parenthesized => exact parenthesizedExpr_consumes hi _
  | contextItem ht =>
    subst ht
    exact stopsAt_advance (by decide) (mayConsume_pure (Node.of .contextItem)) ts
  | number => exact numericLiteral_consumes _
  | varRef =>
    exact ((consumes_after (by decide) _ eqName_consumes).bind fun _ => mayConsume_pure _) _
  | unaryLookup =>
    exact ((consumes_after (by decide) _ (keySpecifier_consumes hi)).bind fun _ =>
      mayConsume_pure _) _
  | string => exact (stringLiteral_consumes.bind fun _ => mayConsume_pure _) _
  | squareArray => exact squareArray_consumes hi _
  | inlineFunction => exact inlineFunction_consumes hi _
  | mapConstructor => exact mapConstructor_consumes hi _
  | curlyArray => exact curlyArray_consumes hi _
  | function hname hmore => exact functionExpr_stopsAt hi hname hmore

/-- A primary expression where the look-ahead has let it through, with a space in front that it has
not seen. -/
theorem primaryExpr_stopsAt {ts : List Token} (h : couldBePrimary ts) :
    StopsAt (levels + 1) (fun _ => True) (Token.skipSpace ts) (primaryExpr inner ts) := by
  have hskip := couldBePrimary_skipSpace h
  cases hts : Token.skipSpace ts with
  | nil =>
    rw [hts] at hskip
    cases hskip
  | cons t us =>
    rw [primaryExpr_cons hts]
    exact primaryFrom_stopsAt hi (hts ▸ hskip)

end Primary

end XPath.Grammar
