import XPath.Proofs.Progress

/-!
# Looking ahead and reading on

A step is read as a primary expression if `couldBePrimary` says so. Asked at a token, it agrees with
`primaryExpr`: where it says no, a primary expression could only be the call of a function whose
name is kept for other uses; where it says yes, the token is taken before anything can be missed
(`Grammar.GoesPast`), but for a bracket or a quote, at which the missing end is reported
(`Grammar.couldBePrimary_agrees`).

Hence the error for a name that is neither called nor referred to is there for nobody: no entry
point reports it (`NeverReported`).
-/

namespace XPath

open Grammar Rule

variable {α β : Type}

/-- Tokens that are left behind the first one are among those after it. -/
theorem LeftBehind.suffix_tail {t : Token} {ts rest : List Token} (h : LeftBehind (t :: ts) rest) :
    rest <:+ ts := by
  obtain ⟨w, u, hw, -⟩ := h
  cases w with
  | nil => exact (List.cons_eq_cons.mp hw).2 ▸ List.suffix_rfl
  | cons v w =>
    rw [(List.cons_eq_cons.mp hw).2]
    exact (List.suffix_cons u rest).trans (List.suffix_append w _)

/-! ## Taking the first token -/

namespace Grammar

/-- A rule that is given a token and `ts` takes the token before it stops. -/
def GoesPast (ts : List Token) : Except Failure (α × List Token) → Prop
  | .ok (_, rest) | .error (.unexpected rest _) => rest <:+ ts
  | .error _ => True

variable {levels : Nat} {ts : List Token}

/-- Whatever comes behind the first token goes past it. -/
theorem goesPast_of_stopsAt {taking : α → Prop} {mid : List Token} (hmid : mid <:+ ts)
    {x : Except Failure (α × List Token)} (h : StopsAt levels taking mid x) : GoesPast ts x := by
  match x with
  | .ok (a, rest) => exact h.suffix.trans hmid
  | .error (.unexpected rest e) => exact h.1.1.trans hmid
  | .error (.tooDeep _) | .error (.value _) => trivial

/-- What follows a rule that goes past the first token. -/
theorem GoesPast.bind {us : List Token} {r : Rule α} {k : α → Rule β} (hr : GoesPast ts (r us))
    (hk : ∀ a, (k a).MayConsume 0) : GoesPast ts ((r >>= k) us) := by
  rw [bind_apply]
  match h : r us with
  | .ok (a, mid) =>
    rw [h] at hr
    exact goesPast_of_stopsAt hr (hk a mid)
  | .error e =>
    rw [h] at hr
    match e with
    | .unexpected rest expected => exact hr
    | .tooDeep _ | .value _ => trivial

/-- A token that is expected where it stands. -/
theorem goesPast_expect {t : Token} (ht : t.isSpace = false) (owner : String) :
    GoesPast ts (expect t owner (t :: ts)) := by
  have hskip : Token.skipSpace (t :: ts) = t :: ts := by simp [Token.skipSpace, ht]
  rw [expect_of_skipSpace hskip]
  exact List.suffix_rfl

/-- Digits and a point are taken together. -/
theorem mantissa_goesPast {t : Token} (h : BeginsNumber t ts) :
    GoesPast ts (mantissa (t :: ts)) := by
  unfold mantissa
  dsimp only
  split
  · split
    next point more =>
      split
      · split
        next f ts' =>
          split
          · exact List.suffix_append [point, f] ts'
          · exact List.suffix_cons point _
        · exact List.suffix_cons point []
      · exact List.suffix_rfl
    · exact List.suffix_rfl
  next ht =>
    obtain ⟨rfl, hf⟩ := h.resolve_right ht
    obtain ⟨f, hhead, hf⟩ := (Option.any_eq_true _ _).mp hf
    obtain ⟨ts', rfl⟩ := List.head?_eq_some_iff.mp hhead
    dsimp only
    rw [if_pos ⟨rfl, hf⟩]
    exact List.suffix_cons f ts'

/-- A number that begins is read. -/
theorem numericLiteral_goesPast {t : Token} (h : BeginsNumber t ts) :
    GoesPast ts (numericLiteral (t :: ts)) := by
  rw [numericLiteral, bind_of_ok (space_apply _), h.skipSpace_eq]
  exact (mantissa_goesPast h).bind fun m => exponent?_mayConsume.followed fun e? =>
    numericValue_mayConsume m e?

/-- What the look-ahead has seen to begin a primary expression is no error then, unless it is closed
again. -/
theorem primaryFrom_goesPast {inner : Nested} (hi : inner.Stops levels) {t : Token}
    (h : couldBePrimary (t :: ts)) (ht : t ∉ ["(", "[", "'", "\""]) :
    GoesPast ts (primaryFrom inner t ts (t :: ts)) := by
  have hseen := seenAhead inner h
  generalize primaryFrom inner t ts = r at hseen ⊢
  cases hseen with
  | parenthesized hparen => exact absurd (by simp [hparen]) ht
  | squareArray hbracket => exact absurd (by simp [hbracket]) ht
  | string hquote =>
    have hquote : t = "'" ∨ t = "\"" := by simpa [Token.isQuote] using hquote
    rcases hquote with rfl | rfl <;> exact absurd (by decide) ht
  | contextItem =>
    have hadvance : GoesPast ts (advance (t :: ts)) := List.suffix_rfl
    exact hadvance.bind fun _ => mayConsume_pure _
  | number h => exact numericLiteral_goesPast h
  | varRef ht =>
    subst ht
    exact ((goesPast_expect rfl _).bind fun _ => eqName_consumes.mayConsume).bind fun _ =>
      mayConsume_pure _
  | unaryLookup ht =>
    subst ht
    exact ((goesPast_expect rfl _).bind fun _ => (keySpecifier_consumes hi).mayConsume.mono
      (Nat.zero_le _)).bind fun _ => mayConsume_pure _
  | inlineFunction ht =>
    subst ht
    exact (goesPast_expect rfl _).bind fun _ =>
      (functionBody_consumes hi).mayConsume.mono (Nat.zero_le _)
  | mapConstructor ht =>
    subst ht
    exact (goesPast_expect rfl _).bind fun _ => Stops.mono ((consumes_bracketed braces
      (mayConsume_separated "\x7d" (mapEntry_consumes hi))).bind fun _ =>
        mayConsume_pure _).mayConsume (Nat.zero_le _)
  | curlyArray ht =>
    subst ht
    exact (goesPast_expect rfl _).bind fun _ =>
      ((enclosedExpr_consumes hi).bind fun _ => mayConsume_pure _).mayConsume.mono (Nat.zero_le _)
  | @function name more hname hmore =>
    have hname' : StopsAt 0 (fun _ => True) (t :: ts) (eqName (t :: ts)) := eqName_consumes _
    rw [hname] at hname'
    have hsuffix : more <:+ ts := (hname'.leftBehind_of trivial).suffix_tail
    rw [functionExpr_of_eqName hname hmore]
    exact goesPast_of_stopsAt hsuffix (functionRest_consumes hi name more more)

/-- Where nothing is seen ahead, a primary expression is the call of a function whose name is kept
for other uses. -/
theorem functionExpr_of_not {inner : Nested} {t : Token} {n : Node} {rest : List Token}
    (h : couldBePrimary (t :: ts) = false) (hn : functionExpr inner (t :: ts) = .ok (n, rest)) :
    ∃ name args, n = .of (.functionCall (.qName none name) args) ∧
      (KindTest.isKeyword name.text ∨ name.text ∈ reservedFunctionNames) := by
  obtain ⟨name, more, hname, hn⟩ := bind_eq_ok.mp hn
  have hnot : ¬ (isNext "#" more = true ∨ isNext "(" more = true ∧ isReserved name = false) :=
    fun hmore => Bool.eq_false_iff.mp h
      (couldBePrimary_iff.mpr (.inr (.inr (.inr (.inr ⟨name, more, hname, hmore⟩)))))
  rw [bind_of_ok (rest_apply more), if_neg fun hhash => hnot (.inl hhash)] at hn
  obtain ⟨hparen, hn⟩ | ⟨-, hn⟩ := ite_eq_ok.mp hn
  · obtain ⟨args, mid, -, hn⟩ := bind_eq_ok.mp hn
    obtain ⟨rfl, rfl⟩ := pure_eq_ok.mp hn
    have hreserved : isReserved name = true :=
      Bool.not_eq_false _ ▸ fun hfree => hnot (.inr ⟨hparen, hfree⟩)
    obtain ⟨text, htext, hkept⟩ := (Option.any_eq_true _ _).mp hreserved
    match name, htext with
    | .qName none name, rfl => exact ⟨name, args, rfl, by simpa using hkept⟩
  · cases hn

end Grammar

/-! ## Entry points -/

/-- No entry point reports an unexpected token in the place of what is expected. -/
structure NeverReported (expected : String) : Prop where
  construct (s : StartSymbol) (maxDepth : Nat) (ts : List Token) (start position : Nat)
    (found : Option Token) :
    s.parse maxDepth ts start ≠ .error (.unexpectedToken position found expected)
  tokens (maxDepth : Nat) (ts : List Token) (position : Nat) (found : Option Token) :
    parseTokens maxDepth ts ≠ .error (.unexpectedToken position found expected)
  allTokens (maxDepth : Nat) (ts : List Token) (position : Nat) (found : Option Token) :
    parseAllTokens maxDepth ts ≠ .error (.unexpectedToken position found expected)
  text (maxDepth : Nat) (source : String) (position : Nat) (found : Option Token) :
    parse maxDepth source ≠ .error (.unexpectedToken position found expected)
  allText (maxDepth : Nat) (source : String) (position : Nat) (found : Option Token) :
    parseAll maxDepth source ≠ .error (.unexpectedToken position found expected)

/-- No construct fails for a name that is neither called nor referred to. -/
theorem StartSymbol.parse_ne_bareName (s : StartSymbol) (maxDepth : Nat) (ts : List Token)
    (start position : Nat) (found : Option Token) :
    s.parse maxDepth ts start ≠ .error (.unexpectedToken position found bareName) := by
  intro h
  obtain ⟨f, hf, h⟩ := Rule.run_eq_error.mp h
  match f with
  | .tooDeep _ | .value _ => cases h
  | .unexpected rest e =>
    obtain ⟨-, -, rfl⟩ := ParseError.unexpectedToken.inj h
    have hstops := s.rule_stops (nested_stops maxDepth) (ts.drop start)
    rw [hf] at hstops
    exact hstops.1.2 rfl

/-- No caller of the parser sees that error. -/
theorem neverReported_bareName : NeverReported bareName := by
  have hall (maxDepth : Nat) (ts : List Token) (position : Nat) (found : Option Token) :
      parseAllTokens maxDepth ts ≠ .error (.unexpectedToken position found bareName) := by
    cases hexpr : expr (nested maxDepth) ts with
    | error e =>
      rw [parseAllTokens_of_error hexpr]
      exact fun h => StartSymbol.expr.parse_ne_bareName maxDepth ts 0 position found
        ((parseTokens_of_error hexpr).trans (congrArg _ (Except.error.inj h)))
    | ok x =>
      rw [parseAllTokens_of_ok hexpr]
      split <;> rintro ⟨⟩
  have hexpr (maxDepth : Nat) (ts : List Token) :=
    StartSymbol.expr.parse_ne_bareName maxDepth ts 0
  refine ⟨StartSymbol.parse_ne_bareName, hexpr, hall, fun maxDepth source position found => ?_,
    fun maxDepth source position found => ?_⟩
  · rw [parse, tokensOf]
    cases tokenize source with
    | error e => rintro ⟨⟩
    | ok ts => exact hexpr maxDepth ts position found
  · rw [parseAll, tokensOf]
    cases tokenize source with
    | error e => rintro ⟨⟩
    | ok ts => exact hall maxDepth ts position found

/-- A primary expression alone, read where nothing is seen ahead, does fail so. -/
example (inner : Nested) : primaryExpr inner ["x"] = .error (.unexpected [] bareName) := rfl

namespace Grammar

/-- Looking ahead at a token and reading a primary expression there agree. If the look-ahead says
no, there is none, but for the call of a function with a name that is kept for other uses. If it
says yes, the expression fails at this token only where it is a bracket or a quote that is not
closed. So a name is never missed to be called or referred to. -/
theorem couldBePrimary_agrees (levels maxDepth : Nat) (ts : List Token) :
    (∀ (i : Nat) (t : Token), ts[i]? = some t → t.isSpace = false →
      (couldBePrimary (ts.drop i) = false →
        ∀ n next, (primaryExpr (nested levels)).run maxDepth ts i = .ok (n, next) →
          ∃ name args, n = .of (.functionCall (.qName none name) args) ∧
            (KindTest.isKeyword name.text ∨ name.text ∈ reservedFunctionNames)) ∧
      (couldBePrimary (ts.drop i) = true → ∀ found expected,
        (primaryExpr (nested levels)).run maxDepth ts i =
            .error (.unexpectedToken i found expected) →
          t ∈ ["(", "[", "'", "\""])) ∧
    NeverReported bareName := by
  refine ⟨fun i t hi ht => ?_, neverReported_bareName⟩
  obtain ⟨hlt, hget⟩ := List.getElem?_eq_some_iff.mp hi
  have hdrop : ts.drop i = t :: ts.drop (i + 1) := by rw [List.drop_eq_getElem_cons hlt, hget]
  have hprimary : primaryExpr (nested levels) (t :: ts.drop (i + 1)) =
      primaryFrom (nested levels) t (ts.drop (i + 1)) (t :: ts.drop (i + 1)) :=
    primaryExpr_cons (by simp [Token.skipSpace, ht])
  rw [hdrop]
  refine ⟨fun hno n next hn => ?_, fun hyes found expected he => ?_⟩
  · obtain ⟨rest, hn, -⟩ := Rule.run_eq_ok.mp hn
    rw [hdrop, hprimary, primaryFrom_of_not hno] at hn
    exact functionExpr_of_not hno hn
  · obtain ⟨f, hf, he⟩ := Rule.run_eq_error.mp he
    rw [hdrop, hprimary] at hf
    by_contra ht
    have hpast := primaryFrom_goesPast (nested_stops levels) hyes ht
    rw [hf] at hpast
    match f with
    | .tooDeep _ | .value _ => cases he
    | .unexpected rest e =>
      -- Less is left than there was, so that the index is larger.
      obtain ⟨hposition, -⟩ := ParseError.unexpectedToken.inj he
      have hlength := hpast.length_le
      rw [hdrop, List.length_cons] at hposition
      omega

/-- A kind test reads as a call, but is not seen ahead; a bracket that is not closed is seen. -/
theorem couldBePrimary_agrees_text :
    (couldBePrimary ["text", "(", ")"] = false ∧
      ∃ n, (primaryExpr (nested 1)).run 1 ["text", "(", ")"] 0 = .ok (n, 3) ∧
        ∃ name args, n = .of (.functionCall (.qName none name) args) ∧
          (KindTest.isKeyword name.text ∨ name.text ∈ reservedFunctionNames)) ∧
    couldBePrimary ["["] = true ∧
      (primaryExpr (nested 1)).run 1 ["["] 0 = .error (.unexpectedToken 0 (some "[") "ExprSingle") ∧
      "[" ∈ ["(", "[", "'", "\""] := by
  have htext : (primaryExpr (nested 1)).run 1 ["text", "(", ")"] 0 =
      .ok (.of (.functionCall (.qName none ⟨"text"⟩) []), 3) := rfl
  have hopen : (primaryExpr (nested 1)).run 1 ["["] 0 =
      .error (.unexpectedToken 0 (some "[") "ExprSingle") := rfl
  have hno : couldBePrimary ["text", "(", ")"] = false := by decide
  have hyes : couldBePrimary ["["] = true := by decide
  refine ⟨⟨hno, _, htext, ?_⟩, hyes, hopen, ?_⟩
  · exact ((couldBePrimary_agrees 1 1 ["text", "(", ")"]).1 0 "text" rfl rfl).1 hno _ _ htext
  · exact ((couldBePrimary_agrees 1 1 ["["]).1 0 "[" rfl rfl).2 hyes _ _ hopen

end Grammar

end XPath
