import XPath.Proofs.Parse
import XPath.Proofs.Stops.Expr

/-!
# Progress of parsing

A construct that is read ends behind its start, and with a token that is no space; a list of
parameters alone may be empty. What is unexpected is found between the start and the end of the
tokens, and a construct that is too deep has as many tokens in front of that as levels are allowed
(`StartSymbol.parse_progress`).

Whatever the grammar repeats (`Repeated`) takes a token in each round, so the bound that `Rule.many`
puts on the rounds is never met: it goes on until there is nothing more to find (`Rule.many_eq`).
-/

namespace XPath

open Grammar Rule

variable {α : Type} {levels : Nat}

/-! ## Tokens left behind -/

/-- Some tokens have been taken, and the last of them is no space. -/
def LeftBehind (ts rest : List Token) : Prop := ∃ w t, ts = w ++ t :: rest ∧ t.isSpace = false

/-- Nothing in front of what is left is left. -/
theorem LeftBehind.suffix {ts rest : List Token} (h : LeftBehind ts rest) : rest <:+ ts := by
  obtain ⟨w, t, rfl, -⟩ := h
  exact (List.suffix_cons t rest).trans (List.suffix_append w _)

/-- Less is left than there was. -/
theorem LeftBehind.length_lt {ts rest : List Token} (h : LeftBehind ts rest) :
    rest.length < ts.length := by
  obtain ⟨w, t, rfl, -⟩ := h
  simp only [List.length_append, List.length_cons]
  omega

/-- The last of the tokens that a rule takes is no space. -/
theorem Taken.leftBehind {w : List Token} (h : Taken w) (hne : w ≠ []) (rest : List Token) :
    LeftBehind (w ++ rest) rest := by
  refine ⟨w.dropLast, w.getLast hne, ?_, h.last _ (List.getLast?_eq_some_getLast hne)⟩
  rw [List.append_cons, List.dropLast_append_getLast hne]

namespace StopsAt

variable {taking : α → Prop} {ts rest : List Token} {a : α}

/-- A rule takes something or leaves everything. -/
theorem leftBehind (h : StopsAt levels taking ts (.ok (a, rest))) :
    LeftBehind ts rest ∨ ¬taking a ∧ rest = ts := by
  obtain ⟨w, rfl, hw, hne⟩ := h
  by_cases hnil : w = []
  · subst hnil
    exact .inr ⟨fun ha => hne ha rfl, rfl⟩
  · exact .inl (hw.leftBehind hnil rest)

/-- A rule takes something for a value that asks for it. -/
theorem leftBehind_of (h : StopsAt levels taking ts (.ok (a, rest))) (ha : taking a) :
    LeftBehind ts rest :=
  h.leftBehind.resolve_right fun hnot => hnot.1 ha

end StopsAt

/-! ## Repetitions -/

namespace Rule

/-- After a round that has found something, there is less left to repeat on. -/
theorem round_congr {next? : Rule (Option α)} (h : next?.Stops levels (·.isSome))
    {r r' : Rule (List α)} {ts : List Token} (hr : ∀ mid, mid.length < ts.length → r mid = r' mid) :
    (do
      match ← next? with
      | none => return []
      | some a => return a :: (← r)) ts = (do
      match ← next? with
      | none => return []
      | some a => return a :: (← r') : Rule (List α)) ts := by
  have hts := h ts
  cases hx : next? ts with
  | error e => rw [bind_of_error hx, bind_of_error hx]
  | ok x =>
    obtain ⟨_ | a, mid⟩ := x
    · rw [bind_of_ok hx, bind_of_ok hx]
    · rw [hx] at hts
      have hlt := (hts.leftBehind_of rfl).length_lt
      have hmid : (r >>= fun as => pure (a :: as)) mid = (r' >>= fun as => pure (a :: as)) mid := by
        rw [bind_apply, bind_apply, hr mid hlt]
      rw [bind_of_ok hx, bind_of_ok hx]
      exact hmid

/-- As much fuel as there are tokens never runs out. -/
theorem upTo_eq_upTo {next? : Rule (Option α)} (h : next?.Stops levels (·.isSome))
    (hnil : next? [] = .ok (none, [])) {fuel fuel' ts : List Token} (hf : ts.length ≤ fuel.length)
    (hf' : ts.length ≤ fuel'.length) : upTo next? fuel ts = upTo next? fuel' ts := by
  have hend (fuel : List Token) : upTo next? fuel [] = .ok ([], []) := by
    cases fuel with
    | nil => rfl
    | cons t fuel => exact bind_of_ok hnil _
  induction fuel generalizing fuel' ts with
  | nil =>
    obtain rfl := List.eq_nil_of_length_eq_zero (Nat.le_zero.mp hf)
    rw [hend, hend]
  | cons t fuel ih =>
    cases fuel' with
    | nil =>
      obtain rfl := List.eq_nil_of_length_eq_zero (Nat.le_zero.mp hf')
      rw [hend, hend]
    | cons t' fuel' =>
      rw [List.length_cons] at hf hf'
      exact round_congr h fun mid hmid => ih (by omega) (by omega)

/-- A repetition goes on until there is nothing more to find. -/
theorem many_eq {next? : Rule (Option α)} (h : next?.Stops levels (·.isSome))
    (hnil : next? [] = .ok (none, [])) : many next? = (do
      match ← next? with
      | none => return []
      | some a => return a :: (← many next?)) := by
  funext ts
  have hmany : many next? ts = upTo next? (Token.space :: ts) ts :=
    upTo_eq_upTo h hnil (Nat.le_refl _) (Nat.le_succ _)
  rw [hmany]
  exact round_congr h fun mid hmid => upTo_eq_upTo h hnil (Nat.le_of_lt hmid) (Nat.le_refl _)

end Rule

namespace Grammar

/-- The operands of the chains of a level. -/
def chainOperand (inner : Nested) : ChainLevel → Rule Node
  | .or => andExpr inner
  | .and => comparisonExpr inner
  | .stringConcat => rangeExpr inner
  | .additive => multiplicativeExpr inner
  | .multiplicative => unionExpr inner
  | .union => intersectExceptExpr inner
  | .intersectExcept => instanceOfExpr inner
  | .simpleMap => pathExpr inner
  | .relativePath => stepExpr inner

/-- What stands in lists, between commas. -/
inductive Listed (inner : Nested) : (α : Type) → Rule α → Prop
  | exprSingle : Listed inner Node inner.exprSingle
  | argument : Listed inner (Argument Node) (argument inner)
  | mapEntry : Listed inner (MapEntry Node) (mapEntry inner)
  | param : Listed inner Param (param inner)
  | binding (op : BindingOp) : Listed inner (Binding Node) (binding inner op)
  | sequenceType : Listed inner SequenceType (sequenceType inner.itemType)

/-- One round of whatever the grammar repeats. -/
inductive Repeated (inner : Nested) : (α : Type) → Rule (Option α) → Prop
  | sign : Repeated inner UnaryOp (operator? Spelled.ofToken?)
  | suffix : Repeated inner (Suffix Node) (suffix? inner)
  | predicate : Repeated inner Node (predicate? inner)
  | chain (level : ChainLevel) :
    Repeated inner (ChainOp × Node) (link level.ofToken? (chainOperand inner level))
  | arrow : Repeated inner (ArrowOp × ArrowCall Node) (link Spelled.ofToken? (arrowCall inner))
  | list {α : Type} {item : Rule α} (h : Listed inner α item) :
    Repeated inner (Separator × α) (link Spelled.ofToken? item)

variable {inner : Nested}

/-- Every operand of a chain takes something. -/
theorem chainOperand_consumes (hi : inner.Stops levels) (level : ChainLevel) :
    (chainOperand inner level).Consumes (levels + 1) := by
  cases level with
  | or => exact consumes_chainOf _ (comparisonExpr_consumes hi)
  | and => exact comparisonExpr_consumes hi
  | stringConcat => exact rangeExpr_consumes hi
  | additive =>
    exact consumes_chainOf _ (consumes_chainOf _ (consumes_chainOf _ (instanceOfExpr_consumes hi)))
  | multiplicative => exact consumes_chainOf _ (consumes_chainOf _ (instanceOfExpr_consumes hi))
  | union => exact consumes_chainOf _ (instanceOfExpr_consumes hi)
  | intersectExcept => exact instanceOfExpr_consumes hi
  | simpleMap => exact pathExpr_consumes hi
  | relativePath => exact stepExpr_consumes hi

/-- Every item of a list takes something. -/
theorem Listed.consumes (hi : inner.Stops levels) {α : Type} {item : Rule α}
    (h : Listed inner α item) : item.Consumes levels := by
  cases h with
  | exprSingle => exact hi.exprSingle
  | argument => exact argument_consumes hi
  | mapEntry => exact mapEntry_consumes hi
  | param => exact param_consumes hi
  | binding op => exact binding_consumes hi op
  | sequenceType => exact sequenceType_consumes hi.itemType

/-- A round takes something if it finds something. -/
theorem Repeated.stops (hi : inner.Stops levels) {next? : Rule (Option α)}
    (h : Repeated inner α next?) : next?.Stops levels (·.isSome) := by
  have hle := Nat.le_succ levels
  cases h with
  | sign => exact stops_operator? isOrdinary_unaryOp
  | suffix => exact (suffix?_stops hi).mono hle
  | predicate => exact (predicate?_stops hi).mono hle
  | chain level =>
    exact stops_link (isOrdinary_chainOp level) ((chainOperand_consumes hi level).mono hle)
  | arrow => exact stops_link isOrdinary_arrowOp ((arrowCall_consumes hi).mono hle)
  | list h => exact stops_link isOrdinary_separator (h.consumes hi)

/-- Nothing is found at the end. -/
theorem Repeated.nil {next? : Rule (Option α)} (h : Repeated inner α next?) :
    next? [] = .ok (none, []) := by
  cases h <;> rfl

end Grammar

/-! ## Constructs -/

namespace StartSymbol

/-- Every construct stops as it should, and takes something but for a list of parameters. -/
theorem rule_stops (s : StartSymbol) {inner : Nested} (hi : inner.Stops levels) :
    (s.rule inner).Stops levels fun _ => s ≠ .paramList := by
  have hle := Nat.le_succ levels
  cases s with
  | expr => exact (expr_consumes hi).stops _
  | sequenceType => exact (sequenceType_consumes hi.itemType).stops _
  | itemType => exact hi.itemType.stops _
  | singleType => exact singleType_consumes.stops _
  | kindTest => exact kindTest_consumes.stops _
  | nodeTest => exact nodeTest_consumes.stops _
  | nameTest => exact nameTest_consumes.stops _
  | eqName => exact eqName_consumes.stops _
  | ncName => exact ncName_consumes.stops _
  | predicate => exact ((predicate_consumes hi).mono hle).stops _
  | argumentList => exact ((argumentList_consumes hi).mono hle).stops _
  | paramList => exact (paramList_mayConsume hi).imp fun _ hne => hne rfl
  | enclosedExpr => exact ((enclosedExpr_consumes hi).mono hle).stops _

variable {s : StartSymbol} {maxDepth start : Nat} {ts : List Token}

/-- The index at which the tokens `rest` begin. -/
theorem drop_index {rest : List Token} (hstart : start ≤ ts.length) (h : rest <:+ ts.drop start) :
    start + ((ts.drop start).length - rest.length) ≤ ts.length ∧
      ts.drop (start + ((ts.drop start).length - rest.length)) = rest := by
  have hlen := h.length_le
  rw [← List.drop_drop, ← List.suffix_iff_eq_drop.mp h]
  rw [List.length_drop] at hlen ⊢
  exact ⟨by omega, rfl⟩

theorem parse_ok (hstart : start ≤ ts.length) {v : s.Value} {next : Nat}
    (h : s.parse maxDepth ts start = .ok (v, next)) :
    next ≤ ts.length ∧ (s = .paramList ∧ next = start ∨
      start < next ∧ ∃ t, ts[next - 1]? = some t ∧ t.isSpace = false) := by
  obtain ⟨rest, hrest, rfl⟩ := Rule.run_eq_ok.mp h
  have hp := s.rule_stops (nested_stops maxDepth) (ts.drop start)
  rw [hrest] at hp
  obtain hp | ⟨hs, rfl⟩ := hp.leftBehind
  · refine ⟨(drop_index hstart hp.suffix).1, .inr ?_⟩
    obtain ⟨w, t, hw, ht⟩ := hp
    have hnext : start + ((ts.drop start).length - rest.length) = start + w.length + 1 := by
      rw [hw, List.length_append, List.length_cons]
      omega
    refine ⟨by omega, t, ?_, ht⟩
    rw [hnext, Nat.add_sub_cancel, ← List.getElem?_drop, hw]
    simp
  · exact ⟨by simpa using hstart, .inl ⟨by simpa using hs, by simp⟩⟩

theorem parse_unexpectedToken (hstart : start ≤ ts.length) {position : Nat} {found : Option Token}
    {expected : String}
    (h : s.parse maxDepth ts start = .error (.unexpectedToken position found expected)) :
    start ≤ position ∧ position ≤ ts.length ∧ found = ts[position]? ∧
      s.rule (nested maxDepth) (ts.drop start) =
        .error (.unexpected (ts.drop position) expected) := by
  obtain ⟨f, hf, h⟩ := Rule.run_eq_error.mp h
  have hstops := s.rule_stops (nested_stops maxDepth) (ts.drop start)
  rw [hf] at hstops
  cases f with
  | tooDeep _ | value _ => cases h
  | unexpected rest e =>
    obtain ⟨rfl, rfl, rfl⟩ : position = start + ((ts.drop start).length - rest.length) ∧
        found = rest.head? ∧ expected = e := by
      simpa [Failure.toError] using h
    obtain ⟨hle, hdrop⟩ := drop_index hstart hstops.1.1
    refine ⟨Nat.le_add_right _ _, hle, ?_, by rw [hf, hdrop]⟩
    rw [← List.head?_drop, hdrop]

theorem parse_tooDeep (hstart : start ≤ ts.length) {limit position : Nat}
    (h : s.parse maxDepth ts start = .error (.tooDeep limit position)) :
    limit = maxDepth ∧ start + limit ≤ position ∧ position ≤ ts.length ∧
      s.rule (nested maxDepth) (ts.drop start) = .error (.tooDeep (ts.drop position)) := by
  obtain ⟨f, hf, h⟩ := Rule.run_eq_error.mp h
  have hp := s.rule_stops (nested_stops maxDepth) (ts.drop start)
  rw [hf] at hp
  cases f with
  | unexpected _ _ | value _ => cases h
  | tooDeep rest =>
    obtain ⟨rfl, rfl⟩ : limit = maxDepth ∧
        position = start + ((ts.drop start).length - rest.length) := by
      simpa [Failure.toError] using h
    obtain ⟨⟨hsuffix, hlen⟩, -⟩ := hp
    obtain ⟨hle, hdrop⟩ := drop_index hstart hsuffix
    exact ⟨rfl, by omega, hle, by rw [hf, hdrop]⟩

/-- Parsing goes forward and stays within the tokens, in every round of a repetition, too. -/
theorem parse_progress (s : StartSymbol) (maxDepth : Nat) {start : Nat} {ts : List Token}
    (hstart : start ≤ ts.length) :
    (∀ v next, s.parse maxDepth ts start = .ok (v, next) →
      next ≤ ts.length ∧ (s = .paramList ∧ next = start ∨
        start < next ∧ ∃ t, ts[next - 1]? = some t ∧ t.isSpace = false)) ∧
    (∀ position found expected,
      s.parse maxDepth ts start = .error (.unexpectedToken position found expected) →
        start ≤ position ∧ position ≤ ts.length ∧ found = ts[position]? ∧
          s.rule (nested maxDepth) (ts.drop start) =
            .error (.unexpected (ts.drop position) expected)) ∧
    (∀ limit position, s.parse maxDepth ts start = .error (.tooDeep limit position) →
      limit = maxDepth ∧ start + limit ≤ position ∧ position ≤ ts.length ∧
        s.rule (nested maxDepth) (ts.drop start) = .error (.tooDeep (ts.drop position))) ∧
    (∀ α next?, Repeated (nested maxDepth) α next? →
      (∀ ts a rest, next? ts = .ok (some a, rest) → LeftBehind ts rest) ∧
        many next? = do
          match ← next? with
          | none => return []
          | some a => return a :: (← many next?)) ∧
    ∀ uri ts u rest, uriText uri ts = .ok (u, rest) →
      ∃ w, ts = w ++ "\x7d" :: rest ∧ u = uri ++ String.join w := by
  refine ⟨fun v next => parse_ok hstart, fun _ _ _ => parse_unexpectedToken hstart,
    fun _ _ => parse_tooDeep hstart, fun α next? h => ?_, fun uri ts u rest h => ?_⟩
  · have hp := h.stops (nested_stops maxDepth)
    refine ⟨fun ts a rest ha => ?_, many_eq hp h.nil⟩
    have hts := hp ts
    rw [ha] at hts
    exact hts.leftBehind_of rfl
  · obtain ⟨w, hw, -, hu⟩ := uriText_eq_ok h
    exact ⟨w, hw, hu⟩

/-- A predicate that is read up to its bracket, and one that is too deep. -/
theorem parse_progress_predicate :
    (∃ v, predicate.parse 1 ["x", "[", "1", " ", "]", " "] 1 = .ok (v, 5) ∧ 5 ≤ 6 ∧
      (predicate = .paramList ∧ 5 = 1 ∨
        1 < 5 ∧ ∃ t, ["x", "[", "1", " ", "]", " "][5 - 1]? = some t ∧ Token.isSpace t = false)) ∧
    predicate.parse 1 ["x", "[", "(", "1"] 1 = .error (.tooDeep 1 3) ∧ 1 = 1 ∧ 1 + 1 ≤ 3 ∧ 3 ≤ 4 ∧
      predicate.rule (nested 1) ["[", "(", "1"] = .error (.tooDeep ["1"]) := by
  have hok : predicate.parse 1 ["x", "[", "1", " ", "]", " "] 1 =
      .ok (.of (.expr [.of (.integer 1)]), 5) := rfl
  have hdeep : predicate.parse 1 ["x", "[", "(", "1"] 1 = .error (.tooDeep 1 3) := rfl
  refine ⟨⟨_, hok, (parse_progress predicate 1 ?_).1 _ _ hok⟩, hdeep,
    (parse_progress predicate 1 ?_).2.2.1 _ _ hdeep⟩
  all_goals decide

end StartSymbol

end XPath
