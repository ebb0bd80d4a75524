import XPath.Proofs.Complete.Expr
import XPath.Proofs.Stops.Primary

/-!
# Where the rules for paths and expressions stop

A step is a primary expression only where the look-ahead has let it through, so that every step
stops as it should. From there the operators go up level by level, and by induction on the levels of
nesting all rules stop as they should (`nested_stops`).
-/

namespace XPath.Grammar

open Rule

variable {levels : Nat} {inner : Nested}

/-! ## Spellings of operators -/

/-- No operator of a chain is special. -/
theorem isOrdinary_chainOp (level : ChainLevel) (t : Token) (op : ChainOp)
    (h : level.ofToken? t = some op) : t.isOrdinary := by
  obtain ⟨rfl, -⟩ := level_of_ofToken? h
  cases op <;> rfl

/-- No slash is special. -/
theorem isOrdinary_pathOp (t : Token) (op : PathOp) (h : Spelled.ofToken? t = some op) :
    t.isOrdinary :=
  Token.isOrdinary_of_spelled (fun op => by cases op <;> rfl) t op h

/-- No sign is special. -/
theorem isOrdinary_unaryOp (t : Token) (op : UnaryOp) (h : Spelled.ofToken? t = some op) :
    t.isOrdinary :=
  Token.isOrdinary_of_spelled (fun op => by cases op <;> rfl) t op h

/-- No arrow is special. -/
theorem isOrdinary_arrowOp (t : Token) (op : ArrowOp) (h : Spelled.ofToken? t = some op) :
    t.isOrdinary :=
  Token.isOrdinary_of_spelled (fun op => by cases op; rfl) t op h

/-- No comparison is special. -/
theorem isOrdinary_comparisonOp (t : Token) (op : ComparisonOp)
    (h : Spelled.ofToken? t = some op) : t.isOrdinary :=
  Token.isOrdinary_of_spelled (fun op => by cases op <;> rfl) t op h

/-! ## Steps -/

/-- An axis, or nothing. -/
theorem axis?_mayConsume : axis?.MayConsume levels := by
  intro ts
  obtain ⟨us, rfl, h⟩ | ⟨a, us, rest, rfl, hus, h⟩ | ⟨-, h⟩ := axis?_cases ts
  · rw [h]
    exact ⟨["@"], rfl, .singleton (by decide), False.elim⟩
  · have ha : (Spelled.spelling a).isOrdinary := by cases a <;> rfl
    obtain ⟨w, hw, hbalanced⟩ := Balanced.exists_skipSpace us
    rw [hus] at hw
    rw [h, hw]
    exact ⟨[Spelled.spelling a] ++ (w ++ ["::"]), by simp, (Taken.singleton ha).append
      (.behind hbalanced (.singleton (by decide)) (List.cons_ne_nil _ _)), False.elim⟩
  · rw [h]
    exact .left id

section Expressions

variable (hi : inner.Stops levels)
include hi

/-- A suffix of a primary expression, if one follows. -/
theorem suffix?_stops : (suffix? inner).Stops (levels + 1) (·.isSome) := by
  refine stops_rest fun ts => ?_
  generalize (Token.skipSpace ts).head? = t?
  split
  · exact (Consumes.space <| (predicate_consumes hi).bind fun _ => mayConsume_pure _).stops _ ts
  · exact (Consumes.space <| (argumentList_consumes hi).bind fun _ => mayConsume_pure _).stops _ ts
  · exact (Consumes.space <| (consumes_after (by decide) _ (keySpecifier_consumes hi)).bind fun _ =>
      mayConsume_pure _).stops _ ts
  · exact stops_pure nofun ts

/-- A primary expression with its suffixes. -/
theorem suffixedExpr_stopsAt {ts : List Token} (h : couldBePrimary ts) :
    StopsAt (levels + 1) (fun _ => True) (Token.skipSpace ts) (suffixedExpr inner ts) := by
  refine stopsAt_behind (primaryExpr_stopsAt hi h) fun primary =>
    (mayConsume_many (suffix?_stops hi).mayConsume).followed fun ss => ?_
  cases ss <;> exact mayConsume_pure _

/-- A predicate, if one follows. -/
theorem predicate?_stops : (predicate? inner).Stops (levels + 1) (·.isSome) :=
  stops_rest fun ts => Stops.ite _
    (((predicate_consumes hi).bind fun _ => mayConsume_pure _).stops _) (stops_pure nofun) ts

/-- A step along an axis. -/
theorem axisStep_stopsAt (ts : List Token) :
    StopsAt (levels + 1) (fun _ => True) (Token.skipSpace ts) (axisStep inner ts) := by
  rw [axisStep_apply]
  exact consumes_take? (by decide) (mayConsume_pure _) (axis?_mayConsume.before fun _ =>
    nodeTest_consumes.bind fun _ =>
      (mayConsume_many (predicate?_stops hi).mayConsume).followed fun _ => mayConsume_pure _) _

/-- A step may have two spaces in front. -/
theorem stepExpr_stopsAt (ts : List Token) :
    StopsAt (levels + 1) (fun _ => True) (Token.skipSpace (Token.skipSpace ts))
      (stepExpr inner ts) := by
  rw [stepExpr_apply]
  split
  next h => exact suffixedExpr_stopsAt hi (Bool.and_eq_true_iff.mp h).2
  · exact axisStep_stopsAt hi _

/-- A step. -/
theorem stepExpr_consumes : (stepExpr inner).Consumes (levels + 1) :=
  fun ts => .of_skipSpace (.of_skipSpace (stepExpr_stopsAt hi ts))

/-! ## Chains -/

omit hi in
/-- A chain of operands, or a single one. -/
theorem consumes_chainOf (level : ChainLevel) {operand : Rule Node}
    (h : operand.Consumes levels) : (chainOf level operand).Consumes levels := by
  refine (consumes_chain (isOrdinary_chainOp level) h h).bind fun x => ?_
  obtain ⟨first, others⟩ := x
  cases others <;> exact mayConsume_pure _

/-- A path may have two spaces in front, as its first step may. -/
theorem relativePath_stopsAt (ts : List Token) :
    StopsAt (levels + 1) (fun _ => True) (Token.skipSpace (Token.skipSpace ts))
      (relativePath inner ts) := by
  have hlinks := stops_link (isOrdinary_chainOp .relativePath) (stepExpr_consumes hi)
  refine stopsAt_behind (stopsAt_behind (stepExpr_stopsAt hi ts) fun first =>
    (mayConsume_many hlinks.mayConsume).followed fun _ => mayConsume_pure _) fun x => ?_
  obtain ⟨first, others⟩ := x
  cases others <;> exact mayConsume_pure _

/-- A path that begins with a step. -/
theorem relativePath_consumes : (relativePath inner).Consumes (levels + 1) :=
  fun ts => .of_skipSpace (.of_skipSpace (relativePath_stopsAt hi ts))

/-! ## The lone slash -/

/-- A path that fails where it should begin, at a token that begins no step. The token is no space,
since a step may have two in front of it. -/
theorem beginsNoStep_of_error {ts at' : List Token} {e : String}
    (h : relativePath inner ts = .error (.unexpected at' e))
    (hlen : at'.length = (Token.skipSpace ts).length)
    (hstart : canStartStep (Token.skipSpace ts) = false) :
    ∀ t ∈ (Token.skipSpace ts).head?, BeginsNoStep t := by
  intro t ht
  obtain ⟨us, hus⟩ := List.head?_eq_some_iff.mp ht
  rw [hus] at hstart
  refine ⟨hstart, Bool.eq_false_iff.mpr fun hs => ?_⟩
  have hstops := relativePath_stopsAt hi ts
  rw [h] at hstops
  have hle := hstops.1.1.length_le
  rw [hlen, hus] at hle
  simp [Token.skipSpace, hs] at hle

/-- A path goes on after its slash, unless the slash stands alone because no step begins there. -/
theorem pathAfter_of_step {leading : PathOp} {ts : List Token}
    (h : ¬ (leading = .slash ∧ ∀ t ∈ (Token.skipSpace ts).head?, BeginsNoStep t)) :
    pathAfter inner leading ts =
      (relativePath inner >>= fun r => pure (.of (.path leading (some r)))) ts := by
  cases hr : relativePath inner ts with
  | ok x =>
    rw [bind_of_ok hr]
    exact pathAfter_some hr
  | error e =>
    rw [bind_of_error hr, pathAfter, hr]
    cases leading with
    | doubleSlash => rfl
    | slash =>
      cases e with
      | tooDeep _ | value _ => rfl
      | unexpected at' e =>
        refine if_neg ?_
        rintro ⟨hlen, hstart⟩
        exact h ⟨rfl, beginsNoStep_of_error hi hr hlen (by simpa using hstart)⟩

/-- The path after a slash, or none. -/
theorem pathAfter_mayConsume (leading : PathOp) :
    (pathAfter inner leading).MayConsume (levels + 1) := by
  intro ts
  by_cases h : leading = .slash ∧ ∀ t ∈ (Token.skipSpace ts).head?, BeginsNoStep t
  · obtain ⟨rfl, h⟩ := h
    rw [pathAfter_none h]
    exact .left id
  · rw [pathAfter_of_step hi h]
    exact ((relativePath_consumes hi).bind fun _ => mayConsume_pure _).mayConsume ts

/-- A path. -/
theorem pathExpr_consumes : (pathExpr inner).Consumes (levels + 1) := by
  refine Consumes.space <| stops_rest fun ts => ?_
  cases h : ts.head?.bind (Spelled.ofToken? : Token → Option PathOp) with
  | none => exact relativePath_consumes hi ts
  | some leading =>
    obtain ⟨t, ht, hop⟩ := Option.bind_eq_some_iff.mp h
    obtain ⟨us, rfl⟩ := List.head?_eq_some_iff.mp ht
    exact stopsAt_advance (isOrdinary_pathOp t leading hop)
      ((pathAfter_mayConsume hi leading).mono (Nat.le_succ levels)) us

/-! ## Operators -/

/-- Signs in front of an operand. -/
theorem unaryExpr_consumes : (unaryExpr inner).Consumes (levels + 1) :=
  (mayConsume_many (stops_operator? isOrdinary_unaryOp).mayConsume).before fun _ =>
    (consumes_chainOf _ (pathExpr_consumes hi)).bind fun _ =>
      Stops.ite _ (mayConsume_pure _) (mayConsume_pure _)

/-- What an arrow calls. -/
theorem arrowTarget_consumes : (arrowTarget inner).Consumes (levels + 1) := by
  have hname : (eqName >>= fun n => pure (ArrowTarget.name (α := Node) n)).Consumes (levels + 1) :=
    eqName_consumes.bind fun _ => mayConsume_pure _
  refine Consumes.space <| stops_rest fun ts => ?_
  generalize ht : ts.head? = t?
  split
  · obtain ⟨us, rfl⟩ := List.head?_eq_some_iff.mp ht
    exact stopsAt_advance (by decide)
      (eqName_consumes.bind fun _ => mayConsume_pure _).mayConsume us
  · exact ((parenthesizedExpr_consumes hi).bind fun _ => mayConsume_pure _) ts
  · exact hname ts

/-- A call by an arrow. -/
theorem arrowCall_consumes : (arrowCall inner).Consumes (levels + 1) :=
  (arrowTarget_consumes hi).before fun _ =>
    (argumentList_consumes hi).bind fun _ => mayConsume_pure _

/-- An operand and the calls that arrows hand it to. -/
theorem arrowExpr_consumes : (arrowExpr inner).Consumes (levels + 1) := by
  refine (consumes_chain isOrdinary_arrowOp (unaryExpr_consumes hi) (arrowCall_consumes hi)).bind
    fun x => ?_
  obtain ⟨first, calls⟩ := x
  cases calls <;> exact mayConsume_pure _

omit hi in
/-- An operand that is tested or converted if the words follow. -/
theorem consumes_typed {τ : Type} (form : Node → τ → Form Node) {w : Token} {ws : List Token}
    {operand : Rule Node} {type : Rule τ}
    (htext : " ".intercalate ((w :: ws).map fun w => "'" ++ w ++ "'") ≠ bareName)
    (hws : ∀ t ∈ w :: ws, t.isOrdinary) (ho : operand.Consumes (levels + 1))
    (ht : type.Consumes levels) : (typed form (w :: ws) operand type).Consumes (levels + 1) := by
  refine (consumes_followedBy htext hws ho ht).bind fun x => ?_
  obtain ⟨e, t?⟩ := x
  cases t? <;> exact mayConsume_pure _

/-- Casts and tests of types. -/
theorem instanceOfExpr_consumes : (instanceOfExpr inner).Consumes (levels + 1) :=
  have htype := sequenceType_consumes hi.itemType
  have hcast : (castExpr inner).Consumes (levels + 1) :=
    consumes_typed _ (by decide) (by decide) (arrowExpr_consumes hi) singleType_consumes
  have htreat : (treatExpr inner).Consumes (levels + 1) :=
    consumes_typed _ (by decide) (by decide)
      (consumes_typed _ (by decide) (by decide) hcast singleType_consumes) htype
  consumes_typed _ (by decide) (by decide) htreat htype

/-- Sums, and whatever binds tighter. -/
theorem additiveExpr_consumes : (additiveExpr inner).Consumes (levels + 1) :=
  consumes_chainOf _ (consumes_chainOf _ (consumes_chainOf _ (consumes_chainOf _
    (instanceOfExpr_consumes hi))))

/-- A range. -/
theorem rangeExpr_consumes : (rangeExpr inner).Consumes (levels + 1) :=
  have hadditive := additiveExpr_consumes hi
  consumes_typed _ (by decide) (by decide) hadditive (hadditive.mono (Nat.le_succ levels))

/-- A comparison. -/
theorem comparisonExpr_consumes : (comparisonExpr inner).Consumes (levels + 1) := by
  have hconcat : (stringConcatExpr inner).Consumes (levels + 1) :=
    consumes_chainOf _ (rangeExpr_consumes hi)
  refine hconcat.bind fun left => (stops_operator? isOrdinary_comparisonOp).followed fun op => ?_
  cases op with
  | none => exact mayConsume_pure _
  | some op => exact (hconcat.bind fun _ => mayConsume_pure _).mayConsume

/-- Conjunctions and disjunctions. -/
theorem orExpr_consumes : (orExpr inner).Consumes (levels + 1) :=
  consumes_chainOf _ (consumes_chainOf _ (comparisonExpr_consumes hi))

/-! ## Single expressions -/

/-- What follows the name of a variable that is bound. -/
theorem boundTo_consumes (op : BindingOp) (name : EQName) :
    (expect (Spelled.spelling op) "SimpleBinding" >>= fun _ => inner.exprSingle >>= fun e =>
      pure (Binding.mk name op e)).Consumes levels :=
  have hop : Token.isOrdinary (Spelled.spelling op) := by cases op <;> decide
  (consumes_expect hop _).before fun _ => hi.exprSingle.bind fun _ => mayConsume_pure _

/-- A variable and what it is bound to. -/
theorem binding_consumes (op : BindingOp) : (binding inner op).Consumes levels :=
  (consumes_after (by decide) _ eqName_consumes).bind fun name =>
    (boundTo_consumes hi op name).mayConsume

/-- The bindings and the body of a keyword expression. -/
theorem bound_consumes (op : BindingOp) {word : Token} (hw : word.isOrdinary) (owner : String)
    (form : List (Binding Node) → Node → Form Node) :
    (commaList (binding inner op) >>= fun bindings => expect word owner >>= fun _ =>
      inner.exprSingle >>= fun body => pure (Node.of (form bindings body))).Consumes levels :=
  (consumes_commaList (binding_consumes hi op)).before fun _ =>
    (consumes_expect hw _).before fun _ =>
    hi.exprSingle.bind fun _ => mayConsume_pure _

/-- A condition with two branches. -/
theorem ifExpr_consumes : (ifExpr inner).Consumes (levels + 1) :=
  have hcondition : (bracketed "(" ")" "IfExpr" (expr inner)).Consumes levels :=
    (consumes_bracketed parentheses (expr_consumes hi).mayConsume).mono (Nat.le_succ levels)
  (consumes_expect (by decide) _).descend fun _ => Stops.mayConsume <| hcondition.before fun _ =>
    (consumes_expect (by decide) _).before fun _ => hi.exprSingle.before fun _ =>
      (consumes_expect (by decide) _).before fun _ => hi.exprSingle.bind fun _ => mayConsume_pure _

/-- A single expression that starts right here. -/
theorem exprSingleFrom_stopsAt (t : Token) (ts : List Token) :
    StopsAt (levels + 1) (fun _ => True) (t :: ts) (exprSingleFrom inner t ts (t :: ts)) := by
  have hreturn : Token.isOrdinary "return" := by decide
  have hquantified (q : Quantifier) (ht : t.isOrdinary) :
      StopsAt (levels + 1) (fun _ => True) (t :: ts) (quantifiedExpr inner q (t :: ts)) :=
    stopsAt_advance ht (bound_consumes hi .inItems (by decide) _ (.quantified q)).mayConsume ts
  unfold exprSingleFrom
  refine stopsAt_ite (fun _ => ?_) fun _ => stopsAt_ite (fun _ => ?_) fun _ =>
    stopsAt_ite (fun h => hquantified .some (h.1 ▸ by decide)) fun _ =>
    stopsAt_ite (fun h => hquantified .every (h.1 ▸ by decide)) fun _ =>
    stopsAt_ite (fun _ => ifExpr_consumes hi _) fun _ => orExpr_consumes hi _
  · exact (consumes_expect (by decide) _).descend
      (fun _ => (bound_consumes hi .inItems hreturn _ .forExpr).mayConsume) _
  · exact (consumes_expect (by decide) _).descend
      (fun _ => (bound_consumes hi .assign hreturn _ .letExpr).mayConsume) _

end Expressions

/-- Every rule stops as it should with any number of levels left. -/
theorem nested_stops (levels : Nat) : (nested levels).Stops levels := by
  induction levels with
  | zero => exact ⟨tooDeep_consumes, itemType_consumes 0⟩
  | succ levels ih =>
    refine ⟨Consumes.space <| stops_rest fun ts => ?_, itemType_consumes (levels + 1)⟩
    cases ts with
    | nil => exact .unexpected (by decide) []
    | cons t ts => exact exprSingleFrom_stopsAt ih t ts

end XPath.Grammar
