import XPath.Proofs.Alike.Primary

/-!
# Expressions in sequences that read alike

By induction on the levels that are left, expressions read alike from related sequences
(`transfers_exprSingle`).

A slash stands alone in both sequences or in none: a token that may begin a step is taken by the
first run, so that it is in the second sequence, too.
-/

namespace XPath.Grammar

open Rule Alike

variable {A : Alike} {levels : Nat}

theorem Node.takes {r : Rule Node} {k : Nat} (h : r.Sound Tree.pieces (Tree.ReadBefore k levels)) :
    r.Takes :=
  h.takes fun n _ hn => (n.solid hn.fits).starts

section Expr

variable (hi : ∀ A : Alike, A.Transfers (exprSingle levels))
include hi

/-! ## Steps -/

theorem transfers_axisStep : A.Transfers (axisStep (nested levels)) := by
  have htest (axis : Option StepAxis) : A.Transfers (nodeTest >>= fun test =>
      many (predicate? (nested levels)) >>= fun predicates =>
        pure (Node.of (.axisStep axis test predicates))) :=
    transfers_nodeTest.bind fun _ =>
      (transfers_many (predicate?_advances (nested_sound levels)) (transfers_predicate? hi)).bind
        fun _ => transfers_pure _
  refine transfers_next (Node.takes (axisStep_sound (nested_sound levels)))
    fun {t more more'} hmore hrel => ?_
  by_cases hup : t = ".."
  · subst hup
    exact (transfers_pure _).again hmore
  · have hne (ts : List Token) : (t :: ts).head? ≠ some ".." := by simpa using hup
    rw [bind_of_ok (take?_of_ne (hne more)), bind_of_ok (take?_of_ne (hne more'))]
    exact (again_axis? hmore hrel).bind htest

/-- The colons of an axis are taken by the step. -/
theorem startsAxis_of_axisStep {t : Token} {more more' rest : List Token} {n : Node}
    (hmore : A.rel more more') (hstart : startsAxis (t :: more) = true)
    (h : axisStep (nested levels) (t :: more) = .ok (n, rest)) (hkept : A.kept rest) :
    startsAxis (t :: more') = true := by
  obtain ⟨haxis, hcolons⟩ : (Spelled.ofToken? t : Option Axis).isSome ∧ isNext "::" more := by
    simpa [startsAxis] using hstart
  obtain ⟨a, ha⟩ := Option.isSome_iff_exists.mp haxis
  obtain rfl := Spelled.spelling_of_ofToken? ha
  obtain ⟨mid, hmid⟩ := isNext_iff_cons.mp hcolons
  have hne : (Spelled.spelling a :: more).head? ≠ some ".." := by
    cases a <;> simp [Spelled.spelling]
  rw [axisStep_apply, skipSpace_of_isWord (isWord_axis a), bind_of_ok (take?_of_ne hne),
    if_neg (by decide), bind_of_ok (axis?_colons a hmid)] at h
  have hsuffix : rest <:+ mid :=
    (transfers_nodeTest (A := A) |>.bind fun _ => (transfers_many
      (predicate?_advances (nested_sound levels)) (transfers_predicate? hi)).bind fun _ =>
        transfers_pure _).suffix h
  obtain ⟨mid', hmid', -⟩ := A.next hmore hmid (A.kept_suffix hsuffix hkept)
  exact startsAxis_spelling a hmid'

theorem transfers_stepExpr : A.Transfers (stepExpr (nested levels)) := by
  refine transfers_next (Node.takes (stepExpr_sound (nested_sound levels)))
    fun {t more more'} hmore hrel => ?_
  change A.Again ((if (!startsAxis (t :: more) && couldBePrimary (t :: more)) = true
      then suffixedExpr (nested levels) else axisStep (nested levels)) (t :: more))
    ((if (!startsAxis (t :: more') && couldBePrimary (t :: more')) = true
      then suffixedExpr (nested levels) else axisStep (nested levels)) (t :: more'))
  have hstep := (transfers_axisStep (A := A) hi).again hrel
  cases hstart : startsAxis (t :: more) with
  | true =>
    intro n rest h hkept
    replace h : axisStep (nested levels) (t :: more) = .ok (n, rest) := h
    rw [startsAxis_of_axisStep hi hmore hstart h hkept]
    exact hstep h hkept
  | false =>
    have hstart' : startsAxis (t :: more') = false :=
      Bool.eq_false_iff.mpr fun hc =>
        Bool.false_ne_true (hstart.symm.trans (startsAxis_back hmore hc))
    rw [hstart', Bool.not_false, Bool.true_and, Bool.true_and]
    by_cases hlook : couldBePrimary (t :: more) = true
    · rw [if_pos hlook]
      intro n rest h hkept
      rw [if_pos (couldBePrimary_of_again hi hmore hrel hlook h hkept)]
      exact again_suffixedExpr hi hrel hlook h hkept
    · rw [if_neg hlook, if_neg (mt (couldBePrimary_back hmore hrel) hlook)]
      exact hstep

/-! ## Paths -/

omit hi in
theorem transfers_chainOf (level : ChainLevel) {operand : Rule Node} (h : A.Transfers operand) :
    A.Transfers (chainOf level operand) := by
  refine (transfers_chain h h).bind fun x => ?_
  obtain ⟨first, others⟩ := x
  cases others <;> exact transfers_pure _

theorem transfers_relativePath : A.Transfers (relativePath (nested levels)) :=
  transfers_chainOf _ (transfers_stepExpr hi)

theorem transfers_pathAfter (leading : PathOp) :
    A.Transfers (pathAfter (nested levels) leading) := by
  refine ⟨(pathAfter_mayConsume (nested_stops levels) leading).suffix, fun {ts us} hrel => ?_⟩
  by_cases halone : leading = .slash ∧ ∀ t ∈ (Token.skipSpace ts).head?, BeginsNoStep t
  · obtain ⟨rfl, hts⟩ := halone
    have hus : ∀ t ∈ (Token.skipSpace us).head?, BeginsNoStep t := by
      intro t ht
      obtain ⟨more', hus⟩ := List.head?_eq_some_iff.mp ht
      obtain ⟨more, hmore, -⟩ := A.back hrel hus
      exact hts t (by rw [hmore]; rfl)
    rw [pathAfter_none hts, pathAfter_none hus]
    exact (transfers_pure _).again hrel
  · have hpath : A.Transfers (relativePath (nested levels) >>= fun r =>
        pure (Node.of (.path leading (some r)))) :=
      (transfers_relativePath hi).bind fun _ => transfers_pure _
    intro n rest h hkept
    rw [pathAfter_of_step (nested_stops levels) halone] at h
    obtain ⟨t, more, hts, hrest⟩ := ((Node.takes (relativePath_sound (nested_sound levels))).bind
      fun _ => leavesSuffix_pure _) h
    obtain ⟨more', hus, -⟩ := A.next hrel hts (A.kept_suffix hrest hkept)
    have halone' : ¬ (leading = .slash ∧ ∀ t ∈ (Token.skipSpace us).head?, BeginsNoStep t) := by
      simpa [hts, hus] using halone
    rw [pathAfter_of_step (nested_stops levels) halone']
    exact hpath.again hrel h hkept

theorem transfers_pathExpr : A.Transfers (pathExpr (nested levels)) := by
  refine transfers_next (Node.takes (pathExpr_sound (nested_sound levels)))
    fun {t more more'} hmore hrel => ?_
  rw [bind_of_ok (rest_apply _), bind_of_ok (rest_apply _), List.head?_cons, List.head?_cons,
    Option.bind_some]
  cases (Spelled.ofToken? t : Option PathOp) with
  | some leading => exact (again_advance hmore).bind fun _ => transfers_pathAfter hi leading
  | none => exact (transfers_relativePath hi).again hrel

/-! ## Operators -/

theorem transfers_unaryExpr : A.Transfers (unaryExpr (nested levels)) :=
  (transfers_many (operator?_advances _) (transfers_operator? _)).bind fun _ =>
    (transfers_chainOf _ (transfers_pathExpr hi)).bind fun _ =>
      .ite _ (transfers_pure _) (transfers_pure _)

theorem transfers_arrowTarget : A.Transfers (arrowTarget (nested levels)) := by
  have htakes : (arrowTarget (nested levels)).Takes :=
    (arrowTarget_sound (nested_sound levels)).takes fun target _ h =>
      (ArrowTarget.solid h.1 fun e he => ⟨(h.2 e he).1, e.solid (h.2 e he).2⟩).starts
  refine transfers_next htakes fun {t more more'} hmore hrel => ?_
  rw [bind_of_ok (rest_apply _), bind_of_ok (rest_apply _), List.head?_cons, List.head?_cons]
  generalize some t = t?
  split
  · exact (again_advance hmore).bind fun _ => transfers_eqName.bind fun _ => transfers_pure _
  · exact ((transfers_parenthesizedExpr hi).bind fun _ => transfers_pure _).again hrel
  · exact (transfers_eqName.bind fun _ => transfers_pure _).again hrel

theorem transfers_arrowExpr : A.Transfers (arrowExpr (nested levels)) := by
  have hcall : A.Transfers (arrowCall (nested levels)) :=
    (transfers_arrowTarget hi).bind fun _ => (transfers_argumentList hi).bind fun _ =>
      transfers_pure _
  refine (transfers_chain (transfers_unaryExpr hi) hcall).bind fun x => ?_
  obtain ⟨first, calls⟩ := x
  cases calls <;> exact transfers_pure _

omit hi in
theorem transfers_typed {τ : Type} (form : Node → τ → Form Node) (w : Token) (ws : List Token)
    {operand : Rule Node} {type : Rule τ} (ho : A.Transfers operand) (ht : A.Transfers type) :
    A.Transfers (typed form (w :: ws) operand type) := by
  refine (transfers_followedBy w ws ho ht).bind fun x => ?_
  obtain ⟨e, t?⟩ := x
  cases t? <;> exact transfers_pure _

theorem transfers_instanceOfExpr : A.Transfers (instanceOfExpr (nested levels)) :=
  have hcast := transfers_typed .cast "cast" ["as"] (transfers_arrowExpr (A := A) hi)
    transfers_singleType
  have htreat := transfers_typed .treat "treat" ["as"]
    (transfers_typed .castable "castable" ["as"] hcast transfers_singleType)
    (transfers_sequenceType fun _ => transfers_itemType)
  transfers_typed _ _ _ htreat (transfers_sequenceType fun _ => transfers_itemType)

theorem transfers_stringConcatExpr : A.Transfers (stringConcatExpr (nested levels)) :=
  have hadditive : A.Transfers (additiveExpr (nested levels)) :=
    transfers_chainOf _ (transfers_chainOf _ (transfers_chainOf _ (transfers_chainOf _
      (transfers_instanceOfExpr hi))))
  transfers_chainOf _ (transfers_typed _ _ _ hadditive hadditive)

theorem transfers_comparisonExpr : A.Transfers (comparisonExpr (nested levels)) := by
  refine (transfers_stringConcatExpr hi).bind fun left => (transfers_operator? _).bind fun op => ?_
  cases op with
  | none => exact transfers_pure _
  | some op => exact (transfers_stringConcatExpr hi).bind fun _ => transfers_pure _

theorem transfers_orExpr : A.Transfers (orExpr (nested levels)) :=
  transfers_chainOf _ (transfers_chainOf _ (transfers_comparisonExpr hi))

/-! ## Single expressions -/

theorem transfers_binding (op : BindingOp) : A.Transfers (binding (nested levels) op) :=
  (transfers_after "$" _ transfers_eqName).bind fun _ => (transfers_expect _ _).bind fun _ =>
    (hi A).bind fun _ => transfers_pure _

omit hi in
theorem takes_bindings (op : BindingOp) : (commaList (binding (nested levels) op)).Takes :=
  have hbinding : (binding (nested levels) op).Takes :=
    ((takes_expect "$" _).bind fun _ => Stops.suffix (n := 0) eqName_consumes).bind fun name =>
      (boundTo_consumes (nested_stops levels) op name).suffix
  hbinding.commaList (binding_consumes (nested_stops levels) op)

/-- The bindings and the body of a keyword expression. -/
theorem transfers_bound (op : BindingOp) (word : Token) (owner : String)
    (form : List (Binding Node) → Node → Form Node) :
    let r := commaList (binding (nested levels) op) >>= fun bindings =>
      expect word owner >>= fun _ => exprSingle levels >>= fun body =>
        pure (Node.of (form bindings body))
    A.Transfers r ∧ r.Takes := by
  have hbody (bindings : List (Binding Node)) : A.Transfers (expect word owner >>= fun _ =>
      exprSingle levels >>= fun body => pure (Node.of (form bindings body))) :=
    (transfers_expect _ _).bind fun _ => (hi A).bind fun _ => transfers_pure _
  exact ⟨(transfers_commaList (transfers_binding hi op)).bind hbody,
    (takes_bindings op).bind fun bindings => (hbody bindings).suffix⟩

theorem transfersFrom_forExpr : TransfersFrom A "for" (forExpr (nested levels)) :=
  have h := transfers_bound (A := A) hi .inItems "return" "ForExpr" .forExpr
  transfersFrom_expect rfl h.1 h.2

theorem transfersFrom_letExpr : TransfersFrom A "let" (letExpr (nested levels)) :=
  have h := transfers_bound (A := A) hi .assign "return" "LetExpr" .letExpr
  transfersFrom_expect rfl h.1 h.2

theorem transfersFrom_ifExpr : TransfersFrom A "if" (ifExpr (nested levels)) := by
  have hbranches (condition : Node) : A.Transfers (expect "then" "IfExpr" >>= fun _ =>
      exprSingle levels >>= fun thenBranch => expect "else" "IfExpr" >>= fun _ =>
        exprSingle levels >>= fun elseBranch =>
          pure (Node.of (.ifExpr condition thenBranch elseBranch))) :=
    (transfers_expect _ _).bind fun _ => (hi A).bind fun _ => (transfers_expect _ _).bind fun _ =>
      (hi A).bind fun _ => transfers_pure _
  have hexpr := transfers_expr (A := A.inside) hi
  exact transfersFrom_expect rfl ((transfers_bracketed _ _ _ hexpr).bind hbranches)
    ((takes_bracketed hexpr.suffix).bind fun condition => (hbranches condition).suffix)

theorem again_exprSingleFrom {t : Token} {more more' : List Token} (hmore : A.rel more more')
    (hrel : A.rel (t :: more) (t :: more')) :
    A.Again (exprSingleFrom (nested levels) t more (t :: more))
      (exprSingleFrom (nested levels) t more' (t :: more')) := by
  have hquantified {q : Quantifier} {w : Token} {s s' : Rule Node}
      (hs : A.Again (s (t :: more)) (s' (t :: more'))) :
      A.Again ((if t = w ∧ isNext "$" more = true then quantifiedExpr (nested levels) q else s)
          (t :: more))
        ((if t = w ∧ isNext "$" more' = true then quantifiedExpr (nested levels) q else s')
          (t :: more')) := by
    obtain ⟨hbound, htakes⟩ := transfers_bound (A := A) hi .inItems "satisfies" "QuantifiedExpr"
      (.quantified q)
    exact .iteKeyword hmore (fun _ _ h => goesOn_advance t htakes h)
      (fun _ => (again_advance hmore).bind fun _ => hbound) hs
  unfold exprSingleFrom
  refine (transfersFrom_forExpr hi).again_ite hmore hrel ?_
  refine (transfersFrom_letExpr hi).again_ite hmore hrel (hquantified (hquantified ?_))
  exact (transfersFrom_ifExpr hi).again_ite hmore hrel ((transfers_orExpr hi).again hrel)

end Expr

/-- Expressions read alike from related sequences. -/
theorem transfers_exprSingle (levels : Nat) (A : Alike) : A.Transfers (exprSingle levels) := by
  induction levels generalizing A with
  | zero => exact transfers_space.bind fun _ => ⟨nofun, fun _ => nofun⟩
  | succ levels ih =>
    have htakes : (exprSingle (levels + 1)).Takes :=
      (nested_sound (levels + 1)).exprSingle.takes fun n _ h => (IsSingle.solid h.isSingle).starts
    exact transfers_next htakes fun hmore hrel => again_exprSingleFrom ih hmore hrel

end XPath.Grammar
