import XPath.Indexed.Expr
import XPath.Proofs.Indexed.SequenceType
import XPath.Proofs.Stops.Expr

/-!
# Expressions at an index

The runs of each rule and of its counterpart agree if those of the rules for what is nested one
level deeper do (`Input.Nested.Agree`). A value fits into the second limit if its nesting does. Each
level of nesting takes one off both limits, so by induction on the levels all runs agree
(`agree_nested`).

Looking ahead does not nest. A slash that stands alone is found by comparing indices on the one side
and lengths of what is left on the other (`agree_pathAfter`).
-/

namespace XPath.Grammar

open Rule

variable {input : Input} {first second i : Nat}

/-! ## Primary expressions -/

/-- What is nested one level deeper is read alike if it fits. -/
structure Nested.Agree (input : Input) (first second : Nat) (inner : Nested)
    (inner' : Input.Nested) : Prop where
  exprSingle : Rule.Agree input first second (fun n => n.nest < second) inner.exprSingle
    inner'.exprSingle
  itemType : Rule.Agree input first second (fun t => t.nest < second) inner.itemType inner'.itemType

/-- The two rules read expressions whose nesting decides. -/
abbrev NodesAgree (input : Input) (first second : Nat) (r : Rule Node)
    (q : IndexRule Node) : Prop :=
  Rule.Agree input first second (fun n => n.nest ≤ second) r q

-- A construct fits if its parts do.
attribute [local simp] Node.nest_le Form.operands Form.contents Form.groups Form.singles Form.types

theorem agree_numericLiteral :
    NodesAgree input first second numericLiteral input.numericLiteral := by
  refine fun i hi => agreeAt_space ?_
  refine agreeAt_bind (matches_mantissa _ (Input.skipSpace_le hi)) fun m next hnext => ?_
  obtain ⟨e?, next, hle, hindex, hrule⟩ := exponent?_drop hnext
  rw [bind_of_ok hrule]
  simp only [hindex]
  obtain ⟨whole, fraction⟩ := m
  cases e? with
  | some e => exact agreeAt_ofExcept fun _ => agreeAt_pure hle (by simp)
  | none => cases fraction <;> exact agreeAt_ofExcept fun _ => agreeAt_pure hle (by simp)

section Primary

variable {inner : Nested} {inner' : Input.Nested}
  (hi : Nested.Agree input first second inner inner')
include hi

theorem agree_expr : NodesAgree input first second (expr inner) (input.expr inner') :=
  (agree_commaList hi.exprSingle).map (by simp)

theorem agree_exprUntil (closing : Token) :
    Agree input first second (fun o => ∀ n ∈ o, n.nest ≤ second) (exprUntil inner closing)
      (input.exprUntil inner' closing) :=
  fun _ hle => agreeAt_rest <| agreeAt_ite_isNext (fun _ => agreeAt_pure hle (by simp))
    (agreeAt_map hle (agree_expr hi) (by simp))

theorem agree_parenthesizedExpr :
    NodesAgree input first second (parenthesizedExpr inner) (input.parenthesizedExpr inner') :=
  (agree_group "(" ")" _ (agree_exprUntil hi _)).map (by simp)

theorem agree_enclosedExpr : Agree input first second (fun o => ∀ n ∈ o, n.nest ≤ second)
    (enclosedExpr inner) (input.enclosedExpr inner') :=
  agree_group "\x7b" "\x7d" _ (agree_exprUntil hi _)

theorem agree_predicate :
    NodesAgree input first second (predicate inner) (input.predicate inner') :=
  agree_group "[" "]" _ (agree_expr hi)

theorem agree_argument : Agree input first second (fun a => ∀ e ∈ a.children, e.nest < second)
    (argument inner) (input.argument inner') := by
  intro i hle
  have hhere := Input.skipSpace_le hle
  have hexpr : AgreeAt input first second True
      (fun a : Argument Node => ∀ e ∈ a.children, e.nest < second)
      ((inner.exprSingle >>= fun n => pure (.expr n)) (input.drop (input.skipSpace i)))
      (inner'.exprSingle.map .expr (input.skipSpace i)) :=
    agreeAt_map hhere hi.exprSingle (by simp [Argument.children])
  refine agreeAt_space (agreeAt_look fun ts hts => ?_)
  split
  next us =>
    obtain ⟨hget, rfl⟩ := Input.get_of_drop hts
    rw [← hts]
    refine agreeAt_ite (by rw [Input.isNext_drop, Input.isNext_drop, and_iff_right hget])
      (fun _ => ?_) fun _ => hexpr
    exact agreeAt_advance (agreeAt_pure (Input.lt_of_get hget) (by simp [Argument.children]))
  next hmark =>
    rw [← hts, Input.argument, if_neg]
    · exact hexpr
    · rintro ⟨hget, -⟩
      exact hmark _ (hts.symm.trans (Input.drop_of_get hget))

theorem agree_argumentList :
    Agree input first second (fun args => ∀ a ∈ args, ∀ e ∈ a.children, e.nest < second)
      (argumentList inner) (input.argumentList inner') :=
  agree_group "(" ")" _ (agree_separated ")" (agree_argument hi))

theorem agree_keySpecifier : Agree input first second (fun k => ∀ e ∈ k.children, e.nest ≤ second)
    (keySpecifier inner) (input.keySpecifier inner') := by
  refine fun i hle => agreeAt_space (agreeAt_look fun ts hts => ?_)
  have hhere := Input.skipSpace_le hle
  rw [Input.keySpecifier]
  cases ts with
  | nil =>
    simp only [Input.get_of_drop_nil hts]
    rw [← hts]
    exact agreeAt_fail _ hhere
  | cons t us =>
    obtain ⟨hget, rfl⟩ := Input.get_of_drop hts
    have hlt := Input.lt_of_get hget
    simp only [hget]
    rw [← hts]
    refine agreeAt_ite Iff.rfl (fun _ => ?_) fun _ => agreeAt_ite Iff.rfl (fun _ => ?_) fun _ =>
      agreeAt_ite Iff.rfl (fun _ => ?_) fun _ => ?_
    · exact agreeAt_advance (agreeAt_pure hlt (by simp [KeySpecifier.children]))
    · exact agreeAt_map hhere (agree_parenthesizedExpr hi) (by simp [KeySpecifier.children])
    · refine agreeAt_advance (agreeAt_ofExcept fun _ => agreeAt_pure hlt ?_)
      simp [KeySpecifier.children]
    · exact agreeAt_map hhere (matches_one _ _) (by simp [KeySpecifier.children])

theorem agree_declaredType? : Agree input first second (fun o => ∀ t ∈ o, t.nest ≤ second)
    (declaredType? inner) (input.declaredType? inner') :=
  fun _ hle => agreeAt_skip? (fun h => agreeAt_map h (agree_sequenceType hi.itemType) (by simp))
    (agreeAt_pure hle (by simp))

theorem agree_paramList :
    Agree input first second (fun ps => ∀ p ∈ ps, ∀ t ∈ p.type, t.nest ≤ second) (paramList inner)
      (input.paramList inner') :=
  agree_separated ")" fun i hle => agreeAt_bind (agree_after "$" "Param" matches_eqName i hle)
    fun _ _ hnext => agreeAt_map hnext (agree_declaredType? hi) (by simp)

theorem agree_inlineFunction :
    NodesAgree input first second (inlineFunction inner) (input.inlineFunction inner') := by
  refine fun i hle => agreeAt_expect hle fun next hnext =>
    agreeAt_bind (agree_bracketed "(" ")" _ (agree_paramList hi) next hnext)
      fun params next hnext =>
    agreeAt_bind (agree_declaredType? hi next hnext) fun result next hnext =>
    agreeAt_map hnext (agree_enclosedExpr hi) fun body => ?_
  rw [nest_inlineFunction_le, true_and, and_assoc]

theorem agree_mapConstructor :
    NodesAgree input first second (mapConstructor inner) (input.mapConstructor inner') := by
  have hentry : Agree input first second (fun e => e.key.nest < second ∧ e.value.nest < second)
      (mapEntry inner) (input.mapEntry inner') :=
    fun i hle => agreeAt_bind (hi.exprSingle i hle) fun _ _ hnext => agreeAt_expect hnext
      fun _ hnext => agreeAt_map hnext hi.exprSingle (by simp)
  exact fun i hle => agreeAt_expect hle fun next hnext => agreeAt_map hnext
    (agree_bracketed "\x7b" "\x7d" _ (agree_separated "\x7d" hentry)) fun es =>
      nest_mapConstructor_le.trans (by simp)

theorem agree_squareArray :
    NodesAgree input first second (squareArray inner) (input.squareArray inner') :=
  (agree_group "[" "]" _ (agree_separated "]" hi.exprSingle)).map (by simp)

theorem agree_curlyArray :
    NodesAgree input first second (curlyArray inner) (input.curlyArray inner') :=
  fun _ hle => agreeAt_expect hle fun _ hnext => agreeAt_map hnext (agree_enclosedExpr hi) (by simp)

theorem agree_functionExpr :
    NodesAgree input first second (functionExpr inner) (input.functionExpr inner') := by
  refine fun i hle => agreeAt_bind (matches_eqName i hle) fun name next hnext => agreeAt_rest ?_
  refine agreeAt_ite_isNext (fun _ => ?_) (agreeAt_ite_isNext (fun _ => ?_) ?_)
  · refine agreeAt_expect hnext fun next hnext => agreeAt_space ?_
    refine agreeAt_bind (matches_one _ _ _ (Input.skipSpace_le hnext)) fun digits next hnext => ?_
    exact agreeAt_ite Iff.rfl (fun _ => agreeAt_pure hnext (by simp))
      fun _ => agreeAt_failWith _ _
  · exact agreeAt_map hnext (agree_argumentList hi) fun args =>
      nest_functionCall_le.trans (by simp)
  · exact agreeAt_space (agreeAt_fail _ (Input.skipSpace_le hnext))

theorem agreeAt_primaryFrom {t : Token} (h : input.get i = some t) :
    AgreeAt input first second True (fun n => n.nest ≤ second)
      (primaryFrom inner t (input.drop (i + 1)) (input.drop i)) (input.primaryFrom inner' t i) := by
  have hlt := Input.lt_of_get h
  have hle := Nat.le_of_lt hlt
  have hiff (u : Token) : isNext u (input.drop (i + 1)) = true ↔ input.isNext u (i + 1) = true := by
    rw [Input.isNext_drop]
  unfold primaryFrom Input.primaryFrom
  refine agreeAt_ite Iff.rfl (fun _ => agree_parenthesizedExpr hi i hle) fun _ =>
    agreeAt_ite Iff.rfl (fun _ => ?_) fun _ => agreeAt_ite Iff.rfl (fun _ => ?_) fun _ =>
    agreeAt_ite Iff.rfl (fun _ => ?_) fun _ => agreeAt_ite Iff.rfl (fun _ => ?_) fun _ =>
    agreeAt_ite Iff.rfl (fun _ => agree_squareArray hi i hle) fun _ =>
    agreeAt_ite (and_congr_right' (hiff "(")) (fun _ => agree_inlineFunction hi i hle) fun _ =>
    agreeAt_ite (and_congr_right' (hiff "\x7b")) (fun _ => agree_mapConstructor hi i hle) fun _ =>
    agreeAt_ite (and_congr_right' (hiff "\x7b")) (fun _ => agree_curlyArray hi i hle) fun _ =>
    agreeAt_ite Iff.rfl (fun _ => agree_numericLiteral i hle) fun _ => agree_functionExpr hi i hle
  · refine agreeAt_ite (by rw [Input.head?_drop]) (fun _ => agree_numericLiteral i hle) fun _ => ?_
    exact agreeAt_advance (agreeAt_pure hlt (by simp))
  · exact agreeAt_map hle (agree_after "$" _ matches_eqName) (by simp)
  · exact agreeAt_map hle (agree_after "?" _ (agree_keySpecifier hi)) (by simp)
  · exact agreeAt_map hle matches_stringLiteral (by simp)

theorem agree_primaryExpr :
    NodesAgree input first second (primaryExpr inner) (input.primaryExpr inner') := by
  refine fun i hle => agreeAt_space (agreeAt_look fun ts hts => ?_)
  rw [Input.primaryExpr]
  cases ts with
  | nil =>
    simp only [Input.get_of_drop_nil hts]
    rw [← hts]
    exact agreeAt_fail _ (Input.skipSpace_le hle)
  | cons t us =>
    obtain ⟨hget, rfl⟩ := Input.get_of_drop hts
    simp only [hget]
    rw [← hts]
    exact agreeAt_primaryFrom hi hget

end Primary

/-! ## Looking ahead -/

theorem couldBePrimary_drop (hi : i ≤ input.tokens.length) :
    couldBePrimary (input.drop i) = input.couldBePrimary i := by
  have hname : Mirrors input (eqName (input.drop i)) (input.eqName i) :=
    (matches_eqName i hi).mirrors (n := 0)
  rw [Input.couldBePrimary]
  cases h : input.get i with
  | none => rw [Input.drop_of_get_none h, couldBePrimary]
  | some t =>
    rw [Input.drop_of_get h] at hname ⊢
    rw [couldBePrimary, Input.isNext_drop, Input.isNext_drop]
    generalize eqName (t :: input.drop (i + 1)) = x at hname
    generalize input.eqName i = y at hname
    cases hname with
    | ok name hnext => simp only [Input.isNext_drop]
    | unexpected _ _ | tooDeep _ | value _ => rfl

theorem startsAxis_drop (input : Input) (i : Nat) :
    startsAxis (input.drop i) = (input.axisHere? i).isSome := by
  rw [Input.axisHere?]
  cases h : input.get i with
  | none => simp [Input.drop_of_get_none h, startsAxis]
  | some t =>
    rw [Input.drop_of_get h, startsAxis, Input.isNext_drop, Option.bind_some]
    cases input.isNext "::" (i + 1) <;> simp

theorem canStartStep_drop (input : Input) (i : Nat) :
    canStartStep (input.drop i) = input.canStartStep i := by
  rw [Input.canStartStep]
  cases h : input.get i with
  | none => rw [Input.drop_of_get_none h, Option.toList_none]
  | some t =>
    rw [Input.drop_of_get h, Option.toList_some]
    rfl

/-- The tokens of an axis are found, or nothing is taken. -/
theorem axis?_drop (hi : i ≤ input.tokens.length) :
    ∃ axis next, next ≤ input.tokens.length ∧ input.axis? i = (axis, next) ∧
      axis? (input.drop i) = .ok (axis, input.drop next) := by
  rw [Input.axis?]
  obtain ⟨us, hus, h⟩ | ⟨a, us, rest, hus, hrest, h⟩ | ⟨hnot, h⟩ := axis?_cases (input.drop i)
  · obtain ⟨hget, rfl⟩ := Input.get_of_drop hus
    exact ⟨_, _, Input.lt_of_get hget, if_pos hget, h⟩
  · obtain ⟨hget, rfl⟩ := Input.get_of_drop hus
    rw [Input.skipSpace_drop] at hrest
    obtain ⟨hcolons, rfl⟩ := Input.get_of_drop hrest
    have hnext : input.isNext "::" (i + 1) = true := by
      rw [← Input.isNext_drop, isNext_iff_cons]
      exact ⟨_, (Input.skipSpace_drop input _).trans hrest⟩
    have hat : ¬ input.get i = some "@" := by
      rw [hget]
      cases a <;> decide
    refine ⟨_, _, Input.lt_of_get hcolons, ?_, h⟩
    rw [if_neg hat]
    simp only [Input.axisHere?, hnext, if_true, hget, Option.bind_some, Spelled.ofToken?_spelling]
  · have hat : ¬ input.get i = some "@" := fun hget => by
      rw [Input.drop_of_get hget] at h
      cases h
    have hnone : input.axisHere? i = none := by
      rw [← Option.not_isSome_iff_eq_none, ← startsAxis_drop, hnot]
      exact Bool.false_ne_true
    refine ⟨none, i, hi, ?_, h⟩
    rw [if_neg hat, hnone]

/-! ## Paths -/

section Path

variable {inner : Nested} {inner' : Input.Nested}
  (hi : Nested.Agree input first second inner inner')
include hi

theorem agree_suffix? : Agree input first second
    (fun o => ∀ s ∈ o, (∀ e ∈ s.contents, e.nest ≤ second) ∧
      (∀ e ∈ s.groups, e.nest ≤ second) ∧ ∀ e ∈ s.singles, e.nest < second)
    (suffix? inner) (input.suffix? inner') := by
  intro i hle
  have hhere := Input.skipSpace_le hle
  refine agreeAt_rest ?_
  rw [Input.head?_skipSpace_drop, Input.peek, Input.suffix?]
  generalize input.get (input.skipSpace i) = t?
  obtain rfl | hpredicate := eq_or_ne t? (some "[")
  · exact agreeAt_space (agreeAt_map hhere (agree_predicate hi) <| by
      simp [Suffix.contents, Suffix.groups, Suffix.singles])
  obtain rfl | harguments := eq_or_ne t? (some "(")
  · refine agreeAt_space (agreeAt_map hhere (agree_argumentList hi) fun args => ?_)
    simp only [Suffix.contents, Suffix.groups, Suffix.singles, Option.mem_some, forall_eq',
      List.forall_mem_flatMap]
    simp
  obtain rfl | hlookup := eq_or_ne t? (some "?")
  · exact agreeAt_space (agreeAt_map hhere (agree_after "?" _ (agree_keySpecifier hi)) <| by
      simp [Suffix.contents, Suffix.groups, Suffix.singles])
  simp only
  exact agreeAt_pure hle (by simp)

theorem agree_suffixedExpr :
    NodesAgree input first second (suffixedExpr inner) (input.suffixedExpr inner') := by
  refine fun i hle => agreeAt_bind (agree_primaryExpr hi i hle) fun primary next hnext =>
    agreeAt_bind (agree_many (agree_suffix? hi) next hnext) fun ss next hnext => ?_
  cases ss with
  | nil => exact agreeAt_pure hnext (by simp)
  | cons s ss => exact agreeAt_pure hnext (nest_suffixed_le.trans (by simp only [true_and]))

theorem agree_predicate? : Agree input first second (fun o => ∀ n ∈ o, n.nest ≤ second)
    (predicate? inner) (input.predicate? inner') :=
  fun _ hle => agreeAt_rest <| agreeAt_ite_isNext
    (fun _ => agreeAt_map hle (agree_predicate hi) (by simp)) (agreeAt_pure hle (by simp))

theorem agree_axisStep :
    NodesAgree input first second (axisStep inner) (input.axisStep inner') := by
  intro i hle
  obtain ⟨axis, next, hnext, hindex, hrule⟩ := axis?_drop (Input.skipSpace_le hle)
  rw [Input.axisStep, hindex]
  refine agreeAt_space (agreeAt_take?
    (fun h => agreeAt_pure (Input.lt_of_get h) (by simp)) fun _ => ?_)
  rw [if_neg Bool.false_ne_true, bind_of_ok hrule]
  exact agreeAt_bind (matches_nodeTest _ hnext) fun test next hnext =>
    agreeAt_map hnext (agree_many (agree_predicate? hi)) (by simp)

theorem agree_stepExpr :
    NodesAgree input first second (stepExpr inner) (input.stepExpr inner') := by
  refine fun i hle => agreeAt_space (agreeAt_rest (agreeAt_ite ?_ (fun _ => ?_) fun _ => ?_))
  · rw [startsAxis_drop, couldBePrimary_drop (Input.skipSpace_le hle), Option.not_isSome]
  · exact agree_suffixedExpr hi _ (Input.skipSpace_le hle)
  · exact agree_axisStep hi _ (Input.skipSpace_le hle)

omit hi in
theorem agree_chainOf (level : ChainLevel) {operand : Rule Node} {operand' : IndexRule Node}
    (h : NodesAgree input first second operand operand') :
    NodesAgree input first second (chainOf level operand) (input.chainOf level operand') := by
  refine fun i hle => agreeAt_bind (agree_chain h h i hle) fun x next hnext => ?_
  obtain ⟨e, others⟩ := x
  cases others with
  | nil => exact agreeAt_pure hnext (by simp)
  | cons y others =>
    refine agreeAt_pure hnext ?_
    rw [Node.nest_le]
    simp only [Form.operands, List.forall_mem_cons, List.forall_mem_map]
    simp

theorem agree_relativePath :
    NodesAgree input first second (relativePath inner) (input.relativePath inner') :=
  agree_chainOf _ (agree_stepExpr hi)

end Path

/-! ## Slashes -/

/-- A slash in front of an index stands alone where no step begins, and a path follows it where one
does. -/
structure Slashes (input : Input) (inner' : Input.Nested) : Prop where
  alone {i : Nat} : i ≤ input.tokens.length → (∀ t ∈ input.peek i, BeginsNoStep t) →
    input.pathAfter inner' .slash i = .ok (.of (.path .slash none), i)
  path {leading : PathOp} {i : Nat} : i ≤ input.tokens.length →
    ¬ (leading = .slash ∧ ∀ t ∈ input.peek i, BeginsNoStep t) →
      input.pathAfter inner' leading i =
        (input.relativePath inner').map (fun relative => .of (.path leading (some relative))) i

theorem slashes_of_agree {inner : Nested} {inner' : Input.Nested} {n : Nat}
    (hi : Nested.Agree input n n inner inner') (hs : inner.Stops n) : Slashes input inner' where
  alone {i} hle hno := by
    have hpath := (agree_relativePath hi i hle).mirrors
    have hskip : ∀ t ∈ (Token.skipSpace (input.drop i)).head?, BeginsNoStep t := by
      rwa [Input.head?_skipSpace_drop]
    rw [relativePath_error hskip, Input.skipSpace_drop, mirrors_unexpected_iff] at hpath
    obtain ⟨position, hposition, hdrop, hpath⟩ := hpath
    have hhere := Input.skipSpace_le hle
    obtain rfl : input.skipSpace i = position := Input.drop_inj hhere hposition hdrop
    have hstart : input.canStartStep (input.skipSpace i) = false := by
      rw [← canStartStep_drop]
      cases hget : input.get (input.skipSpace i) with
      | none => rw [Input.drop_of_get_none hget, canStartStep]
      | some t =>
        rw [Input.drop_of_get hget]
        exact (hno t hget).no_step
    rw [Input.pathAfter, hpath, Input.unexpected]
    exact if_pos ⟨rfl, rfl, by rw [hstart]; rfl⟩
  path {leading i} hle hnot := by
    have hpath := (agree_relativePath hi i hle).mirrors
    generalize hx : relativePath inner (input.drop i) = x at hpath
    generalize hy : input.relativePath inner' i = y at hpath
    rw [Input.pathAfter, IndexRule.map, hy]
    cases hpath with
    | ok a hnext => rfl
    | tooDeep _ | value _ => rfl
    | @unexpected expected position hposition =>
      refine if_neg ?_
      rintro ⟨rfl, rfl, hstart⟩
      refine hnot ⟨rfl, ?_⟩
      rw [← Input.head?_skipSpace_drop]
      refine beginsNoStep_of_error hs hx (by rw [Input.skipSpace_drop]) ?_
      rw [Input.skipSpace_drop, canStartStep_drop]
      simpa using hstart

/-- What is nested is read alike, and both sides know a slash that stands alone. -/
structure Nested.AgreePaths (input : Input) (first second : Nat) (inner : Nested)
    (inner' : Input.Nested) : Prop extends Nested.Agree input first second inner inner' where
  stops : inner.Stops first
  slashes : Slashes input inner'

section Operators

variable {inner : Nested} {inner' : Input.Nested}
  (hi : Nested.AgreePaths input first second inner inner')
include hi

theorem agree_pathAfter (leading : PathOp) :
    NodesAgree input first second (pathAfter inner leading) (input.pathAfter inner' leading) := by
  intro i hle
  by_cases h : leading = .slash ∧ ∀ t ∈ input.peek i, BeginsNoStep t
  · obtain ⟨rfl, hno⟩ := h
    rw [pathAfter_none (by rwa [Input.head?_skipSpace_drop]), hi.slashes.alone hle hno]
    exact agreeAt_pure hle (by simp)
  · rw [pathAfter_of_step hi.stops (by rwa [Input.head?_skipSpace_drop]), hi.slashes.path hle h]
    exact agreeAt_map hle (agree_relativePath hi.toAgree) (by simp)

theorem agree_pathExpr :
    NodesAgree input first second (pathExpr inner) (input.pathExpr inner') := by
  refine fun i hle => agreeAt_space (agreeAt_rest ?_)
  rw [Input.head?_drop, Input.pathExpr]
  cases h : (input.get (input.skipSpace i)).bind (Spelled.ofToken? : Token → Option PathOp) with
  | none => exact agree_relativePath hi.toAgree _ (Input.skipSpace_le hle)
  | some leading =>
    obtain ⟨t, hget, -⟩ := Option.bind_eq_some_iff.mp h
    exact agreeAt_advance (agree_pathAfter hi leading _ (Input.lt_of_get hget))

/-! ## Operators -/

theorem agree_unaryExpr :
    NodesAgree input first second (unaryExpr inner) (input.unaryExpr inner') := by
  have hsign : Agree input first second (fun o : Option UnaryOp => ∀ op ∈ o, True)
      (operator? Spelled.ofToken?) (input.operator? Spelled.ofToken?) :=
    fun i hle => (matches_operator? _ i hle).congr fun _ _ h => by simpa using h
  refine fun i hle => agreeAt_bind (agree_many hsign i hle) fun ops next hnext =>
    agreeAt_bind (agree_chainOf .simpleMap (agree_pathExpr hi) next hnext) fun e next hnext => ?_
  exact agreeAt_ite Iff.rfl (fun _ => agreeAt_pure hnext (by simp))
    fun _ => agreeAt_pure hnext (by simp)

theorem agree_arrowTarget : Agree input first second (fun t => ∀ e ∈ t.children, e.nest ≤ second)
    (arrowTarget inner) (input.arrowTarget inner') := by
  refine fun i hle => agreeAt_space (agreeAt_rest ?_)
  have hhere := Input.skipSpace_le hle
  rw [Input.head?_drop, Input.arrowTarget]
  generalize hget : input.get (input.skipSpace i) = t?
  obtain rfl | hvar := eq_or_ne t? (some "$")
  · exact agreeAt_advance (agreeAt_map (Input.lt_of_get hget) matches_eqName
      (by simp [ArrowTarget.children]))
  obtain rfl | hparen := eq_or_ne t? (some "(")
  · exact agreeAt_map hhere (agree_parenthesizedExpr hi.toAgree) (by simp [ArrowTarget.children])
  simp only
  exact agreeAt_map hhere matches_eqName (by simp [ArrowTarget.children])

theorem agree_arrowExpr :
    NodesAgree input first second (arrowExpr inner) (input.arrowExpr inner') := by
  have hcall : Agree input first second (fun c => (∀ e ∈ c.target.children, e.nest ≤ second) ∧
      ∀ a ∈ c.args, ∀ e ∈ a.children, e.nest < second) (arrowCall inner) (input.arrowCall inner') :=
    fun i hle => agreeAt_bind (agree_arrowTarget hi i hle) fun _ _ hnext =>
      agreeAt_map hnext (agree_argumentList hi.toAgree) (by simp)
  refine fun i hle => agreeAt_bind (agree_chain (agree_unaryExpr hi) hcall i hle)
    fun x next hnext => ?_
  obtain ⟨e, calls⟩ := x
  cases calls with
  | nil => exact agreeAt_pure hnext (by simp)
  | cons c calls =>
    refine agreeAt_pure hnext (nest_arrow_le.trans ?_)
    rw [true_and, List.forall_mem_map]

omit hi in
theorem agree_typed {τ : Type} {form : Node → τ → Form Node} {A : τ → Prop} (ws : List Token)
    {operand : Rule Node} {operand' : IndexRule Node} {type : Rule τ} {type' : IndexRule τ}
    (hform : ∀ e t, (Node.of (form e t)).nest ≤ second ↔ e.nest ≤ second ∧ A t)
    (ho : NodesAgree input first second operand operand')
    (ht : Agree input first second A type type') :
    NodesAgree input first second (typed form ws operand type)
      (input.typed form ws operand' type') := by
  refine fun i hle => agreeAt_bind (agree_followedBy ws ho ht i hle) fun x next hnext => ?_
  obtain ⟨e, t?⟩ := x
  cases t? with
  | none => exact agreeAt_pure hnext (by simp)
  | some t => exact agreeAt_pure hnext ((hform e t).trans (by simp))

theorem agree_instanceOfExpr :
    NodesAgree input first second (instanceOfExpr inner) (input.instanceOfExpr inner') := by
  have hcast : NodesAgree input first second (castExpr inner) (input.castExpr inner') :=
    agree_typed _ (by simp) (agree_arrowExpr hi) matches_singleType
  have hcastable : NodesAgree input first second (castableExpr inner) (input.castableExpr inner') :=
    agree_typed _ (by simp) hcast matches_singleType
  have htreat : NodesAgree input first second (treatExpr inner) (input.treatExpr inner') :=
    agree_typed _ (by simp) hcastable (agree_sequenceType hi.itemType)
  exact agree_typed _ (by simp) htreat (agree_sequenceType hi.itemType)

theorem agree_stringConcatExpr :
    NodesAgree input first second (stringConcatExpr inner) (input.stringConcatExpr inner') :=
  have hadditive : NodesAgree input first second (additiveExpr inner) (input.additiveExpr inner') :=
    agree_chainOf _ (agree_chainOf _ (agree_chainOf _ (agree_chainOf _ (agree_instanceOfExpr hi))))
  agree_chainOf _ (agree_typed _ (by simp) hadditive hadditive)

theorem agree_orExpr : NodesAgree input first second (orExpr inner) (input.orExpr inner') := by
  have hconcat := agree_stringConcatExpr hi
  have hcomparison :
      NodesAgree input first second (comparisonExpr inner) (input.comparisonExpr inner') := by
    refine fun i hle => agreeAt_bind (hconcat i hle) fun left next hnext =>
      agreeAt_bind (matches_operator? _ next hnext) fun op next hnext => ?_
    cases op with
    | none => exact agreeAt_pure hnext (by simp)
    | some op => exact agreeAt_map hnext hconcat (by simp)
  exact agree_chainOf _ (agree_chainOf _ hcomparison)

/-! ## Single expressions -/

/-- The bindings and the body of a keyword expression. -/
theorem agree_bound (op : BindingOp) (word : Token) (owner : String)
    {form : List (Binding Node) → Node → Form Node}
    (hform : ∀ bs body, (Node.of (form bs body)).nest ≤ second ↔
      (∀ b ∈ bs, b.expr.nest < second) ∧ body.nest < second) :
    NodesAgree input first second
      (commaList (binding inner op) >>= fun bindings => expect word owner >>= fun _ =>
        inner.exprSingle >>= fun body => pure (Node.of (form bindings body)))
      (input.bound inner' form op word owner) := by
  have hbinding : Agree input first second (fun b => b.expr.nest < second) (binding inner op)
      (input.binding inner' op) :=
    fun i hle => agreeAt_bind (agree_after "$" _ matches_eqName i hle) fun _ next hnext =>
      agreeAt_expect hnext fun _ hnext => agreeAt_map hnext hi.exprSingle (by simp)
  exact fun i hle => agreeAt_bind (agree_commaList hbinding i hle) fun bs next hnext =>
    agreeAt_expect hnext fun _ hnext => agreeAt_map hnext hi.exprSingle fun body =>
      (hform bs body).trans (by simp)

theorem agree_ifExpr : NodesAgree input first second (ifExpr inner) (input.ifExpr inner') :=
  fun _ hle => agreeAt_expect hle fun next hnext =>
    agreeAt_bind (agree_bracketed "(" ")" _ (agree_expr hi.toAgree) next hnext) fun _ _ hnext =>
    agreeAt_expect hnext fun next hnext => agreeAt_bind (hi.exprSingle next hnext) fun _ _ hnext =>
    agreeAt_expect hnext fun _ hnext => agreeAt_map hnext hi.exprSingle (by simp [and_assoc])

theorem agreeAt_exprSingleFrom {t : Token} (h : input.get i = some t) :
    AgreeAt input first second True (fun n => n.nest ≤ second)
      (exprSingleFrom inner t (input.drop (i + 1)) (input.drop i))
      (if t = "for" ∧ input.isNext "$" (i + 1) then input.forExpr inner' i
        else if t = "let" ∧ input.isNext "$" (i + 1) then input.letExpr inner' i
        else if (t = "some" ∨ t = "every") ∧ input.isNext "$" (i + 1) then
          input.quantifiedExpr inner' i
        else if t = "if" ∧ input.isNext "(" (i + 1) then input.ifExpr inner' i
        else input.orExpr inner' i) := by
  have hle := Nat.le_of_lt (Input.lt_of_get h)
  have hquantified (q : Quantifier) (hq : t = Spelled.spelling q) :
      AgreeAt input first second True (fun n => n.nest ≤ second)
        (quantifiedExpr inner q (input.drop i)) (input.quantifiedExpr inner' i) := by
    have hskip : input.skipSpace i = i := by
      rw [Input.skipSpace, h, hq]
      cases q <;> rfl
    rw [Input.quantifiedExpr, hskip, h, Option.bind_some, hq, Spelled.ofToken?_spelling]
    exact agreeAt_advance (agree_bound hi .inItems "satisfies" _ (by
      simp [or_imp, forall_and]) _ (Input.lt_of_get h))
  unfold exprSingleFrom
  rw [Input.isNext_drop, Input.isNext_drop]
  refine agreeAt_ite Iff.rfl (fun _ => ?_) fun _ => agreeAt_ite Iff.rfl (fun _ => ?_) fun _ => ?_
  · exact agree_after "for" _ (agree_bound hi .inItems "return" _ (by
      simp [or_imp, forall_and])) i hle
  · exact agree_after "let" _ (agree_bound hi .assign "return" _ (by
      simp [or_imp, forall_and])) i hle
  by_cases hsome : t = "some" ∧ input.isNext "$" (i + 1)
  · rw [if_pos hsome, if_pos ⟨.inl hsome.1, hsome.2⟩]
    exact hquantified .some hsome.1
  rw [if_neg hsome]
  by_cases hevery : t = "every" ∧ input.isNext "$" (i + 1)
  · rw [if_pos hevery, if_pos ⟨.inr hevery.1, hevery.2⟩]
    exact hquantified .every hevery.1
  have hneither : ¬ ((t = "some" ∨ t = "every") ∧ input.isNext "$" (i + 1)) :=
    fun h => h.1.elim (fun ht => hsome ⟨ht, h.2⟩) fun ht => hevery ⟨ht, h.2⟩
  rw [if_neg hevery, if_neg hneither]
  exact agreeAt_ite Iff.rfl (fun _ => agree_ifExpr hi i hle) fun _ => agree_orExpr hi i hle

theorem agree_exprSingleHere :
    NodesAgree input first second (exprSingleHere inner) (input.exprSingleHere inner') := by
  refine fun i hle => agreeAt_look fun ts hts => ?_
  rw [Input.exprSingleHere]
  cases ts with
  | nil =>
    simp only [Input.get_of_drop_nil hts]
    rw [← hts]
    exact agreeAt_fail _ hle
  | cons t us =>
    obtain ⟨hget, rfl⟩ := Input.get_of_drop hts
    simp only [hget]
    rw [← hts]
    exact agreeAt_exprSingleFrom hi hget

end Operators

/-! ## All levels -/

/-- With the same number of levels nothing but the index is different. -/
theorem agree_nested_self (n : Nat) : Nested.Agree input n n (nested n) (input.nested n) where
  exprSingle := by
    induction n with
    | zero =>
      refine fun i hle => .error fun _ => ?_
      rw [Input.skipSpace_drop]
      exact .tooDeep (Input.skipSpace_le hle)
    | succ n ih =>
      have hi : Nested.Agree input n n (nested n) (input.nested n) := ⟨ih, agree_itemType n n⟩
      have hpaths : Nested.AgreePaths input n n (nested n) (input.nested n) :=
        ⟨hi, nested_stops n, slashes_of_agree hi (nested_stops n)⟩
      exact fun i hle =>
        agreeAt_space (agree_exprSingleHere hpaths _ (Input.skipSpace_le hle)).succ
  itemType := agree_itemType n n

/-- The rules for any two numbers of levels agree. -/
theorem agree_nested (first second : Nat) :
    Nested.AgreePaths input first second (nested first) (input.nested second) where
  exprSingle := by
    induction first generalizing second with
    | zero =>
      refine fun i hle => .error fun he => ?_
      obtain rfl : 0 = second := he
      rw [Input.skipSpace_drop]
      exact .tooDeep (Input.skipSpace_le hle)
    | succ first ih =>
      cases second with
      | zero =>
        exact fun i hle => agreeAt_zero ((agree_nested_self (first + 1)).exprSingle i hle).mirrors _
      | succ second =>
        have hi : Nested.AgreePaths input first second (nested first) (input.nested second) :=
          ⟨⟨ih second, agree_itemType first second⟩, nested_stops first,
            slashes_of_agree (agree_nested_self second) (nested_stops second)⟩
        exact fun i hle =>
          agreeAt_space (agree_exprSingleHere hi _ (Input.skipSpace_le hle)).succ
  itemType := agree_itemType first second
  stops := nested_stops first
  slashes := slashes_of_agree (agree_nested_self second) (nested_stops second)

end XPath.Grammar
