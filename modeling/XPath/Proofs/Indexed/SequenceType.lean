import XPath.Indexed.SequenceType
import XPath.Proofs.Indexed.Name
import XPath.Proofs.Complete.SequenceType
import XPath.Proofs.Nesting

/-!
# Types at an index

Kind tests do not nest, so the limits have no part in them. Item types do: a type fits into the
second limit if its nesting does, and by induction on the levels all runs agree (`agree_itemType`).
-/

namespace XPath.Grammar

open Rule

variable {input : Input} {first second i : Nat} {α : Type}

/-! ## Kind tests -/

theorem agree_call {A : α → Prop} {body : Rule α} {body' : IndexRule α} (keyword : Token)
    (h : Agree input first second A body body') :
    Agree input first second A (call keyword body) (input.call keyword body') :=
  fun _ hi => agreeAt_expect hi fun next hnext => agree_bracketed "(" ")" keyword h next hnext

theorem matches_nameOrWildcard :
    Matches input first second nameOrWildcard input.nameOrWildcard :=
  fun _ hi => agreeAt_space <| agreeAt_take? (fun h => agreeAt_pure (Input.lt_of_get h) (by simp))
    fun _ => agreeAt_map (Input.skipSpace_le hi) matches_eqName fun _ => by simp

theorem matches_elementTest : Matches input first second elementTest input.elementTest := by
  refine agree_call _ fun i hi => agreeAt_rest (agreeAt_ite_isNext
    (fun _ => agreeAt_pure hi (by simp)) ?_)
  refine agreeAt_bind (matches_nameOrWildcard _ hi) fun name next hnext =>
    agreeAt_skip? (fun hcomma => ?_) (agreeAt_pure hnext (by simp))
  exact agreeAt_map hcomma (agree_marked "?" matches_eqName) fun _ => by simp

theorem matches_attributeTest : Matches input first second attributeTest input.attributeTest := by
  refine agree_call _ fun i hi => agreeAt_rest (agreeAt_ite_isNext
    (fun _ => agreeAt_pure hi (by simp)) ?_)
  refine agreeAt_bind (matches_nameOrWildcard _ hi) fun name next hnext =>
    agreeAt_skip? (fun hcomma => ?_) (agreeAt_pure hnext (by simp))
  exact agreeAt_map hcomma matches_eqName fun _ => by simp

theorem matches_documentTest : Matches input first second documentTest input.documentTest := by
  refine agree_call _ fun i hi => agreeAt_rest ?_
  have hhere := Input.skipSpace_le hi
  rw [Input.head?_skipSpace_drop, Input.peek]
  dsimp only
  generalize input.get (input.skipSpace i) = t?
  obtain rfl | hclose := eq_or_ne t? (some ")")
  · exact agreeAt_pure hi (by simp)
  obtain rfl | helement := eq_or_ne t? (some "element")
  · exact agreeAt_space (agreeAt_map hhere matches_elementTest fun _ => by simp)
  obtain rfl | hschema := eq_or_ne t? (some "schema-element")
  · exact agreeAt_space (agreeAt_map hhere (agree_call _ matches_eqName) fun _ => by simp)
  simp only
  exact agreeAt_space (agreeAt_fail _ hhere)

theorem matches_piTest : Matches input first second piTest input.piTest := by
  refine agree_call _ fun i hi => agreeAt_rest ?_
  have hhere := Input.skipSpace_le hi
  rw [Input.head?_skipSpace_drop, Input.peek]
  dsimp only
  cases input.get (input.skipSpace i) with
  | none => exact agreeAt_space (agreeAt_fail _ hhere)
  | some t =>
    refine agreeAt_ite Iff.rfl (fun _ => agreeAt_pure hi (by simp)) fun _ => agreeAt_space ?_
    refine agreeAt_ite Iff.rfl (fun _ => ?_) fun _ => agreeAt_ite Iff.rfl (fun _ => ?_) fun _ => ?_
    · exact agreeAt_map hhere matches_stringLiteral fun _ => by simp
    · exact agreeAt_map hhere matches_ncName fun _ => by simp
    · exact agreeAt_fail _ hhere

theorem kindTestOf_cases (input : Input) (keyword : Token) :
    (kindTestOf keyword = none ∧ input.kindTestOf keyword = none) ∨
      ∃ test test', kindTestOf keyword = some test ∧ input.kindTestOf keyword = some test' ∧
        ∀ first second, Matches input first second test test' := by
  have hempty (word : Token) (test : KindTest) : ∀ first second,
      Matches input first second (call word (pure test)) (input.emptyKind word test) :=
    fun _ _ => agree_call word fun _ hi => agreeAt_pure hi (by simp)
  unfold Input.kindTestOf
  split
  · exact .inr ⟨_, _, rfl, rfl, fun _ _ => matches_documentTest.map fun _ => Iff.rfl⟩
  · exact .inr ⟨_, _, rfl, rfl, fun _ _ => matches_elementTest.map fun _ => Iff.rfl⟩
  · exact .inr ⟨_, _, rfl, rfl, fun _ _ => matches_attributeTest.map fun _ => Iff.rfl⟩
  · exact .inr ⟨_, _, rfl, rfl, fun _ _ => (agree_call _ matches_eqName).map fun _ => Iff.rfl⟩
  · exact .inr ⟨_, _, rfl, rfl, fun _ _ => (agree_call _ matches_eqName).map fun _ => Iff.rfl⟩
  · exact .inr ⟨_, _, rfl, rfl, fun _ _ => matches_piTest.map fun _ => Iff.rfl⟩
  · exact .inr ⟨_, _, rfl, rfl, hempty "comment" .comment⟩
  · exact .inr ⟨_, _, rfl, rfl, hempty "text" .text⟩
  · exact .inr ⟨_, _, rfl, rfl, hempty "namespace-node" .namespaceNode⟩
  · exact .inr ⟨_, _, rfl, rfl, hempty "node" .anyKind⟩
  · refine .inl ⟨?_, rfl⟩
    unfold kindTestOf
    split <;> simp_all

theorem matches_kindTest : Matches input first second kindTest input.kindTest := by
  refine fun i hi => agreeAt_space (agreeAt_rest ?_)
  have hhere := Input.skipSpace_le hi
  rw [Input.head?_drop, Input.kindTest]
  cases h : input.get (input.skipSpace i) with
  | none => exact agreeAt_fail _ hhere
  | some keyword =>
    obtain ⟨hnone, hnone'⟩ | ⟨test, test', htest, htest', hmatches⟩ :=
      kindTestOf_cases input keyword
    · simp only [Option.bind_some, hnone, hnone']
      exact agreeAt_fail _ hhere
    · simp only [Option.bind_some, htest, htest']
      exact hmatches first second _ hhere

theorem startsKindTest_drop (input : Input) (i : Nat) : startsKindTest (input.drop i) =
    ((input.get i).any KindTest.isKeyword && input.isNext "(" (i + 1)) := by
  cases h : input.get i with
  | none =>
    rw [Input.drop_of_get_none h]
    rfl
  | some t => rw [Input.drop_of_get h, startsKindTest, Input.isNext_drop, Option.any_some]

theorem matches_nodeTest : Matches input first second nodeTest input.nodeTest := by
  refine fun i hi => agreeAt_space (agreeAt_rest ?_)
  have hhere := Input.skipSpace_le hi
  refine agreeAt_ite (by rw [startsKindTest_drop]) (fun _ => ?_) fun _ => ?_
  · exact agreeAt_map hhere matches_kindTest fun _ => by simp
  · exact agreeAt_map hhere matches_nameTest fun _ => by simp

/-! ## Types -/

theorem matches_singleType : Matches input first second singleType input.singleType :=
  (agree_marked "?" matches_eqName).map fun _ => by simp

/-- The empty parentheses of `item()` and of `empty-sequence()`. -/
theorem agreeAt_emptyCall {A : α → Prop} {a : α} (owner : String) (hi : i ≤ input.tokens.length)
    (ha : A a) : AgreeAt input first second True A ((do
      expect "(" owner
      expect ")" owner
      return a : Rule α) (input.drop i)) (input.emptyCall owner a i) :=
  agreeAt_expect hi fun _ hnext => agreeAt_expect hnext fun _ hnext =>
    agreeAt_pure hnext (by simpa using ha)

theorem agree_callOrAny {A : α → Prop} {body : Rule α} {body' : IndexRule α} (keyword : Token)
    (h : Agree input first second A body body') :
    Agree input first second (fun o => ∀ a ∈ o, A a) (callOrAny keyword body)
      (input.callOrAny keyword body') :=
  agree_call _ fun _ hi => agreeAt_skip? (fun h => agreeAt_pure h (by simp))
    (agreeAt_map hi h (by simp))

section Types

variable {inner : Rule ItemType} {inner' : IndexRule ItemType}
  (hi : Agree input first second (fun t => t.nest < second) inner inner')
include hi

theorem agree_sequenceType : Agree input first second (fun t => t.nest ≤ second)
    (sequenceType inner) (input.sequenceType inner') := by
  intro i hle
  have hhere := Input.skipSpace_le hle
  rw [Input.sequenceType]
  dsimp only
  by_cases h : input.get (input.skipSpace i) = some "empty-sequence" ∧
      input.isNext "(" (input.skipSpace i + 1) = true
  · obtain ⟨hget, hnext⟩ := h
    have hskip := (Input.skipSpace_drop input i).trans (Input.drop_of_get hget)
    rw [if_pos ⟨hget, hnext⟩, sequenceType_empty hskip (by rw [Input.isNext_drop, hnext])]
    exact agreeAt_emptyCall _ (Input.lt_of_get hget) (Nat.zero_le second)
  · rw [if_neg h, sequenceType_items, Input.skipSpace_drop]
    · refine agreeAt_bind (hi _ hhere) fun type next hnext => ?_
      exact agreeAt_map hnext (matches_operator? _) fun _ => by
        simp only [true_and, and_true, SequenceType.nest, Nat.lt_iff_add_one_le]
    · intro ts hts
      rw [Input.skipSpace_drop] at hts
      have hget : input.get (input.skipSpace i) = some "empty-sequence" := by
        rw [← Input.head?_drop, hts, List.head?_cons]
      rw [Input.drop_of_get hget] at hts
      rw [← (List.cons.inj hts).2, Input.isNext_drop]
      exact Bool.eq_false_iff.mpr fun hnext => h ⟨hget, hnext⟩

theorem agree_functionTest : Agree input first second (fun t => t.nest ≤ second)
    (functionTest inner) (input.functionTest inner') := by
  have hseq := agree_sequenceType hi
  refine fun i hle => agreeAt_bind (agree_callOrAny "function" (agree_separated ")" hseq) i hle)
    fun params next hnext => ?_
  cases params with
  | none => exact agreeAt_pure hnext (by simp [ItemType.nest])
  | some params =>
    refine agreeAt_expect hnext fun next hnext => agreeAt_map hnext hseq fun result => ?_
    simp only [ItemType.nest, Nat.max_le, SequenceType.nestAll_le, true_and, Option.mem_some,
      forall_eq']

theorem agree_mapTest : Agree input first second (fun t => t.nest ≤ second)
    (mapTest inner) (input.mapTest inner') := by
  refine fun i hle => agreeAt_bind (A := fun o => ∀ x ∈ o, x.2.nest ≤ second)
    (agree_callOrAny "map" (fun i hle => ?_) i hle) fun parts next hnext => ?_
  · refine agreeAt_bind (matches_eqName i hle) fun key next hnext => agreeAt_expect hnext
      fun next hnext => agreeAt_map hnext (agree_sequenceType hi) (by simp)
  · cases parts <;> exact agreeAt_pure hnext (by simp [ItemType.nest])

theorem agree_arrayTest : Agree input first second (fun t => t.nest ≤ second)
    (arrayTest inner) (input.arrayTest inner') := by
  refine fun i hle => agreeAt_bind (agree_callOrAny "array" (agree_sequenceType hi) i hle)
    fun member next hnext => ?_
  cases member <;> exact agreeAt_pure hnext (by simp [ItemType.nest])

/-- What the token `t` at the index begins if no parenthesis follows it. -/
theorem agreeAt_parenthesizedOrAtomic {t : Token} (h : input.get i = some t) :
    AgreeAt input first second True (fun t => t.nest ≤ second)
      (itemTypeHere.parenthesizedOrAtomic inner t (input.drop i))
      (input.parenthesizedOrAtomic inner' i) := by
  have hle := Input.lt_of_get h
  refine agreeAt_ite (by rw [h, Option.some.injEq]) (fun _ => agreeAt_rest (agreeAt_advance
    (agreeAt_enclosed (Nat.le_of_lt hle) ?_))) fun _ => ?_
  · exact agreeAt_bind (hi _ hle) fun type next hnext => agreeAt_expect hnext fun next hnext =>
      agreeAt_pure hnext <| by simp only [true_and, ItemType.nest, Nat.lt_iff_add_one_le]
  · exact agreeAt_map (Nat.le_of_lt hle) matches_eqName (by simp [ItemType.nest])

theorem agree_itemTypeHere : Agree input first second (fun t => t.nest ≤ second)
    (itemTypeHere inner) (input.itemTypeHere inner') := by
  intro i hle
  rw [Input.itemTypeHere]
  cases h : input.get i with
  | none =>
    rw [Input.isNext_of_get_none h, if_neg Bool.false_ne_true, Input.parenthesizedOrAtomic, h,
      if_neg nofun]
    have hname : AgreeAt input first second True (fun t : ItemType => t.nest ≤ second)
        ((eqName >>= fun name => pure (.atomic name)) (input.drop i))
        (input.eqName.map .atomic i) :=
      agreeAt_map hle matches_eqName (by simp [ItemType.nest])
    rw [Input.drop_of_get_none h] at hname ⊢
    exact hname
  | some t =>
    have hother := agreeAt_parenthesizedOrAtomic hi h
    rw [Input.drop_of_get h, itemTypeHere_cons, ← Input.drop_of_get h]
    refine agreeAt_ite (by rw [Input.isNext_drop]) (fun hnext => ?_) fun _ => hother
    split
    · exact agreeAt_advance (agreeAt_emptyCall _ (Input.lt_of_get h) (Nat.zero_le _))
    · exact agree_functionTest hi i hle
    · exact agree_mapTest hi i hle
    · exact agree_arrayTest hi i hle
    next hitem hfunction hmap harray =>
      have hkind : AgreeAt input first second True (fun t => t.nest ≤ second)
          ((if KindTest.isKeyword t then kindTest >>= fun k => pure (.kindTest k)
            else itemTypeHere.parenthesizedOrAtomic inner t : Rule ItemType) (input.drop i))
          (if KindTest.isKeyword t then input.kindTest.map .kindTest i
            else input.parenthesizedOrAtomic inner' i) :=
        agreeAt_ite Iff.rfl
          (fun _ => agreeAt_map hle matches_kindTest (by simp [ItemType.nest])) fun _ => hother
      split <;> simp_all

end Types

/-- Where no level is left for the second run, it goes too deep, whatever the first one reads. -/
theorem agreeAt_zero {nest : α → Nat} {x : Except Failure (α × List Token)}
    {y : Except ParseError (α × Nat)} (h : Mirrors input x y) (position : Nat) :
    AgreeAt input (first + 1) 0 True (fun a => nest a < 0) x
      (.error (.tooDeep input.maxDepth position)) := by
  cases h with
  | ok a hnext =>
    exact .ok hnext (by simp) False.elim (fun _ => ⟨position, rfl⟩) (Nat.not_succ_le_zero first)
  | unexpected _ _ | tooDeep _ | value _ =>
    exact .error fun he => absurd he.le (Nat.not_succ_le_zero first)

theorem agree_itemType (first second : Nat) : Agree input first second (fun t => t.nest < second)
    (itemType first) (input.itemType second) := by
  induction first generalizing second with
  | zero =>
    refine fun i hi => .error fun he => ?_
    obtain rfl : 0 = second := he
    rw [Input.skipSpace_drop]
    exact .tooDeep (Input.skipSpace_le hi)
  | succ first ih =>
    have hsucc (second : Nat) : Agree input (first + 1) (second + 1) (fun t => t.nest < second + 1)
        (itemType (first + 1)) (input.itemType (second + 1)) :=
      fun i hi => agreeAt_space (agree_itemTypeHere (ih second) _ (Input.skipSpace_le hi)).succ
    cases second with
    | zero => exact fun i hi => agreeAt_zero (hsucc first i hi).mirrors _
    | succ second => exact hsucc second

end XPath.Grammar
