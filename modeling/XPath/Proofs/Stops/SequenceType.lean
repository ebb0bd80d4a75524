import XPath.Proofs.Sound.SequenceType
import XPath.Proofs.Stops.Name

/-!
# Where the rules for types stop

A kind test contains nothing that could be too deep, so any number of levels may be left for it. The
other types are gone through for a rule `inner` that stops as it should with `levels` levels left,
and by induction item types with any number of levels do (`itemType_consumes`).

The input may end inside of `item(` and of `empty-sequence(`, and there alone is a bracket open
where a failure is told at the end (`emptyCall_stopsAt`).
-/

namespace XPath.Grammar

open Rule

variable {levels : Nat}

/-! ## Kind tests -/

/-- A keyword and what stands in its parentheses. -/
theorem call_consumes {α : Type} {keyword : Token} (hk : keyword.isOrdinary) {body : Rule α}
    (hb : body.MayConsume levels) : (call keyword body).Consumes (levels + 1) :=
  (consumes_expect hk keyword).before fun _ => consumes_bracketed parentheses hb

/-- A kind test contains nothing that could be too deep. -/
theorem kindCall_consumes {α : Type} {keyword : Token} (hk : keyword.isOrdinary) {body : Rule α}
    (hb : body.MayConsume levels) : (call keyword body).Consumes levels :=
  (call_consumes hk hb).mono (Nat.le_succ levels)

/-- A name, or a star for all of them. -/
theorem nameOrWildcard_consumes : nameOrWildcard.Consumes levels :=
  Consumes.space <| consumes_take? (by decide) (mayConsume_pure _) <|
    eqName_consumes.bind fun _ => mayConsume_pure _

/-- A test of an element. -/
theorem elementTest_consumes : elementTest.Consumes levels := by
  refine kindCall_consumes (by decide)
    (stops_rest fun ts => Stops.ite _ (mayConsume_pure _) ?_ ts)
  refine (nameOrWildcard_consumes.bind fun name => (stops_skip? (by decide)).followed
    fun comma => Stops.ite _ ?_ (mayConsume_pure _)).mayConsume
  exact ((consumes_marked (by decide) eqName_consumes).bind fun _ => mayConsume_pure _).mayConsume

/-- A test of an attribute. -/
theorem attributeTest_consumes : attributeTest.Consumes levels := by
  refine kindCall_consumes (by decide)
    (stops_rest fun ts => Stops.ite _ (mayConsume_pure _) ?_ ts)
  refine (nameOrWildcard_consumes.bind fun name => (stops_skip? (by decide)).followed
    fun comma => Stops.ite _ ?_ (mayConsume_pure _)).mayConsume
  exact (eqName_consumes.bind fun _ => mayConsume_pure _).mayConsume

/-- An element or an attribute that is named in a schema. -/
theorem schemaTest_consumes {keyword : Token} (hk : keyword.isOrdinary) :
    (call keyword eqName).Consumes levels :=
  kindCall_consumes hk eqName_consumes.mayConsume

/-- A test of a document. -/
theorem documentTest_consumes : documentTest.Consumes levels := by
  refine kindCall_consumes (by decide) (stops_rest fun ts => ?_)
  generalize (Token.skipSpace ts).head? = t?
  split
  · exact mayConsume_pure _ ts
  · exact (Consumes.space <| elementTest_consumes.bind fun _ => mayConsume_pure _).mayConsume ts
  · exact (Consumes.space <| (schemaTest_consumes (by decide)).bind fun _ =>
      mayConsume_pure _).mayConsume ts
  · exact stops_space_fail (by decide) ts

/-- A test of a processing instruction. -/
theorem piTest_consumes : piTest.Consumes levels := by
  refine kindCall_consumes (by decide) (stops_rest fun ts => ?_)
  generalize (Token.skipSpace ts).head? = t?
  split
  · exact stops_space_fail (by decide) ts
  · refine Stops.ite _ (mayConsume_pure _) (Consumes.space ?_).mayConsume ts
    exact Stops.ite _ (stringLiteral_consumes.bind fun _ => mayConsume_pure _)
      (Stops.ite _ (ncName_consumes.bind fun _ => mayConsume_pure _) (stops_fail (by decide)))

/-- The test that a keyword begins. -/
theorem kindTestOf_consumes {keyword : Token} {test : Rule KindTest}
    (h : kindTestOf keyword = some test) : test.Consumes levels := by
  unfold kindTestOf at h
  split at h
  case h_11 => cases h
  all_goals obtain rfl := Option.some.inj h
  case h_1 => exact documentTest_consumes.map _
  case h_2 => exact elementTest_consumes.map _
  case h_3 => exact attributeTest_consumes.map _
  case h_4 | h_5 => exact (schemaTest_consumes (by decide)).map _
  case h_6 => exact piTest_consumes.map _
  all_goals exact kindCall_consumes (by decide) (mayConsume_pure _)

/-- A kind test. -/
theorem kindTest_consumes : kindTest.Consumes levels := by
  refine Consumes.space <| stops_rest fun ts => ?_
  cases h : ts.head?.bind kindTestOf with
  | none => exact .unexpected (by decide) ts
  | some test =>
    obtain ⟨keyword, -, htest⟩ := Option.bind_eq_some_iff.mp h
    exact kindTestOf_consumes htest ts

/-- A node test. -/
theorem nodeTest_consumes : nodeTest.Consumes levels :=
  Consumes.space <| stops_rest fun ts => Stops.ite _
    (kindTest_consumes.bind fun _ => mayConsume_pure _)
    (nameTest_consumes.bind fun _ => mayConsume_pure _) ts

/-! ## Types -/

/-- A single type. -/
theorem singleType_consumes : singleType.Consumes levels :=
  (consumes_marked (by decide) eqName_consumes).bind fun _ => mayConsume_pure _

/-- After the keyword and the parenthesis of `item()` or `empty-sequence()`, nothing else is asked
for than the parenthesis that closes them. -/
theorem emptyCall_stopsAt {α : Type} {taking : α → Prop} {keyword : Token} {owner : String} {a : α}
    {ts : List Token} (hk : keyword ∈ ["item", "empty-sequence"]) (hts : isNext "(" ts) :
    StopsAt levels taking (keyword :: ts) ((advance >>= fun _ => expect "(" owner >>= fun _ =>
      expect ")" owner >>= fun _ => pure a : Rule α) (keyword :: ts)) := by
  have hall : ∀ t ∈ ["item", "empty-sequence"], Token.isOrdinary t := by decide
  obtain ⟨us, hus⟩ := isNext_iff_cons.mp hts
  rw [bind_of_ok (advance_cons _ ts), bind_of_ok (expect_of_skipSpace hus _)]
  obtain ⟨w, hw, hbalanced⟩ := Balanced.exists_skipSpace ts
  rw [hus] at hw
  by_cases hclose : (Token.skipSpace us).head? = some ")"
  · obtain ⟨rest, hrest⟩ := List.head?_eq_some_iff.mp hclose
    obtain ⟨v, hv, hbalanced'⟩ := Balanced.exists_skipSpace us
    rw [hrest] at hv
    rw [bind_of_ok (expect_of_skipSpace hrest _)]
    refine ⟨[keyword] ++ (w ++ "(" :: (v ++ [")"])), by simp [hw, hv],
      (Taken.singleton (hall _ hk)).append (.behind hbalanced (.bracket parentheses hbalanced')
        (List.cons_ne_nil _ _)), fun _ => List.cons_ne_nil _ _⟩
  · rw [bind_of_error (expect_of_ne hclose _)]
    refine ⟨⟨?_, expect_ne_bareName _ _⟩, fun expected hend => ?_⟩
    · rw [hw]
      exact (Token.skipSpace_suffix us).trans
        ((List.suffix_append (keyword :: w ++ ["("]) us).trans (by simp))
    · obtain ⟨hnil, -⟩ := Failure.unexpected.inj hend
      exact .inr ⟨[], _, rfl, .nil, keyword, ts, us, rfl, hk, hus, hnil⟩

/-- A star for everything, or the body. -/
theorem callOrAny_consumes {α : Type} {keyword : Token} (hk : keyword.isOrdinary)
    {body : Rule α} (hb : body.MayConsume levels) :
    (callOrAny keyword body).Consumes (levels + 1) :=
  call_consumes hk <| (stops_skip? (by decide)).followed fun _ =>
    Stops.ite _ (mayConsume_pure _) (hb.followed fun _ => mayConsume_pure _)

section Types

variable {inner : Rule ItemType} (hi : inner.Consumes levels)
include hi

/-- A type of sequences. -/
theorem sequenceType_consumes : (sequenceType inner).Consumes levels := by
  have hoccurrence (t : Token) (o : Occurrence) : Spelled.ofToken? t = some o → t.isOrdinary :=
    Token.isOrdinary_of_spelled (fun o => by cases o <;> rfl) t o
  have hitems : (inner >>= fun type => operator? Spelled.ofToken? >>= fun occurrence =>
      pure (SequenceType.items type occurrence)).Consumes levels :=
    hi.bind fun _ => (stops_operator? hoccurrence).followed fun _ => mayConsume_pure _
  refine Consumes.space <| stops_rest fun ts => ?_
  split
  next us =>
    split
    next h => exact emptyCall_stopsAt (by simp) h
    · exact hitems _
  · exact hitems ts

/-- A type of functions. -/
theorem functionTest_consumes : (functionTest inner).Consumes (levels + 1) := by
  have hseq := sequenceType_consumes hi
  refine (callOrAny_consumes (by decide) (mayConsume_separated ")" hseq)).descend fun params => ?_
  cases params with
  | none => exact mayConsume_pure _
  | some params =>
    exact ((consumes_expect (by decide) _).bind fun _ =>
      (hseq.bind fun _ => mayConsume_pure _).mayConsume).mayConsume

/-- A type of maps. -/
theorem mapTest_consumes : (mapTest inner).Consumes (levels + 1) := by
  refine (callOrAny_consumes (by decide) (eqName_consumes.bind fun _ =>
    ((consumes_expect (by decide) _).bind fun _ => ((sequenceType_consumes hi).bind fun _ =>
      mayConsume_pure _).mayConsume).mayConsume).mayConsume).bind fun parts => ?_
  cases parts <;> exact mayConsume_pure _

/-- A type of arrays. -/
theorem arrayTest_consumes : (arrayTest inner).Consumes (levels + 1) := by
  refine (callOrAny_consumes (by decide) (sequenceType_consumes hi).mayConsume).bind
    fun member => ?_
  cases member <;> exact mayConsume_pure _

/-- An item type in parentheses, or an atomic one. -/
theorem parenthesizedOrAtomic_stopsAt (t : Token) (ts : List Token) :
    StopsAt (levels + 1) (fun _ => True) (t :: ts)
      (itemTypeHere.parenthesizedOrAtomic inner t (t :: ts)) := by
  unfold itemTypeHere.parenthesizedOrAtomic
  split
  next ht =>
    subst ht
    rw [bind_of_ok (rest_apply _), bind_of_ok (advance_cons _ ts)]
    exact stopsAt_closed (List.nil_append _).symm .nil parentheses hi.mayConsume
      ItemType.parenthesized
  · exact (eqName_consumes.bind fun name => mayConsume_pure (ItemType.atomic name)) (t :: ts)

/-- An item type that starts right here. -/
theorem itemTypeHere_consumes : (itemTypeHere inner).Consumes (levels + 1) := by
  intro ts
  cases ts with
  | nil => exact (eqName_consumes.bind fun name => mayConsume_pure (ItemType.atomic name)) []
  | cons t ts =>
    have hother := parenthesizedOrAtomic_stopsAt hi t ts
    rw [itemTypeHere_cons]
    split
    next hnext =>
      split
      · exact emptyCall_stopsAt (by simp) hnext
      · exact functionTest_consumes hi _
      · exact mapTest_consumes hi _
      · exact arrayTest_consumes hi _
      · split
        · exact (kindTest_consumes.bind fun _ => mayConsume_pure _) _
        · exact hother
    · exact hother

end Types

/-- Where no level is left. -/
theorem tooDeep_consumes {α : Type} : (space >>= fun _ => tooDeep : Rule α).Consumes 0 :=
  fun ts => ⟨⟨Token.skipSpace_suffix ts, length_skipSpace_le ts⟩, nofun⟩

/-- Item types stop as they should with any number of levels left. -/
theorem itemType_consumes (levels : Nat) : (itemType levels).Consumes levels := by
  induction levels with
  | zero => exact tooDeep_consumes
  | succ levels ih => exact Consumes.space (itemTypeHere_consumes ih)

end XPath.Grammar
