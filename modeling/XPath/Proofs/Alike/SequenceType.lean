import XPath.Proofs.Alike.Name
import XPath.Proofs.Complete.SequenceType
import XPath.Proofs.Stops.SequenceType

/-!
# The grammar on sequences that read alike

Every rule reads alike from related sequences, if the rules for what is nested one level deeper do.
By induction on the levels that are left, expressions do (`transfers_exprSingle`).

Where a rule looks ahead, both runs have to go on in the same way. The second one cannot see a token
that the first one does not. What the first one sees it takes, so that the second one sees it, too;
and inside of a bracket nothing is seen but what is taken or closes the bracket.
-/

namespace XPath.Grammar

open Rule Alike

variable {A : Alike}

/-! ## Kind tests -/

variable (A) in
/-- A construct that begins with the keyword and takes the token after it. -/
structure TransfersFrom {α : Type} (keyword : Token) (r : Rule α) : Prop where
  transfers : A.Transfers r
  goesOn : r.GoesOn keyword

theorem TransfersFrom.bind {α β : Type} {keyword : Token} {r : Rule α} {k : α → Rule β}
    (h : TransfersFrom A keyword r) (hk : ∀ a, A.Transfers (k a)) :
    TransfersFrom A keyword (r >>= k) :=
  ⟨h.transfers.bind hk, h.goesOn.bind fun a => (hk a).suffix⟩

theorem TransfersFrom.map {α β : Type} {keyword : Token} {r : Rule α}
    (h : TransfersFrom A keyword r) (f : α → β) : TransfersFrom A keyword (f <$> r) :=
  h.bind fun a => transfers_pure (f a)

/-- A choice by a keyword and the token after it. -/
theorem TransfersFrom.again_ite {α : Type} {keyword u t : Token} {r s s' : Rule α}
    {more more' : List Token} (h : TransfersFrom A keyword r) (hmore : A.rel more more')
    (hrel : A.rel (t :: more) (t :: more')) (hs : A.Again (s (t :: more)) (s' (t :: more'))) :
    A.Again ((if t = keyword ∧ isNext u more = true then r else s) (t :: more))
      ((if t = keyword ∧ isNext u more' = true then r else s') (t :: more')) := by
  refine .iteKeyword hmore (fun ht _ hr => ?_) (fun _ => h.transfers.again hrel) hs
  subst ht
  exact h.goesOn hr

theorem transfersFrom_call {α : Type} {body : Rule α} {keyword : Token}
    (hk : keyword.isSpace = false) (h : A.inside.Transfers body) :
    TransfersFrom A keyword (call keyword body) where
  transfers := (transfers_expect keyword keyword).bind fun _ => transfers_bracketed _ _ _ h
  goesOn := goesOn_expect hk (takes_bracketed h.suffix)

theorem transfers_nameOrWildcard : A.Transfers nameOrWildcard := by
  refine transfers_next (nameOrWildcard_sound.takes fun _ _ hn => (NameOrWildcard.solid hn).starts)
    fun {t more more'} hmore hrel => ?_
  by_cases ht : t = "*"
  · subst ht
    rw [bind_of_ok (take?_cons_self "*" more), bind_of_ok (take?_cons_self "*" more')]
    exact (transfers_pure _).again hmore
  · have hne (ts : List Token) : (t :: ts).head? ≠ some "*" := by simpa using ht
    rw [bind_of_ok (take?_of_ne (hne more)), bind_of_ok (take?_of_ne (hne more'))]
    exact (transfers_eqName.bind fun n => transfers_pure _).again hrel

theorem transfersFrom_elementTest : TransfersFrom A "element" elementTest := by
  refine transfersFrom_call rfl (transfers_byNext (fun ts us h => by rw [isNext, isNext, h])
    fun ts => .ite _ (transfers_pure _) ?_)
  exact transfers_nameOrWildcard.bind fun name => (transfers_skip? ",").bind fun comma =>
    .ite _ ((transfers_marked "?" transfers_eqName).bind fun _ => transfers_pure _)
      (transfers_pure _)

theorem transfersFrom_attributeTest : TransfersFrom A "attribute" attributeTest := by
  refine transfersFrom_call rfl (transfers_byNext (fun ts us h => by rw [isNext, isNext, h])
    fun ts => .ite _ (transfers_pure _) ?_)
  exact transfers_nameOrWildcard.bind fun name => (transfers_skip? ",").bind fun comma =>
    .ite _ (transfers_eqName.bind fun _ => transfers_pure _) (transfers_pure _)

theorem transfersFrom_schemaElement : TransfersFrom A "schema-element" schemaElement :=
  transfersFrom_call rfl transfers_eqName

theorem transfersFrom_schemaAttribute : TransfersFrom A "schema-attribute" schemaAttribute :=
  transfersFrom_call rfl transfers_eqName

theorem transfersFrom_documentTest : TransfersFrom A "document-node" documentTest := by
  refine transfersFrom_call rfl (transfers_byNext (fun ts us h => by rw [h]) fun ts => ?_)
  generalize (Token.skipSpace ts).head? = t?
  split
  · exact transfers_pure _
  · exact transfers_space.bind fun _ => transfersFrom_elementTest.transfers.bind fun _ =>
      transfers_pure _
  · exact transfers_space.bind fun _ => transfersFrom_schemaElement.transfers.bind fun _ =>
      transfers_pure _
  · exact transfers_space.bind fun _ => transfers_fail _

theorem transfersFrom_piTest : TransfersFrom A "processing-instruction" piTest := by
  refine transfersFrom_call rfl (transfers_byNext (fun ts us h => by rw [h]) fun ts => ?_)
  generalize (Token.skipSpace ts).head? = t?
  split
  · exact transfers_space.bind fun _ => transfers_fail _
  · refine .ite _ (transfers_pure _) (transfers_space.bind fun _ => ?_)
    exact .ite _ (transfers_stringLiteral.bind fun _ => transfers_pure _)
      (.ite _ (transfers_ncName.bind fun _ => transfers_pure _) (transfers_fail _))

theorem transfersFrom_kindTestOf {keyword : Token} {test : Rule KindTest}
    (h : kindTestOf keyword = some test) : TransfersFrom A keyword test := by
  unfold kindTestOf at h
  split at h
  case h_11 => cases h
  all_goals obtain rfl := Option.some.inj h
  case h_1 => exact transfersFrom_documentTest.map _
  case h_2 => exact transfersFrom_elementTest.map _
  case h_3 => exact transfersFrom_attributeTest.map _
  case h_4 => exact transfersFrom_schemaElement.map _
  case h_5 => exact transfersFrom_schemaAttribute.map _
  case h_6 => exact transfersFrom_piTest.map _
  all_goals exact transfersFrom_call rfl (transfers_pure _)

theorem kindTest_cons {keyword : Token} {test : Rule KindTest} (h : kindTestOf keyword = some test)
    (ts : List Token) : kindTest (keyword :: ts) = test (keyword :: ts) := by
  have hspace : keyword.isSpace = false := by
    refine Bool.eq_false_iff.mpr fun hs => ?_
    obtain rfl : keyword = Token.space := by simpa [Token.isSpace] using hs
    cases (show kindTestOf Token.space = none from rfl).symm.trans h
  have hskip : Token.skipSpace (keyword :: ts) = keyword :: ts := by simp [Token.skipSpace, hspace]
  rw [kindTest, bind_of_ok (space_apply _), hskip, bind_of_ok (rest_apply _), List.head?_cons,
    Option.bind_some, h]

theorem exists_kindTestOf {keyword : Token} (h : KindTest.isKeyword keyword) :
    ∃ test, kindTestOf keyword = some test := by
  have hall : ∀ t ∈ KindTest.keywords, (kindTestOf t).isSome := by decide
  exact Option.isSome_iff_exists.mp (hall keyword (by simpa [KindTest.isKeyword] using h))

theorem transfers_kindTest : A.Transfers kindTest := by
  refine transfers_next
    (kindTest_sound.takes fun t _ _ => t.solid.starts) fun {t more more'} _ hrel => ?_
  rw [bind_of_ok (rest_apply _), bind_of_ok (rest_apply _), List.head?_cons, List.head?_cons,
    Option.bind_some]
  cases h : kindTestOf t with
  | none => exact (transfers_fail _).again hrel
  | some test => exact (transfersFrom_kindTestOf h).transfers.again hrel

theorem transfersFrom_kindTest {keyword : Token} (h : KindTest.isKeyword keyword) :
    TransfersFrom A keyword kindTest := by
  obtain ⟨test, htest⟩ := exists_kindTestOf h
  refine ⟨transfers_kindTest, fun more k rest hk => ?_⟩
  rw [kindTest_cons htest] at hk
  exact (transfersFrom_kindTestOf (A := A) htest).goesOn hk

theorem transfers_nodeTest : A.Transfers nodeTest := by
  refine transfers_next (nodeTest_sound.takes fun _ _ ht => (NodeTest.solid ht).starts)
    fun {t more more'} hmore hrel => ?_
  change A.Again
    ((if KindTest.isKeyword t && isNext "(" more then kindTest >>= fun k =>
      pure (NodeTest.kindTest k)
      else nameTest >>= fun n => pure (NodeTest.nameTest n)) (t :: more))
    ((if KindTest.isKeyword t && isNext "(" more' then kindTest >>= fun k =>
      pure (NodeTest.kindTest k)
      else nameTest >>= fun n => pure (NodeTest.nameTest n)) (t :: more'))
  simp only [Bool.and_eq_true]
  have hkind (ht : KindTest.isKeyword t) : TransfersFrom A t (NodeTest.kindTest <$> kindTest) :=
    (transfersFrom_kindTest ht).map _
  exact .iteKeyword hmore (fun ht _ h => (hkind ht).goesOn h)
    (fun ht => (hkind ht).transfers.again hrel) ((transfers_nameTest.map _).again hrel)

/-! ## Types -/

theorem transfers_singleType : A.Transfers singleType :=
  (transfers_marked "?" transfers_eqName).bind fun _ => transfers_pure _

theorem itemType_takes (levels : Nat) : (itemType levels).Takes :=
  (itemType_sound levels).takes fun _ _ h => (ItemType.solid h.1).starts

/-- What is left of `empty-sequence()` behind its first parenthesis. -/
theorem sequenceType_opened {inner : Rule ItemType} {ts us vs : List Token}
    (hts : Token.skipSpace ts = "empty-sequence" :: us) (hus : Token.skipSpace us = "(" :: vs) :
    sequenceType inner ts =
      (expect ")" "EmptySequenceType" >>= fun _ => pure SequenceType.empty) vs :=
  (sequenceType_empty hts (isNext_iff_cons.mpr ⟨vs, hus⟩)).trans
    (bind_of_ok (expect_of_skipSpace hus _) _)

theorem transfersFrom_callOrAny {α : Type} {body : Rule α} {keyword : Token}
    (hk : keyword.isSpace = false) (h : A.inside.Transfers body) :
    TransfersFrom A keyword (callOrAny keyword body) :=
  transfersFrom_call hk ((transfers_skip? "*").bind fun _ =>
    .ite _ (transfers_pure _) (h.bind fun _ => transfers_pure _))

section Types

variable {levels : Nat} (hi : ∀ A : Alike, A.Transfers (itemType levels))
include hi

theorem transfers_sequenceType : A.Transfers (sequenceType (itemType levels)) := by
  have hitems : A.Transfers (itemType levels >>= fun type => operator? Spelled.ofToken? >>=
      fun occurrence => pure (SequenceType.items type occurrence)) :=
    (hi A).bind fun _ => (transfers_operator? _).bind fun _ => transfers_pure _
  have hclosed : A.Transfers (expect ")" "EmptySequenceType" >>= fun _ =>
      pure SequenceType.empty) :=
    (transfers_expect _ _).bind fun _ => transfers_pure _
  refine ⟨(sequenceType_consumes (itemType_consumes levels)).suffix, fun {ts us} hrel => ?_⟩
  by_cases hempty : ∃ vs, Token.skipSpace ts = "empty-sequence" :: vs ∧ isNext "(" vs = true
  · obtain ⟨vs, hts, hvs⟩ := hempty
    obtain ⟨ws, hws⟩ := isNext_iff_cons.mp hvs
    intro type rest h hkept
    rw [sequenceType_opened hts hws] at h
    have hkept' : A.kept ws := A.kept_suffix (hclosed.suffix h) hkept
    have hsuffix : ws <:+ vs := (List.suffix_cons "(" ws).trans (hws ▸ Token.skipSpace_suffix vs)
    obtain ⟨vs', hus, hrel'⟩ := A.next hrel hts (A.kept_suffix hsuffix hkept')
    obtain ⟨ws', hvs', hrel''⟩ := A.next hrel' hws hkept'
    rw [sequenceType_opened hus hvs']
    exact hclosed.again hrel'' h hkept
  · have hts : ∀ vs, Token.skipSpace ts = "empty-sequence" :: vs → isNext "(" vs = false :=
      fun vs hvs => Bool.eq_false_iff.mpr fun hnext => hempty ⟨vs, hvs, hnext⟩
    have hus : ∀ vs, Token.skipSpace us = "empty-sequence" :: vs → isNext "(" vs = false := by
      intro vs' hvs'
      obtain ⟨vs, hvs, hrel', -⟩ := A.back hrel hvs'
      exact Bool.eq_false_iff.mpr fun hnext => hempty ⟨vs, hvs, isNext_of_back hrel' hnext⟩
    rw [sequenceType_items hts, sequenceType_items hus]
    exact (transfers_space.bind fun _ => hitems).again hrel

theorem transfersFrom_functionTest :
    TransfersFrom A "function" (functionTest (itemType levels)) := by
  have hseq (A : Alike) := transfers_sequenceType (A := A) hi
  refine (transfersFrom_callOrAny rfl (transfers_separated ")" (hseq A.inside))).bind
    fun params => ?_
  cases params with
  | none => exact transfers_pure _
  | some params =>
    exact (transfers_expect "as" _).bind fun _ => (hseq A).bind fun _ => transfers_pure _

theorem transfersFrom_mapTest : TransfersFrom A "map" (mapTest (itemType levels)) := by
  refine (transfersFrom_callOrAny rfl (transfers_eqName.bind fun _ =>
    (transfers_expect "," _).bind fun _ => (transfers_sequenceType hi).bind fun _ =>
      transfers_pure _)).bind fun parts => ?_
  cases parts <;> exact transfers_pure _

theorem transfersFrom_arrayTest : TransfersFrom A "array" (arrayTest (itemType levels)) := by
  refine (transfersFrom_callOrAny rfl (transfers_sequenceType hi)).bind fun member => ?_
  cases member <;> exact transfers_pure _

theorem again_parenthesizedOrAtomic {t : Token} {more more' : List Token}
    (hmore : A.rel more more') (hrel : A.rel (t :: more) (t :: more')) :
    A.Again (itemTypeHere.parenthesizedOrAtomic (itemType levels) t (t :: more))
      (itemTypeHere.parenthesizedOrAtomic (itemType levels) t (t :: more')) := by
  unfold itemTypeHere.parenthesizedOrAtomic
  split
  · intro type rest h hkept
    have hclosed : A.Transfers (itemType levels >>= fun type =>
        expect ")" "ParenthesizedItemType" >>= fun _ => pure (ItemType.parenthesized type)) :=
      (hi A).bind fun _ => (transfers_expect _ _).bind fun _ => transfers_pure _
    obtain ⟨rest', h', hrest⟩ := hclosed.again hmore (enclosed_eq_ok.mp h) hkept
    exact ⟨rest', enclosed_eq_ok.mpr h', hrest⟩
  · exact (transfers_eqName.bind fun _ => transfers_pure _).again hrel

/-- Either the token begins no item type of its own, or one that goes on with a parenthesis. -/
theorem itemTypeHere_cases (t : Token) :
    (∀ ts, itemTypeHere (itemType levels) (t :: ts) =
      itemTypeHere.parenthesizedOrAtomic (itemType levels) t (t :: ts)) ∨
    ∃ type : Rule ItemType, (∀ {more more'}, A.rel more more' → A.rel (t :: more) (t :: more') →
        A.Again (type (t :: more)) (type (t :: more'))) ∧ type.GoesOn t ∧
      ∀ ts, itemTypeHere (itemType levels) (t :: ts) = (if isNext "(" ts = true then type
        else itemTypeHere.parenthesizedOrAtomic (itemType levels) t) (t :: ts) := by
  have hof {type : Rule ItemType} (h : TransfersFrom A t type) :
      (∀ {more more'}, A.rel more more' → A.rel (t :: more) (t :: more') →
        A.Again (type (t :: more)) (type (t :: more'))) ∧ type.GoesOn t :=
    ⟨fun _ hrel => h.transfers.again hrel, h.goesOn⟩
  by_cases hitem : t = "item"
  · subst hitem
    have hany : A.Transfers (expect "(" "ItemType" >>= fun _ => expect ")" "ItemType" >>= fun _ =>
        pure ItemType.any) :=
      (transfers_expect _ _).bind fun _ => (transfers_expect _ _).bind fun _ => transfers_pure _
    refine .inr ⟨_, fun hmore _ => (again_advance hmore).bind fun _ => hany, ?_, fun ts => rfl⟩
    exact goesOn_advance _ ((takes_expect "(" _).bind fun _ =>
      ((transfers_expect (A := A) ")" _).bind fun _ => transfers_pure _).suffix)
  by_cases hfunction : t = "function"
  · subst hfunction
    obtain ⟨h, h'⟩ := hof (transfersFrom_functionTest hi)
    exact .inr ⟨_, h, h', fun ts => rfl⟩
  by_cases hmap : t = "map"
  · subst hmap
    obtain ⟨h, h'⟩ := hof (transfersFrom_mapTest hi)
    exact .inr ⟨_, h, h', fun ts => rfl⟩
  by_cases harray : t = "array"
  · subst harray
    obtain ⟨h, h'⟩ := hof (transfersFrom_arrayTest hi)
    exact .inr ⟨_, h, h', fun ts => rfl⟩
  by_cases hkind : KindTest.isKeyword t = true
  · obtain ⟨h, h'⟩ := hof ((transfersFrom_kindTest hkind).map ItemType.kindTest)
    refine .inr ⟨_, h, h', fun ts => ?_⟩
    rw [itemTypeHere_cons]
    simp only [hkind, if_true]
    rfl
  · refine .inl fun ts => ?_
    rw [itemTypeHere_cons]
    simp only [hkind]
    simp

omit hi in
theorem transfers_itemType : A.Transfers (itemType levels) := by
  induction levels generalizing A with
  | zero => exact transfers_space.bind fun _ => ⟨nofun, fun _ => nofun⟩
  | succ levels ih =>
    refine transfers_next (itemType_takes (levels + 1)) fun {t more more'} hmore hrel => ?_
    have hother := again_parenthesizedOrAtomic (fun A => ih (A := A)) hmore hrel
    obtain h | ⟨type, htype, hgoes, h⟩ := itemTypeHere_cases (A := A) (fun A => ih (A := A)) t
    · rw [h, h]
      exact hother
    · rw [h, h]
      exact .iteNext hmore (fun _ h => hgoes h) (htype hmore hrel) hother

end Types

end XPath.Grammar
