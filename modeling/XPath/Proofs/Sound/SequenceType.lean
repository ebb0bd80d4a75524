import XPath.Grammar.SequenceType
import XPath.Proofs.Sound.Name

/-!
# Soundness of the rules for types

A type without an occurrence indicator is left in front of no such indicator: it would have been
read. The rules that take the rule for the item types inside are sound if that rule is, so
`itemType` is by induction on the levels.
-/

namespace XPath.Grammar

open Rule

theorem isWord_occurrence (o : Occurrence) : (Spelled.spelling o).isWord := by
  cases o <;> rfl

/-! ## Kind tests -/

/-- A kind test is spelled by its keyword, and by its body in parentheses. -/
theorem call_sound {α : Type} {keyword : Token} (hk : keyword.isWord) {body : Rule α}
    {pieces : α → List Piece} {P : α → Prop} (hb : body.Sound pieces fun a _ => P a) :
    (call keyword body).Sound (fun a => callPieces keyword (pieces a)) fun a _ => P a := by
  intro ts a rest h
  obtain ⟨_, mid, hexpect, h⟩ := bind_eq_ok.mp h
  obtain ⟨ts', mid', hopen, ha, hclose⟩ := bracketed_eq_ok.mp h
  obtain ⟨hs, hp⟩ := hb ha
  exact ⟨(Spells.word hk (expect_eq_ok.mp hexpect)).append (.bracketed rfl rfl hopen hs hclose), hp⟩

theorem nameOrWildcard_sound :
    nameOrWildcard.Sound NameOrWildcard.pieces fun n _ => n.WellFormed := by
  intro ts n rest h
  suffices hs : Spells (Token.skipSpace ts) n.pieces rest ∧ n.WellFormed from
    ⟨.of_skipSpace hs.1, hs.2⟩
  obtain ⟨star, mid, hstar, hn⟩ := bind_eq_ok.mp (show (take? "*" >>= fun star =>
    if star then pure NameOrWildcard.wildcard
    else eqName >>= fun name => pure (.name name)) (Token.skipSpace ts) = .ok (n, rest) from h)
  generalize Token.skipSpace ts = us at hstar ⊢
  obtain ⟨rfl, rfl⟩ | ⟨rfl, rfl, -⟩ := take?_eq_ok.mp hstar
  · obtain ⟨rfl, rfl⟩ := pure_eq_ok.mp hn
    exact ⟨.text rfl (.nil _), trivial⟩
  · obtain ⟨name, mid, hname, hn⟩ := bind_eq_ok.mp hn
    obtain ⟨rfl, rfl⟩ := pure_eq_ok.mp hn
    exact eqName_sound hname

/-- A mark is spelled where it is read. -/
theorem marked_sound {op : Token} (hop : op.isWord) :
    (marked op eqName).Sound (fun x => x.1.pieces ++ if x.2 then [.text op] else [])
      fun x _ => x.1.WellFormed := by
  rintro ts ⟨n, found⟩ rest h
  obtain ⟨mid, hn, hs⟩ := marked_eq_ok.mp h
  obtain ⟨hspell, hname⟩ := eqName_sound hn
  refine ⟨hspell.append ?_, hname⟩
  obtain ⟨rfl, hop'⟩ | ⟨rfl, rfl, -⟩ := skip?_eq_ok.mp hs
  · exact .word hop hop'
  · exact .nil _

/-- An element test is spelled with what is asked for, name and type. -/
theorem elementTest_sound : elementTest.Sound (fun t => callPieces "element" t.pieces)
    fun t _ => t.WellFormed := by
  refine call_sound rfl fun ts t rest h => ?_
  replace h : (if isNext ")" ts then pure ⟨none, none, false⟩
      else nameOrWildcard >>= fun name => skip? "," >>= fun comma =>
        if comma then marked "?" eqName >>= fun x => pure ⟨some name, some x.1, x.2⟩
        else pure ⟨some name, none, false⟩ : Rule ElementTest) ts = .ok (t, rest) := h
  split at h
  · obtain ⟨rfl, rfl⟩ := pure_eq_ok.mp h
    exact ⟨.nil _, by constructor <;> simp⟩
  · obtain ⟨name, mid, hname, h⟩ := bind_eq_ok.mp h
    obtain ⟨hs, hn⟩ := nameOrWildcard_sound hname
    obtain ⟨comma, mid', hcomma, ht⟩ := bind_eq_ok.mp h
    obtain ⟨rfl, hc⟩ | ⟨rfl, rfl, -⟩ := skip?_eq_ok.mp hcomma
    · obtain ⟨⟨type, nillable⟩, mid'', hx, ht⟩ := bind_eq_ok.mp ht
      obtain ⟨rfl, rfl⟩ := pure_eq_ok.mp ht
      obtain ⟨hs', htype⟩ := marked_sound rfl hx
      have := (hs.append (spells_comma hc)).append hs'
      rw [← List.append_assoc] at this
      exact ⟨this, by constructor <;> simp [hn, htype]⟩
    · obtain ⟨rfl, rfl⟩ := pure_eq_ok.mp ht
      exact ⟨hs, by constructor <;> simp [hn]⟩

theorem attributeTest_sound : attributeTest.Sound (fun t => callPieces "attribute" t.pieces)
    fun t _ => t.WellFormed := by
  refine call_sound rfl fun ts t rest h => ?_
  replace h : (if isNext ")" ts then pure ⟨none, none⟩
      else nameOrWildcard >>= fun name => skip? "," >>= fun comma =>
        if comma then eqName >>= fun type => pure ⟨some name, some type⟩
        else pure ⟨some name, none⟩ : Rule AttributeTest) ts = .ok (t, rest) := h
  split at h
  · obtain ⟨rfl, rfl⟩ := pure_eq_ok.mp h
    exact ⟨.nil _, by constructor <;> simp⟩
  · obtain ⟨name, mid, hname, h⟩ := bind_eq_ok.mp h
    obtain ⟨hs, hn⟩ := nameOrWildcard_sound hname
    obtain ⟨comma, mid', hcomma, ht⟩ := bind_eq_ok.mp h
    obtain ⟨rfl, hc⟩ | ⟨rfl, rfl, -⟩ := skip?_eq_ok.mp hcomma
    · obtain ⟨type, mid'', hx, ht⟩ := bind_eq_ok.mp ht
      obtain ⟨rfl, rfl⟩ := pure_eq_ok.mp ht
      obtain ⟨hs', htype⟩ := eqName_sound hx
      exact ⟨(hs.append (spells_comma hc)).append hs', by constructor <;> simp [hn, htype]⟩
    · obtain ⟨rfl, rfl⟩ := pure_eq_ok.mp ht
      exact ⟨hs, by constructor <;> simp [hn]⟩

theorem schemaElement_sound : schemaElement.Sound
    (fun n => callPieces "schema-element" n.pieces) fun n _ => n.WellFormed :=
  call_sound rfl eqName_sound

theorem schemaAttribute_sound : schemaAttribute.Sound
    (fun n => callPieces "schema-attribute" n.pieces) fun n _ => n.WellFormed :=
  call_sound rfl eqName_sound

/-- A document test is spelled with the test of its element. -/
theorem documentTest_sound : documentTest.Sound
    (fun c => callPieces "document-node" (c.elim [] DocumentContent.pieces))
    fun c _ => ∀ d ∈ c, d.WellFormed := by
  refine call_sound rfl fun ts c rest h => ?_
  rw [bind_of_ok (rest_apply ts)] at h
  generalize (Token.skipSpace ts).head? = t? at h
  split at h
  · obtain ⟨rfl, rfl⟩ := pure_eq_ok.mp h
    exact ⟨.nil _, by simp⟩
  · obtain ⟨t, mid, ht, h⟩ := bind_eq_ok.mp (bind_of_ok (space_apply ts) _ ▸ h)
    obtain ⟨rfl, rfl⟩ := pure_eq_ok.mp h
    obtain ⟨hs, hw⟩ := elementTest_sound ht
    exact ⟨.of_skipSpace hs, by rintro _ ⟨⟩; exact hw⟩
  · obtain ⟨t, mid, ht, h⟩ := bind_eq_ok.mp (bind_of_ok (space_apply ts) _ ▸ h)
    obtain ⟨rfl, rfl⟩ := pure_eq_ok.mp h
    obtain ⟨hs, hw⟩ := schemaElement_sound ht
    exact ⟨.of_skipSpace hs, by rintro _ ⟨⟩; exact hw⟩
  · cases h

/-- A target is spelled as a name or as a string. -/
theorem piTest_sound : piTest.Sound
    (fun t => callPieces "processing-instruction" (t.elim [] PITarget.pieces))
    fun t _ => ∀ u ∈ t, u.WellFormed := by
  refine call_sound rfl fun ts target rest h => ?_
  rw [bind_of_ok (rest_apply ts)] at h
  generalize (Token.skipSpace ts).head? = t? at h
  split at h
  · cases h
  split at h
  · obtain ⟨rfl, rfl⟩ := pure_eq_ok.mp h
    exact ⟨.nil _, by simp⟩
  rw [bind_of_ok (space_apply ts)] at h
  split at h
  · obtain ⟨s, mid, hlit, h⟩ := bind_eq_ok.mp h
    obtain ⟨rfl, rfl⟩ := pure_eq_ok.mp h
    exact ⟨.of_skipSpace (stringLiteral_sound hlit).1, by rintro _ ⟨⟩; trivial⟩
  split at h
  · obtain ⟨n, mid, hn, h⟩ := bind_eq_ok.mp h
    obtain ⟨rfl, rfl⟩ := pure_eq_ok.mp h
    obtain ⟨hs, hw⟩ := ncName_sound hn
    exact ⟨.of_skipSpace hs, by rintro _ ⟨⟩; exact hw⟩
  · cases h

theorem call_pure_sound {α : Type} {keyword : Token} (hk : keyword.isWord) (a : α) :
    (call keyword (pure a)).Sound (fun _ => callPieces keyword []) fun b _ => b = a :=
  call_sound hk fun ts b rest h => by
    obtain ⟨rfl, rfl⟩ := pure_eq_ok.mp h
    exact ⟨.nil _, rfl⟩

/-- The test of every keyword is sound. -/
theorem kindTestOf_sound {keyword : Token} {test : Rule KindTest}
    (h : kindTestOf keyword = some test) : test.Sound KindTest.pieces fun t _ => t.WellFormed := by
  unfold kindTestOf at h
  split at h
  case h_11 => cases h
  all_goals obtain rfl := Option.some.inj h
  case h_1 => exact documentTest_sound.map (fun _ => rfl) fun _ h => h
  case h_2 => exact elementTest_sound.map (fun _ => rfl) fun _ h => h
  case h_3 => exact attributeTest_sound.map (fun _ => rfl) fun _ h => h
  case h_4 => exact schemaElement_sound.map (fun _ => rfl) fun _ h => h
  case h_5 => exact schemaAttribute_sound.map (fun _ => rfl) fun _ h => h
  case h_6 => exact piTest_sound.map (fun _ => rfl) fun _ h => h
  all_goals
    intro ts t rest h
    obtain ⟨hs, rfl⟩ := call_pure_sound rfl _ h
    exact ⟨hs, trivial⟩

/-- Kind tests are sound. -/
theorem kindTest_sound : kindTest.Sound KindTest.pieces fun t _ => t.WellFormed := by
  intro ts t rest h
  rw [kindTest, bind_of_ok (space_apply ts), bind_of_ok (rest_apply _)] at h
  cases hk : (Token.skipSpace ts).head?.bind kindTestOf with
  | none =>
    rw [hk] at h
    cases h
  | some test =>
    rw [hk] at h
    obtain ⟨keyword, -, ht⟩ := Option.bind_eq_some_iff.mp hk
    obtain ⟨hs, hw⟩ := kindTestOf_sound ht h
    exact ⟨.of_skipSpace hs, hw⟩

/-- A test for a node is sound, whether it names a kind or not. -/
theorem nodeTest_sound : nodeTest.Sound NodeTest.pieces fun t _ => t.WellFormed := by
  intro ts t rest h
  replace h : (if startsKindTest (Token.skipSpace ts) then kindTest >>= fun t => pure (.kindTest t)
    else nameTest >>= fun t => pure (.nameTest t) : Rule NodeTest) (Token.skipSpace ts) =
      .ok (t, rest) := h
  suffices hs : Spells (Token.skipSpace ts) t.pieces rest ∧ t.WellFormed from
    ⟨.of_skipSpace hs.1, hs.2⟩
  split at h
  · obtain ⟨k, mid, hk, h⟩ := bind_eq_ok.mp h
    obtain ⟨rfl, rfl⟩ := pure_eq_ok.mp h
    exact kindTest_sound hk
  · obtain ⟨k, mid, hk, h⟩ := bind_eq_ok.mp h
    obtain ⟨rfl, rfl⟩ := pure_eq_ok.mp h
    exact nameTest_sound hk

/-! ## Types -/

theorem singleType_sound : singleType.Sound SingleType.pieces fun t _ => t.name.WellFormed := by
  intro ts t rest h
  obtain ⟨x, mid, hx, h⟩ := bind_eq_ok.mp h
  obtain ⟨rfl, rfl⟩ := pure_eq_ok.mp h
  exact marked_sound rfl hx

/-- What ends without an occurrence indicator is not left in front of one. -/
def UnmarkedBefore (endsUnmarked : Bool) (rest : List Token) : Prop :=
  endsUnmarked → ∀ t ∈ (Token.skipSpace rest).head?, isOccurrence t = false

/-- The rule reads item types in `I`. -/
abbrev ReadsItems (inner : Rule ItemType) (I : ItemType → Prop) : Prop :=
  inner.Sound ItemType.pieces fun t rest => I t ∧ UnmarkedBefore t.endsUnmarked rest

section Types

variable {inner : Rule ItemType} {I : ItemType → Prop}

/-- A type is spelled with its mark, and none is left behind it. -/
theorem items_sound (hi : ReadsItems inner I) :
    (inner >>= fun type => operator? Spelled.ofToken? >>= fun occurrence =>
        pure (SequenceType.items type occurrence)).Sound SequenceType.pieces fun t rest =>
      t.FitsIn I ∧ UnmarkedBefore t.endsUnmarked rest := by
  intro ts t rest h
  obtain ⟨type, mid, htype, h⟩ := bind_eq_ok.mp h
  obtain ⟨hs, hI, hend⟩ := hi htype
  obtain ⟨occurrence, mid', hocc, ht⟩ := bind_eq_ok.mp h
  obtain ⟨rfl, rfl⟩ := pure_eq_ok.mp ht
  simp only [SequenceType.pieces]
  cases occurrence with
  | none =>
    obtain ⟨rfl, hnone⟩ := operator?_eq_none.mp hocc
    refine ⟨by simpa using hs, ⟨hI, by simp⟩, fun _ u hu => ?_⟩
    simp [isOccurrence, hnone u hu]
  | some o =>
    obtain ⟨u, hu, ho⟩ := operator?_eq_some.mp hocc
    have hmark : isOccurrence u := by simp [isOccurrence, ho]
    refine ⟨hs.append ?_, ⟨hI, fun _ => ?_⟩, fun hf => by simp [SequenceType.endsUnmarked] at hf⟩
    · rw [← Spelled.spelling_of_ofToken? ho] at hu
      exact .word (isWord_occurrence o) hu
    · cases he : type.endsUnmarked with
      | false => rfl
      | true =>
        have := hend he u (by simp [hu])
        simp [hmark] at this

/-- A sequence type is sound if item types are. -/
theorem sequenceType_sound (hi : ReadsItems inner I) :
    (sequenceType inner).Sound SequenceType.pieces fun t rest =>
      t.FitsIn I ∧ UnmarkedBefore t.endsUnmarked rest := by
  intro ts t rest h
  have hitems := items_sound hi
  suffices hs : Spells (Token.skipSpace ts) t.pieces rest ∧ t.FitsIn I ∧
      UnmarkedBefore t.endsUnmarked rest from ⟨.of_skipSpace hs.1, hs.2⟩
  rw [sequenceType, bind_of_ok (space_apply ts), bind_of_ok (rest_apply _)] at h
  generalize Token.skipSpace ts = us at h ⊢
  split at h
  next us =>
    split at h
    · rw [bind_of_ok (advance_cons _ us)] at h
      obtain ⟨_, mid, hopen, h⟩ := bind_eq_ok.mp h
      obtain ⟨_, mid', hclose, h⟩ := bind_eq_ok.mp h
      obtain ⟨rfl, rfl⟩ := pure_eq_ok.mp h
      refine ⟨.text rfl ?_, trivial, fun hf => by simp [SequenceType.endsUnmarked] at hf⟩
      exact (Spells.word rfl (expect_eq_ok.mp hopen)).append
        (.word rfl (expect_eq_ok.mp hclose))
    · exact hitems h
  · exact hitems h

/-- A star in parentheses, or something else, is spelled as it is. -/
theorem callOrAny_sound {α : Type} {keyword : Token} (hk : keyword.isWord) {body : Rule α}
    {pieces : α → List Piece} {P : α → Prop} (hb : body.Sound pieces fun a _ => P a) :
    (callOrAny keyword body).Sound (fun o => callPieces keyword (o.elim [.text "*"] pieces))
      fun o _ => ∀ a ∈ o, P a := by
  refine call_sound hk fun ts o rest h => ?_
  obtain ⟨star, mid, hstar, h⟩ := bind_eq_ok.mp h
  obtain ⟨rfl, hnext⟩ | ⟨rfl, rfl, -⟩ := skip?_eq_ok.mp hstar
  · obtain ⟨rfl, rfl⟩ := pure_eq_ok.mp h
    exact ⟨.word rfl hnext, by simp⟩
  · obtain ⟨a, mid, ha, h⟩ := bind_eq_ok.mp h
    obtain ⟨rfl, rfl⟩ := pure_eq_ok.mp h
    obtain ⟨hs, hp⟩ := hb ha
    exact ⟨hs, by rintro _ ⟨⟩; exact hp⟩

theorem piecesAll_eq (ts : List SequenceType) :
    SequenceType.piecesAll ts = ts.map SequenceType.pieces := by
  induction ts with
  | nil => rfl
  | cons t ts ih => rw [SequenceType.piecesAll, ih, List.map_cons]

theorem unmarkedBefore_false (rest : List Token) : UnmarkedBefore false rest :=
  fun h => absurd h (by decide)

/-- The result of a function takes the mark behind it. -/
theorem functionTest_sound (hi : ReadsItems inner I) :
    ReadsItems (functionTest inner) (ItemType.FitsIn I) := by
  intro ts t rest h
  have hseq := sequenceType_sound hi
  have hparams : (separated ")" (sequenceType inner)).Sound
      (fun ps => Piece.commaSeparated (ps.map SequenceType.pieces)) fun ps _ =>
        ∀ p ∈ ps, p.FitsIn I := fun ts ps rest h => by
    obtain ⟨hs, hp⟩ := separated_sound hseq h
    exact ⟨hs, fun p hpm => (hp p hpm).choose_spec.1⟩
  obtain ⟨params, mid, hcall, h⟩ := bind_eq_ok.mp h
  obtain ⟨hs, hp⟩ := callOrAny_sound rfl hparams hcall
  cases params with
  | none =>
    obtain ⟨rfl, rfl⟩ := pure_eq_ok.mp h
    exact ⟨hs, trivial, unmarkedBefore_false _⟩
  | some params =>
    obtain ⟨_, mid', has, h⟩ := bind_eq_ok.mp h
    obtain ⟨result, mid'', hr, h⟩ := bind_eq_ok.mp h
    obtain ⟨rfl, rfl⟩ := pure_eq_ok.mp h
    obtain ⟨hs', hresult, hend⟩ := hseq hr
    refine ⟨?_, ⟨hp params rfl, hresult⟩, hend⟩
    rw [ItemType.pieces, piecesAll_eq]
    exact (hs.append (.keyword rfl (expect_eq_ok.mp has))).append hs'

theorem mapTest_sound (hi : ReadsItems inner I) :
    ReadsItems (mapTest inner) (ItemType.FitsIn I) := by
  intro ts t rest h
  have hparts : (eqName >>= fun key => expect "," "TypedMapTest" >>= fun _ =>
      sequenceType inner >>= fun value => pure (key, value)).Sound
      (fun x => x.1.pieces ++ [.text ",", .gap] ++ x.2.pieces) fun x _ =>
        x.1.WellFormed ∧ x.2.FitsIn I := fun ts x rest h => by
    obtain ⟨key, mid, hkey, h⟩ := bind_eq_ok.mp h
    obtain ⟨_, mid', hcomma, h⟩ := bind_eq_ok.mp h
    obtain ⟨value, mid'', hvalue, h⟩ := bind_eq_ok.mp h
    obtain ⟨rfl, rfl⟩ := pure_eq_ok.mp h
    obtain ⟨hs, hk⟩ := eqName_sound hkey
    obtain ⟨hs', hv, -⟩ := sequenceType_sound hi hvalue
    exact ⟨(hs.append (spells_comma (expect_eq_ok.mp hcomma))).append hs', hk, hv⟩
  obtain ⟨parts, mid, hcall, h⟩ := bind_eq_ok.mp h
  obtain ⟨hs, hp⟩ := callOrAny_sound rfl hparts hcall
  cases parts with
  | none =>
    obtain ⟨rfl, rfl⟩ := pure_eq_ok.mp h
    exact ⟨hs, trivial, unmarkedBefore_false _⟩
  | some x =>
    obtain ⟨rfl, rfl⟩ := pure_eq_ok.mp h
    exact ⟨hs, hp x rfl, unmarkedBefore_false _⟩

theorem arrayTest_sound (hi : ReadsItems inner I) :
    ReadsItems (arrayTest inner) (ItemType.FitsIn I) := by
  intro ts t rest h
  have hmember : (sequenceType inner).Sound SequenceType.pieces fun t _ => t.FitsIn I :=
    fun ts t rest h => ⟨(sequenceType_sound hi h).1, (sequenceType_sound hi h).2.1⟩
  obtain ⟨member, mid, hcall, h⟩ := bind_eq_ok.mp h
  obtain ⟨hs, hp⟩ := callOrAny_sound rfl hmember hcall
  cases member with
  | none =>
    obtain ⟨rfl, rfl⟩ := pure_eq_ok.mp h
    exact ⟨hs, trivial, unmarkedBefore_false _⟩
  | some member =>
    obtain ⟨rfl, rfl⟩ := pure_eq_ok.mp h
    exact ⟨hs, hp member rfl, unmarkedBefore_false _⟩

/-- Without a keyword a type is a name, or another type in parentheses. -/
theorem parenthesizedOrAtomic_sound (hi : ReadsItems inner I) {t : Token} {ts rest : List Token}
    {type : ItemType} (h : itemTypeHere.parenthesizedOrAtomic inner t (t :: ts) =
      .ok (type, rest)) :
    Spells (t :: ts) type.pieces rest ∧ type.FitsIn I ∧
      UnmarkedBefore type.endsUnmarked rest := by
  rw [itemTypeHere.parenthesizedOrAtomic] at h
  split at h
  next ht =>
    subst ht
    obtain ⟨type', mid, htype, h⟩ := bind_eq_ok.mp (enclosed_eq_ok.mp h)
    obtain ⟨_, mid', hclose, h⟩ := bind_eq_ok.mp h
    obtain ⟨rfl, rfl⟩ := pure_eq_ok.mp h
    obtain ⟨hs, hI, -⟩ := hi htype
    exact ⟨.bracketed rfl rfl rfl hs (expect_eq_ok.mp hclose), hI, unmarkedBefore_false _⟩
  next =>
    obtain ⟨n, mid, hn, h⟩ := bind_eq_ok.mp h
    obtain ⟨rfl, rfl⟩ := pure_eq_ok.mp h
    obtain ⟨hs, hw⟩ := eqName_sound hn
    exact ⟨hs, hw, unmarkedBefore_false _⟩

theorem itemTypeHere_cons (inner : Rule ItemType) (t : Token) (ts : List Token) :
    itemTypeHere inner (t :: ts) = (if isNext "(" ts then
      match t with
      | "item" => advance >>= fun _ => expect "(" "ItemType" >>= fun _ =>
        expect ")" "ItemType" >>= fun _ => pure .any
      | "function" => functionTest inner
      | "map" => mapTest inner
      | "array" => arrayTest inner
      | _ =>
        if KindTest.isKeyword t then kindTest >>= fun k => pure (.kindTest k)
        else itemTypeHere.parenthesizedOrAtomic inner t
    else itemTypeHere.parenthesizedOrAtomic inner t : Rule ItemType) (t :: ts) :=
  rfl

/-- Every item type is sound if those in parentheses are. -/
theorem itemTypeHere_sound (hi : ReadsItems inner I) :
    ReadsItems (itemTypeHere inner) (ItemType.FitsIn I) := by
  intro ts type rest h
  cases ts with
  | nil => cases h
  | cons t ts =>
    rw [itemTypeHere_cons] at h
    split at h
    · split at h
      · rw [bind_of_ok (advance_cons _ ts)] at h
        obtain ⟨_, mid, hopen, h⟩ := bind_eq_ok.mp h
        obtain ⟨_, mid', hclose, h⟩ := bind_eq_ok.mp h
        obtain ⟨rfl, rfl⟩ := pure_eq_ok.mp h
        refine ⟨.text rfl ?_, trivial, unmarkedBefore_false _⟩
        exact (Spells.word rfl (expect_eq_ok.mp hopen)).append
          (.word rfl (expect_eq_ok.mp hclose))
      · exact functionTest_sound hi h
      · exact mapTest_sound hi h
      · exact arrayTest_sound hi h
      · split at h
        · obtain ⟨k, mid, hk, h⟩ := bind_eq_ok.mp h
          obtain ⟨rfl, rfl⟩ := pure_eq_ok.mp h
          obtain ⟨hs, hw⟩ := kindTest_sound hk
          exact ⟨hs, hw, unmarkedBefore_false _⟩
        · exact parenthesizedOrAtomic_sound hi h
    · exact parenthesizedOrAtomic_sound hi h

/-- By induction on the levels of nesting, all item types are sound. -/
theorem itemType_sound (levels : Nat) : ReadsItems (itemType levels) (ItemType.Fits levels) := by
  induction levels with
  | zero =>
    intro ts t rest h
    cases h
  | succ levels ih =>
    intro ts t rest h
    obtain ⟨hs, hw⟩ := itemTypeHere_sound ih (show itemTypeHere _ (Token.skipSpace ts) = _ from h)
    exact ⟨.of_skipSpace hs, hw⟩

end Types

end XPath.Grammar
