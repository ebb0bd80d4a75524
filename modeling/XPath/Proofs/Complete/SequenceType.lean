import XPath.Proofs.Complete.Name
import XPath.Proofs.Sound.SequenceType

/-!
# Completeness of the rules for types

A type is read in front of what does not continue it: no occurrence indicator after a type without
one, and no parenthesis, which would make a keyword of a name.
-/

namespace XPath

open Rule

variable {σ : UriTokens}

/-- A type is not continued by what is left, an occurrence indicator aside. -/
structure EndsType (rest : List Token) : Prop extends EndsName rest where
  not_paren : isNext "(" rest = false

/-- What ends an expression ends a type. -/
theorem Ends.endsType {k : Nat} {rest : List Token} (h : Ends k rest) (hk : k ≤ 20) :
    EndsType rest :=
  ⟨h.endsName (Nat.le_trans hk (by decide)), h.not_isNext hk⟩

theorem EndsType.of_follows {t : Token} {rest mid : List Token} (h : Follows t rest mid)
    (ht : t.isWord) (hcolon : t ≠ ":") (hbrace : t ≠ "\x7b") (hparen : t ≠ "(") : EndsType rest :=
  ⟨.of_follows h hcolon hbrace, isNext_of_follows h ht hparen⟩

theorem endsType_close (rest : List Token) : EndsType (")" :: rest) :=
  .of_follows (.inl rfl) rfl (by decide) (by decide) (by decide)

namespace Grammar

/-! ## Kind tests -/

theorem write_call {keyword : Token} (hk : keyword.isWord) (ps : List Piece) :
    Piece.write σ (callPieces keyword ps) =
      keyword :: "(" :: Piece.lay σ false (ps ++ [.text ")"]) := by
  rw [callPieces, List.append_assoc, List.cons_append, List.singleton_append, Piece.write_text hk,
    Piece.lay_text rfl]

/-- A body is read in the parentheses behind its keyword. -/
theorem call_complete {α : Type} {keyword : Token} (hk : keyword.isWord) {body : Rule α}
    {ps : List Piece} {a : α} {rest : List Token}
    (h : body.ReadsUntil ")" (Piece.lay σ false (ps ++ [.text ")"])) a rest) :
    (call keyword body).Reads (Piece.write σ (callPieces keyword ps)) a rest := by
  intro us hus
  rw [write_call hk, List.cons_append] at hus
  rw [call, bind_of_ok (expect_of_skipSpace hus keyword)]
  exact bracketed_reads h _ (skipSpace_of_isWord rfl)

/-- Nothing between the parentheses. -/
theorem call_empty {α : Type} {keyword : Token} (hk : keyword.isWord) {body : Rule α} {a : α}
    {rest : List Token} (h : body (")" :: rest) = .ok (a, ")" :: rest)) :
    (call keyword body).Reads (Piece.write σ (callPieces keyword [])) a rest :=
  call_complete hk ⟨_, h, rfl⟩

/-- A name or a star is read. -/
theorem nameOrWildcard_complete {n : NameOrWildcard} (h : n.WellFormed) {rest : List Token}
    (hrest : EndsName rest) : nameOrWildcard.Reads (Piece.write σ n.pieces) n rest := by
  intro us hus
  have happly : nameOrWildcard us = (take? "*" >>= fun star =>
      if star then pure NameOrWildcard.wildcard
      else eqName >>= fun name => pure (.name name)) (Token.skipSpace us) := rfl
  rw [happly, hus]
  cases n with
  | wildcard => exact bind_of_ok (take?_cons_self "*" rest) _
  | name n =>
    have hname := (eqName_complete (σ := σ) h hrest).write (EQName.solid h).starts
    have hstar : (Piece.write σ n.pieces ++ rest).head? ≠ some "*" := by
      rw [Piece.head?_write_append (EQName.solid h).starts]
      exact EQName.head?_write_ne h (by decide)
    rw [show (NameOrWildcard.name n).pieces = n.pieces from rfl, bind_of_ok (take?_of_ne hstar),
      if_neg (by decide)]
    exact bind_of_ok hname _

/-- A mark, if there is one. -/
def markPieces (op : Token) (found : Bool) : List Piece := if found then [.text op] else []

/-- A name is read with its mark. -/
theorem marked_complete {n : EQName} (h : n.WellFormed) (found : Bool) {rest : List Token}
    (hrest : EndsName rest) (hmark : isNext "?" rest = false) :
    (marked "?" eqName).Reads (Piece.write σ (n.pieces ++ markPieces "?" found))
      (n, found) rest := by
  intro us hus
  rw [Piece.write_solid_append (EQName.solid h), List.append_assoc] at hus
  refine marked_eq_ok.mpr ⟨_, eqName_complete h ?_ us hus, ?_⟩
  · cases found with
    | false => exact hrest
    | true => exact .of_follows (.inl rfl) (by decide) (by decide)
  · cases found with
    | false => exact skip?_of_not_isNext hmark
    | true => exact skip?_of_skipSpace (skipSpace_of_isWord rfl)

theorem endsName_comma (rest : List Token) : EndsName ("," :: rest) :=
  .of_follows (.inl rfl) (by decide) (by decide)

theorem endsName_close (rest : List Token) : EndsName (")" :: rest) :=
  .of_follows (.inl rfl) (by decide) (by decide)

/-- What stands between the parentheses is one part. -/
theorem lay_closed {ps : List Piece} (h : Solid ps) (rest : List Token) :
    Piece.lay σ false (ps ++ [.text ")"]) ++ rest = Piece.write σ ps ++ ")" :: rest := by
  rw [Piece.lay_false_of_solid h, List.append_assoc, Piece.lay_word rfl]

/-- Two parts with a comma between them. -/
theorem lay_pair_closed {ps qs : List Piece} (hp : Solid ps) (hq : Solid qs) (rest : List Token) :
    Piece.lay σ false (ps ++ [.text ",", .gap] ++ qs ++ [.text ")"]) ++ rest =
      Piece.write σ ps ++ "," :: Token.space :: (Piece.write σ qs ++ ")" :: rest) := by
  rw [List.append_assoc, List.append_assoc, Piece.lay_false_of_solid hp, Piece.lay_comma,
    Piece.write_solid_append hq]
  simp [Piece.lay]

theorem solid_markPieces {ps : List Piece} (h : Solid ps) {op : Token} (hop : op.isWord)
    (found : Bool) : Solid (ps ++ markPieces op found) := by
  cases found with
  | false => rwa [markPieces, if_neg (by decide), List.append_nil]
  | true => exact h.append (.singleton hop)

theorem elementTest_eq : elementTest = call "element" fun ts =>
    (if isNext ")" ts then pure ⟨none, none, false⟩
    else nameOrWildcard >>= fun name => skip? "," >>= fun comma =>
      if comma then marked "?" eqName >>= fun x => pure ⟨some name, some x.1, x.2⟩
      else pure ⟨some name, none, false⟩ : Rule ElementTest) ts :=
  rfl

/-- An element test is read with the name and the type it asks for. -/
theorem elementTest_complete {t : ElementTest} (h : t.WellFormed) (rest : List Token) :
    elementTest.Reads (Piece.write σ (callPieces "element" t.pieces)) t rest := by
  obtain ⟨name, typeName, nillable⟩ := t
  rw [elementTest_eq]
  cases name with
  | none =>
    obtain rfl : typeName = none := by simpa using h.named
    obtain rfl : nillable = false := by simpa using h.typed
    exact call_empty rfl rfl
  | some n =>
    have hn := h.name n rfl
    have hsolid := NameOrWildcard.solid hn
    have hclose (more : List Token) : isNext ")" (Piece.write σ n.pieces ++ more) = false :=
      isNext_write hsolid.starts more (NameOrWildcard.head?_write_ne hn (by decide) (by decide))
    cases typeName with
    | none =>
      obtain rfl : nillable = false := by simpa using h.typed
      have hname := (nameOrWildcard_complete (σ := σ) hn (endsName_close rest)).write hsolid.starts
      refine call_complete rfl ⟨")" :: rest, ?_, rfl⟩
      rw [show ElementTest.pieces ⟨some n, none, false⟩ = n.pieces from rfl, lay_closed hsolid]
      beta_reduce
      rw [hclose, if_neg (by decide), bind_of_ok hname]
      exact bind_of_ok (skip?_of_not_isNext rfl) _
    | some type =>
      have htype := h.typeName type rfl
      have hmarked := solid_markPieces (EQName.solid htype)
        (show Token.isWord "?" from rfl) nillable
      have hname := (nameOrWildcard_complete (σ := σ) hn (endsName_comma
        (Token.space :: (Piece.write σ (type.pieces ++ markPieces "?" nillable) ++
          ")" :: rest)))).write hsolid.starts
      have hread := (marked_complete (σ := σ) htype nillable (endsName_close rest) rfl).space
      refine call_complete rfl ⟨")" :: rest, ?_, rfl⟩
      rw [show ElementTest.pieces ⟨some n, some type, nillable⟩ = n.pieces ++ [.text ",", .gap] ++
        type.pieces ++ markPieces "?" nillable from rfl, List.append_assoc _ type.pieces,
        lay_pair_closed hsolid hmarked]
      beta_reduce
      rw [hclose, if_neg (by decide), bind_of_ok hname,
        bind_of_ok (skip?_of_skipSpace (skipSpace_of_isWord rfl)), if_pos rfl, bind_of_ok hread]
      rfl

theorem attributeTest_eq : attributeTest = call "attribute" fun ts =>
    (if isNext ")" ts then pure ⟨none, none⟩
    else nameOrWildcard >>= fun name => skip? "," >>= fun comma =>
      if comma then eqName >>= fun type => pure ⟨some name, some type⟩
      else pure ⟨some name, none⟩ : Rule AttributeTest) ts :=
  rfl

theorem attributeTest_complete {t : AttributeTest} (h : t.WellFormed) (rest : List Token) :
    attributeTest.Reads (Piece.write σ (callPieces "attribute" t.pieces)) t rest := by
  obtain ⟨name, typeName⟩ := t
  rw [attributeTest_eq]
  cases name with
  | none =>
    obtain rfl : typeName = none := by simpa using h.named
    exact call_empty rfl rfl
  | some n =>
    have hn := h.name n rfl
    have hsolid := NameOrWildcard.solid hn
    have hclose (more : List Token) : isNext ")" (Piece.write σ n.pieces ++ more) = false :=
      isNext_write hsolid.starts more (NameOrWildcard.head?_write_ne hn (by decide) (by decide))
    cases typeName with
    | none =>
      have hname := (nameOrWildcard_complete (σ := σ) hn (endsName_close rest)).write hsolid.starts
      refine call_complete rfl ⟨")" :: rest, ?_, rfl⟩
      rw [show AttributeTest.pieces ⟨some n, none⟩ = n.pieces from rfl, lay_closed hsolid]
      beta_reduce
      rw [hclose, if_neg (by decide), bind_of_ok hname]
      exact bind_of_ok (skip?_of_not_isNext rfl) _
    | some type =>
      have htype := h.typeName type rfl
      have hname := (nameOrWildcard_complete (σ := σ) hn (endsName_comma
        (Token.space :: (Piece.write σ type.pieces ++ ")" :: rest)))).write hsolid.starts
      have hread := (eqName_complete (σ := σ) htype (endsName_close rest)).space
      refine call_complete rfl ⟨")" :: rest, ?_, rfl⟩
      rw [show AttributeTest.pieces ⟨some n, some type⟩ = n.pieces ++ [.text ",", .gap] ++
        type.pieces from rfl, lay_pair_closed hsolid (EQName.solid htype)]
      beta_reduce
      rw [hclose, if_neg (by decide), bind_of_ok hname,
        bind_of_ok (skip?_of_skipSpace (skipSpace_of_isWord rfl)), if_pos rfl]
      exact bind_of_ok hread _

theorem callName_complete {keyword : Token} (hk : keyword.isWord) {n : EQName} (h : n.WellFormed)
    (rest : List Token) :
    (call keyword eqName).Reads (Piece.write σ (callPieces keyword n.pieces)) n rest := by
  refine call_complete hk ⟨")" :: rest, ?_, rfl⟩
  rw [lay_closed (EQName.solid h)]
  exact (eqName_complete h (endsName_close rest)).write (EQName.solid h).starts

/-- A document test is read with the test of its element. -/
theorem documentTest_complete {c : Option DocumentContent} (h : ∀ d ∈ c, d.WellFormed)
    (rest : List Token) : documentTest.Reads
      (Piece.write σ (callPieces "document-node" (c.elim [] DocumentContent.pieces))) c rest := by
  cases c with
  | none => exact call_empty rfl rfl
  | some d =>
    have hd := h d rfl
    refine call_complete rfl ⟨")" :: rest, ?_, rfl⟩
    cases d with
    | element t =>
      have hsolid := solid_call (show Token.isWord "element" from rfl) t.pieces
      have hread := (elementTest_complete (σ := σ) (t := t) hd (")" :: rest)).write hsolid.starts
      have hhead : (Token.skipSpace (Piece.write σ (callPieces "element" t.pieces) ++
          ")" :: rest)).head? = some "element" := by
        rw [Piece.skipSpace_write hsolid.starts, write_call rfl]
        rfl
      rw [show Option.elim (some (DocumentContent.element t)) [] DocumentContent.pieces =
        callPieces "element" t.pieces from rfl, lay_closed hsolid, bind_of_ok (rest_apply _), hhead]
      refine (bind_of_ok (space_apply _) _).trans ?_
      rw [Piece.skipSpace_write hsolid.starts]
      exact bind_of_ok hread _
    | schemaElement n =>
      have hsolid := solid_call (show Token.isWord "schema-element" from rfl) n.pieces
      have hread := (callName_complete (σ := σ) (show Token.isWord "schema-element" from rfl)
        (n := n) hd
        (")" :: rest)).write hsolid.starts
      have hhead : (Token.skipSpace (Piece.write σ (callPieces "schema-element" n.pieces) ++
          ")" :: rest)).head? = some "schema-element" := by
        rw [Piece.skipSpace_write hsolid.starts, write_call rfl]
        rfl
      rw [show Option.elim (some (DocumentContent.schemaElement n)) [] DocumentContent.pieces =
        callPieces "schema-element" n.pieces from rfl, lay_closed hsolid, bind_of_ok (rest_apply _),
        hhead]
      refine (bind_of_ok (space_apply _) _).trans ?_
      rw [Piece.skipSpace_write hsolid.starts]
      exact bind_of_ok hread _

/-- A target is read as a name or as a string. -/
theorem piTest_complete {target : Option PITarget} (h : ∀ t ∈ target, t.WellFormed)
    (rest : List Token) : piTest.Reads
      (Piece.write σ (callPieces "processing-instruction" (target.elim [] PITarget.pieces)))
      target rest := by
  cases target with
  | none => exact call_empty rfl rfl
  | some t =>
    have ht := h t rfl
    refine call_complete rfl ⟨")" :: rest, ?_, rfl⟩
    cases t with
    | name n =>
      have hn : n.WellFormed := ht
      have hword := Token.isWord_of_startsName hn
      have hquote := Token.isQuote_eq_false hword
      rw [show Option.elim (some (PITarget.name n)) [] PITarget.pieces = n.pieces from rfl,
        lay_closed (NCName.solid hn), write_ncName hn, List.singleton_append,
        bind_of_ok (rest_apply _), skipSpace_of_isWord hword, List.head?_cons]
      refine (congrFun (if_neg (NCName.text_ne hn (by decide))) _).trans ?_
      rw [bind_of_ok (space_apply _), skipSpace_of_isWord hword]
      refine (congrFun (if_neg (by simp [hquote])) _).trans ?_
      refine (congrFun (if_pos hn) _).trans ?_
      exact bind_of_ok (ncName_cons hn _) _
    | literal s =>
      have hread := (stringLiteral_complete (σ := σ) s (")" :: rest)).write rfl
      rw [show Option.elim (some (PITarget.literal s)) [] PITarget.pieces = [.string s] from rfl,
        lay_closed (.singleton rfl), bind_of_ok (rest_apply _)]
      exact (bind_of_ok (space_apply _) _).trans (bind_of_ok hread _)

/-- A kind test begins with its keyword and a parenthesis, and is read by its own rule. -/
theorem kindTest_keyword {t : KindTest} (h : t.WellFormed) :
    ∃ keyword ps test, t.pieces = callPieces keyword ps ∧ KindTest.isKeyword keyword ∧
      Text.startsName keyword ∧ kindTestOf keyword = some test ∧
        ∀ rest, test.Reads (Piece.write σ t.pieces) t rest := by
  cases t with
  | document c =>
    exact ⟨"document-node", _, _, rfl, rfl, rfl, rfl, fun rest =>
      (documentTest_complete h rest).map _⟩
  | element t =>
    exact ⟨"element", _, _, rfl, rfl, rfl, rfl, fun rest => (elementTest_complete h rest).map _⟩
  | attr t =>
    exact ⟨"attribute", _, _, rfl, rfl, rfl, rfl, fun rest => (attributeTest_complete h rest).map _⟩
  | schemaElement n =>
    exact ⟨"schema-element", _, _, rfl, rfl, rfl, rfl,
      fun rest => (callName_complete rfl h rest).map _⟩
  | schemaAttribute n =>
    exact ⟨"schema-attribute", _, _, rfl, rfl, rfl, rfl,
      fun rest => (callName_complete rfl h rest).map _⟩
  | processingInstruction t =>
    exact ⟨"processing-instruction", _, _, rfl, rfl, rfl, rfl,
      fun rest => (piTest_complete h rest).map _⟩
  | comment => exact ⟨"comment", [], _, rfl, rfl, rfl, rfl, fun rest => call_empty rfl rfl⟩
  | text => exact ⟨"text", [], _, rfl, rfl, rfl, rfl, fun rest => call_empty rfl rfl⟩
  | namespaceNode =>
    exact ⟨"namespace-node", [], _, rfl, rfl, rfl, rfl, fun rest => call_empty rfl rfl⟩
  | anyKind => exact ⟨"node", [], _, rfl, rfl, rfl, rfl, fun rest => call_empty rfl rfl⟩

/-- Every kind test is read. -/
theorem kindTest_complete {t : KindTest} (h : t.WellFormed) (rest : List Token) :
    kindTest.Reads (Piece.write σ t.pieces) t rest := by
  obtain ⟨keyword, ps, test, hpieces, -, hname, htest, hread⟩ := kindTest_keyword (σ := σ) h
  intro us hus
  have htokens := write_call (σ := σ) (Token.isWord_of_startsName hname) ps
  rw [kindTest, bind_of_ok (space_apply us), bind_of_ok (rest_apply _), hus,
    show ((Piece.write σ t.pieces ++ rest).head?.bind kindTestOf) = some test by
      rw [hpieces, htokens]; exact htest]
  exact (hread rest).write (KindTest.solid t).starts

theorem nodeTest_apply (ts : List Token) : nodeTest ts =
    (if startsKindTest (Token.skipSpace ts) then kindTest >>= fun t => pure (.kindTest t)
    else nameTest >>= fun t => pure (.nameTest t) : Rule NodeTest) (Token.skipSpace ts) :=
  rfl

/-- A name test begins like no kind test, unless a parenthesis follows. -/
theorem startsKindTest_nameTest {t : NameTest} (h : t.WellFormed) {rest : List Token}
    (hrest : isNext "(" rest = false) :
    startsKindTest (Piece.write σ t.pieces ++ rest) = false := by
  have hstar (ts : List Token) : startsKindTest ("*" :: ts) = false := rfl
  have hbraced (ts : List Token) : startsKindTest ("Q" :: ts) = false := rfl
  have hcolon (t : Token) (ts : List Token) : startsKindTest (t :: ":" :: ts) = false := by
    rw [startsKindTest, isNext_eq_false (by simp [Token.skipSpace, Token.isSpace, Token.space]),
      Bool.and_false]
  cases t with
  | name n =>
    rw [show (NameTest.name n).pieces = n.pieces from rfl]
    cases n with
    | qName nsPrefix localName =>
      cases nsPrefix with
      | none =>
        rw [write_unprefixed h.2, List.singleton_append, startsKindTest, hrest, Bool.and_false]
      | some p => rw [write_prefixed (h.1 p rfl) h.2, hcolon]
    | uriQualified uri localName => rw [write_uriQualified h.2, hbraced]
  | wildcard => exact hstar rest
  | nsWildcard w =>
    cases w with
    | anyLocal p => rw [write_anyLocal h, hcolon]
    | anyNamespace n => rw [write_anyNamespace h, hstar]
    | anyLocalIn uri => exact hbraced _

/-- A test for a node is read, whether it names a kind or not. -/
theorem nodeTest_complete {t : NodeTest} (h : t.WellFormed) {rest : List Token}
    (hrest : EndsType rest) : nodeTest.Reads (Piece.write σ t.pieces) t rest := by
  intro us hus
  rw [nodeTest_apply, hus]
  cases t with
  | kindTest t =>
    obtain ⟨keyword, ps, test, hpieces, hkeyword, hname, -, -⟩ := kindTest_keyword (σ := σ) h
    have hstart : startsKindTest (Piece.write σ t.pieces ++ rest) = true := by
      rw [hpieces, write_call (Token.isWord_of_startsName hname), List.cons_append, startsKindTest,
        hkeyword]
      rfl
    rw [show (NodeTest.kindTest t).pieces = t.pieces from rfl, hstart, if_pos rfl]
    exact bind_of_ok ((kindTest_complete h rest).write (KindTest.solid t).starts) _
  | nameTest t =>
    rw [show (NodeTest.nameTest t).pieces = t.pieces from rfl,
      startsKindTest_nameTest h hrest.not_paren, if_neg (by decide)]
    exact bind_of_ok ((nameTest_complete h hrest.toEndsName).write (NameTest.solid h).starts) _

/-! ## Types -/

/-- A type is read with its mark. -/
theorem singleType_complete {t : SingleType} (h : t.name.WellFormed) {rest : List Token}
    (hrest : EndsName rest) (hmark : isNext "?" rest = false) :
    singleType.Reads (Piece.write σ t.pieces) t rest := by
  obtain ⟨name, found⟩ := t
  intro us hus
  exact bind_of_ok (marked_complete h found hrest hmark us hus) _

section Types

variable {inner : Rule ItemType} {levels : Nat}

/-- The rule reads the item types that fit the levels. -/
abbrev ItemsComplete (σ : UriTokens) (inner : Rule ItemType) (levels : Nat) : Prop :=
  ∀ ⦃t : ItemType⦄ ⦃rest : List Token⦄, ItemType.Fits levels t →
    UnmarkedBefore t.endsUnmarked rest → EndsType rest →
      inner.Reads (Piece.write σ t.pieces) t rest

/-- A call begins with its keyword, so no symbol begins it. -/
theorem head?_call_ne {keyword u : Token} (hk : Text.startsName keyword)
    (hu : Text.startsName u = false) (ps qs : List Piece) :
    (Piece.write σ (callPieces keyword ps ++ qs)).head? ≠ some u := by
  rw [callPieces, List.append_assoc, List.append_assoc, List.cons_append,
    Piece.write_text (Token.isWord_of_startsName hk), List.head?_cons]
  rintro ⟨⟩
  rw [hu] at hk
  cases hk

/-- An item type begins with a name or a parenthesis. -/
theorem head?_itemType_ne {t : ItemType} (h : ItemType.Fits levels t) {u : Token}
    (hu : Text.startsName u = false) (hparen : u ≠ "(") :
    (Piece.write σ t.pieces).head? ≠ some u := by
  cases levels with
  | zero => cases h
  | succ levels =>
    have hcall {keyword : Token} (hk : Text.startsName keyword) (ps : List Piece) :
        (Piece.write σ (callPieces keyword ps)).head? ≠ some u := by
      have := head?_call_ne (σ := σ) hk hu ps []
      rwa [List.append_nil] at this
    cases t with
    | kindTest t =>
      obtain ⟨keyword, ps, test, hpieces, -, hname, -, -⟩ := kindTest_keyword (σ := σ) h
      rw [show (ItemType.kindTest t).pieces = t.pieces from rfl, hpieces]
      exact hcall hname ps
    | function params result =>
      rw [ItemType.pieces, List.append_assoc]
      exact head?_call_ne (by decide) hu _ _
    | atomic name => exact EQName.head?_write_ne h hu
    | parenthesized t => simpa [ItemType.pieces, Piece.write, Piece.lay] using hparen.symm
    | _ => exact hcall (by decide) _

theorem head?_sequenceType_ne {t : SequenceType} (h : t.FitsIn (ItemType.Fits levels)) {u : Token}
    (hu : Text.startsName u = false) (hparen : u ≠ "(") :
    (Piece.write σ t.pieces).head? ≠ some u := by
  cases t with
  | empty =>
    have := head?_call_ne (σ := σ) (show Text.startsName "empty-sequence" by decide) hu [] []
    rwa [List.append_nil] at this
  | items type occurrence =>
    have hs := ItemType.solid h.1
    rw [SequenceType.pieces, Piece.write_solid_append hs,
      List.head?_append_of_ne_nil _ (List.length_pos_iff.mp (Piece.length_write_pos σ hs.starts))]
    exact head?_itemType_ne h.1 hu hparen

/-- The keyword of the empty sequence has its parentheses only there. -/
theorem not_empty_sequence {t : ItemType} (h : ItemType.Fits levels t) {rest ts : List Token}
    (hrest : isNext "(" rest = false)
    (hts : Piece.write σ t.pieces ++ rest = "empty-sequence" :: ts) : isNext "(" ts = false := by
  cases levels with
  | zero => cases h
  | succ levels =>
    have hcall {keyword : Token} (hk : Text.startsName keyword) (hne : keyword ≠ "empty-sequence")
        (ps qs : List Piece) (hts : Piece.write σ (callPieces keyword ps ++ qs) ++ rest =
          "empty-sequence" :: ts) : isNext "(" ts = false := by
      rw [callPieces, List.append_assoc, List.append_assoc, List.cons_append,
        Piece.write_text (Token.isWord_of_startsName hk), List.cons_append] at hts
      exact absurd (List.cons.inj hts).1 hne
    have hcall' {keyword : Token} (hk : Text.startsName keyword) (hne : keyword ≠ "empty-sequence")
        (ps : List Piece) (hts : Piece.write σ (callPieces keyword ps) ++ rest =
          "empty-sequence" :: ts) : isNext "(" ts = false :=
      hcall hk hne ps [] (by rwa [List.append_nil])
    cases t with
    | kindTest t =>
      obtain ⟨keyword, ps, test, hpieces, hkeyword, hname, -, -⟩ := kindTest_keyword (σ := σ) h
      rw [show (ItemType.kindTest t).pieces = t.pieces from rfl, hpieces] at hts
      refine hcall' hname ?_ ps hts
      rintro rfl
      exact absurd hkeyword (by decide)
    | function params result =>
      rw [ItemType.pieces, List.append_assoc] at hts
      exact hcall (by decide) (by decide) _ _ hts
    | atomic name =>
      rw [show (ItemType.atomic name).pieces = name.pieces from rfl] at hts
      have hword {p : NCName} (hp : p.WellFormed) := Token.isWord_of_startsName hp
      cases name with
      | qName nsPrefix localName =>
        cases nsPrefix with
        | none =>
          rw [write_unprefixed h.2, List.singleton_append] at hts
          rwa [← (List.cons.inj hts).2]
        | some p =>
          rw [write_prefixed (h.1 p rfl) h.2] at hts
          rw [← (List.cons.inj hts).2]
          exact isNext_of_follows (.inl rfl) rfl (by decide)
      | uriQualified uri localName =>
        rw [write_uriQualified h.2] at hts
        exact absurd (List.cons.inj hts).1 (by decide)
    | parenthesized t => simp [ItemType.pieces, Piece.write, Piece.lay] at hts
    | _ => exact hcall' (by decide) (by decide) _ hts

/-- An item type is read with its mark. -/
theorem items_complete (hi : ItemsComplete σ inner levels) {type : ItemType}
    {occurrence : Option Occurrence}
    (h : SequenceType.FitsIn (ItemType.Fits levels) (.items type occurrence))
    {rest : List Token}
    (hend : UnmarkedBefore (SequenceType.endsUnmarked (.items type occurrence)) rest)
    (hrest : EndsType rest) :
    (inner >>= fun type => operator? Spelled.ofToken? >>= fun occurrence =>
      pure (SequenceType.items type occurrence)).Reads
        (Piece.write σ (SequenceType.pieces (.items type occurrence)))
          (.items type occurrence) rest := by
  intro us hus
  rw [SequenceType.pieces, Piece.write_solid_append (ItemType.solid h.1), List.append_assoc] at hus
  cases occurrence with
  | none =>
    have hnone : ∀ t ∈ (Token.skipSpace rest).head?,
        (Spelled.ofToken? t : Option Occurrence) = none := by
      intro t ht
      simpa [isOccurrence] using hend rfl t ht
    rw [bind_of_ok (hi h.1 (fun _ => hend rfl) hrest us hus), bind_of_ok (operator?_of_none hnone),
      pure_apply]
  | some o =>
    have hword := isWord_occurrence o
    rw [Option.map_some, Option.toList_some, Piece.lay_word hword] at hus
    have hfollows : EndsType (Spelled.spelling o :: rest) := by
      refine .of_follows (.inl rfl) hword ?_ ?_ ?_ <;> cases o <;> decide
    have hmarked : UnmarkedBefore type.endsUnmarked (Spelled.spelling o :: rest) := by
      rw [h.2 rfl]
      exact unmarkedBefore_false _
    rw [bind_of_ok (hi h.1 hmarked hfollows us hus),
      bind_of_ok (operator?_of_some (skipSpace_of_isWord hword) (Spelled.ofToken?_spelling o)),
      pure_apply]

/-- Any other type than the empty sequence is read as an item type and its occurrence. -/
theorem sequenceType_empty {ts us : List Token} (hts : Token.skipSpace ts = "empty-sequence" :: us)
    (hus : isNext "(" us) : sequenceType inner ts = (do
      expect "(" "EmptySequenceType"
      expect ")" "EmptySequenceType"
      return SequenceType.empty : Rule SequenceType) us := by
  rw [sequenceType, bind_of_ok (space_apply ts), bind_of_ok (rest_apply _), hts]
  exact (congrFun (if_pos hus) _).trans (bind_of_ok (advance_cons _ _) _)

/-- Where it is not `empty-sequence`, a type is one of items. -/
theorem sequenceType_items {us : List Token}
    (h : ∀ ts, Token.skipSpace us = "empty-sequence" :: ts → isNext "(" ts = false) :
    sequenceType inner us = (inner >>= fun type => operator? Spelled.ofToken? >>= fun occurrence =>
      pure (SequenceType.items type occurrence)) (Token.skipSpace us) := by
  rw [sequenceType, bind_of_ok (space_apply us), bind_of_ok (rest_apply _)]
  generalize Token.skipSpace us = vs at h ⊢
  split
  next ts => rw [if_neg (by simp [h ts rfl])]
  · rfl

/-- A sequence type is read if item types are. -/
theorem sequenceType_complete (hi : ItemsComplete σ inner levels) {t : SequenceType}
    (h : t.FitsIn (ItemType.Fits levels)) {rest : List Token}
    (hend : UnmarkedBefore t.endsUnmarked rest) (hrest : EndsType rest) :
    (sequenceType inner).Reads (Piece.write σ t.pieces) t rest := by
  intro us hus
  cases t with
  | empty =>
    rw [sequenceType, bind_of_ok (space_apply us), bind_of_ok (rest_apply _), hus]
    rfl
  | items type occurrence =>
    have hs := ItemType.solid h.1
    have hread := (items_complete hi h hend hrest).write (σ := σ)
      (SequenceType.solid (fun _ => ItemType.solid) h).starts
    rw [sequenceType_items, hus]
    · exact hread
    · intro ts hts
      rw [hus, SequenceType.pieces, Piece.write_solid_append hs, List.append_assoc] at hts
      refine not_empty_sequence h.1 ?_ hts
      cases occurrence with
      | none => exact hrest.not_paren
      | some o =>
        rw [Option.map_some, Option.toList_some, Piece.lay_word (isWord_occurrence o)]
        exact isNext_of_follows (.inl rfl) (isWord_occurrence o) (by cases o <;> decide)

/-- Types in a list, or in front of the parenthesis that closes it. -/
theorem sequenceType_before (hi : ItemsComplete σ inner levels) {t : SequenceType}
    (h : t.FitsIn (ItemType.Fits levels)) {u : Token} (hu : u = "," ∨ u = ")")
    {rest mid : List Token} (hfollows : Follows u rest mid) :
    (sequenceType inner).Reads (Piece.write σ t.pieces) t rest := by
  have hword : u.isWord := by rcases hu with rfl | rfl <;> rfl
  refine sequenceType_complete hi h (fun _ v hv => ?_) (.of_follows hfollows hword ?_ ?_ ?_)
  · rw [hfollows.skipSpace_eq hword] at hv
    obtain rfl : u = v := by simpa using hv
    rcases hu with rfl | rfl <;> rfl
  all_goals rcases hu with rfl | rfl <;> decide

/-- A star in parentheses is read. -/
theorem callOrAny_any {α : Type} {keyword : Token} (hk : keyword.isWord) (body : Rule α)
    (rest : List Token) :
    (callOrAny keyword body).Reads (Piece.write σ (callPieces keyword [.text "*"])) none rest := by
  refine call_complete hk ⟨")" :: rest, ?_, rfl⟩
  rw [lay_closed (.singleton rfl), Piece.write_word rfl]
  exact bind_of_ok (skip?_of_skipSpace (skipSpace_of_isWord rfl)) _

/-- What stands in parentheses and is no star is read as the body. -/
theorem callOrAny_some {α : Type} {keyword : Token} (hk : keyword.isWord) {body : Rule α}
    {ps : List Piece} {a : α} {rest : List Token}
    (hstar : isNext "*" (Piece.lay σ false (ps ++ [.text ")"]) ++ rest) = false)
    (h : body.ReadsUntil ")" (Piece.lay σ false (ps ++ [.text ")"])) a rest) :
    (callOrAny keyword body).Reads (Piece.write σ (callPieces keyword ps)) (some a) rest := by
  obtain ⟨mid, hmid, hclose⟩ := h
  refine call_complete hk ⟨mid, ?_, hclose⟩
  rw [bind_of_ok (skip?_of_not_isNext hstar), if_neg (by decide)]
  exact bind_of_ok hmid _

/-- A function type is read with its parameters and its result. -/
theorem functionTest_complete (hi : ItemsComplete σ inner levels) {params : List SequenceType}
    {result : SequenceType} (hp : ∀ p ∈ params, p.FitsIn (ItemType.Fits levels))
    (hr : result.FitsIn (ItemType.Fits levels)) {rest : List Token}
    (hend : UnmarkedBefore result.endsUnmarked rest) (hrest : EndsType rest) :
    (functionTest inner).Reads (Piece.write σ (ItemType.pieces (.function params result)))
      (.function params result) rest := by
  have hsolid : ∀ p ∈ params, Solid (SequenceType.pieces p) := fun p hpm =>
    SequenceType.solid (fun _ => ItemType.solid) (hp p hpm)
  have hname (p : SequenceType) (hpm : p ∈ params) {u : Token} (hu : Text.startsName u = false)
      (hparen : u ≠ "(") : (Piece.write σ p.pieces).head? ≠ some u :=
    head?_sequenceType_ne (hp p hpm) hu hparen
  have hlist (more : List Token) : (separated ")" (sequenceType inner)).ReadsUntil ")"
      (Piece.lay σ false (Piece.commaSeparated (params.map SequenceType.pieces) ++ [.text ")"]))
      (params.map id) more :=
    separated_reads rfl (by decide) hsolid
      (fun p hpm => hname p hpm (by decide) (by decide))
      fun p hpm t rest' mid ht hf => sequenceType_before hi (hp p hpm) ht hf
  have hcall (more : List Token) := callOrAny_some (show Token.isWord "function" from rfl)
    (isNext_list more rfl (by decide) hsolid fun p hpm => hname p hpm (by decide) (by decide))
    (hlist more)
  have hresult := (sequenceType_complete hi hr hend hrest).space
  have hs := solid_call (show Token.isWord "function" from rfl)
    (Piece.commaSeparated (params.map SequenceType.pieces))
  intro us hus
  rw [ItemType.pieces, piecesAll_eq, List.append_assoc, Piece.write_solid_append hs,
    Piece.lay_keyword rfl, List.append_assoc] at hus
  rw [functionTest, bind_of_ok (hcall _ us hus)]
  refine (bind_of_ok (expect_of_skipSpace rfl "TypedFunctionTest") _).trans ?_
  refine (bind_of_ok hresult _).trans ?_
  rw [List.map_id, pure_apply]

/-- A map type is read with its key and its value. -/
theorem mapTest_complete (hi : ItemsComplete σ inner levels) {key : EQName} {value : SequenceType}
    (hk : key.WellFormed) (hv : value.FitsIn (ItemType.Fits levels)) (rest : List Token) :
    (mapTest inner).Reads (Piece.write σ (ItemType.pieces (.map key value))) (.map key value)
      rest := by
  have hkey := EQName.solid hk
  have hvalue : Solid value.pieces := SequenceType.solid (fun _ => ItemType.solid) hv
  have hname (more : List Token) :=
    (eqName_complete (σ := σ) hk (endsName_comma more)).write hkey.starts
  have hclose : Follows ")" (")" :: rest) rest := .inl rfl
  have htype := (sequenceType_before (σ := σ) hi hv (.inr rfl) hclose).space
  intro us hus
  have hcall : (callOrAny "map" (eqName >>= fun key => expect "," "TypedMapTest" >>= fun _ =>
      sequenceType inner >>= fun value => pure (key, value))).Reads
        (Piece.write σ (callPieces "map" (key.pieces ++ [.text ",", .gap] ++ value.pieces)))
        (some (key, value)) rest := by
    refine callOrAny_some rfl ?_ ⟨")" :: rest, ?_, rfl⟩
    · rw [lay_pair_closed hkey hvalue]
      exact isNext_write hkey.starts _ (EQName.head?_write_ne hk (by decide))
    · rw [lay_pair_closed hkey hvalue, bind_of_ok (hname _),
        bind_of_ok (expect_of_skipSpace (skipSpace_of_isWord rfl) _), bind_of_ok htype, pure_apply]
  exact bind_of_ok (hcall us hus) _

theorem arrayTest_complete (hi : ItemsComplete σ inner levels) {member : SequenceType}
    (h : member.FitsIn (ItemType.Fits levels)) (rest : List Token) :
    (arrayTest inner).Reads (Piece.write σ (ItemType.pieces (.array member))) (.array member)
      rest := by
  have hs : Solid member.pieces := SequenceType.solid (fun _ => ItemType.solid) h
  have hclose : Follows ")" (")" :: rest) rest := .inl rfl
  have hread := (sequenceType_before (σ := σ) hi h (.inr rfl) hclose).write hs.starts
  intro us hus
  have hcall : (callOrAny "array" (sequenceType inner)).Reads
      (Piece.write σ (callPieces "array" member.pieces)) (some member) rest := by
    refine callOrAny_some rfl ?_ ⟨")" :: rest, ?_, rfl⟩
    · rw [lay_closed hs]
      exact isNext_write hs.starts _ (head?_sequenceType_ne h (by decide) (by decide))
    · rwa [lay_closed hs]
  exact bind_of_ok (hcall us hus) _

/-- A keyword and a parenthesis begin a type of its own. -/
theorem itemTypeHere_call {keyword : Token} (hk : keyword.isWord) {type : Rule ItemType}
    (h : ∀ ts, isNext "(" ts = true → itemTypeHere inner (keyword :: ts) = type (keyword :: ts))
    {ps qs : List Piece} {t : ItemType} {rest : List Token}
    (hread : type.Reads (Piece.write σ (callPieces keyword ps ++ qs)) t rest) :
    itemTypeHere inner (Piece.write σ (callPieces keyword ps ++ qs) ++ rest) = .ok (t, rest) := by
  have hs := (solid_call hk ps).starts.append qs
  have hread := hread.write hs
  rw [Piece.write_solid_append (solid_call hk ps), write_call hk, List.append_assoc,
    List.cons_append, List.cons_append] at hread ⊢
  rw [h _ (isNext_cons rfl _), hread]

/-- The parentheses end the type. -/
theorem itemTypeHere_closed {keyword : Token} (hk : keyword.isWord) {type : Rule ItemType}
    (h : ∀ ts, isNext "(" ts = true → itemTypeHere inner (keyword :: ts) = type (keyword :: ts))
    {ps : List Piece} {t : ItemType} {rest : List Token}
    (hread : type.Reads (Piece.write σ (callPieces keyword ps)) t rest) :
    itemTypeHere inner (Piece.write σ (callPieces keyword ps) ++ rest) = .ok (t, rest) := by
  rw [← List.append_nil (callPieces keyword ps)] at hread ⊢
  exact itemTypeHere_call hk h hread

theorem itemTypeHere_keyword {keyword : Token} (hk : KindTest.isKeyword keyword) {ts : List Token}
    (hts : isNext "(" ts = true) :
    itemTypeHere inner (keyword :: ts) =
      (kindTest >>= fun k => pure (.kindTest k)) (keyword :: ts) := by
  rw [itemTypeHere_cons, if_pos hts]
  split
  case h_5 => rw [if_pos hk]
  all_goals exact absurd hk (by decide)

theorem itemTypeHere_function {ts : List Token} (hts : isNext "(" ts = true) :
    itemTypeHere inner ("function" :: ts) = functionTest inner ("function" :: ts) := by
  rw [itemTypeHere_cons, if_pos hts]
  rfl

theorem itemTypeHere_map {ts : List Token} (hts : isNext "(" ts = true) :
    itemTypeHere inner ("map" :: ts) = mapTest inner ("map" :: ts) := by
  rw [itemTypeHere_cons, if_pos hts]
  rfl

theorem itemTypeHere_array {ts : List Token} (hts : isNext "(" ts = true) :
    itemTypeHere inner ("array" :: ts) = arrayTest inner ("array" :: ts) := by
  rw [itemTypeHere_cons, if_pos hts]
  rfl

/-- A parenthesis begins another type. -/
theorem itemTypeHere_paren (ts : List Token) : itemTypeHere inner ("(" :: ts) =
    itemTypeHere.parenthesizedOrAtomic inner "(" ("(" :: ts) := by
  rw [itemTypeHere_cons]
  split <;> rfl

/-- A name that no parenthesis follows. -/
theorem itemTypeHere_atomic {name : EQName} (h : name.WellFormed) {rest : List Token}
    (hrest : EndsType rest) :
    itemTypeHere inner (Piece.write σ name.pieces ++ rest) = .ok (.atomic name, rest) := by
  have hname := (eqName_complete (σ := σ) h hrest.toEndsName).write (EQName.solid h).starts
  have hatomic {t : Token} {ts : List Token} (hts : Piece.write σ name.pieces ++ rest = t :: ts)
      (hparen : t ≠ "(") (hnext : isNext "(" ts = false) :
      itemTypeHere inner (Piece.write σ name.pieces ++ rest) = .ok (.atomic name, rest) := by
    rw [hts] at hname ⊢
    rw [itemTypeHere_cons, if_neg (by simp [hnext]), itemTypeHere.parenthesizedOrAtomic,
      if_neg hparen]
    exact bind_of_ok hname _
  have hne {n : NCName} (hn : n.WellFormed) : n.text ≠ "(" := NCName.text_ne hn (by decide)
  cases name with
  | qName nsPrefix localName =>
    cases nsPrefix with
    | none => exact hatomic (by rw [write_unprefixed h.2]; rfl) (hne h.2) hrest.not_paren
    | some p =>
      exact hatomic (write_prefixed (h.1 p rfl) h.2 rest) (hne (h.1 p rfl))
        (isNext_of_follows (.inl rfl) rfl (by decide))
  | uriQualified uri localName =>
    exact hatomic (write_uriQualified h.2 uri rest) (by decide)
      (isNext_of_follows (.inl rfl) rfl (by decide))

/-- Every item type is read if those in parentheses are. -/
theorem itemTypeHere_complete (hi : ItemsComplete σ inner levels) {t : ItemType}
    (h : t.FitsIn (ItemType.Fits levels)) {rest : List Token}
    (hend : UnmarkedBefore t.endsUnmarked rest) (hrest : EndsType rest) :
    itemTypeHere inner (Piece.write σ t.pieces ++ rest) = .ok (t, rest) := by
  cases t with
  | any => rfl
  | kindTest t =>
    obtain ⟨keyword, ps, test, hpieces, hkeyword, hname, -, -⟩ := kindTest_keyword (σ := σ) h
    have hread := kindTest_complete (σ := σ) (t := t) h rest
    rw [hpieces] at hread
    rw [show (ItemType.kindTest t).pieces = t.pieces from rfl, hpieces]
    refine itemTypeHere_closed (Token.isWord_of_startsName hname)
      (fun ts hts => itemTypeHere_keyword hkeyword hts) fun us hus => ?_
    exact bind_of_ok (hread us hus) _
  | anyFunction =>
    refine itemTypeHere_closed rfl (fun ts => itemTypeHere_function) fun us hus => ?_
    exact bind_of_ok (callOrAny_any rfl _ rest us hus) _
  | function params result =>
    have hread := functionTest_complete hi h.1 h.2 hend hrest
    rw [ItemType.pieces, List.append_assoc] at hread ⊢
    exact itemTypeHere_call rfl (fun ts => itemTypeHere_function) hread
  | anyMap =>
    refine itemTypeHere_closed rfl (fun ts => itemTypeHere_map) fun us hus => ?_
    exact bind_of_ok (callOrAny_any rfl _ rest us hus) _
  | map key value =>
    exact itemTypeHere_closed rfl (fun ts => itemTypeHere_map) (mapTest_complete hi h.1 h.2 rest)
  | anyArray =>
    refine itemTypeHere_closed rfl (fun ts => itemTypeHere_array) fun us hus => ?_
    exact bind_of_ok (callOrAny_any rfl _ rest us hus) _
  | array member =>
    exact itemTypeHere_closed rfl (fun ts => itemTypeHere_array) (arrayTest_complete hi h rest)
  | atomic name => exact itemTypeHere_atomic h hrest
  | parenthesized t =>
    have hs : Solid t.pieces := ItemType.solid h
    have hclose : UnmarkedBefore t.endsUnmarked (")" :: rest) := fun _ u hu => by
      obtain rfl : ")" = u := by simpa [Token.skipSpace, Token.isSpace, Token.space] using hu
      rfl
    have hread := (hi h hclose (endsType_close rest)).write hs.starts
    have hwrite : Piece.write σ (ItemType.pieces (.parenthesized t)) ++ rest =
        "(" :: (Piece.write σ t.pieces ++ ")" :: rest) := by
      rw [ItemType.pieces, List.append_assoc, List.singleton_append, Piece.write_text rfl,
        List.cons_append, lay_closed hs]
    have hbody : (inner >>= fun type => expect ")" "ParenthesizedItemType" >>= fun _ =>
        pure (ItemType.parenthesized type)) (Piece.write σ t.pieces ++ ")" :: rest) =
          .ok (.parenthesized t, rest) := by
      rw [bind_of_ok hread, bind_of_ok (expect_of_skipSpace (skipSpace_of_isWord rfl) _),
        pure_apply]
    rw [hwrite, itemTypeHere_paren]
    exact enclosed_eq_ok.mpr hbody

/-- Item types that fit the levels are read by as many levels of rules. -/
theorem itemType_complete (σ : UriTokens) (levels : Nat) :
    ItemsComplete σ (itemType levels) levels := by
  induction levels with
  | zero => exact fun t rest h => absurd h id
  | succ levels ih =>
    intro t rest h hend hrest us hus
    have := itemTypeHere_complete ih h hend hrest
    rwa [← hus] at this

end Types

end Grammar

end XPath
