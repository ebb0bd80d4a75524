import XPath.Proofs.Complete.Primary

/-!
# Completeness of the rules for paths

The look-ahead for a step tells the two kinds of steps apart: it lets through what is written of a
primary expression (`couldBePrimary_write`), and not what is written of a node test, nor an axis
(`axisStep_lookahead`). A lone slash is found where no path can be read (`relativePath_error`).
-/

namespace XPath.Grammar

open Rule

variable {σ : UriTokens} {inner : Nested} {levels : Nat}

/-! ## Suffixes -/

/-- A suffix is read as what it is. -/
theorem suffix?_complete (hi : inner.Complete σ levels) {s : Suffix Node} (hw : s.WellFormed)
    (hsingle : ∀ e ∈ s.singles, IsSingle levels e)
    (hcontent : ∀ e ∈ s.contents, e.kind = .expr ∧ e.Fits levels)
    (hgroup : ∀ e ∈ s.groups, e.kind = .parenthesizedExpr ∧ e.Fits levels) (rest : List Token) :
    (suffix? inner).Reads (Piece.write σ (s.map Tree.withPieces).pieces) (some (s.map Tree.canon))
      rest := by
  intro us hus
  have hspace := space_apply us
  rw [hus] at hspace
  rw [suffix?, bind_of_ok (rest_apply us), hus]
  cases s with
  | predicate e =>
    have hread := predicate_complete hi (hcontent e (by simp [Suffix.contents])) rest
    exact (bind_of_ok hspace _).trans (bind_of_ok (hread.write (solid_predicate _).starts) _)
  | arguments args =>
    have hread := argumentList_complete hi hsingle rest
    exact (bind_of_ok hspace _).trans (bind_of_ok (hread.write (solid_arguments _).starts) _)
  | lookup key =>
    have hread := keySpecifier_complete hi hw hgroup rest
    have hs : Solid (key.map Tree.withPieces).pieces :=
      KeySpecifier.solid hw fun e he => ⟨(hgroup e he).1, e.solid (hgroup e he).2⟩
    have hwrite : Piece.write σ ((Suffix.lookup key).map Tree.withPieces).pieces ++ rest =
        "?" :: (Piece.write σ (key.map Tree.withPieces).pieces ++ rest) := by
      rw [← Piece.lay_of_starts hs.starts false]
      rfl
    rw [hwrite] at hspace ⊢
    exact (bind_of_ok hspace _).trans
      (bind_of_ok (after_eq_ok.mpr ⟨_, skipSpace_of_isWord rfl, hread.write hs.starts⟩) _)

/-- No suffix is read where an expression with suffixes ends. -/
theorem suffix?_end {rest : List Token} (h : Ends 20 rest) :
    suffix? inner rest = .ok (none, rest) := by
  have hne {t : Token} (ht : 20 ≤ t.rank) : (Token.skipSpace rest).head? ≠ some t := fun he =>
    Nat.not_lt.mpr ht (h.rank_lt t he)
  rw [suffix?, bind_of_ok (rest_apply rest)]
  generalize (Token.skipSpace rest).head? = t? at hne ⊢
  split
  · exact absurd rfl (hne (by decide))
  · exact absurd rfl (hne (by decide))
  · exact absurd rfl (hne (by decide))
  · rfl

/-- A suffix is solid. -/
theorem Suffix.solid {s : Suffix Node} (hw : s.WellFormed)
    (hgroup : ∀ e ∈ s.groups, e.kind = .parenthesizedExpr ∧ e.Fits levels) :
    Solid (s.map Tree.withPieces).pieces := by
  cases s with
  | predicate e => exact solid_predicate _
  | arguments args => exact solid_arguments _
  | lookup key =>
    have hs : Solid (key.map Tree.withPieces).pieces :=
      KeySpecifier.solid hw fun e he => ⟨(hgroup e he).1, e.solid (hgroup e he).2⟩
    exact (Solid.singleton (p := .text "?") rfl).append hs

theorem suffixedExpr_apply (ts : List Token) : suffixedExpr inner ts =
    (primaryExpr inner >>= fun primary => many (suffix? inner) >>= fun suffixes =>
      match suffixes with
      | [] => pure primary
      | suffixes => pure (.of (.suffixed primary suffixes)) : Rule Node) ts :=
  rfl

/-- Suffixes end a primary expression. -/
theorem ends_suffixes {rest : List Token} (h : Ends 20 rest) (suffixes : List (Suffix Node)) :
    Ends 21 (Piece.lay σ false (suffixes.flatMap fun s => (s.map Tree.withPieces).pieces) ++
      rest) := by
  cases suffixes with
  | nil => exact h.mono (by decide)
  | cons s suffixes =>
    obtain ⟨t, ps, hps, ht⟩ := (s.map Tree.withPieces).pieces_eq
    rw [List.flatMap_cons, hps, List.cons_append]
    rcases ht with rfl | rfl | rfl <;> exact .of_text rfl (by decide) (by decide) _ _

/-- A primary expression is read with its suffixes. -/
theorem suffixedExpr_complete (hi : inner.Complete σ levels) {primary : Node}
    {suffixes : List (Suffix Node)} (h : (Form.suffixed primary suffixes).FitsIn levels)
    {rest : List Token} (hrest : Ends 20 rest) :
    (suffixedExpr inner).Reads (Piece.write σ (Node.of (.suffixed primary suffixes)).pieces)
      (Node.of (.suffixed primary suffixes)).canon rest := by
  obtain ⟨hrank, hfits⟩ := h.operand primary (by simp [Form.operands])
  have hpieces : (Node.of (.suffixed primary suffixes)).pieces = primary.pieces ++
      suffixes.flatMap fun s => (s.map Tree.withPieces).pieces := by
    rw [Node.of, Tree.pieces_node]
    exact congrArg _ (List.flatMap_map ..)
  have hmem {e : Node} {roles : Suffix Node → List Node} {s : Suffix Node} (hs : s ∈ suffixes)
      (he : e ∈ roles s) : e ∈ suffixes.flatMap roles :=
    List.mem_flatMap.mpr ⟨s, hs, he⟩
  have hgroup {s : Suffix Node} (hs : s ∈ suffixes) :
      ∀ e ∈ s.groups, e.kind = .parenthesizedExpr ∧ e.Fits levels :=
    fun e he => h.group e (hmem hs he)
  have hprimary := primaryExpr_complete hi hrank hfits (ends_suffixes (σ := σ) hrest suffixes)
  have hmany : many (suffix? inner) (Piece.lay σ false
      (suffixes.flatMap fun s => (s.map Tree.withPieces).pieces) ++ rest) =
        .ok (suffixes.map (·.map Tree.canon), rest) := by
    refine many_reads (fun s hs => Suffix.solid (h.parts s hs) (hgroup hs)) (fun l₁ s l₂ hl => ?_)
      (suffix?_end hrest)
    have hs : s ∈ suffixes := by simp [hl]
    exact suffix?_complete hi (h.parts s hs) (fun e he => h.single e (hmem hs he))
      (fun e he => h.content e (hmem hs he)) (hgroup hs) _
  obtain ⟨s, others, hcons⟩ := List.exists_cons_of_ne_nil h.proper
  intro us hus
  rw [hpieces, Piece.write_solid_append (primary.solid hfits), List.append_assoc] at hus
  rw [suffixedExpr_apply, bind_of_ok (hprimary us hus)]
  refine (bind_of_ok hmany _).trans ?_
  rw [Tree.canon_of, hcons]
  rfl

/-- A primary expression without suffixes. -/
theorem suffixedExpr_primary (hi : inner.Complete σ levels) {n : Node} (hrank : 21 ≤ n.rank)
    (hn : n.Fits levels) {rest : List Token} (hrest : Ends 20 rest) :
    (suffixedExpr inner).Reads (Piece.write σ n.pieces) n.canon rest := by
  have hmany : many (suffix? inner) rest = .ok ([], rest) :=
    many_of_steps (.nil rest) (suffix?_end hrest)
  intro us hus
  rw [suffixedExpr_apply,
    bind_of_ok (primaryExpr_complete hi hrank hn (hrest.mono (by decide)) us hus), bind_of_ok hmany]
  rfl

/-! ## Looking ahead -/

/-- A name that begins no other primary expression begins one where a function is called or referred
to. -/
theorem couldBePrimary_cons {t : Token} {ts : List Token} (ht : Text.startsName t)
    (hfunction : t = "function" → isNext "(" ts = false)
    (hbrace : t = "map" ∨ t = "array" → isNext "\x7b" ts = false) :
    couldBePrimary (t :: ts) = match eqName (t :: ts) with
      | .ok (name, more) => isNext "#" more || isNext "(" more && !isReserved name
      | .error _ => false := by
  have hne {u : Token} (hu : Text.startsName u = false) : t ≠ u := by
    rintro rfl
    simp [hu] at ht
  have hlist : ["(", ".", "$", "?", "[", "'", "\""].contains t = false := by
    simp [hne (u := "(") (by decide), hne (u := ".") (by decide), hne (u := "$") (by decide),
      hne (u := "?") (by decide), hne (u := "[") (by decide), hne (u := "'") (by decide),
      hne (u := "\"") (by decide)]
  have hf : (t == "function" && isNext "(" ts) = false := by simpa using hfunction
  have hb : ((t == "map" || t == "array") && isNext "\x7b" ts) = false := by simpa using hbrace
  rw [couldBePrimary, hlist, hf, hb, Token.isDigits_of_startsName ht]
  cases eqName (t :: ts) with
  | ok x => simp only [Bool.or_self, Bool.false_or]
  | error e => simp only [Bool.or_self]

/-- A name is looked at together with what follows it. -/
theorem couldBePrimary_name {name : EQName} (h : name.WellFormed) {rest : List Token}
    (hrest : EndsName rest)
    (hfunction : name.unqualified? = some "function" → isNext "(" rest = false)
    (hbrace : isNext "\x7b" rest = false) : couldBePrimary (Piece.write σ name.pieces ++ rest) =
      (isNext "#" rest || isNext "(" rest && !isReserved name) := by
  have hread := (eqName_complete (σ := σ) h hrest).write (EQName.solid h).starts
  have hcolon {u : Token} (hu : ":" ≠ u) (ts : List Token) : isNext u (":" :: ts) = false :=
    isNext_of_follows (.inl rfl) rfl hu
  cases name with
  | qName nsPrefix localName =>
    cases nsPrefix with
    | none =>
      rw [write_unprefixed h.2, List.singleton_append] at hread ⊢
      rw [couldBePrimary_cons h.2 (fun hf => hfunction (by rw [EQName.unqualified?, hf]))
        fun _ => hbrace, hread]
    | some p =>
      rw [write_prefixed (h.1 p rfl) h.2] at hread ⊢
      rw [couldBePrimary_cons (h.1 p rfl) (fun _ => hcolon (by decide) _)
        fun _ => hcolon (by decide) _, hread]
  | uriQualified uri localName =>
    rw [write_uriQualified h.2] at hread ⊢
    rw [couldBePrimary_cons (by decide) (by simp) (by simp), hread]

/-- Without colons behind it, no word is an axis. -/
theorem startsAxis_of_not_isNext {t : Token} {ts : List Token} (h : isNext "::" ts = false) :
    startsAxis (t :: ts) = false := by
  rw [startsAxis, h, Bool.and_false]

theorem startsAxis_of_ne {t : Token} (h : ∀ a : Axis, Spelled.spelling a ≠ t) (ts : List Token) :
    startsAxis (t :: ts) = false := by
  have : (Spelled.ofToken? t : Option Axis) = none := by
    cases ha : (Spelled.ofToken? t : Option Axis) with
    | none => rfl
    | some a => exact absurd (Spelled.spelling_of_ofToken? ha) (h a)
  rw [startsAxis, this]
  rfl

/-- A name is no axis, unless colons follow it. -/
theorem startsAxis_name {name : EQName} (h : name.WellFormed) {rest : List Token}
    (hrest : isNext "::" rest = false) :
    startsAxis (Piece.write σ name.pieces ++ rest) = false := by
  cases name with
  | qName nsPrefix localName =>
    cases nsPrefix with
    | none =>
      rw [write_unprefixed h.2, List.singleton_append]
      exact startsAxis_of_not_isNext hrest
    | some p =>
      rw [write_prefixed (h.1 p rfl) h.2]
      exact startsAxis_of_not_isNext (isNext_of_follows (.inl rfl) rfl (by decide))
  | uriQualified uri localName =>
    rw [write_uriQualified h.2]
    exact startsAxis_of_ne (fun a => by cases a <;> decide) _

/-- Digits begin a primary expression. -/
theorem lookahead_digits {t : Token} (h : t.isDigits) (ts : List Token) :
    startsAxis (t :: ts) = false ∧ couldBePrimary (t :: ts) = true := by
  refine ⟨startsAxis_of_ne (fun a => ?_) ts, by simp [couldBePrimary, h]⟩
  rintro rfl
  cases a <;> exact absurd h (by decide)

/-- A primary expression is taken for one. -/
theorem lookahead_primary {n : Node} (hrank : 21 ≤ n.rank) (hn : n.Fits levels)
    {rest : List Token} :
    startsAxis (Piece.write σ n.pieces ++ rest) = false ∧
      couldBePrimary (Piece.write σ n.pieces ++ rest) = true := by
  obtain ⟨⟨⟩, f⟩ := n
  have hf := Tree.fits_node.mp hn
  replace hrank : 21 ≤ f.rank := hrank
  rw [show Tree.node () f = Node.of f from rfl]
  cases f with
  | functionCall name args =>
    have hnext {u : Token} (hu : "(" ≠ u) (ts : List Token) : isNext u ("(" :: ts) = false :=
      isNext_of_follows (.inl rfl) rfl hu
    have hproper : isReserved name = false := hf.proper
    rw [pieces_functionCall, Piece.write_solid_append (EQName.solid hf.parts), List.append_assoc,
      Piece.lay_of_starts (solid_arguments _).starts, write_arguments, List.cons_append]
    refine ⟨startsAxis_name hf.parts (hnext (by decide) _), ?_⟩
    rw [couldBePrimary_name hf.parts (.of_follows (.inl rfl) (by decide) (by decide))
      (fun hfunction => ?_) (hnext (by decide) _)]
    · simp [isNext_cons, hproper, show Token.isWord "(" from rfl]
    · simp [isReserved, hfunction] at hproper
      exact absurd hproper (by decide)
  | namedFunctionRef name arity =>
    have hnext {u : Token} (hu : "#" ≠ u) (ts : List Token) : isNext u ("#" :: ts) = false :=
      isNext_of_follows (.inl rfl) rfl hu
    rw [pieces_namedFunctionRef, Piece.write_solid_append (EQName.solid hf.parts.1),
      List.append_assoc, Piece.lay_text rfl, List.cons_append]
    refine ⟨startsAxis_name hf.parts.1 (hnext (by decide) _), ?_⟩
    rw [couldBePrimary_name hf.parts.1 (.of_follows (.inl rfl) (by decide) (by decide))
      (fun _ => hnext (by decide) _) (hnext (by decide) _)]
    simp [isNext_cons, show Token.isWord "#" from rfl]
  | integer v =>
    obtain ⟨n, rfl⟩ := Int.eq_ofNat_of_zero_le hf.parts
    rw [pieces_integer, readPieces_integer]
    exact lookahead_digits (Token.isDigits_repr n) _
  | decimal d =>
    rw [pieces_decimal, readPieces_decimal hf.parts.1]
    exact lookahead_digits
      (Token.isDigits_ofList.mpr ⟨d.wholeDigits_ne_nil, d.wholeDigits_all⟩) _
  | double x =>
    rw [pieces_double, readPieces_double hf.parts.1 hf.parts.2]
    exact lookahead_digits (Token.isDigits_ofList.mpr
      ⟨x.shortest.leadingDigit_ne_nil, x.shortest.digits_all.1⟩) _
  | curlyArray body => cases body <;> exact ⟨rfl, rfl⟩
  | parenthesized | contextItem | varRef | inlineFunction | mapConstructor | squareArray |
    unaryLookup | string => exact ⟨rfl, rfl⟩
  | chain level first rest => cases level <;> simp [Form.rank, ChainLevel.rank] at hrank
  | _ => simp [Form.rank] at hrank

/-- What begins with no name is not read as one. -/
theorem eqName_error {t : Token} (ht : Text.startsName t = false) (hs : t.isSpace = false)
    (ts : List Token) : eqName (t :: ts) = .error (.unexpected (t :: ts) "NCName") := by
  have hskip : Token.skipSpace (t :: ts) = t :: ts := by simp [Token.skipSpace, hs]
  have hq : t ≠ "Q" := by
    rintro rfl
    exact absurd ht (by decide)
  have hone : one Text.startsName "NCName" (t :: ts) = .error (.unexpected (t :: ts) "NCName") := by
    simp [one, ht]
  have hname : ncName (t :: ts) = .error (.unexpected (t :: ts) "NCName") := by
    rw [ncName_apply, hskip]
    exact bind_of_error hone _
  rw [eqName_apply, hskip, startsBracedUri_of_ne hq, if_neg (by decide)]
  exact bind_of_error hname _

theorem eqName_prefix {p : NCName} (hp : p.WellFormed) (rest : List Token) :
    eqName (p.text :: ":" :: "*" :: rest) = .ok (.qName none p, ":" :: "*" :: rest) := by
  have hcolon : colonName? (":" :: "*" :: rest) = .ok (none, ":" :: "*" :: rest) := rfl
  rw [eqName_apply, skipSpace_of_isWord (Token.isWord_of_startsName hp),
    startsBracedUri_of_head?_ne (by simp), if_neg (by decide), bind_of_ok (ncName_cons hp _)]
  exact bind_of_ok hcolon _

theorem eqName_uriWildcard {uri : String} (h : wellFormedUri uri) (rest : List Token) :
    ∃ e, eqName ("Q" :: "\x7b" :: (σ.tokens uri ++ "\x7d" :: "*" :: rest)) = .error e := by
  have hlocal : localPart "URIQualifiedName" ("*" :: rest) =
      .error (.unexpected ("*" :: rest) ("NCName of " ++ "URIQualifiedName")) := rfl
  refine ⟨.unexpected ("*" :: rest) ("NCName of " ++ "URIQualifiedName"), ?_⟩
  rw [eqName_apply, skipSpace_of_isWord (show Token.isWord "Q" from rfl),
    if_pos (show startsBracedUri ("Q" :: "\x7b" :: _) = true from rfl), uriQualifiedName,
    bind_of_ok (bracedUri_complete h _)]
  exact bind_of_error hlocal _

/-- Only a few of the tokens that no name begins with begin a primary expression. -/
theorem couldBePrimary_symbol {t : Token} (ht : Text.startsName t = false) (hs : t.isSpace = false)
    (hd : t.isDigits = false) (hlist : ["(", ".", "$", "?", "[", "'", "\""].contains t = false)
    (ts : List Token) : couldBePrimary (t :: ts) = false := by
  have hne {u : Token} (hu : Text.startsName u) : (t == u) = false := by
    simp only [beq_eq_false_iff_ne]
    rintro rfl
    simp [ht] at hu
  rw [couldBePrimary, hlist, hd, hne (by decide), hne (by decide), hne (by decide),
    eqName_error ht hs]
  rfl

theorem isReserved_keyword {keyword : Token} (h : KindTest.isKeyword keyword) :
    isReserved (.qName none ⟨keyword⟩) = true := by
  simp [isReserved, EQName.unqualified?, h]

/-- A node test is taken for no primary expression. -/
theorem lookahead_nodeTest {t : NodeTest} (h : t.WellFormed) {rest : List Token}
    (hrest : EndsType rest) (hhash : isNext "#" rest = false)
    (hbrace : isNext "\x7b" rest = false) :
    couldBePrimary (Piece.write σ t.pieces ++ rest) = false := by
  cases t with
  | kindTest t =>
    obtain ⟨keyword, ps, test, hpieces, hkeyword, hname, -, -⟩ := kindTest_keyword (σ := σ) h
    have hwell : EQName.WellFormed (.qName none ⟨keyword⟩) := ⟨by simp, hname⟩
    have hwrite : Piece.write σ t.pieces ++ rest =
        Piece.write σ (EQName.pieces (.qName none ⟨keyword⟩)) ++
          "(" :: (Piece.lay σ false (ps ++ [.text ")"]) ++ rest) := by
      rw [hpieces, write_call (Token.isWord_of_startsName hname), write_unprefixed hname]
      rfl
    rw [show (NodeTest.kindTest t).pieces = t.pieces from rfl, hwrite,
      couldBePrimary_name hwell (.of_follows (.inl rfl) (by decide) (by decide)) (fun hf => ?_)
        (isNext_of_follows (.inl rfl) rfl (by decide)), isReserved_keyword hkeyword,
      isNext_of_follows (.inl rfl) rfl (by decide)]
    · simp
    · obtain rfl : keyword = "function" := by simpa [EQName.unqualified?] using hf
      exact absurd hkeyword (by decide)
  | nameTest t =>
    cases t with
    | name n =>
      rw [show (NodeTest.nameTest (.name n)).pieces = n.pieces from rfl,
        couldBePrimary_name h hrest.toEndsName (fun _ => hrest.not_paren) hbrace, hhash,
        hrest.not_paren]
      rfl
    | wildcard => exact couldBePrimary_symbol (by decide) (by decide) (by decide) (by decide) _
    | nsWildcard w =>
      cases w with
      | anyLocal p =>
        have hcolon {u : Token} (hu : ":" ≠ u) (ts : List Token) : isNext u (":" :: ts) = false :=
          isNext_of_follows (.inl rfl) rfl hu
        rw [show (NodeTest.nameTest (.nsWildcard (.anyLocal p))).pieces =
          NameTest.pieces (.nsWildcard (.anyLocal p)) from rfl, write_anyLocal h,
          couldBePrimary_cons h (fun _ => hcolon (by decide) _) (fun _ => hcolon (by decide) _),
          eqName_prefix h]
        simp only [hcolon (u := "#") (by decide), hcolon (u := "(") (by decide), Bool.false_and,
          Bool.or_self]
      | anyNamespace n =>
        exact couldBePrimary_symbol (by decide) (by decide) (by decide) (by decide) _
      | anyLocalIn uri =>
        obtain ⟨e, he⟩ := eqName_uriWildcard (σ := σ) h rest
        rw [show (NodeTest.nameTest (.nsWildcard (.anyLocalIn uri))).pieces =
          NameTest.pieces (.nsWildcard (.anyLocalIn uri)) from rfl, write_anyLocalIn,
          couldBePrimary_cons (by decide) (by simp) (by simp), he]

/-- No test is an axis, unless colons follow it. -/
theorem startsAxis_nodeTest {t : NodeTest} (h : t.WellFormed) {rest : List Token}
    (hrest : isNext "::" rest = false) : startsAxis (Piece.write σ t.pieces ++ rest) = false := by
  have hstar (ts : List Token) : startsAxis ("*" :: ts) = false :=
    startsAxis_of_ne (fun a => by cases a <;> decide) ts
  cases t with
  | kindTest t =>
    obtain ⟨keyword, ps, test, hpieces, -, hname, -, -⟩ := kindTest_keyword (σ := σ) h
    rw [show (NodeTest.kindTest t).pieces = t.pieces from rfl, hpieces,
      write_call (Token.isWord_of_startsName hname)]
    exact startsAxis_of_not_isNext (isNext_of_follows (.inl rfl) rfl (by decide))
  | nameTest t =>
    cases t with
    | name n => exact startsAxis_name h hrest
    | wildcard => exact hstar _
    | nsWildcard w =>
      cases w with
      | anyLocal p =>
        rw [show (NodeTest.nameTest (.nsWildcard (.anyLocal p))).pieces =
          NameTest.pieces (.nsWildcard (.anyLocal p)) from rfl, write_anyLocal h]
        exact startsAxis_of_not_isNext (isNext_of_follows (.inl rfl) rfl (by decide))
      | anyNamespace n => exact hstar _
      | anyLocalIn uri => exact startsAxis_of_ne (fun a => by cases a <;> decide) _

/-! ## Steps -/

/-- A predicate is read in its brackets. -/
theorem predicate?_complete (hi : inner.Complete σ levels) {n : Node}
    (hn : n.kind = .expr ∧ n.Fits levels) (rest : List Token) :
    (predicate? inner).Reads (Piece.write σ (predicatePieces n.withPieces))
      (some n.canon) rest := by
  intro us hus
  have happly : predicate? inner us =
      (if isNext "[" us then predicate inner >>= fun e => pure (some e) else pure none
        : Rule (Option Node)) us := rfl
  have hnext : isNext "[" us = true := by
    rw [isNext_iff, hus]
    rfl
  rw [happly, if_pos hnext]
  exact bind_of_ok (predicate_complete hi hn rest us hus) _

theorem predicate?_end {rest : List Token} (h : isNext "[" rest = false) :
    predicate? inner rest = .ok (none, rest) := by
  have happly : predicate? inner rest =
      (if isNext "[" rest then predicate inner >>= fun e => pure (some e) else pure none
        : Rule (Option Node)) rest := rfl
  rw [happly, if_neg (by simp [h]), pure_apply]

/-- The pieces of an axis step after its axis. -/
def testPieces (test : NodeTest) (predicates : List Node) : List Piece :=
  test.pieces ++ predicates.flatMap fun e => predicatePieces e.withPieces

theorem pieces_axisStep (axis : Option StepAxis) (test : NodeTest) (predicates : List Node) :
    (Node.of (.axisStep axis test predicates)).pieces =
      axis.elim [] StepAxis.pieces ++ testPieces test predicates := by
  rw [Node.of, Tree.pieces_node, testPieces, ← List.append_assoc]
  exact congrArg _ (List.flatMap_map ..)

theorem solid_testPieces {test : NodeTest} (h : test.WellFormed) (predicates : List Node) :
    Solid (testPieces test predicates) :=
  ⟨(NodeTest.solid h).starts.append _,
    (NodeTest.solid h).closes.append_flatMap fun _ _ => (solid_predicate _).closes⟩

/-- What stands after a node test. -/
theorem endsType_predicates {rest : List Token} (h : Ends 20 rest) (predicates : List Node) :
    EndsType (Piece.lay σ false (predicates.flatMap fun e => predicatePieces e.withPieces) ++
      rest) := by
  cases predicates with
  | nil => exact h.endsType (Nat.le_refl _)
  | cons e es =>
    rw [List.flatMap_cons, predicatePieces, List.append_assoc, List.append_assoc,
      List.singleton_append, Piece.lay_text rfl]
    exact .of_follows (.inl rfl) rfl (by decide) (by decide) (by decide)

theorem isNext_testPieces {u : Token} (hu : u ≠ "[") (hrank : 20 ≤ u.rank) {rest : List Token}
    (h : Ends 20 rest) (predicates : List Node) :
    isNext u (Piece.lay σ false (predicates.flatMap fun e => predicatePieces e.withPieces) ++
      rest) = false := by
  rw [← List.flatMap_map]
  exact isNext_predicates hu (h.not_isNext hrank) _

theorem axisStep_apply (ts : List Token) : axisStep inner ts =
    (take? ".." >>= fun up => if up then pure (.of .parentStep)
      else axis? >>= fun axis => nodeTest >>= fun test => many (predicate? inner) >>= fun ps =>
        pure (.of (.axisStep axis test ps)) : Rule Node) (Token.skipSpace ts) :=
  rfl

/-- The test and the predicates of a step. -/
theorem axisStep_of_axis (hi : inner.Complete σ levels) {axis : Option StepAxis} {test : NodeTest}
    {predicates : List Node} (h : (Form.axisStep axis test predicates).FitsIn levels)
    {rest ts us : List Token} (hrest : Ends 20 rest) (hus : Token.skipSpace us = ts)
    (hup : ts.head? ≠ some "..")
    (haxis : axis? ts = .ok (axis, Piece.write σ (testPieces test predicates) ++ rest)) :
    axisStep inner us = .ok ((Node.of (.axisStep axis test predicates)).canon, rest) := by
  have hmany : many (predicate? inner) (Piece.lay σ false
      (predicates.flatMap fun e => predicatePieces e.withPieces) ++ rest) =
        .ok (predicates.map Tree.canon, rest) := by
    refine many_reads (fun e _ => solid_predicate _) (fun l₁ e l₂ hl => ?_)
      (predicate?_end (hrest.not_isNext (by decide)))
    exact predicate?_complete hi (h.content e (by simp [Form.contents, hl])) _
  have htest := (nodeTest_complete (σ := σ) (show test.WellFormed from h.parts)
    (endsType_predicates (σ := σ) hrest predicates)).write (NodeTest.solid h.parts).starts
  rw [testPieces, Piece.write_solid_append (NodeTest.solid h.parts), List.append_assoc] at haxis
  rw [axisStep_apply, hus, bind_of_ok (take?_of_ne hup), if_neg (by decide), bind_of_ok haxis,
    bind_of_ok htest, bind_of_ok hmany, pure_apply, Tree.canon_of]
  rfl

/-- No step of its own begins like a node test. -/
theorem head?_testPieces_ne {test : NodeTest} (h : test.WellFormed) (predicates : List Node)
    {t : Token} (ht : Text.startsName t = false) (hstar : t ≠ "*") (rest : List Token) :
    (Piece.write σ (testPieces test predicates) ++ rest).head? ≠ some t := by
  obtain ⟨u, hu, hor⟩ := test.exists_head (σ := σ) h
    (predicates.flatMap fun e => predicatePieces e.withPieces)
  rw [Piece.head?_write_append (solid_testPieces h predicates).starts, testPieces, hu]
  rintro ⟨⟩
  rcases hor with hname | rfl
  · simp [ht] at hname
  · exact hstar rfl

/-- The tokens of an axis step, and how its axis is read. -/
theorem axisStep_tokens (axis : Option StepAxis) {test : NodeTest} (predicates : List Node)
    (h : test.WellFormed) {rest : List Token} (hrest : Ends 20 rest) :
    let ts := Piece.write σ (Node.of (.axisStep axis test predicates)).pieces ++ rest
    ts.head? ≠ some ".." ∧ (!startsAxis ts && couldBePrimary ts) = false ∧
      axis? ts = .ok (axis, Piece.write σ (testPieces test predicates) ++ rest) := by
  have hs := (solid_testPieces h predicates).starts
  have hlay : Piece.lay σ false (testPieces test predicates) =
      Piece.write σ (testPieces test predicates) :=
    Piece.lay_of_starts hs false
  intro ts
  have hts : ts = Piece.write σ (axis.elim [] StepAxis.pieces ++ testPieces test predicates) ++
      rest := by rw [← pieces_axisStep]
  generalize ts = us at hts
  subst hts
  cases axis with
  | none =>
    rw [Option.elim_none, List.nil_append]
    have hnext {u : Token} (hu : u ≠ "[") (hrank : 20 ≤ u.rank) :=
      isNext_testPieces (σ := σ) hu hrank hrest predicates
    have hlook := lookahead_nodeTest (σ := σ) h (endsType_predicates hrest predicates)
      (hnext (by decide) (by decide)) (hnext (by decide) (by decide))
    have haxis := startsAxis_nodeTest (σ := σ) h (hnext (u := "::") (by decide) (by decide))
    rw [← List.append_assoc, ← Piece.write_solid_append (NodeTest.solid h)] at hlook haxis
    refine ⟨head?_testPieces_ne h predicates (by decide) (by decide) rest, ?_, ?_⟩
    · rw [testPieces, hlook, Bool.and_false]
    · exact axis?_none (head?_testPieces_ne h predicates (by decide) (by decide) rest) haxis
  | some axis =>
    cases axis with
    | named a =>
      have hwrite : Piece.write σ ((some (StepAxis.named a)).elim [] StepAxis.pieces ++
          testPieces test predicates) = Spelled.spelling a :: "::" ::
            Piece.write σ (testPieces test predicates) := by
        rw [Option.elim_some, StepAxis.pieces, List.cons_append, List.singleton_append,
          Piece.write_text (isWord_axis a), Piece.lay_text rfl, hlay]
      rw [hwrite]
      refine ⟨by cases a <;> simp [Spelled.spelling], ?_, axis?_colons a (skipSpace_of_isWord rfl)⟩
      have hstart : startsAxis (Spelled.spelling a :: "::" ::
          (Piece.write σ (testPieces test predicates) ++ rest)) = true := by
        rw [startsAxis, Spelled.ofToken?_spelling, isNext_cons rfl]
        rfl
      rw [List.cons_append, List.cons_append, hstart]
      rfl
    | atSign =>
      have hwrite : Piece.write σ ((some StepAxis.atSign).elim [] StepAxis.pieces ++
          testPieces test predicates) = "@" :: Piece.write σ (testPieces test predicates) := by
        rw [Option.elim_some, StepAxis.pieces, List.singleton_append, Piece.write_text rfl, hlay]
      rw [hwrite, List.cons_append,
        couldBePrimary_symbol (by decide) (by decide) (by decide) (by decide), Bool.and_false]
      exact ⟨by simp, rfl, rfl⟩

/-- A step is read with its axis, its test and its predicates. -/
theorem axisStep_complete (hi : inner.Complete σ levels) {axis : Option StepAxis} {test : NodeTest}
    {predicates : List Node} (h : (Form.axisStep axis test predicates).FitsIn levels)
    {rest : List Token} (hrest : Ends 20 rest) :
    (axisStep inner).Reads (Piece.write σ (Node.of (.axisStep axis test predicates)).pieces)
      (Node.of (.axisStep axis test predicates)).canon rest := by
  obtain ⟨hup, -, haxis⟩ := axisStep_tokens (σ := σ) axis predicates h.parts hrest
  exact fun us hus => axisStep_of_axis hi h hrest hus hup haxis

theorem stepExpr_apply (ts : List Token) : stepExpr inner ts =
    (if !startsAxis (Token.skipSpace ts) && couldBePrimary (Token.skipSpace ts) then
      suffixedExpr inner
    else axisStep inner : Rule Node) (Token.skipSpace ts) := by
  rw [stepExpr, bind_of_ok (space_apply ts), bind_of_ok (rest_apply _)]

/-- A step that is no axis step is taken for a primary expression. -/
theorem stepExpr_primary {ps : List Piece} (hs : Starts ps) {n : Node} {rest : List Token}
    (hlook : startsAxis (Piece.write σ ps ++ rest) = false ∧
      couldBePrimary (Piece.write σ ps ++ rest) = true)
    (hread : (suffixedExpr inner).Reads (Piece.write σ ps) n rest) :
    (stepExpr inner).Reads (Piece.write σ ps) n rest := by
  intro us hus
  rw [stepExpr_apply, hus, hlook.1, hlook.2, if_pos (by decide)]
  exact hread.write hs

/-- A step is read, whether it is a primary expression or not. -/
theorem stepExpr_complete (hi : inner.Complete σ levels) :
    Completes σ levels 20 (stepExpr inner) := by
  refine .of_rank (fun n rest h hrest => ?_) fun f rest hrank hf _ hrest => ?_
  · exact stepExpr_primary (n.solid h.fits).starts (lookahead_primary h.rank_le h.fits)
      (suffixedExpr_primary hi h.rank_le h.fits hrest)
  · have hstart := ((Node.of f).solid (Tree.fits_node.mpr hf)).starts
    cases f with
    | suffixed primary suffixes =>
      obtain ⟨hrank, hfits⟩ := hf.operand primary (by simp [Form.operands])
      obtain ⟨rest', hwrite, -⟩ := Form.write_leading (σ := σ) hf rfl rest
      refine stepExpr_primary hstart ?_ (suffixedExpr_complete hi hf hrest)
      rw [hwrite]
      exact lookahead_primary hrank hfits
    | axisStep axis test predicates =>
      obtain ⟨-, hlook, -⟩ := axisStep_tokens (σ := σ) axis predicates hf.parts hrest
      intro us hus
      rw [stepExpr_apply, hus, hlook, if_neg (by decide)]
      exact (axisStep_complete hi hf hrest).write hstart
    | parentStep =>
      intro us hus
      have hlook : couldBePrimary (".." :: rest) = false :=
        couldBePrimary_symbol (by decide) (by decide) (by decide) (by decide) _
      rw [stepExpr_apply, hus,
        show Piece.write σ (Node.of .parentStep).pieces ++ rest = ".." :: rest
        from rfl, hlook, Bool.and_false, if_neg (by decide), axisStep_apply,
        skipSpace_of_isWord rfl, bind_of_ok (take?_cons_self _ _), if_pos rfl, pure_apply,
        Tree.canon_of]
      rfl
    | chain level first rest => cases level <;> simp [Form.rank, ChainLevel.rank] at hrank
    | _ => simp [Form.rank] at hrank

/-! ## Chains -/

theorem chainOf_apply (level : ChainLevel) (operand : Rule Node) (ts : List Token) :
    chainOf level operand ts = (chain level.ofToken? operand operand >>= fun x => match x with
      | (first, []) => pure first
      | (first, others) => pure (.of (.chain level first others)) : Rule Node) ts :=
  rfl

/-- Only chains of the level have its rank. -/
theorem rank_eq_level {f : Form Node} {level : ChainLevel} (h : f.rank = level.rank) :
    ∃ first others, f = .chain level first others := by
  cases f with
  | chain level' first others =>
    obtain rfl : level' = level := by
      cases level' <;> cases level <;> first | rfl | cases h
    exact ⟨first, others, rfl⟩
  | _ => cases level <;> cases h

/-- The operator of a link, with the space around it that its level asks for. -/
theorem separates_operator {level : ChainLevel} {op : ChainOp} (h : op.level = level) :
    level.ofToken? (Spelled.spelling op) = some op ∧
      Separates σ (Spelled.spelling op) (level.operatorPieces op) := by
  refine ⟨Option.filter_eq_some_iff.mpr ⟨Spelled.ofToken?_spelling op, by simp [h]⟩, ?_⟩
  unfold ChainLevel.operatorPieces
  split
  · exact separates_text σ (isWord_chainOp op)
  · exact separates_keyword σ (isWord_chainOp op)

theorem rank_of_ofToken? {level : ChainLevel} {t : Token} {op : ChainOp}
    (h : level.ofToken? t = some op) : t.rank = level.rank := by
  obtain ⟨rfl, rfl⟩ := level_of_ofToken? h
  exact Token.rank_chainOp op

/-- Each operand of a chain admits the operator after it. -/
theorem followers_chain (level : ChainLevel) (first : Node) (others : List (ChainOp × Node)) :
    (Form.chain level first others).followers =
      (first :: others.map Prod.snd).zip (others.map fun x => Spelled.spelling x.1) :=
  rfl

/-- An operand of a chain may be followed by the operator behind it. -/
theorem followed_chain {level : ChainLevel} {first : Node} {others : List (ChainOp × Node)}
    (h : ∀ p ∈ (Form.chain level first others).followers, p.1.admits p.2)
    {l₁ l₂ : List (ChainOp × Node)} {x : ChainOp × Node} (hl : others = l₁ ++ x :: l₂) :
    ((l₁.getLast?.map Prod.snd).getD first).admits (Spelled.spelling x.1) := by
  subst hl
  refine h ((l₁.getLast?.map Prod.snd).getD first, Spelled.spelling x.1) ?_
  rw [followers_chain]
  rcases List.eq_nil_or_concat l₁ with rfl | ⟨l, y, rfl⟩
  · simp
  · have hsplit : first :: ((l ++ [y]) ++ x :: l₂).map Prod.snd =
        (first :: l.map Prod.snd) ++ (y.2 :: x.2 :: l₂.map Prod.snd) := by simp
    have hops : ((l ++ [y]) ++ x :: l₂).map (fun z => (Spelled.spelling z.1 : Token)) =
        (l ++ [y]).map (fun z => Spelled.spelling z.1) ++
          (Spelled.spelling x.1 :: l₂.map fun z => Spelled.spelling z.1) := by simp
    rw [List.concat_eq_append, hsplit, hops, List.zip_append (by simp), List.getLast?_concat]
    simp

theorem pieces_chain (level : ChainLevel) (first : Node) (others : List (ChainOp × Node)) :
    (Node.of (.chain level first others)).pieces =
      first.pieces ++ others.flatMap fun x => level.operatorPieces x.1 ++ x.2.pieces := by
  rw [Node.of, Tree.pieces_node]
  exact congrArg _ (List.flatMap_map ..)

/-- The operators and operands of a chain after `l₁`. -/
def linksAfter (σ : UriTokens) (level : ChainLevel) (others : List (ChainOp × Node))
    (rest : List Token) : List Token :=
  linkTokens σ level.operatorPieces Tree.pieces others rest

/-- Every operand of a chain is read in front of what follows it. -/
theorem operand_before {level : ChainLevel} {first : Node} {others : List (ChainOp × Node)}
    (hf : (Form.chain level first others).FitsIn levels) {rest : List Token}
    (hrest : Ends level.rank rest)
    (hadmits : ∀ t ∈ (Token.skipSpace rest).head?, (Node.of (.chain level first others)).admits t)
    {l₁ l₂ : List (ChainOp × Node)} (hl : others = l₁ ++ l₂) :
    ((l₁.getLast?.map Prod.snd).getD first).ReadBefore (level.rank + 1) levels
        (linksAfter σ level l₂ rest) ∧
      Ends (level.rank + 1) (linksAfter σ level l₂ rest) := by
  have hmem : ((l₁.getLast?.map Prod.snd).getD first) ∈
      (Form.chain level first others).operands := by
    cases hx : l₁.getLast? with
    | none => exact List.mem_cons_self
    | some x =>
      refine List.mem_cons_of_mem _ (List.mem_map_of_mem (?_ : x ∈ others))
      rw [hl]
      exact List.mem_append_left _ (List.mem_of_getLast? hx)
  obtain ⟨hrank, hfits⟩ := hf.operand _ hmem
  cases l₂ with
  | nil =>
    obtain rfl : others = l₁ := by simpa using hl
    refine ⟨⟨hrank, hfits, fun t ht => ?_⟩, hrest.mono (Nat.le_succ _)⟩
    rw [← Tree.admits_of_last (l := ()) (f := .chain level first others) rfl]
    exact hadmits t ht
  | cons x l₂ =>
    have hx : x ∈ others := by simp [hl]
    have hlevel := hf.proper.2 x hx
    have hx' : Solid x.2.pieces := x.2.solid (hf.operand x.2
      (List.mem_cons_of_mem _ (List.mem_map_of_mem hx))).2
    have hlinks : ∃ mid,
        Follows (Spelled.spelling x.1) (linksAfter σ level (x :: l₂) rest) mid ∧ _ :=
      linkTokens_cons level.operatorPieces Tree.pieces rest hx'
        (separates_operator (σ := σ) hlevel).2
    obtain ⟨mid, hmid, -⟩ := hlinks
    refine ⟨⟨hrank, hfits, fun t ht => ?_⟩, ?_⟩
    · rw [hmid.skipSpace_eq (isWord_chainOp x.1)] at ht
      obtain rfl : Spelled.spelling x.1 = t := by simpa using ht
      exact followed_chain hf.followed hl
    · rw [linksAfter, linkTokens, List.flatMap_cons, List.append_assoc]
      exact .of_operator hlevel (Nat.lt_succ_self _) _ _

/-- A chain is read if its operands are. -/
theorem chainOf_complete {level : ChainLevel} {operand : Rule Node}
    (hop : Completes σ levels (level.rank + 1) operand) :
    Completes σ levels level.rank (chainOf level operand) := by
  have hend {rest : List Token} (hrest : Ends level.rank rest) :
      ∀ t ∈ (Token.skipSpace rest).head?, level.ofToken? t = none :=
    hrest.read_eq_none fun t op ht => Nat.le_of_eq (rank_of_ofToken? ht).symm
  refine .of_rank (fun n rest h hrest us hus => ?_) fun f rest hrank hf hadmits hrest => ?_
  · have hfirst := hop h (hrest.mono (Nat.le_succ _)) us hus
    rw [chainOf_apply, bind_of_ok (chain_of_links hfirst (.nil (hend hrest)))]
    rfl
  · obtain ⟨first, others, rfl⟩ := rank_eq_level hrank
    have hsolid {e : Node} (he : e ∈ (Form.chain level first others).operands) : Solid e.pieces :=
      e.solid (hf.operand e he).2
    have hfirst := operand_before (σ := σ) hf hrest hadmits (List.nil_append others).symm
    have hlinks : Links level.ofToken? operand (linksAfter σ level others rest)
        (others.map fun x => (x.1, x.2.canon)) rest := by
      refine links_of_lay level.operatorPieces Tree.pieces Tree.canon rest (fun x hx => ?_)
        (fun x hx => ?_) (fun l₁ x l₂ hl => ?_) (hend hrest)
      · exact hsolid (List.mem_cons_of_mem _ (List.mem_map_of_mem hx))
      · exact ⟨_, isWord_chainOp x.1, separates_operator (hf.proper.2 x hx)⟩
      · have hsplit : others = (l₁ ++ [x]) ++ l₂ := by
          rw [hl, List.append_assoc, List.singleton_append]
        have hx := operand_before (σ := σ) hf hrest hadmits hsplit
        rw [List.getLast?_concat] at hx
        exact hop hx.1 hx.2
    obtain ⟨x, l, hcons⟩ := List.exists_cons_of_ne_nil hf.proper.1
    intro us hus
    rw [pieces_chain, Piece.write_solid_append (hsolid List.mem_cons_self),
      List.append_assoc] at hus
    rw [chainOf_apply, bind_of_ok (chain_of_links (hop hfirst.1 hfirst.2 us hus) hlinks),
      Tree.canon_of, hcons]
    rfl

/-- A path without a leading slash is read. -/
theorem relativePath_complete (hi : inner.Complete σ levels) :
    Completes σ levels 19 (relativePath inner) :=
  show Completes σ levels ChainLevel.relativePath.rank (chainOf .relativePath (stepExpr inner)) from
    chainOf_complete (stepExpr_complete hi)

/-! ## Paths -/

/-- A token that begins no step. -/
structure BeginsNoStep (t : Token) : Prop where
  no_step : canStartStep [t] = false
  not_space : t.isSpace = false

namespace BeginsNoStep

variable {t : Token}

/-- No name begins there. -/
theorem startsName_eq_false (h : BeginsNoStep t) : Text.startsName t = false := by
  have := h.no_step
  simp only [canStartStep, Bool.or_eq_false_iff] at this
  exact this.1.1

theorem ne_of_canStartStep (h : BeginsNoStep t) {u : Token} (hu : canStartStep [u]) : t ≠ u := by
  rintro rfl
  simp [h.no_step] at hu

theorem isDigits_eq_false (h : BeginsNoStep t) : t.isDigits = false := by
  have := h.no_step
  simp only [canStartStep, Bool.or_eq_false_iff] at this
  exact this.1.2

theorem couldBePrimary (h : BeginsNoStep t) (ts : List Token) :
    couldBePrimary (t :: ts) = false := by
  refine couldBePrimary_symbol h.startsName_eq_false h.not_space h.isDigits_eq_false ?_ ts
  simp [h.ne_of_canStartStep (u := "(") (by decide), h.ne_of_canStartStep (u := ".") (by decide),
    h.ne_of_canStartStep (u := "$") (by decide), h.ne_of_canStartStep (u := "?") (by decide),
    h.ne_of_canStartStep (u := "[") (by decide), h.ne_of_canStartStep (u := "'") (by decide),
    h.ne_of_canStartStep (u := "\"") (by decide)]

theorem skipSpace_eq (h : BeginsNoStep t) (ts : List Token) :
    Token.skipSpace (t :: ts) = t :: ts := by
  simp [Token.skipSpace, h.not_space]

/-- A test fails at a token that no step begins with. -/
theorem nodeTest_error (h : BeginsNoStep t) (ts : List Token) :
    nodeTest (t :: ts) = .error (.unexpected (t :: ts) "NCName") := by
  have hkeyword : KindTest.isKeyword t = false := by
    refine Bool.eq_false_iff.mpr fun hk => ?_
    have hnames : ∀ keyword ∈ KindTest.keywords, Text.startsName keyword := by decide
    simpa [h.startsName_eq_false] using hnames t (List.contains_iff_mem.mp hk)
  have hwild : prefixWildcard? (t :: ts) = .ok (none, t :: ts) := by
    match ts with
    | colon :: star :: ts => rw [prefixWildcard?, if_neg (by simp [h.startsName_eq_false])]
    | [_] | [] => rfl
  have htest : nameTest (t :: ts) = .error (.unexpected (t :: ts) "NCName") := by
    rw [nameTest_apply, h.skipSpace_eq, startsBracedUri_of_ne (h.ne_of_canStartStep (by decide)),
      if_neg (by decide), bind_of_ok
        (take?_of_ne (by simpa using h.ne_of_canStartStep (by decide))),
      if_neg (by decide), bind_of_ok hwild]
    exact bind_of_error (eqName_error h.startsName_eq_false h.not_space ts) _
  rw [nodeTest_apply, h.skipSpace_eq, startsKindTest, hkeyword, Bool.false_and, if_neg (by decide)]
  exact bind_of_error htest _

/-- A step fails at a token that no step begins with. -/
theorem stepExpr_error (h : BeginsNoStep t) (ts : List Token) {us : List Token}
    (hus : Token.skipSpace us = t :: ts) :
    stepExpr inner us = .error (.unexpected (t :: ts) "NCName") := by
  have haxis : startsAxis (t :: ts) = false :=
    startsAxis_of_ne (fun a => (h.ne_of_canStartStep (by cases a <;> decide)).symm) ts
  have hnone : axis? (t :: ts) = .ok (none, t :: ts) :=
    axis?_none (by simpa using h.ne_of_canStartStep (by decide)) haxis
  rw [stepExpr_apply, hus, h.couldBePrimary, Bool.and_false, if_neg (by decide), axisStep_apply,
    h.skipSpace_eq, bind_of_ok (take?_of_ne (by simpa using h.ne_of_canStartStep (by decide))),
    if_neg (by decide), bind_of_ok hnone]
  exact bind_of_error (h.nodeTest_error ts) _

end BeginsNoStep

/-- A step fails at the end. -/
theorem stepExpr_nil {us : List Token} (hus : Token.skipSpace us = []) :
    stepExpr inner us = .error (.unexpected [] "NCName") := by
  rw [stepExpr_apply, hus]
  rfl

/-- No path is read where no step begins, and nothing is taken. -/
theorem relativePath_error {rest : List Token}
    (h : ∀ t ∈ (Token.skipSpace rest).head?, BeginsNoStep t) :
    relativePath inner rest = .error (.unexpected (Token.skipSpace rest) "NCName") := by
  have hstep : stepExpr inner rest = .error (.unexpected (Token.skipSpace rest) "NCName") := by
    cases hrest : Token.skipSpace rest with
    | nil => exact stepExpr_nil hrest
    | cons t ts => exact (h t (by simp [hrest])).stepExpr_error ts hrest
  rw [relativePath, chainOf_apply, chain_apply]
  exact bind_of_error (bind_of_error hstep _) _

theorem pathAfter_some {leading : PathOp} {relative : Node} {ts rest : List Token}
    (h : relativePath inner ts = .ok (relative, rest)) :
    pathAfter inner leading ts = .ok (.of (.path leading (some relative)), rest) := by
  rw [pathAfter, h]

/-- A slash stands alone in front of such a token. -/
theorem pathAfter_none {rest : List Token}
    (h : ∀ t ∈ (Token.skipSpace rest).head?, BeginsNoStep t) :
    pathAfter inner .slash rest = .ok (.of (.path .slash none), rest) := by
  have hstart : canStartStep (Token.skipSpace rest) = false := by
    cases hrest : Token.skipSpace rest with
    | nil => rfl
    | cons t ts => exact (h t (by simp [hrest])).no_step
  rw [pathAfter, relativePath_error h]
  simp [hstart]

theorem pathExpr_apply (ts : List Token) : pathExpr inner ts =
    (match (Token.skipSpace ts).head?.bind (Spelled.ofToken? : Token → Option PathOp) with
    | some leading => advance >>= fun _ => pathAfter inner leading
    | none => relativePath inner : Rule Node) (Token.skipSpace ts) :=
  rfl

/-- What begins as a step has no slash in front. -/
theorem pathExpr_relative (hi : inner.Complete σ levels) {n : Node} {rest : List Token}
    (h : n.ReadBefore 19 levels rest) (hrest : Ends 19 rest) :
    (pathExpr inner).Reads (Piece.write σ n.pieces) n.canon rest := by
  have hstart := (n.solid h.fits).starts
  obtain ⟨t, ht, hb⟩ := Tree.beginsWith (σ := σ) h.fits (Nat.lt_of_lt_of_le (by decide) h.rank_le)
  have hlead : (Spelled.ofToken? t : Option PathOp) = none := by
    cases hop : (Spelled.ofToken? t : Option PathOp) with
    | none => rfl
    | some op =>
      obtain rfl := Spelled.spelling_of_ofToken? hop
      have hrank := h.rank_le
      cases hb with
      | step hstep => cases op <;> exact absurd hstep (by decide)
      | slash _ _ hle | sign _ _ hle => omega
  have hread := (relativePath_complete hi h hrest).write (σ := σ) hstart
  intro us hus
  rw [pathExpr_apply, hus, Piece.head?_write_append hstart, ht, Option.bind_some, hlead]
  exact hread

/-- A slash that stands alone is a path. -/
theorem pathExpr_alone {rest : List Token}
    (hadmits : ∀ t ∈ (Token.skipSpace rest).head?, (Node.of (.path .slash none)).admits t)
    (hrest : Ends 18 rest) :
    (pathExpr inner).Reads (Piece.write σ (Node.of (.path .slash none)).pieces)
      (Node.of (.path .slash none)).canon rest := by
  have hno : ∀ t ∈ (Token.skipSpace rest).head?, BeginsNoStep t := by
    intro t ht
    have hstep : canStartStep [t] = false := by
      simpa [Node.of, Tree.admits_node, Form.map, Form.admits] using hadmits t ht
    refine ⟨hstep, Bool.eq_false_iff.mpr fun hs => ?_⟩
    obtain rfl : t = Token.space := by simpa [Token.isSpace] using hs
    exact absurd (hrest.rank_lt _ ht) (by decide)
  intro us hus
  rw [pathExpr_apply, hus]
  refine (bind_of_ok (advance_cons _ rest) _).trans ?_
  rw [pathAfter_none hno, Tree.canon_of]
  rfl

/-- A path is read behind its leading slash. -/
theorem pathExpr_leading (hi : inner.Complete σ levels) (leading : PathOp) {r : Node}
    {rest : List Token} (h : r.ReadBefore 19 levels rest) (hrest : Ends 19 rest) :
    (pathExpr inner).Reads (Piece.write σ (Node.of (.path leading (some r))).pieces)
      (Node.of (.path leading (some r))).canon rest := by
  have hs := (r.solid h.fits).starts
  have hpieces : (Node.of (.path leading (some r))).pieces =
      .text (Spelled.spelling leading) :: r.pieces := by
    rw [Node.of, Tree.pieces_node]
    rfl
  have hread := (relativePath_complete hi h hrest).write (σ := σ) hs
  intro us hus
  rw [hpieces, Piece.write_text (isWord_pathOp leading), Piece.lay_of_starts hs,
    List.cons_append] at hus
  rw [pathExpr_apply, hus, List.head?_cons, Option.bind_some, Spelled.ofToken?_spelling]
  refine (bind_of_ok (advance_cons _ _) _).trans ?_
  rw [pathAfter_some hread, Tree.canon_of]
  rfl

/-- A path is read, with a leading slash or without one. -/
theorem pathExpr_complete (hi : inner.Complete σ levels) :
    Completes σ levels 18 (pathExpr inner) := by
  refine .of_rank (fun n rest h hrest => pathExpr_relative hi h (hrest.mono (by decide)))
    fun f rest hrank hf hadmits hrest => ?_
  cases f with
  | path leading relative =>
    cases relative with
    | none =>
      obtain rfl : leading = .slash := hf.proper rfl
      exact pathExpr_alone hadmits hrest
    | some r =>
      obtain ⟨hr, hfits⟩ := hf.operand r (by simp [Form.operands])
      refine pathExpr_leading hi leading ⟨hr, hfits, fun t ht => ?_⟩ (hrest.mono (by decide))
      rw [← Tree.admits_of_last (l := ()) (f := .path leading (some r)) rfl]
      exact hadmits t ht
  | chain level first rest => cases level <;> simp [Form.rank, ChainLevel.rank] at hrank
  | _ => simp [Form.rank] at hrank

end XPath.Grammar
