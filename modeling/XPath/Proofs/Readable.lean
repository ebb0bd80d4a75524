import XPath.Proofs.Adjacent
import XPath.Proofs.Complete.Opening

/-!
# Readable constructs

A rendered construct is readable if what is rendered of its children is: a bracket, a comma or a
word with its spaces stands between any two parts, except for the colons of names and axes and the
slashes of paths. A colon or a slash needs a term on its other side, so it is said of steps how they
begin (`Tree.startsTerm`) and how they end (`Tree.endsTerm`).
-/

namespace XPath

open Piece

/-! ## Names and types -/

theorem NCName.readable (n : NCName) : Readable n.pieces := .singleton _

/-- What is separated by commas is readable if its parts are. -/
theorem readable_commaSeparated : ∀ {pss : List (List Piece)}, (∀ ps ∈ pss, Readable ps) →
    Readable (commaSeparated pss)
  | [], _ => .nil
  | [ps], h => h ps (by simp)
  | ps :: qs :: pss, h =>
    Bridge.comma.between (h ps (by simp))
      (readable_commaSeparated fun ps' hps' => h ps' (List.mem_cons_of_mem ps hps'))

theorem readable_commaSeparated_map {α β : Type} {f : α → β} {g : β → List Piece} {xs : List α}
    (h : ∀ x ∈ xs, Readable (g (f x))) : Readable (commaSeparated ((xs.map f).map g)) :=
  readable_commaSeparated (List.forall_mem_map.mpr (List.forall_mem_map.mpr h))

theorem readable_call (word : Token) {body : List Piece} (h : Readable body) :
    Readable (callPieces word body) := by
  have hopen : Readable ([text word] ++ [text "("] ++ body) :=
    (Bridge.singleton (p := text "(") rfl).between (.singleton _) h
  exact (Bridge.singleton (p := text ")") rfl).after hopen

theorem EQName.readable {n : EQName} (h : n.WellFormed) : Readable n.pieces := by
  cases n with
  | qName nsPrefix localName =>
    cases nsPrefix with
    | none => exact localName.readable
    | some p =>
      have hcolon := Piece.name_apart_colon (h.1 p rfl)
      have hlocal := Piece.colon_apart (.inl rfl) (Piece.isTerm_of_startsName h.2)
      simp [EQName.pieces, NCName.pieces, Readable, hcolon, hlocal]
  | uriQualified uri localName =>
    exact (Readable.singleton (.bracedUri uri)).final_append localName.readable rfl

theorem NameTest.readable {t : NameTest} (h : t.WellFormed) : Readable t.pieces := by
  cases t with
  | name n => exact EQName.readable h
  | wildcard => exact .singleton _
  | nsWildcard w =>
    cases w with
    | anyLocal p =>
      have hcolon := Piece.name_apart_colon h
      have hstar : Piece.apart (.text ":") (.text "*") := rfl
      simp [NameTest.pieces, NsWildcard.pieces, NCName.pieces, Readable, hcolon, hstar]
    | anyNamespace n =>
      have hcolon : Piece.apart (.text "*") (.text ":") := rfl
      have hlocal := Piece.colon_apart (.inl rfl) (Piece.isTerm_of_startsName h)
      simp [NameTest.pieces, NsWildcard.pieces, NCName.pieces, Readable, hcolon, hlocal]
    | anyLocalIn uri =>
      exact (Readable.singleton (.bracedUri uri)).final_append (.singleton (.text "*")) rfl

theorem NameOrWildcard.readable {n : NameOrWildcard} (h : n.WellFormed) : Readable n.pieces := by
  cases n with
  | name n => exact EQName.readable h
  | wildcard => exact .singleton _

/-- A mark at the end, if there is one. -/
theorem readable_marked {ps : List Piece} (h : Readable ps) (marked : Bool) (mark : Token)
    (hmark : (text mark).isInitial) : Readable (ps ++ if marked then [text mark] else []) := by
  cases marked with
  | false => simpa using h
  | true => exact h.append_initial (.singleton _) hmark

theorem ElementTest.readable {t : ElementTest} (h : t.WellFormed) : Readable t.pieces := by
  unfold ElementTest.pieces
  split
  next => exact .nil
  next n hn _ => exact NameOrWildcard.readable (h.name n hn)
  next n type hn htype =>
    exact readable_marked (Bridge.comma.between (NameOrWildcard.readable (h.name n hn))
      (EQName.readable (h.typeName type htype))) t.nillable "?" rfl

theorem AttributeTest.readable {t : AttributeTest} (h : t.WellFormed) : Readable t.pieces := by
  unfold AttributeTest.pieces
  split
  next => exact .nil
  next n hn _ => exact NameOrWildcard.readable (h.name n hn)
  next n type hn htype =>
    exact Bridge.comma.between (NameOrWildcard.readable (h.name n hn))
      (EQName.readable (h.typeName type htype))

theorem DocumentContent.readable {c : DocumentContent} (h : c.WellFormed) : Readable c.pieces := by
  cases c with
  | element t => exact readable_call _ (ElementTest.readable h)
  | schemaElement n => exact readable_call _ (EQName.readable h)

theorem KindTest.readable {t : KindTest} (h : t.WellFormed) : Readable t.pieces := by
  cases t with
  | document content =>
    refine readable_call _ ?_
    cases content with
    | none => exact .nil
    | some c => exact DocumentContent.readable (h c rfl)
  | element t => exact readable_call _ (ElementTest.readable h)
  | attr t => exact readable_call _ (AttributeTest.readable h)
  | schemaElement n => exact readable_call _ (EQName.readable h)
  | schemaAttribute n => exact readable_call _ (EQName.readable h)
  | processingInstruction target =>
    refine readable_call _ ?_
    cases target with
    | none => exact .nil
    | some t => cases t <;> exact .singleton _
  | _ => exact readable_call _ .nil

theorem NodeTest.readable {t : NodeTest} (h : t.WellFormed) : Readable t.pieces := by
  cases t with
  | kindTest t => exact KindTest.readable h
  | nameTest t => exact NameTest.readable h

theorem SingleType.readable {t : SingleType} (h : t.name.WellFormed) : Readable t.pieces :=
  readable_marked (EQName.readable h) t.optional "?" rfl

theorem SequenceType.readable {inner : ItemType → Prop} (hinner : ∀ t, inner t → Readable t.pieces)
    {t : SequenceType} (h : t.FitsIn inner) : Readable t.pieces := by
  cases t with
  | empty => exact readable_call _ .nil
  | items type occurrence =>
    have htype := hinner type h.1
    cases occurrence with
    | none => simpa [SequenceType.pieces] using htype
    | some o => exact htype.append_initial (.singleton _) (by cases o <;> rfl)

theorem ItemType.readable_of_fitsIn {inner : ItemType → Prop}
    (hinner : ∀ t, inner t → Readable t.pieces) {t : ItemType} (h : t.FitsIn inner) :
    Readable t.pieces := by
  cases t with
  | kindTest t => exact KindTest.readable h
  | function params result =>
    refine (Bridge.keyword "as").between (readable_call _ ?_) (SequenceType.readable hinner h.2)
    rw [Grammar.piecesAll_eq]
    exact readable_commaSeparated (List.forall_mem_map.mpr fun p hp =>
      SequenceType.readable hinner (h.1 p hp))
  | map key value =>
    exact readable_call _
      (Bridge.comma.between (EQName.readable h.1) (SequenceType.readable hinner h.2))
  | array member => exact readable_call _ (SequenceType.readable hinner h)
  | atomic name => exact EQName.readable h
  | parenthesized t =>
    exact (Bridge.singleton (p := text ")") rfl).after
      ((Bridge.singleton (p := text "(") rfl).before (hinner t h))
  | any => exact readable_call _ .nil
  | _ => exact readable_call _ (.singleton _)

theorem ItemType.readable {levels : Nat} {t : ItemType} (h : ItemType.Fits levels t) :
    Readable t.pieces := by
  induction levels generalizing t with
  | zero => cases h
  | succ levels ih => exact readable_of_fitsIn (fun _ => ih) h

/-! ## Parts of constructs -/

section Parts

variable {ι : Type}

theorem Binding.readable {b : Binding (Tree ι × List Piece)} (hname : b.name.WellFormed)
    (he : Readable b.expr.2) : Readable b.pieces :=
  (Bridge.keyword _).between
    ((Bridge.singleton (p := text "$") rfl).before (EQName.readable hname)) he

theorem readable_bindings (word : Token) {bs : List (Binding (Tree ι))}
    (hnames : ∀ b ∈ bs, b.name.WellFormed) (hexprs : ∀ b ∈ bs, Readable b.expr.pieces) :
    Readable (bindingsPieces word (bs.map (·.map Tree.withPieces))) := by
  have hkeyword : Readable [text word, gap] := by simp [Readable, apart, isWhole]
  refine hkeyword.final_append (readable_commaSeparated_map fun b hb => ?_) rfl
  exact Binding.readable (hnames b hb) (hexprs b hb)

/-- Bindings, and after a word what is said of their variables. -/
theorem readable_bound (word link : Token) {bs : List (Binding (Tree ι))} {body : Tree ι}
    (hnames : ∀ b ∈ bs, b.name.WellFormed)
    (h : ∀ e ∈ bs.map Binding.expr ++ [body], Readable e.pieces) :
    Readable (bindingsPieces word (bs.map (·.map Tree.withPieces)) ++ keyword link ++
      body.pieces) := by
  have hexprs (b : Binding (Tree ι)) (hb : b ∈ bs) : Readable b.expr.pieces :=
    h b.expr (List.mem_append_left _ (List.mem_map_of_mem hb))
  exact (Bridge.keyword link).between (readable_bindings word hnames hexprs) (h body (by simp))

theorem readable_bracketed {opening closing : Token} (ho : (text opening).isFinal)
    (hc : (text closing).isInitial) {ps : List Piece} (h : Readable ps) :
    Readable ([text opening] ++ ps ++ [text closing]) :=
  ((Readable.singleton (text opening)).final_append h (by simpa using ho)).append_initial
    (.singleton _) (by simpa using hc)

theorem readable_arguments {args : List (Argument (Tree ι))}
    (h : ∀ e ∈ args.flatMap Argument.children, Readable e.pieces) :
    Readable (argumentPieces (args.map (·.map Tree.withPieces))) := by
  refine readable_bracketed rfl rfl (readable_commaSeparated_map fun a ha => ?_)
  cases a with
  | expr e => exact h e (List.mem_flatMap.mpr ⟨_, ha, by simp [Argument.children]⟩)
  | placeholder => exact .singleton _

theorem readable_parenthesized {e : Tree ι} (h : Readable e.pieces) :
    Readable (parenthesizedPieces e.withPieces) := by
  unfold parenthesizedPieces
  split
  · exact h
  · exact readable_bracketed rfl rfl h

theorem KeySpecifier.readable {key : KeySpecifier (Tree ι)}
    (h : ∀ e ∈ key.children, Readable e.pieces) : Readable (key.map Tree.withPieces).pieces := by
  cases key with
  | parenthesized e => exact readable_parenthesized (h e (by simp [children]))
  | _ => exact .singleton _

theorem ArrowTarget.readable {target : ArrowTarget (Tree ι)} (hw : target.WellFormed)
    (h : ∀ e ∈ target.children, Readable e.pieces) :
    Readable (target.map Tree.withPieces).pieces := by
  cases target with
  | name n => exact EQName.readable hw
  | var n => exact (Bridge.singleton (p := text "$") rfl).before (EQName.readable hw)
  | parenthesized e => exact readable_parenthesized (h e (by simp [children]))

theorem Suffix.readable {s : Suffix (Tree ι)} (h : ∀ e ∈ s.children, Readable e.pieces) :
    Readable (s.map Tree.withPieces).pieces ∧
      (s.map Tree.withPieces).pieces.head?.all isInitial := by
  cases s with
  | predicate e => exact ⟨readable_bracketed rfl rfl (h e (by simp [children])), rfl⟩
  | arguments args => exact ⟨readable_arguments h, rfl⟩
  | lookup key =>
    exact ⟨(Bridge.singleton (p := text "?") rfl).before (KeySpecifier.readable h), rfl⟩

theorem ArrowCall.readable {c : ArrowCall (Tree ι)} (hw : c.target.WellFormed)
    (h : ∀ e ∈ c.children, Readable e.pieces) : Readable (c.map Tree.withPieces).pieces := by
  refine (ArrowTarget.readable hw fun e he => h e ?_).append_initial
    (readable_arguments fun e he => h e ?_) rfl
  · exact List.mem_append_left _ he
  · exact List.mem_append_right _ he

theorem readable_enclosed {body : Option (Tree ι)} (h : ∀ e ∈ body, Readable e.pieces) :
    Readable (enclosedPieces (body.map Tree.withPieces)) := by
  cases body with
  | none => exact (Readable.singleton (text "\x7b")).final_append (.singleton (text "\x7d")) rfl
  | some e =>
    have hopen : Readable [text "\x7b", gap] := by simp [Readable, apart, isWhole]
    have hclose : Readable [gap, text "\x7d"] := by simp [Readable, apart, isWhole]
    exact (hopen.final_append (h e rfl) rfl).append_initial hclose rfl

/-- A declared type, if there is one. -/
theorem readable_declared {levels : Nat} {type : Option SequenceType}
    (h : ∀ t ∈ type, t.FitsIn (ItemType.Fits levels)) {ps : List Piece} (hp : Readable ps) :
    Readable (ps ++ type.elim [] fun t => keyword "as" ++ t.pieces) := by
  cases type with
  | none => simpa using hp
  | some t =>
    rw [Option.elim_some, ← List.append_assoc]
    exact (Bridge.keyword "as").between hp
      (SequenceType.readable (fun _ => ItemType.readable) (h t rfl))

theorem Param.readable {levels : Nat} {p : Param} (h : p.FitsIn (ItemType.Fits levels)) :
    Readable p.pieces :=
  readable_declared h.type ((Bridge.singleton (p := text "$") rfl).before (EQName.readable h.name))

theorem MapEntry.readable {e : MapEntry (Tree ι)}
    (h : ∀ e' ∈ [e.key, e.value], Readable e'.pieces) :
    Readable (e.map Tree.withPieces).pieces :=
  (Bridge.keyword ":").between (h e.key (by simp)) (h e.value (by simp))

end Parts

/-! ## Trees -/

theorem EQName.startsTerm {n : EQName} (h : n.WellFormed) : StartsTerm n.pieces := by
  cases n with
  | qName nsPrefix localName =>
    cases nsPrefix with
    | none => exact ⟨_, rfl, isTerm_of_startsName h.2⟩
    | some p => exact ⟨_, rfl, isTerm_of_startsName (h.1 p rfl)⟩
  | uriQualified uri localName => exact ⟨_, rfl, rfl⟩

theorem EQName.endsTerm {n : EQName} (h : n.WellFormed) : EndsTerm n.pieces := by
  cases n with
  | qName nsPrefix localName =>
    have hlocal : EndsTerm localName.pieces := ⟨_, rfl, isTerm_of_startsName h.2⟩
    cases nsPrefix with
    | none => exact hlocal
    | some p => exact hlocal.append _
  | uriQualified uri localName => exact ⟨_, rfl, isTerm_of_startsName h.2⟩

theorem endsTerm_call (word : Token) (body : List Piece) : EndsTerm (callPieces word body) :=
  EndsTerm.append ⟨text ")", rfl, rfl⟩ _

theorem KindTest.terms (t : KindTest) : StartsTerm t.pieces ∧ EndsTerm t.pieces := by
  cases t <;> exact ⟨⟨_, rfl, rfl⟩, endsTerm_call _ _⟩

theorem NodeTest.terms {t : NodeTest} (h : t.WellFormed) :
    StartsTerm t.pieces ∧ EndsTerm t.pieces := by
  cases t with
  | kindTest t => exact t.terms
  | nameTest t =>
    cases t with
    | name n => exact ⟨EQName.startsTerm h, EQName.endsTerm h⟩
    | wildcard => exact ⟨⟨_, rfl, rfl⟩, _, rfl, rfl⟩
    | nsWildcard w =>
      cases w with
      | anyLocal p => exact ⟨⟨_, rfl, isTerm_of_startsName h⟩, _, rfl, rfl⟩
      | anyNamespace n => exact ⟨⟨_, rfl, rfl⟩, _, rfl, isTerm_of_startsName h⟩
      | anyLocalIn uri => exact ⟨⟨_, rfl, rfl⟩, _, rfl, rfl⟩

theorem isTerm_of_canStartStep {t : Token} (h : Grammar.canStartStep [t]) : (text t).isTerm := by
  rw [Grammar.canStartStep, Bool.or_eq_true, Bool.or_eq_true] at h
  rcases h with (h | h) | h
  · exact isTerm_of_startsName h
  · exact isTerm_of_isDigits h
  · have hall : ∀ t ∈ ["*", "@", ".", "..", "(", "$", "?", "[", "'", "\""],
        (text t).isTerm := by decide
    exact hall t (by simpa using h)

/-- A path or a step begins as a term. -/
theorem Tree.startsTerm {levels : Nat} {n : Node} (h : n.Fits levels) (hrank : 19 ≤ n.rank) :
    StartsTerm n.pieces := by
  obtain ⟨t, ht, hbegins⟩ := Tree.beginsWith (σ := .whole) h (by omega)
  have hterm : (Piece.text t).isTerm := by
    cases hbegins with
    | step hstep => exact isTerm_of_canStartStep hstep
    | slash _ _ hle => omega
    | sign _ _ hle => omega
  obtain ⟨p, ps, hps⟩ : ∃ p ps, n.pieces = p :: ps := by
    cases hps : n.pieces with
    | nil => simp [hps, write, lay] at ht
    | cons p ps => exact ⟨p, ps, rfl⟩
  refine ⟨p, by rw [hps]; rfl, ?_⟩
  have hstarts := (n.solid h).starts
  rw [hps] at ht hstarts
  cases p with
  | text u =>
    obtain rfl : u = t := Option.some.inj ht
    exact hterm
  | string s => rfl
  | bracedUri u => rfl
  | gap => cases hstarts

theorem endsTerm_bracketed (opening : Token) (ps : List Piece) {closing : Token}
    (h : (text closing).isTerm) : EndsTerm ([text opening] ++ ps ++ [text closing]) :=
  EndsTerm.append ⟨text closing, rfl, h⟩ _

theorem endsTerm_enclosed {ι : Type} (o : Option (Tree ι × List Piece)) :
    EndsTerm (enclosedPieces o) := by
  cases o with
  | none => exact ⟨_, rfl, rfl⟩
  | some e => exact EndsTerm.append ⟨text "\x7d", rfl, rfl⟩ _

theorem KeySpecifier.endsTerm {ι : Type} {key : KeySpecifier (Tree ι)} (hw : key.WellFormed)
    (h : ∀ e ∈ key.children, EndsTerm e.pieces) : EndsTerm (key.map Tree.withPieces).pieces := by
  cases key with
  | name n => exact ⟨_, rfl, isTerm_of_startsName hw⟩
  | integer v =>
    obtain ⟨n, rfl⟩ := Int.eq_ofNat_of_zero_le hw
    refine ⟨_, rfl, isTerm_of_isDigits ?_⟩
    rw [integer_text]
    exact Token.isDigits_repr n
  | parenthesized e =>
    simp only [map, KeySpecifier.pieces, parenthesizedPieces, Tree.withPieces]
    split
    · exact h e (by simp [children])
    · exact endsTerm_bracketed _ _ rfl
  | wildcard => exact ⟨_, rfl, rfl⟩

theorem Suffix.endsTerm {ι : Type} {s : Suffix (Tree ι)} (hw : s.WellFormed)
    (h : ∀ e ∈ s.groups, EndsTerm e.pieces) : EndsTerm (s.map Tree.withPieces).pieces := by
  cases s with
  | predicate e => exact endsTerm_bracketed _ _ rfl
  | arguments args => exact endsTerm_bracketed _ _ rfl
  | lookup key => exact (KeySpecifier.endsTerm hw h).append _

theorem startsName_exponentToken (e : Int) : Text.startsName (exponentToken e) := by
  rw [Text.startsName, exponentToken_toList]
  exact Text.isNameStart_of_isAlpha (by decide)

/-- A parenthesized expression ends with its bracket. -/
theorem Tree.endsTerm_of_kind {ι : Type} {n : Tree ι} (h : n.kind = .parenthesizedExpr) :
    EndsTerm n.pieces := by
  obtain ⟨l, f⟩ := n
  rw [pieces_node]
  cases f with
  | parenthesized inner => exact endsTerm_bracketed _ _ rfl
  | chain level first rest => cases level <;> cases h
  | _ => cases h

/-- A step ends as a term. -/
theorem Tree.endsTerm {ι : Type} {levels : Nat} {n : Tree ι} (h : n.Fits levels)
    (hrank : 20 ≤ n.rank) : EndsTerm n.pieces := by
  obtain ⟨l, f⟩ := n
  have hf := fits_node.mp h
  rw [pieces_node]
  cases f with
  | axisStep axis test predicates =>
    refine EndsTerm.append_flatMap ((NodeTest.terms hf.parts).2.append _) fun e _ => ?_
    exact endsTerm_bracketed _ _ rfl
  | parentStep => exact ⟨_, rfl, rfl⟩
  | suffixed primary suffixes =>
    obtain ⟨s, ss, rfl⟩ := List.exists_cons_of_ne_nil (show suffixes ≠ [] from hf.proper)
    have hsuffix (s' : Suffix (Tree ι)) (hs : s' ∈ s :: ss) :
        EndsTerm (s'.map withPieces).pieces :=
      Suffix.endsTerm (hf.parts s' hs) fun e he =>
        endsTerm_of_kind (hf.group e (List.mem_flatMap.mpr ⟨s', hs, he⟩)).1
    simp only [Form.map, Form.pieces, List.map_cons, List.flatMap_cons, List.flatMap_map,
      ← List.append_assoc]
    exact ((hsuffix s List.mem_cons_self).append _).append_flatMap fun s' hs =>
      hsuffix s' (List.mem_cons_of_mem s hs)
  | parenthesized inner => exact endsTerm_bracketed _ _ rfl
  | contextItem => exact ⟨_, rfl, rfl⟩
  | varRef name => exact (EQName.endsTerm hf.parts).append _
  | functionCall name args => exact (endsTerm_bracketed _ _ rfl).append _
  | namedFunctionRef name arity =>
    exact EndsTerm.append ⟨_, rfl, isTerm_of_isDigits (Token.isDigits_repr arity)⟩ _
  | inlineFunction params result body => exact (endsTerm_enclosed _).append _
  | mapConstructor entries => exact EndsTerm.append ⟨Piece.text "\x7d", rfl, rfl⟩ _
  | squareArray members => exact endsTerm_bracketed _ _ rfl
  | curlyArray body => exact (endsTerm_enclosed _).append _
  | unaryLookup key =>
    refine (KeySpecifier.endsTerm hf.parts fun e he =>
      Tree.endsTerm_of_kind (hf.group e he).1).append _
  | integer v =>
    obtain ⟨n, rfl⟩ := Int.eq_ofNat_of_zero_le hf.parts
    simp only [Form.map, Form.pieces, readPieces_integer]
    exact ⟨_, rfl, isTerm_of_isDigits (Token.isDigits_repr n)⟩
  | decimal d =>
    simp only [Form.map, Form.pieces, readPieces_decimal hf.parts.1]
    exact ⟨_, rfl, isTerm_of_isDigits
      (Token.isDigits_ofList.mpr ⟨d.fractionDigits_ne_nil, d.fractionDigits_all⟩)⟩
  | double x =>
    simp only [Form.map, Form.pieces, readPieces_double hf.parts.1 hf.parts.2, Piece.ofTokens,
      Scientific.tokens, ← List.cons_append, List.map_append]
    exact EndsTerm.append ⟨_, rfl, isTerm_of_startsName (startsName_exponentToken _)⟩ _
  | string s => exact ⟨_, rfl, rfl⟩
  | chain level first rest =>
    have hlevel : level.rank < 20 := by cases level <;> decide
    exact absurd hrank (Nat.not_le.mpr hlevel)
  | _ => exact absurd hrank (by simp [Tree.rank, Form.rank, Tree.form])

/-! ## All constructs -/

theorem slash_of_level {op : ChainOp} (h : op.level = .relativePath) :
    (Spelled.spelling op : Token) = "/" ∨ (Spelled.spelling op : Token) = "//" := by
  cases op <;> first | exact .inl rfl | exact .inr rfl | cases h

/-- Steps with slashes between: every step is a term on both sides. -/
theorem readable_relativePath {levels : Nat} {first : Node} {rest : List (ChainOp × Node)}
    (hfirst : Readable first.pieces) (hrest : ∀ x ∈ rest, Readable x.2.pieces)
    (hlevel : ∀ x ∈ rest, x.1.level = .relativePath)
    (hsteps : ∀ e ∈ first :: rest.map Prod.snd, 19 < e.rank ∧ e.Fits levels) :
    Readable (first.pieces ++ rest.flatMap fun x =>
      ChainLevel.relativePath.operatorPieces x.1 ++ x.2.pieces) := by
  have hterms {e : Node} (he : e ∈ first :: rest.map Prod.snd) :
      StartsTerm e.pieces ∧ EndsTerm e.pieces :=
    ⟨Tree.startsTerm (hsteps e he).2 (Nat.le_of_lt (hsteps e he).1),
      Tree.endsTerm (hsteps e he).2 (hsteps e he).1⟩
  refine hfirst.append_steps (hterms List.mem_cons_self).2 fun x hx => ?_
  have hx' : x.2 ∈ first :: rest.map Prod.snd := List.mem_cons_of_mem first (List.mem_map_of_mem hx)
  exact ⟨slash_of_level (hlevel x hx), hrest x hx, hterms hx'⟩

/-- A node test, with an axis in front if one is written. -/
theorem readable_step (axis : Option StepAxis) {test : NodeTest} (h : test.WellFormed) :
    Readable (axis.elim [] StepAxis.pieces ++ test.pieces) := by
  have htest := NodeTest.readable h
  cases axis with
  | none => exact htest
  | some axis =>
    cases axis with
    | named a =>
      have haxis : (text (Spelled.spelling a)).apart (text "::") := by cases a <;> decide
      have hcolon : Readable ([text "::"] ++ test.pieces) :=
        htest.append_term (colon_apart (.inr rfl)) (NodeTest.terms h).1
      exact List.IsChain.cons_cons haxis hcolon
    | atSign => exact (Bridge.singleton (p := text "@") rfl).before htest

/-- Digits around a point. -/
theorem readable_point {whole fraction : Token} (hw : whole.isDigits) (hf : fraction.isDigits) :
    Readable [text whole, text ".", text fraction] := by
  have hwhole : (text whole).apart (text ".") :=
    digits_apart hw fun d hd => by
      obtain rfl : '.' = d := Option.some.inj hd
      rfl
  have hpoint : (text ".").apart (text fraction) := by
    refine apart_of_stopsAt fun d hd => ?_
    have hdigit : d.isDigit := by
      have hall := (Token.isDigits_iff.mp hf).2
      rw [List.all_eq_true] at hall
      exact hall d (List.mem_of_mem_head? hd)
    simpa [last, Lexeme.stopsAt, Lexeme.continuation?] using Lexeme.digit_ne hdigit rfl
  simp [Readable, hwhole, hpoint]

theorem readable_decimal (d : Decimal) : Readable [text (String.ofList d.wholeDigits), text ".",
    text (String.ofList d.fractionDigits)] :=
  readable_point (Token.isDigits_ofList.mpr ⟨d.wholeDigits_ne_nil, d.wholeDigits_all⟩)
    (Token.isDigits_ofList.mpr ⟨d.fractionDigits_ne_nil, d.fractionDigits_all⟩)

theorem readable_scientific (s : Scientific) : Readable (ofTokens s.tokens) := by
  have hlead := Token.isDigits_ofList.mpr ⟨s.leadingDigit_ne_nil, s.digits_all.1⟩
  have hexponent {t : Token} (ht : t.isDigits) :
      (text t).apart (text (exponentToken s.shownExponent)) := by
    refine digits_apart ht fun d hd => ?_
    obtain rfl : 'e' = d := by simpa [first?, exponentToken_toList] using hd
    rfl
  unfold Scientific.tokens
  split
  · simp [Readable, ofTokens, hexponent hlead]
  next hne =>
    have hfraction := Token.isDigits_ofList.mpr ⟨hne, s.digits_all.2⟩
    refine (readable_point hlead hfraction).append
      (.singleton (text (exponentToken s.shownExponent)))
      fun p hp q hq => ?_
    obtain rfl : text (String.ofList s.fractionDigits) = p := by simpa using hp
    obtain rfl : text (exponentToken s.shownExponent) = q := by simpa using hq
    exact hexponent hfraction

/-- A construct is readable if its children are. -/
theorem Form.readable {levels : Nat} {f : Form Node} (hf : f.FitsIn levels)
    (hc : ∀ c ∈ f.children, Readable c.pieces) : Readable (f.map Tree.withPieces).pieces := by
  cases f with
  | expr items => exact readable_commaSeparated_map hc
  | forExpr bindings body => exact readable_bound "for" "return" hf.parts hc
  | letExpr bindings body => exact readable_bound "let" "return" hf.parts hc
  | quantified q bindings body => exact readable_bound _ "satisfies" hf.parts hc
  | ifExpr c t e =>
    have hopen : Readable [text "if", gap, text "("] := by simp [Readable, apart, isWhole]
    have hcondition := hopen.final_append (hc c (by simp [children])) rfl
    have hthen := (Bridge.keyword "then").between
      ((Bridge.singleton (p := text ")") rfl).after hcondition) (hc t (by simp [children]))
    exact (Bridge.keyword "else").between hthen (hc e (by simp [children]))
  | chain level first rest =>
    have hrest (x : ChainOp × Node) (hx : x ∈ rest) : Readable x.2.pieces :=
      hc x.2 (List.mem_cons_of_mem first (List.mem_map_of_mem hx))
    simp only [map, Form.pieces, List.flatMap_map]
    by_cases hlevel : level = .relativePath
    · subst hlevel
      exact readable_relativePath (hc first (by simp [children])) hrest hf.proper.2 hf.operand
    · refine (hc first (by simp [children])).append_flatMap fun x hx => ?_
      rw [ChainLevel.operatorPieces, if_neg hlevel]
      exact ⟨(Bridge.keyword _).before (hrest x hx), rfl⟩
  | comparison left op right =>
    exact (Bridge.keyword _).between (hc left (by simp [children])) (hc right (by simp [children]))
  | range first last =>
    exact (Bridge.keyword _).between (hc first (by simp [children])) (hc last (by simp [children]))
  | instanceOf e type | treat e type =>
    exact (Bridge.keyword _).between ((Bridge.keyword _).after (hc e (by simp [children])))
      (SequenceType.readable (fun _ => ItemType.readable) hf.parts)
  | castable e type | cast e type =>
    exact (Bridge.keyword _).between ((Bridge.keyword _).after (hc e (by simp [children])))
      (SingleType.readable hf.parts)
  | arrow first calls =>
    simp only [map, Form.pieces, List.flatMap_map]
    refine (hc first (by simp [children])).append_flatMap fun c hcall => ?_
    refine ⟨(Bridge.keyword _).before
      (ArrowCall.readable (hf.parts c hcall) fun e he => hc e ?_), rfl⟩
    exact List.mem_cons_of_mem _ (List.mem_flatMap.mpr ⟨c, hcall, he⟩)
  | unary ops operand =>
    refine (hc operand (by simp [children])).final_all_append fun p hp => ?_
    obtain ⟨op, -, rfl⟩ := List.mem_map.mp hp
    cases op <;> rfl
  | path leading relative =>
    cases relative with
    | none => exact .singleton _
    | some r =>
      have hr := hf.operand r (by simp [operands])
      exact (hc r (by simp [children])).append_term
        (slash_apart (by cases leading <;> simp [Spelled.spelling]))
        (Tree.startsTerm hr.2 hr.1)
  | axisStep axis test predicates =>
    simp only [map, Form.pieces, List.flatMap_map]
    exact (readable_step axis hf.parts).append_flatMap fun e he =>
      ⟨readable_bracketed rfl rfl (hc e (by simpa [children] using he)), rfl⟩
  | parentStep => exact .singleton _
  | suffixed primary suffixes =>
    simp only [map, Form.pieces, List.flatMap_map]
    refine (hc primary (by simp [children])).append_flatMap fun s hs =>
      Suffix.readable fun e he => hc e ?_
    exact List.mem_cons_of_mem _ (List.mem_flatMap.mpr ⟨s, hs, he⟩)
  | parenthesized inner =>
    refine readable_bracketed rfl rfl ?_
    cases inner with
    | none => exact .nil
    | some e => exact hc e (by simp [children])
  | contextItem => exact .singleton _
  | varRef name => exact (Bridge.singleton (p := text "$") rfl).before (EQName.readable hf.parts)
  | functionCall name args =>
    exact (EQName.readable hf.parts).append_initial (readable_arguments hc) rfl
  | namedFunctionRef name arity =>
    have harity : Readable [text "#", text (Nat.repr arity)] :=
      (Readable.singleton (text "#")).final_append (.singleton _) rfl
    exact (EQName.readable hf.parts.1).append_initial harity rfl
  | inlineFunction params result body =>
    have hparams : Readable (paramsPieces params) :=
      readable_commaSeparated (List.forall_mem_map.mpr fun p hp => Param.readable (hf.parts.1 p hp))
    have hhead := readable_declared hf.parts.2 (readable_call "function" hparams)
    refine Readable.append_initial (Readable.append_initial hhead (.singleton .gap) rfl)
      (readable_enclosed fun e he => hc e ?_) ?_
    · simpa [children] using he
    · cases body <;> rfl
  | mapConstructor entries =>
    have hopen : Readable [text "map", text "\x7b"] :=
      (Readable.singleton (text "map")).append_initial (.singleton (text "\x7b")) rfl
    have hentries := readable_commaSeparated_map fun e he => MapEntry.readable fun e' he' =>
      hc e' (List.mem_flatMap.mpr ⟨e, he, he'⟩)
    exact (hopen.final_append hentries rfl).append_initial (.singleton (text "\x7d")) rfl
  | squareArray members => exact readable_bracketed rfl rfl (readable_commaSeparated_map hc)
  | curlyArray body =>
    exact (Readable.singleton (text "array")).append_initial
      (readable_enclosed fun e he => hc e (by simpa [children] using he)) (by cases body <;> rfl)
  | unaryLookup key =>
    exact (Bridge.singleton (p := text "?") rfl).before (KeySpecifier.readable hc)
  | integer v =>
    obtain ⟨n, rfl⟩ := Int.eq_ofNat_of_zero_le hf.parts
    simp only [map, Form.pieces, readPieces_integer]
    exact .singleton _
  | decimal d =>
    simp only [map, Form.pieces, readPieces_decimal hf.parts.1]
    exact readable_decimal d
  | double x =>
    simp only [map, Form.pieces, readPieces_double hf.parts.1 hf.parts.2]
    exact readable_scientific x.shortest
  | string s => exact .singleton _

/-- No two pieces of a rendered tree run together. -/
theorem Tree.readable (n : Node) : ∀ {levels : Nat}, n.Fits levels → Readable n.pieces := by
  induction n using Tree.induct with
  | node l f ih =>
    intro levels h
    have hf := fits_node.mp h
    rw [pieces_node]
    refine Form.readable hf fun c hc => ?_
    obtain ⟨k, hk⟩ := hf.exists_fits c hc
    exact ih c hc hk

end XPath
