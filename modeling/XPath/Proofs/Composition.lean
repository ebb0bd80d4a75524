import XPath.Proofs.Sound.Expr
import XPath.Proofs.TokenText

/-!
# What rendered pieces are made of

Whatever is rendered, the pieces are words, gaps, strings, and URIs with a word after them
(`Composed`). The words are those of the grammar, of which none is a space, the tokens of numbers,
and the names that the construct is written with (`Tree.ncNames`). This holds of every tree, whether
or not it can be parsed (`Tree.composed`), and is all that is needed of the many ways of rendering
where only the kinds of pieces matter.
-/

namespace XPath

variable {α β ι : Type}

/-! ## Names -/

/-- The names without colons that the name consists of. -/
def EQName.ncNames : EQName → List NCName
  | qName nsPrefix localName => nsPrefix.toList ++ [localName]
  | uriQualified _ localName => [localName]

/-- The prefix or the local name that is given. -/
def NsWildcard.ncNames : NsWildcard → List NCName
  | anyLocal n | anyNamespace n => [n]
  | anyLocalIn _ => []

/-- The names without colons in the test. -/
def NameTest.ncNames : NameTest → List NCName
  | name n => n.ncNames
  | wildcard => []
  | nsWildcard w => w.ncNames

/-- The names without colons, if it is a name. -/
def NameOrWildcard.ncNames : NameOrWildcard → List NCName
  | name n => n.ncNames
  | wildcard => []

/-- The names without colons in the test. -/
def ElementTest.ncNames (t : ElementTest) : List NCName :=
  t.name.elim [] NameOrWildcard.ncNames ++ t.typeName.elim [] EQName.ncNames

/-- The names without colons in the test. -/
def AttributeTest.ncNames (t : AttributeTest) : List NCName :=
  t.name.elim [] NameOrWildcard.ncNames ++ t.typeName.elim [] EQName.ncNames

/-- The names without colons in the test of the element. -/
def DocumentContent.ncNames : DocumentContent → List NCName
  | element t => t.ncNames
  | schemaElement n => n.ncNames

/-- The target, if it is given as a name. -/
def PITarget.ncNames : PITarget → List NCName
  | name n => [n]
  | literal _ => []

/-- The names without colons in the test. -/
def KindTest.ncNames : KindTest → List NCName
  | document content => content.elim [] DocumentContent.ncNames
  | element t => t.ncNames
  | attr t => t.ncNames
  | schemaElement n | schemaAttribute n => n.ncNames
  | processingInstruction target => target.elim [] PITarget.ncNames
  | _ => []

/-- The names without colons in the test. -/
def NodeTest.ncNames : NodeTest → List NCName
  | kindTest t => t.ncNames
  | nameTest t => t.ncNames

mutual
/-- The names without colons in the type. -/
def SequenceType.ncNames : SequenceType → List NCName
  | .empty => []
  | .items type _ => type.ncNames

/-- The names without colons in the type. -/
def ItemType.ncNames : ItemType → List NCName
  | .kindTest t => t.ncNames
  | .function params result => SequenceType.ncNamesAll params ++ result.ncNames
  | .map key value => key.ncNames ++ value.ncNames
  | .array member => member.ncNames
  | .atomic name => name.ncNames
  | .parenthesized inner => inner.ncNames
  | _ => []

/-- The names without colons in all types. -/
def SequenceType.ncNamesAll : List SequenceType → List NCName
  | [] => []
  | t :: ts => t.ncNames ++ SequenceType.ncNamesAll ts
end

/-- The name that is looked for, if it is one. -/
def KeySpecifier.ncNames : KeySpecifier α → List NCName
  | name n => [n]
  | _ => []

/-- The names without colons in the suffix, its children apart. -/
def Suffix.ncNames : Suffix α → List NCName
  | lookup key => key.ncNames
  | _ => []

/-- The names without colons in the target, if it is a name. -/
def ArrowTarget.ncNames : ArrowTarget α → List NCName
  | name n | var n => n.ncNames
  | parenthesized _ => []

/-- The names without colons in the parameter and its type. -/
def Param.ncNames (p : Param) : List NCName :=
  p.name.ncNames ++ p.type.elim [] SequenceType.ncNames

/-- The names that stand in a construct itself. -/
def Form.ncNames : Form α → List NCName
  | forExpr bindings _ | letExpr bindings _ | quantified _ bindings _ =>
    bindings.flatMap (·.name.ncNames)
  | instanceOf _ type | treat _ type => type.ncNames
  | castable _ type | cast _ type => type.name.ncNames
  | arrow _ calls => calls.flatMap (·.target.ncNames)
  | axisStep _ test _ => test.ncNames
  | suffixed _ suffixes => suffixes.flatMap Suffix.ncNames
  | varRef name | functionCall name _ | namedFunctionRef name _ => name.ncNames
  | inlineFunction params result _ =>
    params.flatMap Param.ncNames ++ result.elim [] SequenceType.ncNames
  | unaryLookup key => key.ncNames
  | _ => []

/-- The names of a tree, those in its types included. -/
def Tree.ncNames : Tree ι → List NCName :=
  fold fun _ f => f.ncNames ++ f.children.flatten

theorem KeySpecifier.ncNames_map (g : α → β) (key : KeySpecifier α) :
    (key.map g).ncNames = key.ncNames := by
  cases key <;> rfl

theorem Suffix.ncNames_map (g : α → β) (s : Suffix α) : (s.map g).ncNames = s.ncNames := by
  cases s with
  | lookup key => exact key.ncNames_map g
  | _ => rfl

theorem ArrowTarget.ncNames_map (g : α → β) (t : ArrowTarget α) :
    (t.map g).ncNames = t.ncNames := by
  cases t <;> rfl

/-- The names of a construct do not depend on its children. -/
theorem Form.ncNames_map (g : α → β) (f : Form α) : (f.map g).ncNames = f.ncNames := by
  cases f <;>
    simp [map, ncNames, Binding.map, ArrowCall.map, List.flatMap_map, ArrowTarget.ncNames_map,
      Suffix.ncNames_map, KeySpecifier.ncNames_map]

/-- The names of a tree are those of its root and of the trees below. -/
theorem Tree.ncNames_node (l : ι) (f : Form (Tree ι)) :
    (node l f).ncNames = f.ncNames ++ f.children.flatMap ncNames := by
  rw [ncNames, fold_node, Form.ncNames_map, Form.children_map]
  rfl

/-! ## Composed pieces -/

/-- Words of `W`, gaps, strings, and URIs that a word follows. -/
inductive Composed (W : Token → Prop) : List Piece → Prop
  | nil : Composed W []
  | gap {ps} : Composed W ps → Composed W (.gap :: ps)
  | string (s : String) {ps} : Composed W ps → Composed W (.string s :: ps)
  | text {t ps} (ht : W t) : Composed W ps → Composed W (.text t :: ps)
  | uri (u : String) {t ps} :
    Composed W (.text t :: ps) → Composed W (.bracedUri u :: .text t :: ps)

namespace Composed

variable {W : Token → Prop} {ps qs : List Piece}

theorem append (h : Composed W ps) (h' : Composed W qs) : Composed W (ps ++ qs) := by
  induction h with
  | nil => exact h'
  | gap _ ih => exact ih.gap
  | string s _ ih => exact ih.string s
  | text ht _ ih => exact ih.text ht
  | uri u _ ih => exact ih.uri u

/-- What is left without the first piece is composed. -/
theorem tail {p : Piece} (h : Composed W (p :: ps)) : Composed W ps := by
  cases h <;> assumption

/-- What is left without the pieces at the start is composed. -/
theorem append_right : ∀ {qs : List Piece}, Composed W (qs ++ ps) → Composed W ps
  | [], h => h
  | _ :: _, h => append_right h.tail

theorem flatMap {xs : List α} {g : α → List Piece} (h : ∀ x ∈ xs, Composed W (g x)) :
    Composed W (xs.flatMap g) := by
  induction xs with
  | nil => exact nil
  | cons x xs ih =>
    obtain ⟨hx, hxs⟩ := List.forall_mem_cons.mp h
    exact hx.append (ih hxs)

theorem word {t : Token} (ht : W t) : Composed W [.text t] := nil.text ht

/-- Pieces that are all words are composed. -/
theorem words {ps : List Piece} (h : ∀ p ∈ ps, ∃ t, p = .text t ∧ W t) : Composed W ps := by
  induction ps with
  | nil => exact nil
  | cons p ps ih =>
    obtain ⟨⟨t, rfl, ht⟩, hps⟩ := List.forall_mem_cons.mp h
    exact (ih hps).text ht

/-- Every token that is not made from a string or URI is a word. -/
theorem mem (h : Composed W ps) {t : Token} (ht : .text t ∈ ps) : W t := by
  induction h with
  | nil => cases ht
  | text hu _ ih =>
    rcases List.mem_cons.mp ht with he | ht
    · cases he
      exact hu
    · exact ih ht
  | _ => simp_all

end Composed

/-! ## Numbers -/

/-- No blank and no quote. -/
def Unbroken (cs : List Char) : Prop :=
  ∀ c ∈ cs, Lexeme.isBlank c = false ∧ Lexeme.isQuote c = false

instance (cs : List Char) : Decidable (Unbroken cs) := List.decidableBAll _ cs

/-- Two unbroken texts are one. -/
theorem Unbroken.append {cs ds : List Char} (hc : Unbroken cs) (hd : Unbroken ds) :
    Unbroken (cs ++ ds) :=
  List.forall_mem_append.mpr ⟨hc, hd⟩

/-- Digits are unbroken. -/
theorem unbroken_digits {cs : List Char} (h : cs.all Char.isDigit) : Unbroken cs := by
  intro c hc
  have hdigit := List.all_eq_true.mp h c hc
  simp [Lexeme.isBlank, Lexeme.isQuote, Lexeme.digit_ne hdigit]

theorem unbroken_repr (n : Nat) : Unbroken (Nat.repr n).toList :=
  unbroken_digits (Token.isDigits_iff.mp (Token.isDigits_repr n)).2

/-- A sign in front, if there is one. -/
theorem Unbroken.signed {cs : List Char} (h : Unbroken cs) (p : Prop) [Decidable p] :
    Unbroken ((if p then ['-'] else []) ++ cs) := by
  refine append ?_ h
  split <;> decide

/-- Neither space nor quotes are in the text of an integer. -/
theorem Integer.unbroken_text (a : Int) : Unbroken (Integer.text a).toList := by
  rw [Integer.text_toList]
  exact (unbroken_repr _).signed _

/-- Neither space nor quotes are in the text of a decimal. -/
theorem Decimal.unbroken_text (d : Decimal) : Unbroken d.text.toList := by
  have hpoint : Unbroken ['.'] := by decide
  rw [Decimal.text_eq, String.toList_ofList]
  refine Unbroken.signed ?_ _
  exact (unbroken_digits d.wholeDigits_all).append
    (hpoint.append (unbroken_digits d.fractionDigits_all))

/-- Neither space nor quotes are in digits with an exponent. -/
theorem Scientific.unbroken_text (s : Scientific) : Unbroken s.text.toList := by
  have hpoint : Unbroken ['.'] := by decide
  have hmark : Unbroken ['e'] := by decide
  have hexponent : Unbroken (exponentToken s.shownExponent).toList := by
    rw [exponentToken_toList]
    exact hmark.append (Integer.unbroken_text _)
  rw [Scientific.text_eq, String.toList_ofList]
  refine ((unbroken_digits s.digits_all.1).append ?_).append hexponent
  split
  · decide
  · exact hpoint.append (unbroken_digits s.digits_all.2)

/-- Neither space nor quotes are in the text of a double. -/
theorem Double.unbroken_text (x : Double) : Unbroken x.text.toList := by
  rw [Double.text]
  split
  · rw [String.toList_append, apply_ite String.toList]
    exact x.shortest.unbroken_text.signed _
  · rw [Double.nonFiniteText]
    split
    · decide
    · split <;> decide

/-- A text without blanks is read as words only. -/
theorem readPieces_words {s : String} (h : Unbroken s.toList) :
    ∀ p ∈ readPieces s, ∃ t, p = .text t ∧ t ≠ Token.space := by
  rw [readPieces]
  split
  next ts hts =>
    obtain ⟨ls, hscan, rfl⟩ := tokenize_eq_ok hts
    have hchars : s.toList = ls.flatMap Lexeme.chars := by
      rw [← Lexeme.collapse_of_scan hscan, ← List.append_nil s.toList, Place.collapse_append h]
      rfl
    have hwhole := (Lexeme.joined_of_scan hscan).whole
    intro p hp
    obtain ⟨t, ht, rfl⟩ := List.mem_map.mp hp
    refine ⟨t, rfl, ?_⟩
    rintro rfl
    obtain ⟨l, hl, ht⟩ := List.mem_flatMap.mp ht
    have hunbroken : ∀ c ∈ l.chars, Lexeme.isBlank c = false ∧ Lexeme.isQuote c = false :=
      fun c hc =>
      h c (hchars ▸ List.mem_flatMap.mpr ⟨l, hl, hc⟩)
    cases l with
    | space => exact absurd (hunbroken ' ' (by simp [Lexeme.chars])).1 (by decide)
    | plain text =>
      have hspace := Lexeme.isSpace_of_mem_marks (by simp) (hwhole _ hl) Token.space ht
      exact absurd hspace (by decide)
    | literal quote content =>
      have hquote : Lexeme.isQuote quote := hwhole _ hl
      simp [(hunbroken quote (by simp [Lexeme.chars])).2] at hquote
  next =>
    intro p hp
    obtain rfl := List.mem_singleton.mp hp
    refine ⟨s, rfl, ?_⟩
    rintro rfl
    exact absurd (h ' ' (by simp [Token.space])).1 (by decide)

/-! ## Names and types -/

theorem Token.ne_space {t : Token} (h : t.isWord) : t ≠ Token.space :=
  fun he => absurd (he ▸ h) (by decide)

section Parts

variable {W : Token → Prop} (hW : ∀ t : Token, t ≠ Token.space → W t)

include hW

namespace Composed

/-- A word of the grammar. -/
theorem fixed {t : Token} (h : t ≠ Token.space) : Composed W [.text t] := word (hW t h)

/-- A keyword is composed with the spaces around it. -/
theorem keyword {t : Token} (h : t ≠ Token.space) : Composed W (Piece.keyword t) :=
  ((nil.gap).text (hW t h)).gap

/-- A list is composed of its parts and the commas. -/
theorem commaSeparated {pss : List (List Piece)} (h : ∀ ps ∈ pss, Composed W ps) :
    Composed W (Piece.commaSeparated pss) := by
  cases pss with
  | nil => exact nil
  | cons ps pss =>
    obtain ⟨hps, hpss⟩ := List.forall_mem_cons.mp h
    rw [Rule.commaSeparated_cons]
    refine hps.append (flatMap fun qs hqs => ?_)
    exact ((nil.gap).text (hW "," (by decide))).append (hpss qs hqs)

/-- Brackets around pieces are composed with these. -/
theorem between {opening closing : Token} {ps : List Piece} (ho : opening ≠ Token.space)
    (hc : closing ≠ Token.space) (h : Composed W ps) :
    Composed W ([.text opening] ++ ps ++ [.text closing]) :=
  ((fixed hW ho).append h).append (fixed hW hc)

/-- A keyword and what it is called with are composed of the latter. -/
theorem call {keyword : Token} {body : List Piece} (hk : keyword ≠ Token.space)
    (h : Composed W body) : Composed W (callPieces keyword body) := by
  rw [callPieces]
  exact (((fixed hW (by decide : "(" ≠ Token.space)).text (hW keyword hk)).append h).append
    (fixed hW (by decide))

end Composed

/-- A name is composed of the names without colons in it. -/
theorem EQName.composed {n : EQName} (h : ∀ m ∈ n.ncNames, W m.text) : Composed W n.pieces := by
  cases n with
  | qName nsPrefix localName =>
    cases nsPrefix with
    | none => exact .word (h _ (by simp [ncNames]))
    | some p =>
      exact ((Composed.word (h _ (by simp [ncNames]))).append (.fixed hW (by decide))).append
        (.word (h _ (by simp [ncNames])))
  | uriQualified uri localName =>
    exact (Composed.word (h localName (by simp [ncNames]))).uri uri

/-- A test is composed of the names without colons in it. -/
theorem NameTest.composed {t : NameTest} (h : ∀ m ∈ t.ncNames, W m.text) :
    Composed W t.pieces := by
  have hstar : Composed W [.text "*"] := .fixed hW (by decide)
  cases t with
  | name n => exact EQName.composed hW h
  | wildcard => exact hstar
  | nsWildcard w =>
    cases w with
    | anyLocal p =>
      exact (hstar.text (hW ":" (by decide))).text (h p (by simp [ncNames, NsWildcard.ncNames]))
    | anyNamespace n =>
      have hn : Composed W n.pieces := .word (h n (by simp [ncNames, NsWildcard.ncNames]))
      exact (hn.text (hW ":" (by decide))).text (hW "*" (by decide))
    | anyLocalIn uri => exact hstar.uri uri

theorem NameOrWildcard.composed {n : NameOrWildcard} (h : ∀ m ∈ n.ncNames, W m.text) :
    Composed W n.pieces := by
  cases n with
  | name n => exact EQName.composed hW h
  | wildcard => exact .fixed hW (by decide)

/-- A mark is composed if it is there. -/
theorem composed_mark (p : Bool) {t : Token} (ht : t ≠ Token.space) :
    Composed W (if p then [.text t] else []) := by
  split
  · exact .fixed hW ht
  · exact .nil

/-- A name and a type behind a comma are composed of both. -/
theorem composed_typed {n type : List Piece} (hn : Composed W n) (htype : Composed W type) :
    Composed W (n ++ [.text ",", .gap] ++ type) :=
  (hn.append ((Composed.nil.gap).text (hW "," (by decide)))).append htype

theorem ElementTest.composed {t : ElementTest} (h : ∀ m ∈ t.ncNames, W m.text) :
    Composed W t.pieces := by
  obtain ⟨name, typeName, nillable⟩ := t
  obtain ⟨hname, htype⟩ := List.forall_mem_append.mp h
  cases name with
  | none => exact .nil
  | some n =>
    have hn := NameOrWildcard.composed hW hname
    cases typeName with
    | none => exact hn
    | some type =>
      exact (composed_typed hW hn (EQName.composed hW htype)).append
        (composed_mark hW nillable (by decide))

theorem AttributeTest.composed {t : AttributeTest} (h : ∀ m ∈ t.ncNames, W m.text) :
    Composed W t.pieces := by
  obtain ⟨name, typeName⟩ := t
  obtain ⟨hname, htype⟩ := List.forall_mem_append.mp h
  cases name with
  | none => exact .nil
  | some n =>
    have hn := NameOrWildcard.composed hW hname
    cases typeName with
    | none => exact hn
    | some type => exact composed_typed hW hn (EQName.composed hW htype)

/-- A test is composed of the names without colons in it. -/
theorem KindTest.composed {t : KindTest} (h : ∀ m ∈ t.ncNames, W m.text) :
    Composed W t.pieces := by
  cases t with
  | document content =>
    refine .call hW (by decide) ?_
    cases content with
    | none => exact .nil
    | some c =>
      cases c with
      | element t => exact .call hW (by decide) (ElementTest.composed hW h)
      | schemaElement n => exact .call hW (by decide) (EQName.composed hW h)
  | element t => exact .call hW (by decide) (ElementTest.composed hW h)
  | attr t => exact .call hW (by decide) (AttributeTest.composed hW h)
  | schemaElement n | schemaAttribute n => exact .call hW (by decide) (EQName.composed hW h)
  | processingInstruction target =>
    refine .call hW (by decide) ?_
    cases target with
    | none => exact .nil
    | some t =>
      cases t with
      | name n => exact .word (h n (by simp [ncNames, PITarget.ncNames]))
      | literal s => exact Composed.nil.string s
  | _ => exact .call hW (by decide) .nil

theorem NodeTest.composed {t : NodeTest} (h : ∀ m ∈ t.ncNames, W m.text) :
    Composed W t.pieces := by
  cases t with
  | kindTest t => exact KindTest.composed hW h
  | nameTest t => exact NameTest.composed hW h

omit hW

mutual
/-- A type is composed of the names without colons in it. -/
theorem SequenceType.composed (hW : ∀ t : Token, t ≠ Token.space → W t) :
    ∀ {t : SequenceType}, (∀ m ∈ t.ncNames, W m.text) → Composed W t.pieces
  | .empty, _ => .call hW (by decide) .nil
  | .items type occurrence, h => by
    refine (ItemType.composed hW h).append ?_
    cases occurrence with
    | none => exact .nil
    | some o => exact .fixed hW (Token.ne_space (Grammar.isWord_occurrence o))

/-- A type is composed of the names without colons in it. -/
theorem ItemType.composed (hW : ∀ t : Token, t ≠ Token.space → W t) :
    ∀ {t : ItemType}, (∀ m ∈ t.ncNames, W m.text) → Composed W t.pieces
  | .any, _ => .call hW (by decide) .nil
  | .kindTest t, h => KindTest.composed hW h
  | .anyFunction, _ | .anyMap, _ | .anyArray, _ =>
    .call hW (by decide) (.fixed hW (by decide))
  | .function params result, h => by
    obtain ⟨hparams, hresult⟩ := List.forall_mem_append.mp h
    have hcall : Composed W (callPieces "function"
        (Piece.commaSeparated (SequenceType.piecesAll params))) :=
      .call hW (by decide) (.commaSeparated hW (SequenceType.composedAll hW hparams))
    exact (hcall.append (.keyword hW (by decide))).append (SequenceType.composed hW hresult)
  | .map key value, h => by
    obtain ⟨hkey, hvalue⟩ := List.forall_mem_append.mp h
    exact .call hW (by decide)
      (composed_typed hW (EQName.composed hW hkey) (SequenceType.composed hW hvalue))
  | .array member, h => .call hW (by decide) (SequenceType.composed hW (t := member) h)
  | .atomic name, h => EQName.composed hW h
  | .parenthesized inner, h =>
    .between hW (by decide) (by decide) (ItemType.composed hW (t := inner) h)

/-- So is each of a list of types. -/
theorem SequenceType.composedAll (hW : ∀ t : Token, t ≠ Token.space → W t) :
    ∀ {ts : List SequenceType}, (∀ m ∈ SequenceType.ncNamesAll ts, W m.text) →
      ∀ ps ∈ SequenceType.piecesAll ts, Composed W ps
  | [], _ => nofun
  | t :: ts, h => by
    obtain ⟨ht, hts⟩ := List.forall_mem_append.mp h
    exact List.forall_mem_cons.mpr ⟨SequenceType.composed hW ht, SequenceType.composedAll hW hts⟩
end

end Parts

/-! ## Constructs -/

section Constructs

variable {W : Token → Prop} (hW : ∀ t : Token, t ≠ Token.space → W t)

include hW

/-- Parentheses are composed of what they enclose. -/
theorem composed_parenthesized {c : Tree ι × List Piece} (h : Composed W c.2) :
    Composed W (parenthesizedPieces c) := by
  rw [parenthesizedPieces]
  split
  · exact h
  · exact .between hW (by decide) (by decide) h

/-- An argument list is composed of the arguments. -/
theorem composed_arguments {args : List (Argument (Tree ι × List Piece))}
    (h : ∀ c ∈ args.flatMap Argument.children, Composed W c.2) :
    Composed W (argumentPieces args) := by
  refine .between hW (by decide) (by decide) (.commaSeparated hW ?_)
  rintro _ hps
  obtain ⟨a, ha, rfl⟩ := List.mem_map.mp hps
  cases a with
  | expr e => exact h e (List.mem_flatMap.mpr ⟨_, ha, List.mem_singleton_self e⟩)
  | placeholder => exact .fixed hW (by decide)

theorem composed_predicate {c : Tree ι × List Piece} (h : Composed W c.2) :
    Composed W (predicatePieces c) :=
  .between hW (by decide) (by decide) h

/-- A key is composed of its name or its expression. -/
theorem KeySpecifier.composed {key : KeySpecifier (Tree ι × List Piece)}
    (hn : ∀ m ∈ key.ncNames, W m.text) (hc : ∀ c ∈ key.children, Composed W c.2) :
    Composed W key.pieces := by
  cases key with
  | name n => exact .word (hn n (by simp [ncNames]))
  | integer v =>
    refine .fixed hW fun he => ?_
    exact absurd (Integer.unbroken_text v ' ' (by simp [he, Token.space])).1 (by decide)
  | parenthesized e => exact composed_parenthesized hW (hc e (by simp [children]))
  | wildcard => exact .fixed hW (by decide)

/-- A suffix is composed of its names and its expressions. -/
theorem Suffix.composed {s : Suffix (Tree ι × List Piece)} (hn : ∀ m ∈ s.ncNames, W m.text)
    (hc : ∀ c ∈ s.children, Composed W c.2) : Composed W s.pieces := by
  cases s with
  | predicate e => exact composed_predicate hW (hc e (by simp [children]))
  | arguments args => exact composed_arguments hW hc
  | lookup key =>
    have hkey : Composed W key.pieces := KeySpecifier.composed hW hn hc
    exact hkey.text (hW "?" (by decide))

theorem ArrowTarget.composed {t : ArrowTarget (Tree ι × List Piece)}
    (hn : ∀ m ∈ t.ncNames, W m.text) (hc : ∀ c ∈ t.children, Composed W c.2) :
    Composed W t.pieces := by
  cases t with
  | name n => exact EQName.composed hW hn
  | var n =>
    have hname : Composed W n.pieces := EQName.composed hW hn
    exact hname.text (hW "$" (by decide))
  | parenthesized e => exact composed_parenthesized hW (hc e (by simp [children]))

/-- A call is composed of its target and its arguments. -/
theorem ArrowCall.composed {c : ArrowCall (Tree ι × List Piece)}
    (hn : ∀ m ∈ c.target.ncNames, W m.text) (hc : ∀ e ∈ c.children, Composed W e.2) :
    Composed W c.pieces := by
  obtain ⟨htarget, hargs⟩ := List.forall_mem_append.mp hc
  exact (ArrowTarget.composed hW hn htarget).append (composed_arguments hW hargs)

/-- A declared type is composed of the names without colons in it. -/
theorem composed_declared {type : Option SequenceType}
    (h : ∀ m ∈ type.elim [] SequenceType.ncNames, W m.text) :
    Composed W (type.elim [] fun t => Piece.keyword "as" ++ t.pieces) := by
  cases type with
  | none => exact .nil
  | some t => exact (Composed.keyword hW (by decide)).append (SequenceType.composed hW h)

/-- Parameters are composed of their names and types. -/
theorem composed_params {params : List Param}
    (h : ∀ m ∈ params.flatMap Param.ncNames, W m.text) : Composed W (paramsPieces params) := by
  refine .commaSeparated hW ?_
  rintro _ hps
  obtain ⟨p, hp, rfl⟩ := List.mem_map.mp hps
  obtain ⟨hname, htype⟩ := List.forall_mem_append.mp
    fun m hm => h m (List.mem_flatMap.mpr ⟨p, hp, hm⟩)
  exact ((Composed.fixed hW (by decide)).append (EQName.composed hW hname)).append
    (composed_declared hW htype)

/-- Braces are composed of what they enclose. -/
theorem composed_enclosed {body : Option (Tree ι × List Piece)}
    (h : ∀ c ∈ body.toList, Composed W c.2) : Composed W (enclosedPieces body) := by
  cases body with
  | none => exact (Composed.fixed hW (by decide)).text (hW "\x7b" (by decide))
  | some c =>
    have hopen : Composed W [.text "\x7b", .gap] := (Composed.nil.gap).text (hW _ (by decide))
    exact (hopen.append (h c (by simp))).append (.gap (.fixed hW (by decide)))

/-- Bindings are composed of their names and expressions. -/
theorem composed_bindings {word : Token} (hword : word.isWord)
    {bindings : List (Binding (Tree ι × List Piece))}
    (hn : ∀ m ∈ bindings.flatMap (·.name.ncNames), W m.text)
    (hc : ∀ c ∈ bindings.map Binding.expr, Composed W c.2) :
    Composed W (bindingsPieces word bindings) := by
  have hbindings : Composed W (Piece.commaSeparated (bindings.map Binding.pieces)) := by
    refine .commaSeparated hW ?_
    rintro _ hps
    obtain ⟨b, hb, rfl⟩ := List.mem_map.mp hps
    have hname : Composed W b.name.pieces :=
      EQName.composed hW fun m hm => hn m (List.mem_flatMap.mpr ⟨b, hb, hm⟩)
    have hop : Composed W (Piece.keyword (Spelled.spelling b.op)) :=
      .keyword hW (Token.ne_space (Grammar.isWord_bindingOp b.op))
    exact (((Composed.fixed hW (by decide)).append hname).append hop).append
      (hc _ (List.mem_map_of_mem hb))
  exact ((Composed.nil.gap).text (hW word (Token.ne_space hword))).append hbindings

/-- An operator is composed at whatever level it stands. -/
theorem composed_operator (level : ChainLevel) (op : ChainOp) :
    Composed W (level.operatorPieces op) := by
  have hop := Token.ne_space (Grammar.isWord_chainOp op)
  rw [ChainLevel.operatorPieces]
  split
  · exact .fixed hW hop
  · exact .keyword hW hop

/-- An axis is composed, since axes have no names of their own. -/
theorem composed_axis (axis : Option StepAxis) : Composed W (axis.elim [] StepAxis.pieces) := by
  cases axis with
  | none => exact .nil
  | some axis =>
    cases axis with
    | named a =>
      exact (Composed.fixed hW (by decide)).text (hW _ (Token.ne_space (Grammar.isWord_axis a)))
    | atSign => exact .fixed hW (by decide)

/-- The tokens of a number. -/
theorem composed_number {s : String} (h : Unbroken s.toList) : Composed W (readPieces s) := by
  refine .words fun p hp => ?_
  obtain ⟨t, rfl, ht⟩ := readPieces_words h p hp
  exact ⟨t, rfl, hW t ht⟩

/-- The pieces of a construct, from those of its children. -/
theorem Form.composed {f : Form (Tree ι × List Piece)} (hn : ∀ m ∈ f.ncNames, W m.text)
    (hc : ∀ c ∈ f.children, Composed W c.2) : Composed W f.pieces := by
  have hkeyword {t : Token} (ht : t ≠ Token.space) : Composed W (Piece.keyword t) := .keyword hW ht
  have hfixed {t : Token} (ht : t ≠ Token.space) : Composed W [.text t] := .fixed hW ht
  cases f with
  | expr items =>
    refine .commaSeparated hW ?_
    rintro _ hps
    obtain ⟨c, hmem, rfl⟩ := List.mem_map.mp hps
    exact hc c hmem
  | forExpr bindings body | letExpr bindings body =>
    obtain ⟨hbindings, hbody⟩ := List.forall_mem_append.mp hc
    exact ((composed_bindings hW (by decide) hn hbindings).append (hkeyword (by decide))).append
      (hbody body (by simp))
  | quantified q bindings body =>
    obtain ⟨hbindings, hbody⟩ := List.forall_mem_append.mp hc
    exact ((composed_bindings hW (Grammar.isWord_quantifier q) hn hbindings).append
      (hkeyword (by decide))).append (hbody body (by simp))
  | ifExpr c t e =>
    have hopen : Composed W [.text "if", .gap, .text "("] :=
      (hfixed (by decide)).gap.text (hW "if" (by decide))
    have hcondition := (hopen.append (hc c (by simp [children]))).append
      (hfixed (by decide : ")" ≠ Token.space))
    exact (((hcondition.append (hkeyword (by decide))).append (hc t (by simp [children]))).append
      (hkeyword (by decide))).append (hc e (by simp [children]))
  | chain level first others =>
    refine (hc first (by simp [children])).append (.flatMap fun x hx => ?_)
    exact (composed_operator hW level x.1).append
      (hc x.2 (List.mem_cons_of_mem _ (List.mem_map_of_mem hx)))
  | comparison left op right =>
    exact ((hc left (by simp [children])).append
      (hkeyword (Token.ne_space (Grammar.isWord_comparisonOp op)))).append
        (hc right (by simp [children]))
  | range first last =>
    exact ((hc first (by simp [children])).append (hkeyword (by decide))).append
        (hc last (by simp [children]))
  | instanceOf e type | treat e type =>
    exact (((hc e (by simp [children])).append (hkeyword (by decide))).append
      (hkeyword (by decide))).append (SequenceType.composed hW hn)
  | castable e type | cast e type =>
    exact (((hc e (by simp [children])).append (hkeyword (by decide))).append
      (hkeyword (by decide))).append
        ((EQName.composed hW hn).append (composed_mark hW type.optional (by decide)))
  | arrow first calls =>
    obtain ⟨hfirst, hcalls⟩ := List.forall_mem_cons.mp hc
    refine hfirst.append (.flatMap fun x hx => (hkeyword (by decide)).append ?_)
    exact ArrowCall.composed hW (fun m hm => hn m (List.mem_flatMap.mpr ⟨x, hx, hm⟩))
      fun e he => hcalls e (List.mem_flatMap.mpr ⟨x, hx, he⟩)
  | unary ops operand =>
    refine .append (.words ?_) (hc operand (by simp [children]))
    rintro _ hp
    obtain ⟨op, -, rfl⟩ := List.mem_map.mp hp
    exact ⟨_, rfl, hW _ (Token.ne_space (Grammar.isWord_unaryOp op))⟩
  | path leading relative =>
    refine (hfixed (Token.ne_space (Grammar.isWord_pathOp leading))).append ?_
    cases relative with
    | none => exact .nil
    | some r => exact hc r (by simp [children])
  | axisStep axis test predicates =>
    refine ((composed_axis hW axis).append (NodeTest.composed hW hn)).append ?_
    exact .flatMap fun c hmem => composed_predicate hW (hc c hmem)
  | parentStep => exact hfixed (by decide)
  | suffixed primary suffixes =>
    obtain ⟨hprimary, hsuffixes⟩ := List.forall_mem_cons.mp hc
    refine hprimary.append (.flatMap fun x hx => ?_)
    exact Suffix.composed hW (fun m hm => hn m (List.mem_flatMap.mpr ⟨x, hx, hm⟩))
      fun e he => hsuffixes e (List.mem_flatMap.mpr ⟨x, hx, he⟩)
  | parenthesized inner =>
    refine .between hW (by decide) (by decide) ?_
    cases inner with
    | none => exact .nil
    | some c => exact hc c (by simp [children])
  | contextItem => exact hfixed (by decide)
  | varRef name =>
    have hname : Composed W name.pieces := EQName.composed hW hn
    exact hname.text (hW "$" (by decide))
  | functionCall name args => exact (EQName.composed hW hn).append (composed_arguments hW hc)
  | namedFunctionRef name arity =>
    have harity : Nat.repr arity ≠ Token.space :=
      Token.ne_space (Token.isWord_of_isDigits (Token.isDigits_repr arity))
    exact (EQName.composed hW hn).append ((hfixed harity).text (hW "#" (by decide)))
  | inlineFunction params result body =>
    obtain ⟨hparams, hresult⟩ := List.forall_mem_append.mp hn
    have hcall : Composed W (callPieces "function" (paramsPieces params)) :=
      .call hW (by decide) (composed_params hW hparams)
    exact ((hcall.append (composed_declared hW hresult)).append (.gap .nil)).append
      (composed_enclosed hW hc)
  | mapConstructor entries =>
    have hopen : Composed W [.text "map", .text "\x7b"] :=
      (hfixed (by decide)).text (hW "map" (by decide))
    refine (hopen.append (.commaSeparated hW ?_)).append (hfixed (by decide))
    rintro _ hps
    obtain ⟨e, he, rfl⟩ := List.mem_map.mp hps
    have hentry : ∀ c ∈ [e.key, e.value], Composed W c.2 := fun c hmem =>
      hc c (List.mem_flatMap.mpr ⟨e, he, hmem⟩)
    exact ((hentry e.key (by simp)).append (hkeyword (by decide))).append (hentry e.value (by simp))
  | squareArray members =>
    refine .between hW (by decide) (by decide) (.commaSeparated hW ?_)
    rintro _ hps
    obtain ⟨c, hmem, rfl⟩ := List.mem_map.mp hps
    exact hc c hmem
  | curlyArray body => exact (hfixed (by decide)).append (composed_enclosed hW hc)
  | unaryLookup key =>
    have hkey : Composed W key.pieces := KeySpecifier.composed hW hn hc
    exact hkey.text (hW "?" (by decide))
  | integer v => exact composed_number hW (Integer.unbroken_text v)
  | decimal d => exact composed_number hW d.unbroken_text
  | double x => exact composed_number hW x.unbroken_text
  | string s => exact Composed.nil.string s

end Constructs

/-- A tree is composed of the names in it, if every token but space may be a word. -/
theorem Tree.composed {W : Token → Prop} (hW : ∀ t : Token, t ≠ Token.space → W t) (t : Tree ι)
    (hn : ∀ m ∈ t.ncNames, W m.text) : Composed W t.pieces := by
  induction t using Tree.induct with
  | node l f ih =>
    rw [ncNames_node] at hn
    obtain ⟨hown, hchildren⟩ := List.forall_mem_append.mp hn
    rw [pieces_node]
    refine Form.composed hW (by rwa [Form.ncNames_map]) ?_
    rw [Form.children_map]
    rintro _ hmem
    obtain ⟨c, hc, rfl⟩ := List.mem_map.mp hmem
    exact ih c hc fun m hm => hchildren m (List.mem_flatMap.mpr ⟨c, hc, hm⟩)

end XPath
