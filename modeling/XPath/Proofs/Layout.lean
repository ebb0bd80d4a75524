import XPath.Proofs.Sound.Expr

/-!
# Tokens of pieces, part by part

What a gap adds depends on the token before it, and a space at the end is dropped. Pieces that begin
and end with a word, a string or a URI are free of both effects (`Solid`): they give the same tokens
wherever they stand (`Piece.lay_solid`), and the tokens of a whole are those of its parts in a row.
All names, types and trees that can be spelled have solid pieces (`Tree.solid`).

A URI is laid out by any `UriTokens`: as the one token that rendering makes of it, or as those that
a tokenizer finds in it.
-/

namespace XPath

/-- Tokens for every URI, which spell it without a brace. -/
structure UriTokens where
  tokens : String → List Token
  join_eq : ∀ {u}, wellFormedUri u → String.join (tokens u) = u
  ne_brace : ∀ {u}, wellFormedUri u → ∀ t ∈ tokens u, t ≠ "\x7b" ∧ t ≠ "\x7d"

/-- Every URI as a single token. -/
def UriTokens.whole : UriTokens where
  tokens u := [u]
  join_eq _ := by simp [String.join]
  ne_brace h t ht := by
    obtain rfl : t = _ := by simpa using ht
    exact h

/-! ## Solid pieces -/

/-- Neither a gap nor a space, and no quote. -/
def Piece.isSolid : Piece → Bool
  | text t => t.isWord
  | gap => false
  | _ => true

/-- The first piece is solid. -/
def Starts (ps : List Piece) : Prop := ps.head?.any Piece.isSolid

/-- The last piece is solid. -/
def Closes (ps : List Piece) : Prop := ps.getLast?.any Piece.isSolid

/-- Pieces that neither begin nor end with a gap. -/
structure Solid (ps : List Piece) : Prop where
  starts : Starts ps
  closes : Closes ps

/-- What comes behind does not change how pieces start. -/
theorem Starts.append {ps : List Piece} (h : Starts ps) (qs : List Piece) : Starts (ps ++ qs) := by
  cases ps with
  | nil => cases h
  | cons p ps => exact h

/-- What comes in front does not change how pieces close. -/
theorem Closes.append {qs : List Piece} (h : Closes qs) (ps : List Piece) : Closes (ps ++ qs) := by
  rcases List.eq_nil_or_concat qs with rfl | ⟨qs, q, rfl⟩
  · cases h
  · rw [List.concat_eq_append] at h ⊢
    rw [Closes, ← List.append_assoc, List.getLast?_concat]
    rwa [Closes, List.getLast?_concat] at h

theorem Closes.singleton {p : Piece} (h : p.isSolid) : Closes [p] := h

/-- Pieces close behind any number of parts that do. -/
theorem Closes.append_flatMap {α : Type} {ps : List Piece} (h : Closes ps) {xs : List α}
    {g : α → List Piece} (hg : ∀ x ∈ xs, Closes (g x)) : Closes (ps ++ xs.flatMap g) := by
  rcases List.eq_nil_or_concat xs with rfl | ⟨xs, x, rfl⟩
  · simpa using h
  · rw [List.concat_eq_append, List.flatMap_append, List.flatMap_singleton, ← List.append_assoc]
    exact (hg x (by simp)).append _

theorem Solid.singleton {p : Piece} (h : p.isSolid) : Solid [p] := ⟨h, h⟩

/-- Whatever stands between. -/
theorem Solid.around {ps qs : List Piece} (hp : Solid ps) (hq : Solid qs) (mid : List Piece) :
    Solid (ps ++ mid ++ qs) :=
  ⟨(hp.starts.append mid).append qs, hq.closes.append (ps ++ mid)⟩

/-- Two solid parts are one. -/
theorem Solid.append {ps qs : List Piece} (hp : Solid ps) (hq : Solid qs) : Solid (ps ++ qs) :=
  ⟨hp.starts.append qs, hq.closes.append ps⟩

/-! ## Layout -/

namespace Piece

variable (σ : UriTokens)

/-- The tokens of the pieces, after a space or at the start if `spaced`. -/
def lay (spaced : Bool) : List Piece → List Token
  | [] => []
  | text t :: ps => t :: lay t.isSpace ps
  | string s :: ps => "\"" :: s :: "\"" :: lay false ps
  | bracedUri u :: ps => "Q" :: "\x7b" :: (σ.tokens u ++ "\x7d" :: lay false ps)
  | gap :: ps => if spaced then lay true ps else Token.space :: lay true ps

/-- The tokens of solid pieces. -/
def write (ps : List Piece) : List Token := lay σ true ps

/-- The rendered tokens are those of the layout that leaves URIs whole. -/
theorem tokensAfter_eq_lay (last : Option Token) (ps : List Piece) :
    tokensAfter last ps = lay .whole (last.all Token.isSpace) ps := by
  induction ps generalizing last with
  | nil => rfl
  | cons p ps ih =>
    cases p with
    | text t => rw [tokensAfter, lay, ih (some t), Option.all_some]
    | string s => rw [tokensAfter, lay, ih (some "\"")]; rfl
    | bracedUri u => rw [tokensAfter, lay, ih (some "\x7d")]; rfl
    | gap =>
      rw [tokensAfter, lay, ih last, ih (some Token.space), Option.all_some]
      cases last.all Token.isSpace <;> rfl

variable {σ}

/-- A word is laid out as it is. -/
theorem lay_text {t : Token} (h : t.isWord) (spaced : Bool) (ps : List Piece) :
    lay σ spaced (text t :: ps) = t :: lay σ false ps := by
  rw [lay, Token.isSpace_eq_false h]

theorem lay_gap_true (ps : List Piece) : lay σ true (gap :: ps) = lay σ true ps := by
  rw [lay, if_pos rfl]

theorem lay_gap_false (ps : List Piece) :
    lay σ false (gap :: ps) = Token.space :: lay σ true ps := by
  rw [lay, if_neg (by decide)]

/-- Pieces that start with a token are laid out as they are written. -/
theorem lay_of_starts {ps : List Piece} (h : Starts ps) (spaced : Bool) :
    lay σ spaced ps = write σ ps := by
  cases ps with
  | nil => rfl
  | cons p ps =>
    cases p with
    | gap => cases h
    | _ => rfl

/-- Parts are laid out one after another if the first one closes. -/
theorem lay_append {ps : List Piece} (h : Closes ps) (spaced : Bool) (qs : List Piece) :
    lay σ spaced (ps ++ qs) = lay σ spaced ps ++ lay σ false qs := by
  induction ps generalizing spaced with
  | nil => cases h
  | cons p ps ih =>
    cases ps with
    | nil =>
      cases p with
      | text t => rw [List.singleton_append, lay_text h, lay_text h]; rfl
      | string s => rfl
      | bracedUri u => simp [lay]
      | gap => cases h
    | cons q ps =>
      have ih := ih (by simpa [Closes] using h)
      cases p with
      | gap =>
        rw [List.cons_append, lay, lay, ih]
        split <;> rfl
      | bracedUri u =>
        rw [List.cons_append, lay, lay, ih]
        simp only [List.cons_append, List.append_assoc]
      | _ =>
        rw [List.cons_append, lay, lay, ih]
        rfl

/-- Solid pieces give the same tokens wherever they stand. -/
theorem lay_solid {ps : List Piece} (h : Solid ps) (spaced : Bool) (qs : List Piece) :
    lay σ spaced (ps ++ qs) = write σ ps ++ lay σ false qs := by
  rw [lay_append h.closes, lay_of_starts h.starts]

/-- Two parts are written one after another if both are solid. -/
theorem write_append {ps qs : List Piece} (hp : Solid ps) (hq : Starts qs) :
    write σ (ps ++ qs) = write σ ps ++ write σ qs := by
  rw [write, lay_solid hp, lay_of_starts hq]

end Piece

/-! ## Names and types -/

/-- Names are solid. -/
theorem NCName.solid {n : NCName} (h : n.WellFormed) : Solid n.pieces :=
  .singleton (Token.isWord_of_startsName h)

/-- Names are solid, with a prefix or a URI as well. -/
theorem EQName.solid {n : EQName} (h : n.WellFormed) : Solid n.pieces := by
  cases n with
  | qName nsPrefix localName =>
    cases nsPrefix with
    | none => exact NCName.solid h.2
    | some p => exact (NCName.solid (h.1 p rfl)).around (NCName.solid h.2) [.text ":"]
  | uriQualified uri localName => exact (Solid.singleton rfl).append (NCName.solid h.2)

/-- Whatever stands in it, a call is solid. -/
theorem solid_call {keyword : Token} (h : keyword.isWord) (body : List Piece) :
    Solid (callPieces keyword body) :=
  Solid.around (show Solid [.text keyword, .text "("] from ⟨h, rfl⟩) (.singleton rfl) body

theorem NameOrWildcard.solid {n : NameOrWildcard} (h : n.WellFormed) : Solid n.pieces := by
  cases n with
  | name n => exact EQName.solid h
  | wildcard => exact .singleton rfl

/-- Kind tests are calls. -/
theorem KindTest.solid (t : KindTest) : Solid t.pieces := by
  cases t <;> exact solid_call rfl _

theorem NameTest.solid {t : NameTest} (h : t.WellFormed) : Solid t.pieces := by
  cases t with
  | name n => exact EQName.solid h
  | wildcard => exact .singleton rfl
  | nsWildcard w =>
    cases w with
    | anyLocal p =>
      exact (NCName.solid h).append (show Solid [.text ":", .text "*"] from ⟨rfl, rfl⟩)
    | anyNamespace n =>
      exact (show Solid [.text "*", .text ":"] from ⟨rfl, rfl⟩).append (NCName.solid h)
    | anyLocalIn uri => exact ⟨rfl, rfl⟩

/-- Tests are solid. -/
theorem NodeTest.solid {t : NodeTest} (h : t.WellFormed) : Solid t.pieces := by
  cases t with
  | kindTest t => exact t.solid
  | nameTest t => exact NameTest.solid h

/-- A mark at the end, if there is one. -/
theorem solid_marked {ps : List Piece} (h : Solid ps) (mark : Option Token)
    (hm : ∀ t ∈ mark, t.isWord) : Solid (ps ++ (mark.map Piece.text).toList) := by
  cases mark with
  | none => rwa [Option.map_none, Option.toList_none, List.append_nil]
  | some t => exact h.append (.singleton (hm t rfl))

theorem SingleType.solid {t : SingleType} (h : t.name.WellFormed) : Solid t.pieces := by
  have := solid_marked (EQName.solid h) (if t.optional then some "?" else none)
  obtain ⟨name, optional⟩ := t
  cases optional
  · exact this (by simp)
  · exact this (by rintro _ ⟨⟩; rfl)

/-- A type is solid if the types in parentheses are. -/
theorem SequenceType.solid {I : ItemType → Prop} (hI : ∀ t, I t → Solid t.pieces)
    {t : SequenceType} (h : t.FitsIn I) : Solid t.pieces := by
  cases t with
  | empty => exact solid_call rfl _
  | items type occurrence =>
    have := solid_marked (hI type h.1) (occurrence.map Spelled.spelling) ?_
    · rwa [Option.map_map] at this
    · intro t ht
      obtain ⟨o, -, rfl⟩ := Option.map_eq_some_iff.mp ht
      exact Grammar.isWord_occurrence o

/-- A type is solid if the types in parentheses are. -/
theorem ItemType.solid_of_fitsIn {I : ItemType → Prop} (hI : ∀ t, I t → Solid t.pieces)
    {t : ItemType} (h : t.FitsIn I) : Solid t.pieces := by
  cases t with
  | kindTest t => exact t.solid
  | function params result =>
    exact Solid.around (solid_call rfl _) (SequenceType.solid hI h.2) (Piece.keyword "as")
  | atomic name => exact EQName.solid h
  | parenthesized t => exact Solid.around (.singleton rfl) (.singleton rfl) _
  | _ => exact solid_call rfl _

/-- Types are solid, whatever their nesting. -/
theorem ItemType.solid {levels : Nat} {t : ItemType} (h : ItemType.Fits levels t) :
    Solid t.pieces := by
  induction levels generalizing t with
  | zero => cases h
  | succ levels ih => exact solid_of_fitsIn (fun _ => ih) h

/-! ## Trees -/

section Parts

variable {ι : Type}

/-- Keys are solid. -/
theorem KeySpecifier.solid {key : KeySpecifier (Tree ι)} (hw : key.WellFormed)
    (hc : ∀ e ∈ key.children, e.kind = .parenthesizedExpr ∧ Solid e.pieces) :
    Solid (key.map Tree.withPieces).pieces := by
  cases key with
  | name n => exact NCName.solid hw
  | integer v =>
    obtain ⟨n, rfl⟩ := Int.eq_ofNat_of_zero_le hw
    refine .singleton (Token.isWord_of_isDigits ?_)
    rw [integer_text]
    exact Token.isDigits_repr n
  | parenthesized e =>
    obtain ⟨hkind, hs⟩ := hc e (by simp [children])
    simpa [KeySpecifier.map, KeySpecifier.pieces, parenthesizedPieces, Tree.withPieces, hkind]
      using hs
  | wildcard => exact .singleton rfl

/-- Targets are solid. -/
theorem ArrowTarget.solid {target : ArrowTarget (Tree ι)} (hw : target.WellFormed)
    (hc : ∀ e ∈ target.children, e.kind = .parenthesizedExpr ∧ Solid e.pieces) :
    Solid (target.map Tree.withPieces).pieces := by
  cases target with
  | name n => exact EQName.solid hw
  | var n => exact (Solid.singleton (p := .text "$") rfl).append (EQName.solid hw)
  | parenthesized e =>
    obtain ⟨hkind, hs⟩ := hc e (by simp [children])
    simpa [ArrowTarget.map, ArrowTarget.pieces, parenthesizedPieces, Tree.withPieces, hkind]
      using hs

/-- Argument lists are solid. -/
theorem solid_arguments (args : List (Argument (Tree ι × List Piece))) :
    Solid (argumentPieces args) :=
  Solid.around (.singleton rfl) (.singleton rfl) _

theorem solid_predicate (e : Tree ι × List Piece) : Solid (predicatePieces e) :=
  Solid.around (.singleton rfl) (.singleton rfl) _

/-- A suffix closes with its bracket or its key. -/
theorem Suffix.closes {s : Suffix (Tree ι)} (hw : s.WellFormed)
    (hc : ∀ e ∈ s.groups, e.kind = .parenthesizedExpr ∧ Solid e.pieces) :
    Closes (s.map Tree.withPieces).pieces := by
  cases s with
  | predicate e => exact (solid_predicate _).closes
  | arguments args => exact (solid_arguments _).closes
  | lookup key => exact (KeySpecifier.solid hw hc).closes.append [.text "?"]

/-- A node test, with an axis in front if one is written. -/
theorem solid_step (axis : Option StepAxis) {test : NodeTest} (h : test.WellFormed) :
    Solid (axis.elim [] StepAxis.pieces ++ test.pieces) := by
  have htest := NodeTest.solid h
  cases axis with
  | none => exact htest
  | some axis =>
    cases axis with
    | named a =>
      have haxis : Solid [.text (Spelled.spelling a), .text "::"] := ⟨Grammar.isWord_axis a, rfl⟩
      exact haxis.append htest
    | atSign => exact (Solid.singleton (p := .text "@") rfl).append htest

/-- Braces close, with something in them or not. -/
theorem closes_enclosed (o : Option (Tree ι × List Piece)) : Closes (enclosedPieces o) := by
  cases o with
  | none => rfl
  | some e => exact (show Closes [.gap, .text "\x7d"] from rfl).append _

end Parts

/-- Words are solid if there is one. -/
theorem solid_ofTokens {ts : List Token} (hne : ts ≠ []) (h : ∀ t ∈ ts, t.isWord) :
    Solid (Piece.ofTokens ts) := by
  obtain ⟨t, us, rfl⟩ := List.exists_cons_of_ne_nil hne
  refine ⟨h t (by simp), ?_⟩
  rw [Closes, Piece.ofTokens, List.getLast?_map, List.getLast?_eq_some_getLast hne]
  exact h _ (List.getLast_mem hne)

/-- Digits are a word. -/
theorem isWord_digits {cs : List Char} (hne : cs ≠ []) (h : cs.all Char.isDigit) :
    Token.isWord (String.ofList cs) :=
  Token.isWord_of_isDigits (Token.isDigits_ofList.mpr ⟨hne, h⟩)

/-- The tokens of a decimal are words. -/
theorem isWord_decimalTokens (d : Decimal) :
    ∀ t ∈ ([String.ofList d.wholeDigits, ".", String.ofList d.fractionDigits] : List Token),
      t.isWord := by
  simpa using ⟨isWord_digits d.wholeDigits_ne_nil d.wholeDigits_all, rfl,
    isWord_digits d.fractionDigits_ne_nil d.fractionDigits_all⟩

/-- An exponent is a token of its own. -/
theorem exponentToken_ne (e : Int) {t : Token} (h : t.toList.head? ≠ some 'e') :
    exponentToken e ≠ t := by
  rintro rfl
  simp [exponentToken_toList] at h

theorem isWord_exponentToken (e : Int) : (exponentToken e).isWord :=
  Token.isWord_of_ne (exponentToken_ne e (by decide)) (exponentToken_ne e (by decide))
    (exponentToken_ne e (by decide))

/-- The tokens of a double are words. -/
theorem Scientific.isWord_tokens (s : Scientific) : ∀ t ∈ s.tokens, t.isWord := by
  have hlead := isWord_digits s.leadingDigit_ne_nil s.digits_all.1
  have hexponent := isWord_exponentToken s.shownExponent
  rw [tokens]
  split
  next => simpa using ⟨hlead, hexponent⟩
  next hf => simpa using ⟨hlead, rfl, isWord_digits hf s.digits_all.2, hexponent⟩

/-- What fits into a number of levels has children that do so, too. -/
theorem Form.FitsIn.exists_fits {ι : Type} {levels : Nat} {f : Form (Tree ι)}
    (h : f.FitsIn levels) : ∀ c ∈ f.children, ∃ k, c.Fits k := by
  intro c hc
  rcases Form.mem_children.mp hc with ho | ho | ho | ho
  · exact ⟨levels, (h.operand c ho).2⟩
  · obtain ⟨k, -, hk⟩ := (h.single c ho).2
    exact ⟨k, hk⟩
  · exact ⟨levels, (h.content c ho).2⟩
  · exact ⟨levels, (h.group c ho).2⟩

/-- A construct with solid children is solid. -/
theorem Form.solid {ι : Type} {levels : Nat} {f : Form (Tree ι)} (hf : f.FitsIn levels)
    (hc : ∀ c ∈ f.children, Solid c.pieces) : Solid (f.map Tree.withPieces).pieces := by
  have hgroup : ∀ e ∈ f.groups, e.kind = .parenthesizedExpr ∧ Solid e.pieces := fun e he =>
    ⟨(hf.group e he).1, hc e (mem_children.mpr (.inr (.inr (.inr he))))⟩
  cases f with
  | expr items =>
    cases items with
    | nil => exact absurd rfl hf.proper
    | cons e items =>
      have he := hc e (by simp [children])
      simp only [map, Form.pieces, List.map_cons, Rule.commaSeparated_cons, List.flatMap_map]
      refine ⟨he.starts.append _, he.closes.append_flatMap fun x hx => ?_⟩
      exact (hc x (by simp [children, hx])).closes.append _
  | forExpr bindings body | letExpr bindings body =>
    exact ⟨rfl, (hc body (by simp [children])).closes.append _⟩
  | quantified q bindings body =>
    exact ⟨Grammar.isWord_quantifier q, (hc body (by simp [children])).closes.append _⟩
  | ifExpr c t e => exact ⟨rfl, (hc e (by simp [children])).closes.append _⟩
  | chain level first others =>
    have hfirst := hc first (by simp [children])
    simp only [map, Form.pieces, List.flatMap_map]
    refine ⟨hfirst.starts.append _, hfirst.closes.append_flatMap fun x hx => ?_⟩
    exact (hc x.2 (by simp only [children]; exact .tail _ (List.mem_map_of_mem hx))).closes.append _
  | comparison left op right =>
    exact (hc left (by simp [children])).around (hc right (by simp [children])) (Piece.keyword _)
  | range first last =>
    exact (hc first (by simp [children])).around (hc last (by simp [children])) (Piece.keyword _)
  | instanceOf e type | treat e type =>
    have htype : Solid type.pieces := SequenceType.solid (fun _ => ItemType.solid) hf.parts
    exact ⟨(((hc e (by simp [children])).starts.append _).append _).append _, htype.closes.append _⟩
  | castable e type | cast e type =>
    have htype : Solid type.pieces := SingleType.solid hf.parts
    exact ⟨(((hc e (by simp [children])).starts.append _).append _).append _, htype.closes.append _⟩
  | arrow first calls =>
    have hfirst := hc first (by simp [children])
    simp only [map, Form.pieces, List.flatMap_map]
    refine ⟨hfirst.starts.append _, hfirst.closes.append_flatMap fun x hx => ?_⟩
    exact ((solid_arguments _).closes.append _).append _
  | unary ops operand =>
    cases ops with
    | nil => exact absurd rfl hf.proper
    | cons op ops =>
      exact ⟨Grammar.isWord_unaryOp op, (hc operand (by simp [children])).closes.append _⟩
  | path leading relative =>
    have hword := Grammar.isWord_pathOp leading
    cases relative with
    | none => exact .singleton (p := .text (Spelled.spelling leading)) hword
    | some r => exact (Solid.singleton (p := .text _) hword).append (hc r (by simp [children]))
  | axisStep axis test predicates =>
    simp only [map, Form.pieces, List.flatMap_map]
    have hstep := solid_step axis hf.parts
    exact ⟨hstep.starts.append _, hstep.closes.append_flatMap fun x _ => (solid_predicate _).closes⟩
  | parentStep => exact .singleton rfl
  | suffixed primary suffixes =>
    have hprimary := hc primary (by simp [children])
    simp only [map, Form.pieces, List.flatMap_map]
    refine ⟨hprimary.starts.append _, hprimary.closes.append_flatMap fun x hx => ?_⟩
    exact Suffix.closes (hf.parts x hx) fun e he => hgroup e (List.mem_flatMap.mpr ⟨x, hx, he⟩)
  | parenthesized inner => exact Solid.around (.singleton rfl) (.singleton rfl) _
  | contextItem => exact .singleton rfl
  | varRef name => exact (Solid.singleton (p := .text "$") rfl).append (EQName.solid hf.parts)
  | functionCall name args => exact (EQName.solid hf.parts).append (solid_arguments _)
  | namedFunctionRef name arity =>
    have harity : Solid [.text "#", .text (Nat.repr arity)] :=
      ⟨rfl, Token.isWord_of_isDigits (Token.isDigits_repr arity)⟩
    exact (EQName.solid hf.parts.1).append harity
  | inlineFunction params result body => exact ⟨rfl, (closes_enclosed _).append _⟩
  | mapConstructor entries => exact ⟨rfl, (Closes.singleton (p := .text "\x7d") rfl).append _⟩
  | squareArray members => exact Solid.around (.singleton rfl) (.singleton rfl) _
  | curlyArray body => exact ⟨rfl, (closes_enclosed _).append _⟩
  | unaryLookup key =>
    exact (Solid.singleton (p := .text "?") rfl).append (KeySpecifier.solid hf.parts hgroup)
  | integer v =>
    obtain ⟨n, rfl⟩ := Int.eq_ofNat_of_zero_le hf.parts
    simp only [map, Form.pieces, readPieces_integer]
    exact .singleton (Token.isWord_of_isDigits (Token.isDigits_repr n))
  | decimal d =>
    simp only [map, Form.pieces, readPieces_decimal hf.parts.1]
    exact solid_ofTokens (List.cons_ne_nil _ _) (isWord_decimalTokens d)
  | double x =>
    simp only [map, Form.pieces, readPieces_double hf.parts.1 hf.parts.2]
    exact solid_ofTokens (List.cons_ne_nil _ _) x.shortest.isWord_tokens
  | string s => exact .singleton rfl

/-- A tree that can be spelled has solid pieces. -/
theorem Tree.solid {ι : Type} (n : Tree ι) : ∀ {levels : Nat}, n.Fits levels → Solid n.pieces := by
  induction n using Tree.induct with
  | node l f ih =>
    intro levels h
    have hf := fits_node.mp h
    rw [pieces_node]
    refine Form.solid hf fun c hc => ?_
    obtain ⟨k, hk⟩ := hf.exists_fits c hc
    exact ih c hc hk

end XPath
