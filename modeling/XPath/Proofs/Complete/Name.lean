import XPath.Proofs.DecimalText
import XPath.Proofs.Reading
import XPath.Proofs.Sound.Name

/-!
# Completeness of the rules for names and literals

Each rule reads what its value is written as (`Rule.Reads`), if the token after it is none that the
rule would take as well.
-/

namespace XPath

open Rule

variable {σ : UriTokens}

/-! ## Names -/

/-- A name is not continued by what is left. -/
structure EndsName (rest : List Token) : Prop where
  ne_colon : rest.head? ≠ some ":"
  ne_brace : rest.head? ≠ some "\x7b"

/-- What ends an expression ends a name. -/
theorem Ends.endsName {k : Nat} {rest : List Token} (h : Ends k rest) (hk : k ≤ 21) :
    EndsName rest :=
  ⟨h.ne_colon, h.head?_ne (Nat.le_trans hk (by decide)) rfl⟩

theorem EndsName.of_follows {t : Token} {rest mid : List Token} (h : Follows t rest mid)
    (hcolon : t ≠ ":") (hbrace : t ≠ "\x7b") : EndsName rest := by
  rcases h with rfl | rfl
  · exact ⟨by simpa using hcolon, by simpa using hbrace⟩
  · exact ⟨by simp [Token.space], by simp [Token.space]⟩

/-- A name is no token that names do not begin like. -/
theorem NCName.text_ne {n : NCName} (h : n.WellFormed) {t : Token}
    (ht : Text.startsName t = false) : n.text ≠ t := by
  rintro rfl
  rw [NCName.WellFormed, ht] at h
  cases h

theorem write_ncName {n : NCName} (h : n.WellFormed) : Piece.write σ n.pieces = [n.text] :=
  Piece.write_text (Token.isWord_of_startsName h) []

/-- A name without a prefix is one token. -/
theorem write_unprefixed {n : NCName} (hn : n.WellFormed) :
    Piece.write σ (EQName.pieces (.qName none n)) = [n.text] :=
  write_ncName hn

/-- A prefix, a colon and a name are three tokens. -/
theorem write_prefixed {p n : NCName} (hp : p.WellFormed) (hn : n.WellFormed)
    (rest : List Token) : Piece.write σ (EQName.pieces (.qName (some p) n)) ++ rest =
      p.text :: ":" :: n.text :: rest := by
  have hlay : Piece.lay σ false n.pieces = [n.text] :=
    Piece.lay_text (Token.isWord_of_startsName hn) _ _
  rw [EQName.pieces, NCName.pieces, List.append_assoc, List.singleton_append, List.singleton_append,
    Piece.write_text (Token.isWord_of_startsName hp), Piece.lay_text rfl, hlay]
  rfl

/-- A URI is written in its braces. -/
theorem write_bracedUri (uri : String) (ps : List Piece) : Piece.write σ (.bracedUri uri :: ps) =
    "Q" :: "\x7b" :: (σ.tokens uri ++ "\x7d" :: Piece.lay σ false ps) :=
  rfl

theorem write_anyLocal {p : NCName} (hp : p.WellFormed) (rest : List Token) :
    Piece.write σ (NameTest.pieces (.nsWildcard (.anyLocal p))) ++ rest =
      p.text :: ":" :: "*" :: rest := by
  rw [show NameTest.pieces (.nsWildcard (.anyLocal p)) =
    [.text p.text, .text ":", .text "*"] from rfl,
    Piece.write_text (Token.isWord_of_startsName hp)]
  rfl

theorem write_anyNamespace {n : NCName} (hn : n.WellFormed) (rest : List Token) :
    Piece.write σ (NameTest.pieces (.nsWildcard (.anyNamespace n))) ++ rest =
      "*" :: ":" :: n.text :: rest := by
  rw [show NameTest.pieces (.nsWildcard (.anyNamespace n)) = [.text "*", .text ":", .text n.text]
    from rfl, Piece.write_text rfl, Piece.lay_text rfl,
    Piece.lay_text (Token.isWord_of_startsName hn)]
  rfl

theorem write_anyLocalIn (uri : String) (rest : List Token) :
    Piece.write σ (NameTest.pieces (.nsWildcard (.anyLocalIn uri))) ++ rest =
      "Q" :: "\x7b" :: (σ.tokens uri ++ "\x7d" :: "*" :: rest) := by
  rw [NameTest.pieces, NsWildcard.pieces, write_bracedUri, Piece.lay_text rfl]
  simp [Piece.lay]

theorem write_uriQualified {n : NCName} (hn : n.WellFormed) (uri : String) (rest : List Token) :
    Piece.write σ (EQName.pieces (.uriQualified uri n)) ++ rest =
      "Q" :: "\x7b" :: (σ.tokens uri ++ "\x7d" :: n.text :: rest) := by
  have hlay : Piece.lay σ false n.pieces = [n.text] :=
    Piece.lay_text (Token.isWord_of_startsName hn) _ _
  rw [EQName.pieces, List.singleton_append, write_bracedUri, hlay]
  simp

/-- The first token of a name. -/
theorem EQName.head?_write {n : EQName} (h : n.WellFormed) :
    ∃ t, (Piece.write σ n.pieces).head? = some t ∧ Text.startsName t := by
  cases n with
  | qName nsPrefix localName =>
    cases nsPrefix with
    | none => exact ⟨localName.text, by rw [write_unprefixed h.2]; rfl, h.2⟩
    | some p =>
      have hp : p.WellFormed := h.1 p rfl
      have := write_prefixed (σ := σ) hp h.2 []
      rw [List.append_nil] at this
      exact ⟨p.text, by rw [this]; rfl, hp⟩
  | uriQualified uri localName => exact ⟨"Q", rfl, by decide⟩

/-- A name does not begin with a token that is none. -/
theorem EQName.head?_write_ne {n : EQName} (h : n.WellFormed) {t : Token}
    (ht : Text.startsName t = false) : (Piece.write σ n.pieces).head? ≠ some t := by
  obtain ⟨u, hu, hname⟩ := head?_write (σ := σ) h
  rw [hu]
  rintro ⟨⟩
  simp [ht] at hname

theorem NameOrWildcard.head?_write_ne {n : NameOrWildcard} (h : n.WellFormed) {t : Token}
    (ht : Text.startsName t = false) (hstar : t ≠ "*") :
    (Piece.write σ n.pieces).head? ≠ some t := by
  cases n with
  | name n => exact EQName.head?_write_ne h ht
  | wildcard => simpa [NameOrWildcard.pieces, Piece.write, Piece.lay] using hstar.symm

namespace Grammar

theorem localPart_complete (owner : String) {n : NCName} (h : n.WellFormed) (rest : List Token) :
    localPart owner (n.text :: rest) = .ok (n, rest) :=
  bind_of_ok (one_eq_ok.mpr ⟨h, rfl⟩) _

/-- Tokens without braces are read as part of the URI. -/
theorem uriText_append {w : List Token} (h : ∀ t ∈ w, t ≠ "\x7b" ∧ t ≠ "\x7d") (uri : String)
    (rest : List Token) : uriText uri (w ++ "\x7d" :: rest) = .ok (uri ++ String.join w, rest) := by
  induction w generalizing uri with
  | nil => simp [uriText]
  | cons t w ih =>
    obtain ⟨hopen, hclose⟩ := h t (by simp)
    rw [List.cons_append, uriText, if_neg hclose, if_neg hopen, ih (fun u hu => h u (by simp [hu])),
      String.join_cons, String.append_assoc]

/-- A URI is read from the tokens it is written as. -/
theorem bracedUri_complete {uri : String} (h : wellFormedUri uri) (rest : List Token) :
    bracedUri ("Q" :: "\x7b" :: (σ.tokens uri ++ "\x7d" :: rest)) = .ok (uri, rest) := by
  refine enclosed_eq_ok.mpr ?_
  have := uriText_append (σ.ne_brace h) "" rest
  rwa [σ.join_eq h, String.empty_append] at this

/-- A URI in braces is read from tokens without braces, and only from these. -/
theorem bracedUri_iff {ts rest : List Token} {uri : String} :
    bracedUri ("Q" :: "\x7b" :: ts) = .ok (uri, rest) ↔
      ∃ w, ts = w ++ "\x7d" :: rest ∧ (∀ t ∈ w, t ≠ "\x7b" ∧ t ≠ "\x7d") ∧ uri = String.join w := by
  refine enclosed_eq_ok.trans ⟨fun h => ?_, ?_⟩
  · obtain ⟨w, hts, hw, rfl⟩ := uriText_eq_ok h
    exact ⟨w, hts, hw, String.empty_append⟩
  · rintro ⟨w, rfl, hw, rfl⟩
    rw [show ("Q" :: "\x7b" :: (w ++ "\x7d" :: rest)).drop 2 = w ++ "\x7d" :: rest from rfl,
      uriText_append hw, String.empty_append]

theorem colonName?_of_head?_ne {ts : List Token} (h : ts.head? ≠ some ":") :
    colonName? ts = .ok (none, ts) := by
  match ts with
  | colon :: name :: ts =>
    have : colon ≠ ":" := by simpa using h
    rw [colonName?, if_neg (by simp [this])]
  | [_] | [] => rfl

theorem colonName?_cons {n : NCName} (h : n.WellFormed) (rest : List Token) :
    colonName? (":" :: n.text :: rest) = .ok (some n, rest) := by
  rw [colonName?, if_pos ⟨rfl, h⟩]

/-- A braced URI begins with a `Q` and a brace. -/
theorem startsBracedUri_iff {ts : List Token} :
    startsBracedUri ts = true ↔ ∃ more, ts = "Q" :: "\x7b" :: more := by
  match ts with
  | q :: b :: more => simp [startsBracedUri]
  | [_] | [] => simp [startsBracedUri]

theorem startsBracedUri_of_head?_ne {t : Token} {ts : List Token} (h : ts.head? ≠ some "\x7b") :
    startsBracedUri (t :: ts) = false := by
  cases ts with
  | nil => rfl
  | cons b ts =>
    have : b ≠ "\x7b" := by simpa using h
    simp [startsBracedUri, this]

theorem ncName_cons {n : NCName} (h : n.WellFormed) (rest : List Token) :
    ncName (n.text :: rest) = .ok (n, rest) := by
  rw [ncName_apply, skipSpace_of_isWord (Token.isWord_of_startsName h)]
  exact bind_of_ok (one_eq_ok.mpr ⟨h, rfl⟩) _

theorem startsBracedUri_of_ne {t : Token} {ts : List Token} (h : t ≠ "Q") :
    startsBracedUri (t :: ts) = false := by
  cases ts with
  | nil => rfl
  | cons b ts => simp [startsBracedUri, h]

/-- A name is read if no colon or brace follows that it could go on with. -/
theorem eqName_complete {n : EQName} (h : n.WellFormed) {rest : List Token}
    (hrest : EndsName rest) :
    eqName.Reads (Piece.write σ n.pieces) n rest := by
  intro us hus
  rw [eqName_apply, hus]
  cases n with
  | qName nsPrefix localName =>
    cases nsPrefix with
    | none =>
      rw [write_unprefixed h.2,
        List.singleton_append, startsBracedUri_of_head?_ne hrest.ne_brace, if_neg (by decide),
        bind_of_ok (ncName_cons h.2 rest)]
      exact bind_of_ok (colonName?_of_head?_ne hrest.ne_colon) _
    | some p =>
      have hp : p.WellFormed := h.1 p rfl
      rw [write_prefixed hp h.2,
        startsBracedUri_of_head?_ne (by simp), if_neg (by decide), bind_of_ok (ncName_cons hp _)]
      exact bind_of_ok (colonName?_cons h.2 rest) _
  | uriQualified uri localName =>
    rw [write_uriQualified h.2, if_pos (show startsBracedUri ("Q" :: "\x7b" :: _) = true from rfl),
      uriQualifiedName, bind_of_ok (bracedUri_complete h.1 _),
      bind_of_ok (localPart_complete _ h.2 rest), pure_apply]

/-! ## Name tests -/

theorem prefixWildcard?_of_head?_ne {t : Token} {ts : List Token} (h : ts.head? ≠ some ":") :
    prefixWildcard? (t :: ts) = .ok (none, t :: ts) := by
  match ts with
  | colon :: star :: ts =>
    have : colon ≠ ":" := by simpa using h
    rw [prefixWildcard?, if_neg (by simp [this])]
  | [_] | [] => rfl

theorem nameTest_eqName {n : EQName} (h : n.WellFormed) {rest : List Token}
    (hrest : EndsName rest) :
    nameTest.Reads (Piece.write σ n.pieces) (.name n) rest := by
  have hname := (eqName_complete (σ := σ) h hrest).write (EQName.solid h).starts
  have hstar {m : NCName} (hm : m.WellFormed) (ts : List Token) :
      (m.text :: ts).head? ≠ some "*" := by
    simpa using NCName.text_ne hm (by decide)
  intro us hus
  rw [nameTest_apply, hus]
  cases n with
  | qName nsPrefix localName =>
    cases nsPrefix with
    | none =>
      rw [write_unprefixed h.2, List.singleton_append] at hname ⊢
      rw [startsBracedUri_of_head?_ne hrest.ne_brace, if_neg (by decide),
        bind_of_ok (take?_of_ne (hstar h.2 _)), if_neg (by decide),
        bind_of_ok (prefixWildcard?_of_head?_ne hrest.ne_colon)]
      exact bind_of_ok hname _
    | some p =>
      have hp : p.WellFormed := h.1 p rfl
      have hwild : prefixWildcard? (p.text :: ":" :: localName.text :: rest) =
          .ok (none, p.text :: ":" :: localName.text :: rest) := by
        rw [prefixWildcard?, if_neg (by simp [NCName.text_ne h.2 (t := "*") (by decide)])]
      rw [write_prefixed hp h.2] at hname ⊢
      rw [startsBracedUri_of_head?_ne (by simp), if_neg (by decide),
        bind_of_ok (take?_of_ne (hstar hp _)), if_neg (by decide), bind_of_ok hwild]
      exact bind_of_ok hname _
  | uriQualified uri localName =>
    rw [write_uriQualified h.2, if_pos (show startsBracedUri ("Q" :: "\x7b" :: _) = true from rfl),
      bind_of_ok (bracedUri_complete h.1 _), bind_of_ok (take?_of_ne (hstar h.2 _)),
      if_neg (by decide)]
    exact bind_of_ok (localPart_complete _ h.2 rest) _

theorem nameTest_nsWildcard {w : NsWildcard} (h : w.WellFormed) (rest : List Token) :
    nameTest.Reads (Piece.write σ (NameTest.nsWildcard w).pieces) (.nsWildcard w) rest := by
  intro us hus
  rw [nameTest_apply, hus]
  cases w with
  | anyLocal p =>
    have hp : p.WellFormed := h
    have hstar : (p.text :: ":" :: "*" :: rest).head? ≠ some "*" := by
      simpa using NCName.text_ne hp (by decide)
    have hwild : prefixWildcard? (p.text :: ":" :: "*" :: rest) = .ok (some p, rest) := by
      rw [prefixWildcard?, if_pos ⟨hp, rfl, rfl⟩]
    rw [write_anyLocal hp, startsBracedUri_of_head?_ne (by simp), if_neg (by decide),
      bind_of_ok (take?_of_ne hstar), if_neg (by decide)]
    exact bind_of_ok hwild _
  | anyNamespace n =>
    have hn : n.WellFormed := h
    rw [write_anyNamespace hn, if_neg (by simp [startsBracedUri_of_ne]),
      bind_of_ok (take?_cons_self _ _), if_pos rfl]
    exact bind_of_ok (colonName?_cons hn rest) _
  | anyLocalIn uri =>
    rw [write_anyLocalIn, if_pos (show startsBracedUri ("Q" :: "\x7b" :: _) = true from rfl),
      bind_of_ok (bracedUri_complete h _), bind_of_ok (take?_cons_self _ _), if_pos rfl, pure_apply]

/-- A name test is read from the tokens it is written as. -/
theorem nameTest_complete {t : NameTest} (h : t.WellFormed) {rest : List Token}
    (hrest : EndsName rest) : nameTest.Reads (Piece.write σ t.pieces) t rest := by
  cases t with
  | name n => exact nameTest_eqName h hrest
  | wildcard =>
    intro us hus
    rw [nameTest_apply, hus, show Piece.write σ NameTest.wildcard.pieces = ["*"] from rfl,
      List.singleton_append, if_neg (by simp [startsBracedUri_of_ne]),
      bind_of_ok (take?_cons_self _ _), if_pos rfl]
    exact bind_of_ok (colonName?_of_head?_ne hrest.ne_colon) _
  | nsWildcard w => exact nameTest_nsWildcard h rest

/-! ## Literals -/

/-- A string is read from its content between two quotes. -/
theorem stringLiteral_complete (s : String) (rest : List Token) :
    stringLiteral.Reads (Piece.write σ [.string s]) s rest := by
  intro us hus
  have hquote : one Token.isQuote "StringLiteral" ("\"" :: s :: "\"" :: rest) =
      .ok ("\"", s :: "\"" :: rest) := rfl
  rw [stringLiteral, bind_of_ok (space_apply us), bind_of_ok (rest_apply _), hus]
  refine (bind_of_ok hquote _).trans (enclosed_eq_ok.mpr ?_)
  exact bind_of_ok (one_eq_ok.mpr ⟨rfl, rfl⟩) _

/-- A number begins with digits, or with a point and digits. -/
def BeginsNumber (t : Token) (ts : List Token) : Prop :=
  t = "." ∧ ts.head?.any Token.isDigits ∨ t.isDigits

theorem BeginsNumber.ne {t : Token} {ts : List Token} (h : BeginsNumber t ts) {v : Token}
    (hpoint : v ≠ ".") (hdigits : v.isDigits = false) : t ≠ v := by
  rintro rfl
  obtain ⟨ht, -⟩ | ht := h
  · exact hpoint ht
  · exact Bool.false_ne_true (hdigits.symm.trans ht)

theorem BeginsNumber.skipSpace_eq {t : Token} {ts : List Token} (h : BeginsNumber t ts) :
    Token.skipSpace (t :: ts) = t :: ts := by
  have hspace : t.isSpace = false := by
    simpa [Token.isSpace] using h.ne (v := Token.space) (by decide) rfl
  simp [Token.skipSpace, hspace]

/-- A number is not continued by what is left. -/
structure EndsNumber (rest : List Token) : Prop where
  ne_point : rest.head? ≠ some "."
  exponent : exponent? rest = .ok (none, rest)

theorem exponent?_cons {t : Token} (h : wholeExponent? t = none) (he : t ≠ "e") (hE : t ≠ "E")
    (ts : List Token) : exponent? (t :: ts) = .ok (none, t :: ts) := by
  match ts with
  | sign :: digits :: ts => simp [exponent?, h, he, hE]
  | [_] | [] => simp [exponent?, h]

/-- What ends an expression ends a number. -/
theorem EndsNumber.of_ends {k : Nat} {rest : List Token} (h : Ends k rest) (hk : k ≤ 21) :
    EndsNumber rest := by
  refine ⟨h.head?_ne (Nat.le_trans hk (by decide)) rfl, ?_⟩
  cases rest with
  | nil => rfl
  | cons t ts =>
    have ht : wholeExponent? t = none ∧ t ≠ "e" ∧ t ≠ "E" := by
      by_cases hs : t.isSpace
      · obtain rfl : t = Token.space := by simpa [Token.isSpace] using hs
        decide
      · have hrank := h.rank_lt t (by simp [Token.skipSpace, hs])
        refine Token.of_rank_lt (P := fun t => wholeExponent? t = none ∧ t ≠ "e" ∧ t ≠ "E") ?_
          (Nat.lt_of_lt_of_le hrank hk)
        decide
    exact exponent?_cons ht.1 ht.2.1 ht.2.2 ts

theorem numericLiteral_apply (ts : List Token) : numericLiteral ts =
    (mantissa >>= fun m => exponent? >>= fun e? => match e? with
      | some e => ofExcept (doubleOf m e) >>= fun x => pure (.of (.double x))
      | none => match m.fraction with
        | some f => ofExcept (Decimal.ofText (m.whole ++ "." ++ f)) >>= fun d =>
          pure (.of (.decimal d))
        | none => ofExcept (Integer.ofText m.whole) >>= fun v => pure (.of (.integer v)))
      (Token.skipSpace ts) :=
  rfl

/-- An integer is read from its digits. -/
theorem integer_complete (n : Nat) {rest : List Token} (hrest : EndsNumber rest) :
    numericLiteral.Reads (Piece.write σ (readPieces (Integer.text n))) (.of (.integer n)) rest := by
  intro us hus
  have hdigits := Token.isDigits_repr n
  have hvalue : Integer.ofText (Nat.repr n) = .ok n := by
    rw [Integer.ofText_digits hdigits, ofDigitChars_repr]
  rw [readPieces_integer, Piece.write_word (Token.isWord_of_isDigits hdigits)] at hus
  rw [numericLiteral_apply, hus, bind_of_ok (mantissa_whole hdigits hrest.ne_point)]
  refine (bind_of_ok hrest.exponent _).trans ?_
  exact bind_of_ok (ofExcept_eq_ok.mpr ⟨hvalue, rfl⟩) _

theorem write_ofTokens {ts : List Token} (h : ∀ t ∈ ts, t.isWord) :
    Piece.write σ (Piece.ofTokens ts) = ts := by
  have hlay : ∀ b, Piece.lay σ b (Piece.ofTokens ts) = ts := by
    induction ts with
    | nil => exact fun _ => rfl
    | cons t ts ih =>
      intro b
      have := ih (fun u hu => h u (by simp [hu])) false
      rw [Piece.ofTokens, List.map_cons, Piece.lay_text (h t (by simp))]
      exact congrArg _ this
  exact hlay true

theorem Decimal.ofText_shown {d : Decimal} (hd : 0 ≤ d.unscaled)
    (hscale : d.scale ≤ Integer.maxScale) :
    Decimal.ofText (String.ofList d.wholeDigits ++ "." ++ String.ofList d.fractionDigits) =
      .ok d.shown := by
  have htext : String.ofList d.wholeDigits ++ "." ++ String.ofList d.fractionDigits = d.text := by
    rw [Decimal.text_of_nonneg hd, String.ofList_append, String.ofList_cons, String.append_assoc]
    rfl
  rw [htext, Decimal.ofText_text hscale]

/-- A decimal is read as it is shown. -/
theorem decimal_complete {d : Decimal} (hd : 0 ≤ d.unscaled) (hscale : d.scale ≤ Integer.maxScale)
    {rest : List Token} (hrest : EndsNumber rest) :
    numericLiteral.Reads (Piece.write σ (readPieces d.text)) (.of (.decimal d.shown)) rest := by
  intro us hus
  have hwhole := Token.isDigits_ofList.mpr ⟨d.wholeDigits_ne_nil, d.wholeDigits_all⟩
  have hfraction := Token.isDigits_ofList.mpr ⟨d.fractionDigits_ne_nil, d.fractionDigits_all⟩
  have htokens : Piece.write σ [.text (String.ofList d.wholeDigits), .text ".",
      .text (String.ofList d.fractionDigits)] = _ := write_ofTokens (isWord_decimalTokens d)
  rw [readPieces_decimal hd, htokens] at hus
  rw [numericLiteral_apply, hus]
  refine (bind_of_ok (mantissa_fraction hwhole hfraction rest) _).trans ?_
  refine (bind_of_ok hrest.exponent _).trans ?_
  exact bind_of_ok (ofExcept_eq_ok.mpr ⟨Decimal.ofText_shown hd hscale, rfl⟩) _

/-- The exponent of a double is read from its token. -/
theorem exponent?_exponentToken (e : Int) (rest : List Token) :
    exponent? (exponentToken e :: rest) = .ok (some (Integer.text e), rest) := by
  simp [exponent?, wholeExponent?_exponentToken]

/-- The double is found from all its digits, wherever their point is. -/
theorem doubleOf_shortest {x : Double} (hf : x.isFinite) (hn : x.negative = false) {m : Mantissa}
    (hdigits : (m.whole ++ m.fraction.getD "").toList = (Nat.repr x.shortest.digits).toList)
    (hlength : (m.fraction.getD "").length = x.shortest.fractionDigits.length) :
    doubleOf m (Integer.text x.shortest.shownExponent) = .ok x := by
  have hexponent : x.shortest.shownExponent - x.shortest.fractionDigits.length =
      x.shortest.exponent := by
    rw [Scientific.shownExponent]
    omega
  have hx := Double.ofScientific_shortest hf hn
  simp only [doubleOf, hdigits, hlength, ofDigitChars_repr, exponentValue_text, hexponent, hx, hf,
    if_true]

/-- A finite double without a sign is read from its tokens. -/
theorem double_complete {x : Double} (hf : x.isFinite) (hn : x.negative = false)
    (rest : List Token) :
    numericLiteral.Reads (Piece.write σ (readPieces x.text)) (.of (.double x)) rest := by
  intro us hus
  have hlead := Token.isDigits_ofList.mpr
    ⟨x.shortest.leadingDigit_ne_nil, x.shortest.digits_all.1⟩
  have hexponent := exponent?_exponentToken x.shortest.shownExponent rest
  have happend := x.shortest.leadingDigit_append
  rw [readPieces_double hf hn, write_ofTokens x.shortest.isWord_tokens, Scientific.tokens] at hus
  rw [numericLiteral_apply, hus]
  by_cases hfraction : x.shortest.fractionDigits = []
  · have hpoint : (exponentToken x.shortest.shownExponent :: rest).head? ≠ some "." := by
      simpa using exponentToken_ne x.shortest.shownExponent (t := ".") (by decide)
    rw [hfraction, List.append_nil] at happend
    simp only [if_pos hfraction, List.cons_append, List.nil_append]
    rw [bind_of_ok (mantissa_whole hlead hpoint), bind_of_ok hexponent]
    refine bind_of_ok (ofExcept_eq_ok.mpr ⟨doubleOf_shortest hf hn ?_ ?_, rfl⟩) _
    · simpa using happend
    · simp [hfraction]
  · have hdigits := Token.isDigits_ofList.mpr ⟨hfraction, x.shortest.digits_all.2⟩
    simp only [if_neg hfraction, List.cons_append, List.nil_append]
    rw [bind_of_ok (mantissa_fraction hlead hdigits _), bind_of_ok hexponent]
    refine bind_of_ok (ofExcept_eq_ok.mpr ⟨doubleOf_shortest hf hn ?_ ?_, rfl⟩) _
    · simpa using happend
    · simp

end Grammar

end XPath
