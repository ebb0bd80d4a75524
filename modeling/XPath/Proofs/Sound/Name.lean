import XPath.Proofs.Numeral
import XPath.Proofs.Spelling
import XPath.Proofs.WellFormed

/-!
# Soundness of the rules for names and literals

Each rule takes tokens that spell what it reads (`Rule.Sound`), and what it reads is well formed.
-/

namespace XPath.Grammar

open Rule

/-! ## Names -/

theorem localPart_sound (owner : String) :
    (localPart owner).Sound NCName.pieces fun n _ => n.WellFormed := by
  intro ts n rest h
  obtain ⟨t, mid, ht, hn⟩ := bind_eq_ok.mp h
  obtain ⟨hname, -⟩ := one_eq_ok.mp ht
  obtain ⟨rfl, rfl⟩ := pure_eq_ok.mp hn
  rw [(one_eq_ok.mp ht).2]
  exact ⟨.text (Token.isWord_of_startsName hname) (.nil _), hname⟩

theorem ncName_apply (ts : List Token) : ncName ts =
    (one Text.startsName "NCName" >>= fun t => pure (NCName.mk t)) (Token.skipSpace ts) :=
  rfl

/-- A name without colons is spelled by one token. -/
theorem ncName_sound : ncName.Sound NCName.pieces fun n _ => n.WellFormed := by
  intro ts n rest h
  rw [ncName_apply] at h
  obtain ⟨t, mid, ht, hn⟩ := bind_eq_ok.mp h
  obtain ⟨hname, hts⟩ := one_eq_ok.mp ht
  obtain ⟨rfl, rfl⟩ := pure_eq_ok.mp hn
  exact ⟨.word (Token.isWord_of_startsName hname) hts, hname⟩

/-- The text of a URI is that of the tokens up to the brace, joined. -/
theorem uriText_eq_ok {uri u : String} {ts rest : List Token} (h : uriText uri ts = .ok (u, rest)) :
    ∃ w, ts = w ++ "\x7d" :: rest ∧ (∀ t ∈ w, t ≠ "\x7b" ∧ t ≠ "\x7d") ∧
      u = uri ++ String.join w := by
  induction ts generalizing uri with
  | nil => cases h
  | cons t ts ih =>
    rw [uriText] at h
    split at h
    next ht =>
      cases h
      exact ⟨[], by simp [ht], by simp, by simp⟩
    next ht =>
      split at h
      · cases h
      next hb =>
        obtain ⟨w, rfl, hw, rfl⟩ := ih h
        refine ⟨t :: w, rfl, ?_, by rw [String.join_cons, String.append_assoc]⟩
        rintro x (_ | ⟨_, hx⟩)
        · exact ⟨hb, ht⟩
        · exact hw x hx

/-- Where tokens are joined to one character, one of them is this character. -/
theorem mem_of_join_eq_singleton {w : List Token} {c : Char}
    (h : String.join w = String.singleton c) : String.singleton c ∈ w := by
  replace h : w.flatMap String.toList = [c] := by
    rw [← String.toList_join, h, String.toList_singleton]
  induction w with
  | nil => cases h
  | cons t w ih =>
    rw [List.flatMap_cons] at h
    rcases List.append_eq_singleton_iff.mp h with ⟨-, hw⟩ | ⟨ht, -⟩
    · exact List.mem_cons_of_mem t (ih hw)
    · rw [String.toList_inj.mp (ht.trans (String.toList_singleton c).symm)]
      exact List.mem_cons_self

/-- A URI in braces is read from tokens without braces. -/
theorem bracedUri_eq_ok {ts rest : List Token} {uri : String} (hts : startsBracedUri ts)
    (h : bracedUri ts = .ok (uri, rest)) : Spells ts [.bracedUri uri] rest ∧ wellFormedUri uri := by
  replace h : uriText "" (ts.drop 2) = .ok (uri, rest) := enclosed_eq_ok.mp h
  obtain ⟨w, hw, hbrace, rfl⟩ := uriText_eq_ok h
  obtain ⟨q, b, ts, rfl⟩ : ∃ q b ts', ts = q :: b :: ts' := by
    match ts with
    | q :: b :: ts' => exact ⟨q, b, ts', rfl⟩
  obtain ⟨rfl, rfl⟩ : q = "Q" ∧ b = "\x7b" := by simpa [startsBracedUri] using hts
  obtain rfl : ts = w ++ "\x7d" :: rest := hw
  rw [String.empty_append]
  refine ⟨.bracedUri hbrace (.nil rest), fun he => ?_, fun he => ?_⟩
  · exact (hbrace _ (mem_of_join_eq_singleton (c := '\x7b') he)).1 rfl
  · exact (hbrace _ (mem_of_join_eq_singleton (c := '\x7d') he)).2 rfl

theorem uriQualifiedName_eq_ok {ts rest : List Token} {n : EQName} (hts : startsBracedUri ts)
    (h : uriQualifiedName ts = .ok (n, rest)) : Spells ts n.pieces rest ∧ n.WellFormed := by
  obtain ⟨uri, mid, hu, h⟩ := bind_eq_ok.mp h
  obtain ⟨name, rest', hn, h⟩ := bind_eq_ok.mp h
  obtain ⟨rfl, rfl⟩ := pure_eq_ok.mp h
  obtain ⟨hs, huri⟩ := bracedUri_eq_ok hts hu
  obtain ⟨hs', hname⟩ := localPart_sound _ hn
  exact ⟨hs.append hs', huri, hname⟩

/-- Behind a colon stands a name, or there is no colon. -/
theorem colonName?_eq_ok {ts rest : List Token} {n? : Option NCName}
    (h : colonName? ts = .ok (n?, rest)) :
    n? = none ∧ ts = rest ∨ ∃ n, n? = some n ∧ ts = ":" :: n.text :: rest ∧ n.WellFormed := by
  match ts, h with
  | colon :: name :: ts, h =>
    rw [colonName?] at h
    split at h
    next hc =>
      cases h
      exact .inr ⟨⟨name⟩, rfl, by rw [hc.1], hc.2⟩
    · cases h
      exact .inl ⟨rfl, rfl⟩
  | [_], h | [], h =>
    cases h
    exact .inl ⟨rfl, rfl⟩

theorem NCName.colon_spells {n : NCName} (hn : n.WellFormed) (rest : List Token) :
    Spells (":" :: n.text :: rest) ([.text ":"] ++ n.pieces) rest :=
  .text rfl (.text (Token.isWord_of_startsName hn) (.nil rest))

theorem eqName_apply (ts : List Token) : eqName ts =
    (if startsBracedUri (Token.skipSpace ts) then uriQualifiedName
    else ncName >>= fun first => colonName? >>= fun name? => match name? with
      | some name => pure (.qName (some first) name)
      | none => pure (.qName none first)) (Token.skipSpace ts) :=
  rfl

/-- A name is spelled with its prefix or its URI. -/
theorem eqName_sound : eqName.Sound EQName.pieces fun n _ => n.WellFormed := by
  intro ts n rest h
  suffices hs : Spells (Token.skipSpace ts) n.pieces rest ∧ n.WellFormed from
    ⟨.of_skipSpace hs.1, hs.2⟩
  rw [eqName_apply] at h
  split at h
  next hq => exact uriQualifiedName_eq_ok hq h
  next =>
    obtain ⟨first, mid, hf, h⟩ := bind_eq_ok.mp h
    obtain ⟨hs, hfirst⟩ := ncName_sound hf
    obtain ⟨name?, mid', hc, hn⟩ := bind_eq_ok.mp h
    obtain ⟨rfl, rfl⟩ | ⟨name, rfl, rfl, hname⟩ := colonName?_eq_ok hc
    · obtain ⟨rfl, rfl⟩ := pure_eq_ok.mp hn
      exact ⟨hs, by simp, hfirst⟩
    · obtain ⟨rfl, rfl⟩ := pure_eq_ok.mp hn
      exact ⟨hs.append (NCName.colon_spells hname _), by simp [hfirst], hname⟩

/-! ## Name tests -/

/-- A prefix is taken with its colon if a star stands behind. -/
theorem prefixWildcard?_eq_ok {ts rest : List Token} {n? : Option NCName}
    (h : prefixWildcard? ts = .ok (n?, rest)) :
    n? = none ∧ ts = rest ∨
      ∃ n, n? = some n ∧ ts = n.text :: ":" :: "*" :: rest ∧ n.WellFormed := by
  match ts, h with
  | name :: colon :: star :: ts, h =>
    rw [prefixWildcard?] at h
    split at h
    next hc =>
      cases h
      exact .inr ⟨⟨name⟩, rfl, by rw [hc.2.1, hc.2.2], hc.1⟩
    · cases h
      exact .inl ⟨rfl, rfl⟩
  | [_, _], h | [_], h | [], h =>
    cases h
    exact .inl ⟨rfl, rfl⟩

theorem nameTest_apply (ts : List Token) : nameTest ts =
    (if startsBracedUri (Token.skipSpace ts) then
      bracedUri >>= fun uri => take? "*" >>= fun star =>
        if star then pure (.nsWildcard (.anyLocalIn uri))
        else localPart "URIQualifiedName" >>= fun n => pure (.name (.uriQualified uri n))
    else take? "*" >>= fun star =>
      if star then colonName? >>= fun name? => match name? with
        | some name => pure (.nsWildcard (.anyNamespace name))
        | none => pure .wildcard
      else prefixWildcard? >>= fun name? => match name? with
        | some name => pure (.nsWildcard (.anyLocal name))
        | none => eqName >>= fun name => pure (.name name) : Rule NameTest)
      (Token.skipSpace ts) :=
  rfl

/-- A name test is spelled as what it is read as, a wildcard or a name. -/
theorem nameTest_sound : nameTest.Sound NameTest.pieces fun t _ => t.WellFormed := by
  intro ts test rest h
  suffices hs : Spells (Token.skipSpace ts) test.pieces rest ∧ test.WellFormed from
    ⟨.of_skipSpace hs.1, hs.2⟩
  rw [nameTest_apply] at h
  generalize Token.skipSpace ts = us at h ⊢
  split at h
  next hq =>
    obtain ⟨uri, mid, hu, h⟩ := bind_eq_ok.mp h
    obtain ⟨hs, huri⟩ := bracedUri_eq_ok hq hu
    obtain ⟨star, mid', hstar, h⟩ := bind_eq_ok.mp h
    obtain ⟨rfl, rfl⟩ | ⟨rfl, rfl, -⟩ := take?_eq_ok.mp hstar
    · obtain ⟨rfl, rfl⟩ := pure_eq_ok.mp h
      exact ⟨hs.append (.text rfl (.nil _)), huri⟩
    · obtain ⟨n, mid', hn, h⟩ := bind_eq_ok.mp h
      obtain ⟨rfl, rfl⟩ := pure_eq_ok.mp h
      obtain ⟨hs', hn⟩ := localPart_sound _ hn
      exact ⟨hs.append hs', huri, hn⟩
  next =>
    obtain ⟨star, mid, hstar, ht⟩ := bind_eq_ok.mp h
    obtain ⟨rfl, rfl⟩ | ⟨rfl, rfl, -⟩ := take?_eq_ok.mp hstar
    · obtain ⟨name?, mid', hc, hk⟩ := bind_eq_ok.mp ht
      obtain ⟨rfl, rfl⟩ | ⟨name, rfl, rfl, hname⟩ := colonName?_eq_ok hc
      · obtain ⟨rfl, rfl⟩ := pure_eq_ok.mp hk
        exact ⟨.text rfl (.nil _), trivial⟩
      · obtain ⟨rfl, rfl⟩ := pure_eq_ok.mp hk
        exact ⟨.text rfl (NCName.colon_spells hname _), hname⟩
    · obtain ⟨name?, mid, hw, hk⟩ := bind_eq_ok.mp ht
      obtain ⟨rfl, rfl⟩ | ⟨name, rfl, rfl, hname⟩ := prefixWildcard?_eq_ok hw
      · obtain ⟨n, mid', hn, hk⟩ := bind_eq_ok.mp hk
        obtain ⟨rfl, rfl⟩ := pure_eq_ok.mp hk
        exact eqName_sound hn
      · obtain ⟨rfl, rfl⟩ := pure_eq_ok.mp hk
        exact ⟨.text (Token.isWord_of_startsName hname) (.text rfl (.text rfl (.nil _))), hname⟩

/-! ## Literals -/

/-- A string is spelled by its content between two quotes. -/
theorem stringLiteral_sound : stringLiteral.Sound (fun s => [.string s]) fun _ _ => True := by
  intro ts s rest h
  obtain ⟨quote, mid, hq, h⟩ :=
    bind_eq_ok.mp (show (one Token.isQuote "StringLiteral" >>= fun quote =>
    enclosed (Token.skipSpace ts) (one (fun _ => true) "StringLiteral" >>= fun content =>
      (one (· == quote) ("closing " ++ quote ++ " of StringLiteral") >>= fun _ => pure ()) >>=
        fun _ => pure content))
      (Token.skipSpace ts) = .ok (s, rest) from h)
  obtain ⟨hquote, hts⟩ := one_eq_ok.mp hq
  obtain ⟨content, mid', hc, hk⟩ := bind_eq_ok.mp (enclosed_eq_ok.mp h)
  obtain ⟨-, rfl⟩ := one_eq_ok.mp hc
  obtain ⟨_, rest', hd, hs⟩ := bind_eq_ok.mp hk
  obtain ⟨closing, _, hclosing, hd⟩ := bind_eq_ok.mp hd
  obtain ⟨-, rfl⟩ := pure_eq_ok.mp hd
  obtain ⟨he, rfl⟩ := one_eq_ok.mp hclosing
  obtain ⟨rfl, rfl⟩ := pure_eq_ok.mp hs
  obtain rfl : closing = quote := by simpa using he
  refine ⟨.of_skipSpace ?_, trivial⟩
  rw [hts]
  exact .string hquote (.nil _)

theorem isWord_of_wholeExponent? {t : Token} (h : (wholeExponent? t).isSome) : t.isWord := by
  apply Token.isWord_of_ne <;> rintro rfl <;> exact absurd h (by decide)

/-- The digits of a number are words, with a point among them or none. -/
theorem mantissa_eq_ok {ts mid : List Token} {m : Mantissa} (h : mantissa ts = .ok (m, mid)) :
    m.whole.isDigits ∧ (∀ f ∈ m.fraction, f.toList.all Char.isDigit) ∧ ∃ w, ts = w ++ mid ∧
      (∀ t ∈ w, t.isWord) ∧ (m.fraction = none ∧ w = [m.whole] ∨
        m.fraction.isSome ∧ ∃ a b w', w = a :: b :: w' ∧ startsFraction a b) := by
  have hall {f : Token} (hf : f.isDigits) : f.toList.all Char.isDigit :=
    (Token.isDigits_iff.mp hf).2
  have hword {f : Token} (hf : f.isDigits) : f.isWord := Token.isWord_of_isDigits hf
  cases mantissa_tokens h with
  | @fraction t f _ ht hf =>
    exact ⟨ht, by simpa using hall hf, [t, ".", f], rfl, by simpa using ⟨hword ht, rfl, hword hf⟩,
      .inr ⟨rfl, t, ".", [f], rfl, by simp [startsFraction, ht]⟩⟩
  | @wholePoint t _ ht =>
    exact ⟨ht, by simp, [t, "."], rfl, by simpa using ⟨hword ht, rfl⟩,
      .inr ⟨rfl, t, ".", [], rfl, by simp [startsFraction, ht]⟩⟩
  | @whole t _ ht => exact ⟨ht, by simp, [t], rfl, by simpa using hword ht, .inl ⟨rfl, rfl⟩⟩
  | @point f _ hf =>
    exact ⟨show Token.isDigits "0" by decide, by simpa using hall hf, [".", f], rfl,
      by simpa using ⟨rfl, hword hf⟩, .inr ⟨rfl, ".", f, [], rfl, by simp [startsFraction, hf]⟩⟩

/-- An exponent is read from words, of which the first one has its mark. -/
theorem exponent?_eq_ok {mid rest : List Token} {e? : Option String}
    (h : exponent? mid = .ok (e?, rest)) :
    e? = none ∧ mid = rest ∨ e?.isSome ∧ ∃ (b : Token) (w : List Token), mid = b :: w ++ rest ∧
      (∀ t ∈ b :: w, t.isWord) ∧ (b = "e" ∨ b = "E" ∨ (wholeExponent? b).isSome) := by
  obtain hnone | ⟨w, e, rest', hw, rfl, hsome⟩ := exponent?_cases mid
  · obtain ⟨rfl, rfl⟩ : none = e? ∧ mid = rest := by simpa [hnone] using h
    exact .inl ⟨rfl, rfl⟩
  · obtain ⟨rfl, rfl⟩ : some e = e? ∧ rest' = rest := by simpa [hsome] using h
    have hwords := hw.forall_mem (P := fun t => t.isWord) (fun _ => isWord_of_wholeExponent?)
      (fun _ => Token.isWord_of_isDigits) (by decide)
    refine .inr ⟨rfl, ?_⟩
    cases hw with
    | @whole t _ he => exact ⟨t, [], rfl, hwords, .inr (.inr (by simp [he]))⟩
    | @signed t sign digits _ ht =>
      exact ⟨t, [sign, digits], rfl, hwords, ht.imp_right .inl⟩

/-- A double that is read is finite and has no sign. -/
theorem doubleOf_eq_ok {m : Mantissa} {e : String} {x : Double} (h : doubleOf m e = .ok x) :
    x.isFinite ∧ x.negative = false := by
  simp only [doubleOf] at h
  split at h
  next hf =>
    cases h
    exact ⟨hf, Double.negative_ofScientific _ _ _⟩
  · cases h

theorem integer_readBefore {v : Int} (h : 0 ≤ v) (levels : Nat) (rest : List Token) :
    (Node.of (.integer v)).ReadBefore 21 levels rest :=
  Form.FitsIn.readBefore (f := .integer v) (.of_leaf rfl rfl rfl trivial h) (fun _ => rfl) rest

theorem decimal_readBefore {d : Decimal} (h : 0 ≤ d.unscaled ∧ d.scale ≤ Integer.maxScale)
    (levels : Nat) (rest : List Token) : (Node.of (.decimal d)).ReadBefore 21 levels rest :=
  Form.FitsIn.readBefore (f := .decimal d) (.of_leaf rfl rfl rfl trivial h) (fun _ => rfl) rest

theorem double_readBefore {x : Double} (h : x.isFinite ∧ x.negative = false) (levels : Nat)
    (rest : List Token) : (Node.of (.double x)).ReadBefore 21 levels rest :=
  Form.FitsIn.readBefore (f := .double x) (.of_leaf rfl rfl rfl trivial h) (fun _ => rfl) rest

/-- A number that is not a run of digits, from its first two tokens on. -/
theorem spells_fraction {a b : Token} {w : List Token} {ps : List Piece} (rest : List Token)
    (hab : startsFraction a b) (hw : ∀ t ∈ a :: b :: w, t.isWord) (hp : FractionPieces ps) :
    Spells (a :: b :: w ++ rest) ps rest := by
  have := Spells.fraction hab hw hp (.nil rest)
  rwa [List.append_nil] at this

/-- A number is spelled by its tokens, and can be read again from the rendered ones. -/
theorem numericLiteral_sound (levels : Nat) :
    numericLiteral.Sound Tree.pieces (Tree.ReadBefore 21 levels) := by
  intro ts n rest h
  rw [numericLiteral, bind_of_ok (space_apply ts)] at h
  obtain ⟨m, mid, hread, h⟩ := bind_eq_ok.mp h
  obtain ⟨hwhole, hfrac, w, hw, hword, hm⟩ := mantissa_eq_ok hread
  obtain ⟨e?, mid', he, hk⟩ := bind_eq_ok.mp h
  suffices hs : Spells (w ++ mid) n.pieces rest ∧ n.ReadBefore 21 levels rest from
    ⟨.of_skipSpace (hw ▸ hs.1), hs.2⟩
  obtain ⟨rfl, rfl⟩ | ⟨hsome, b, w', rfl, hword', hb⟩ := exponent?_eq_ok he
  · obtain ⟨hnone, rfl⟩ | ⟨hsome, a, b, w', rfl, hab⟩ := hm
    · simp only [hnone, Integer.ofText_digits hwhole] at hk
      obtain ⟨rfl, rfl⟩ := pure_eq_ok.mp hk
      refine ⟨?_, integer_readBefore (Int.natCast_nonneg _) levels _⟩
      rw [Node.of, Tree.pieces_node]
      simpa only [Form.map, Form.pieces, readPieces_integer, List.singleton_append] using
        Spells.digits hwhole (.nil mid)
    · obtain ⟨f, hf⟩ := Option.isSome_iff_exists.mp hsome
      simp only [hf, Decimal.ofText_digits hwhole (hfrac f hf)] at hk
      split at hk
      · cases hk
      next hscale =>
        obtain ⟨rfl, rfl⟩ := pure_eq_ok.mp hk
        refine ⟨?_, decimal_readBefore ⟨Int.natCast_nonneg _, Nat.le_of_not_lt hscale⟩ levels _⟩
        rw [Node.of, Tree.pieces_node]
        exact spells_fraction _ hab hword (.decimal _ (Int.natCast_nonneg _))
  · obtain ⟨e, rfl⟩ := Option.isSome_iff_exists.mp hsome
    obtain ⟨x, _, hx, hn⟩ := bind_eq_ok.mp hk
    obtain ⟨hfin, hneg⟩ := doubleOf_eq_ok (ofExcept_eq_ok.mp hx).1
    obtain ⟨-, rfl⟩ := ofExcept_eq_ok.mp hx
    obtain ⟨rfl, rfl⟩ := pure_eq_ok.mp hn
    refine ⟨?_, double_readBefore ⟨hfin, hneg⟩ levels _⟩
    rw [Node.of, Tree.pieces_node]
    obtain ⟨-, rfl⟩ | ⟨-, a, b', w'', rfl, hab⟩ := hm
    · have hab : startsFraction m.whole b := by
        rcases hb with rfl | rfl | hb <;> simp [startsFraction, *]
      exact spells_fraction _ hab (by simpa using ⟨hword m.whole (by simp), by simpa using hword'⟩)
        (.double x hfin hneg)
    · have hall : ∀ t ∈ a :: b' :: (w'' ++ b :: w'), t.isWord := by
        rintro t (_ | ⟨_, _ | ⟨_, ht⟩⟩)
        · exact hword a (by simp)
        · exact hword b' (by simp)
        · rcases List.mem_append.mp ht with ht | ht
          · exact hword t (by simp [ht])
          · exact hword' t ht
      have := spells_fraction mid' hab hall (.double x hfin hneg)
      rwa [List.cons_append, List.cons_append, List.append_assoc] at this

end XPath.Grammar
