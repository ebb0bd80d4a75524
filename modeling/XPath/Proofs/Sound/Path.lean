import XPath.Grammar.Path
import XPath.Proofs.Sound.Primary

/-!
# Soundness of the rules for paths

A step that is a primary expression never starts with the name of a reserved function, since the
look-ahead that decides for a primary expression reads the same name (`primaryExpr_sound`).
-/

namespace XPath.Grammar

open Rule

variable {inner : Nested} {levels : Nat}

/-! ## Suffixes -/

/-- A suffix is spelled as what it is read as. -/
theorem suffix?_eq_ok (hi : inner.Sound levels) {ts rest : List Token} {s : Suffix Node}
    (h : suffix? inner ts = .ok (some s, rest)) :
    Spells ts (s.map Tree.withPieces).pieces rest ∧ s.WellFormed ∧
      (∀ e ∈ s.singles, IsSingle levels e) ∧
      (∀ e ∈ s.contents, e.kind = .expr ∧ e.Fits levels) ∧
      ∀ e ∈ s.groups, e.kind = .parenthesizedExpr ∧ e.Fits levels := by
  rw [suffix?, bind_of_ok (rest_apply ts)] at h
  generalize (Token.skipSpace ts).head? = t? at h
  split at h
  · obtain ⟨e, mid, he, h⟩ := bind_eq_ok.mp (bind_of_ok (space_apply ts) _ ▸ h)
    obtain ⟨⟨⟩, rfl⟩ := pure_eq_ok.mp h
    obtain ⟨hs, hw⟩ := predicate_sound hi he
    exact ⟨.of_skipSpace hs, trivial, by simp [Suffix.singles], by simpa [Suffix.contents] using hw,
      by simp [Suffix.groups]⟩
  · obtain ⟨args, mid, hargs, h⟩ := bind_eq_ok.mp (bind_of_ok (space_apply ts) _ ▸ h)
    obtain ⟨⟨⟩, rfl⟩ := pure_eq_ok.mp h
    obtain ⟨hs, hp⟩ := argumentList_sound hi hargs
    exact ⟨.of_skipSpace hs, trivial, hp, by simp [Suffix.contents], by simp [Suffix.groups]⟩
  · obtain ⟨key, mid, hkey, h⟩ := bind_eq_ok.mp (bind_of_ok (space_apply ts) _ ▸ h)
    obtain ⟨⟨⟩, rfl⟩ := pure_eq_ok.mp h
    obtain ⟨us, hmark, hkey⟩ := after_eq_ok.mp hkey
    obtain ⟨hs, hw, hp⟩ := keySpecifier_sound hi hkey
    exact ⟨.of_skipSpace ((Spells.word rfl hmark).append hs), hw, by simp [Suffix.singles],
      by simp [Suffix.contents], hp⟩
  · cases h

/-- Where no suffix is found, no token is taken. -/
theorem suffix?_none {ts rest : List Token} (h : suffix? inner ts = .ok (none, rest)) :
    ts = rest := by
  rw [suffix?, bind_of_ok (rest_apply ts)] at h
  generalize (Token.skipSpace ts).head? = t? at h
  split at h
  · obtain ⟨e, mid, -, h⟩ := bind_eq_ok.mp (bind_of_ok (space_apply ts) _ ▸ h)
    cases h
  · obtain ⟨e, mid, -, h⟩ := bind_eq_ok.mp (bind_of_ok (space_apply ts) _ ▸ h)
    cases h
  · obtain ⟨e, mid, -, h⟩ := bind_eq_ok.mp (bind_of_ok (space_apply ts) _ ▸ h)
    cases h
  · exact (pure_eq_ok.mp h).2

/-- Suffixes advance, so that reading them ends. -/
theorem suffix?_advances (hi : inner.Sound levels) : Advances (suffix? inner) where
  some {_ _ s} h := by
    obtain ⟨hs, -⟩ := suffix?_eq_ok hi h
    cases s <;> exact hs.length_lt rfl
  none h := suffix?_none h
  nil := rfl

/-- A predicate is spelled in its brackets. -/
theorem predicate?_eq_ok (hi : inner.Sound levels) {ts rest : List Token} {e : Node}
    (h : predicate? inner ts = .ok (some e, rest)) :
    Spells ts (predicatePieces e.withPieces) rest ∧ e.kind = .expr ∧ e.Fits levels := by
  replace h : (if isNext "[" ts then predicate inner >>= fun e => pure (some e) else pure none
    : Rule (Option Node)) ts = .ok (some e, rest) := h
  split at h
  · obtain ⟨e', mid, he, h⟩ := bind_eq_ok.mp h
    obtain ⟨⟨⟩, rfl⟩ := pure_eq_ok.mp h
    exact predicate_sound hi he
  · cases h

theorem predicate?_advances (hi : inner.Sound levels) : Advances (predicate? inner) where
  some h := (predicate?_eq_ok hi h).1.length_lt rfl
  none {ts mid} h := by
    replace h : (if isNext "[" ts then predicate inner >>= fun e => pure (some e) else pure none
      : Rule (Option Node)) ts = .ok (none, mid) := h
    split at h
    · obtain ⟨e', mid, he, h⟩ := bind_eq_ok.mp h
      cases h
    · exact (pure_eq_ok.mp h).2
  nil := rfl

/-! ## Primary expressions -/

/-- A name in front of a parenthesis or a `#` is found with two spaces before it as with one. -/
theorem eqName_space {ts more : List Token} {name : EQName}
    (h : eqName (" " :: " " :: ts) = .ok (name, more)) (hmore : isNext "#" more ∨ isNext "(" more) :
    eqName (" " :: ts) = .ok (name, more) := by
  have hq : startsBracedUri (" " :: ts) = false := by cases ts <;> rfl
  rw [eqName_apply, show Token.skipSpace (" " :: " " :: ts) = " " :: ts from rfl, hq,
    if_neg (by decide)] at h
  rw [eqName_apply, show Token.skipSpace (" " :: ts) = ts from rfl]
  obtain ⟨first, mid, hfirst, h⟩ := bind_eq_ok.mp h
  have hf := hfirst
  rw [ncName_apply, show Token.skipSpace (" " :: ts) = ts from rfl] at hf
  obtain ⟨t, mid', hone, hpure⟩ := bind_eq_ok.mp hf
  obtain ⟨hname, rfl⟩ := one_eq_ok.mp hone
  obtain ⟨rfl, rfl⟩ := pure_eq_ok.mp hpure
  split
  next hbrace =>
    -- What follows the `Q` of a braced URI is a brace.
    obtain ⟨us, rfl⟩ : ∃ us, mid' = "\x7b" :: us := by
      cases mid' with
      | nil => simp [startsBracedUri] at hbrace
      | cons b us => exact ⟨us, by simp_all [startsBracedUri]⟩
    have : more = "\x7b" :: us := by
      cases us <;> cases h <;> rfl
    subst this
    simp [isNext, Token.skipSpace, Token.isSpace, Token.space] at hmore
  next =>
    have : ncName (t :: mid') = .ok (⟨t⟩, mid') := by
      rw [ncName_apply, skipSpace_of_isWord (Token.isWord_of_startsName hname)]
      exact bind_of_ok hone _
    rw [bind_of_ok this]
    exact h

/-- A name in front of a `#` or a parenthesis is read from behind the space as well. -/
theorem eqName_skipSpace {ts more : List Token} {name : EQName} (h : eqName ts = .ok (name, more))
    (hmore : isNext "#" more ∨ isNext "(" more) :
    eqName (Token.skipSpace ts) = .ok (name, more) := by
  by_cases hs : ts.head? = some Token.space
  · obtain ⟨us, rfl⟩ := List.head?_eq_some_iff.mp hs
    by_cases hs' : us.head? = some Token.space
    · obtain ⟨vs, rfl⟩ := List.head?_eq_some_iff.mp hs'
      exact eqName_space h hmore
    · rw [show Token.skipSpace (Token.space :: us) = us from rfl, eqName_apply,
        skipSpace_eq_self hs']
      rwa [eqName_apply, show Token.skipSpace (Token.space :: us) = us from rfl] at h
  · rwa [skipSpace_eq_self hs]

/-- The names that the look-ahead for a primary expression lets through. -/
theorem namesFunction_of_couldBePrimary {ts us : List Token} {t : Token}
    (h : couldBePrimary ts) (hts : Token.skipSpace ts = t :: us) :
    t ≠ "(" → t ≠ "." → t ≠ "$" → t ≠ "?" → t.isQuote = false → t ≠ "[" →
      ¬ (t = "function" ∧ isNext "(" us) → ¬ (t = "map" ∧ isNext "\x7b" us) →
      ¬ (t = "array" ∧ isNext "\x7b" us) → t.isDigits = false → NamesFunction (t :: us) := by
  intro hparen hdot hdollar hmark hquote hbracket hfunction hmap harray hdigits
    name more hname hhash hnext
  have hcall : ∃ name' more', eqName ts = .ok (name', more') ∧
      (isNext "#" more' ∨ isNext "(" more' ∧ isReserved name' = false) := by
    have hq : t ≠ "'" ∧ t ≠ "\"" := by simpa [Token.isQuote] using hquote
    by_cases hs : ts.head? = some Token.space
    · obtain ⟨vs, rfl⟩ := List.head?_eq_some_iff.mp hs
      simp only [couldBePrimary, show Token.isDigits Token.space = false by decide,
        show ["(", ".", "$", "?", "[", "'", "\""].contains Token.space = false by decide,
        show (Token.space == "function") = false by decide,
        show (Token.space == "map" || Token.space == "array") = false by decide,
        Bool.false_and, Bool.or_self, Bool.false_or] at h
      split at h
      next n m he => exact ⟨n, m, he, by simpa using h⟩
      · cases h
    · rw [skipSpace_eq_self hs] at hts
      subst hts
      have hlist : ["(", ".", "$", "?", "[", "'", "\""].contains t = false := by
        simp [hparen, hdot, hdollar, hmark, hbracket, hq]
      have hf : (t == "function" && isNext "(" us) = false := by simpa using hfunction
      have hm : ((t == "map" || t == "array") && isNext "\x7b" us) = false := by
        rw [Bool.and_or_distrib_right, Bool.or_eq_false_iff]
        exact ⟨by simpa using hmap, by simpa using harray⟩
      simp only [couldBePrimary, hlist, hf, hm, hdigits, Bool.false_or] at h
      split at h
      next n m he => exact ⟨n, m, he, by simpa using h⟩
      · cases h
  obtain ⟨name', more', hname', hor⟩ := hcall
  have := eqName_skipSpace hname' (hor.imp_right And.left)
  rw [hts, hname] at this
  obtain ⟨rfl, rfl⟩ : name = name' ∧ more = more' := by simpa using this
  simpa [hhash, hnext] using hor

/-- Where the look-ahead lets it through, a primary expression is sound. -/
theorem primaryExpr_sound (hi : inner.Sound levels) {ts rest : List Token} {n : Node}
    (hts : couldBePrimary ts) (h : primaryExpr inner ts = .ok (n, rest)) :
    Spells ts n.pieces rest ∧ n.ReadBefore 21 levels rest := by
  rw [primaryExpr, bind_of_ok (space_apply ts), bind_of_ok (rest_apply _)] at h
  have hfun := fun t us => @namesFunction_of_couldBePrimary ts us t hts
  suffices hs : Spells (Token.skipSpace ts) n.pieces rest ∧ n.ReadBefore 21 levels rest from
    ⟨.of_skipSpace hs.1, hs.2⟩
  generalize Token.skipSpace ts = vs at h hfun ⊢
  split at h
  · cases h
  next t us => exact primaryFrom_sound hi (hfun t us rfl) h

/-- A primary expression is spelled with the suffixes behind it. -/
theorem suffixedExpr_sound (hi : inner.Sound levels) {ts rest : List Token} {n : Node}
    (hts : couldBePrimary ts) (h : suffixedExpr inner ts = .ok (n, rest)) :
    Spells ts n.pieces rest ∧ n.ReadBefore 20 levels rest := by
  obtain ⟨primary, mid, hprimary, h⟩ := bind_eq_ok.mp h
  obtain ⟨hs, hp⟩ := primaryExpr_sound hi hts hprimary
  obtain ⟨suffixes, mid', hsuffixes, h⟩ := bind_eq_ok.mp h
  obtain ⟨hs', hw⟩ := many_sound (suffix?_advances hi) (fun _ _ _ => suffix?_eq_ok hi) hsuffixes
  cases suffixes with
  | nil =>
    obtain ⟨rfl, rfl⟩ := pure_eq_ok.mp h
    obtain ⟨hsteps, -⟩ := (many_eq_ok (suffix?_advances hi)).mp hsuffixes
    cases hsteps
    exact ⟨hs, hp.of_rank_le (by decide)⟩
  | cons s suffixes =>
    obtain ⟨rfl, rfl⟩ := pure_eq_ok.mp h
    have hmem {e : Node} {roles : Suffix Node → List Node}
        (he : e ∈ (s :: suffixes).flatMap roles) :
        ∃ s' ∈ s :: suffixes, e ∈ roles s' :=
      List.mem_flatMap.mp he
    refine ⟨?_, Form.FitsIn.readBefore (f := .suffixed primary (s :: suffixes)) ?_ (fun _ => rfl) _⟩
    · rw [Node.of, Tree.pieces_node]
      simp only [Form.map, Form.pieces, List.flatMap_map]
      exact hs.append hs'
    · constructor
      case operand =>
        intro e he
        obtain rfl : e = primary := by simpa [Form.operands] using he
        exact ⟨hp.rank_le, hp.fits⟩
      case single =>
        intro e he
        obtain ⟨s', hs', he⟩ := hmem he
        exact (hw s' hs').2.1 e he
      case content =>
        intro e he
        obtain ⟨s', hs', he⟩ := hmem he
        exact (hw s' hs').2.2.1 e he
      case group =>
        intro e he
        obtain ⟨s', hs', he⟩ := hmem he
        exact (hw s' hs').2.2.2 e he
      case proper => exact List.cons_ne_nil _ _
      case parts => exact fun s' hs' => (hw s' hs').1
      case followed => simp [Form.followers]

/-! ## Steps -/

theorem isWord_axis (a : Axis) : (Spelled.spelling a).isWord := by
  cases a <;> rfl

theorem axis?_apply (ts : List Token) : axis? ts =
    (take? "@" >>= fun at' => if at' then pure (some .atSign)
      else if startsAxis ts then operator? (Spelled.ofToken? : Token → Option Axis) >>= fun axis =>
        space >>= fun _ => advance >>= fun _ => pure (axis.map StepAxis.named)
      else pure none : Rule (Option StepAxis)) ts :=
  rfl

/-- Where no axis stands, none is read. -/
theorem axis?_none {ts : List Token} (hat : ts.head? ≠ some "@") (h : startsAxis ts = false) :
    axis? ts = .ok (none, ts) := by
  rw [axis?_apply, bind_of_ok (take?_of_ne hat), if_neg (by decide), if_neg (by simp [h]),
    pure_apply]

/-- The name of an axis begins a step if colons follow. -/
theorem startsAxis_spelling (a : Axis) {ts rest : List Token}
    (h : Token.skipSpace ts = "::" :: rest) : startsAxis (Spelled.spelling a :: ts) = true := by
  rw [startsAxis, Spelled.ofToken?_spelling, isNext_iff_cons.mpr ⟨rest, h⟩]
  rfl

theorem axis?_colons (a : Axis) {ts rest : List Token} (h : Token.skipSpace ts = "::" :: rest) :
    axis? (Spelled.spelling a :: ts) = .ok (some (.named a), rest) := by
  have hat : (Spelled.spelling a :: ts).head? ≠ some "@" := by cases a <;> simp [Spelled.spelling]
  rw [axis?_apply, bind_of_ok (take?_of_ne hat), if_neg (by decide),
    if_pos (startsAxis_spelling a h),
    bind_of_ok (operator?_of_some (skipSpace_of_isWord (isWord_axis a))
      (Spelled.ofToken?_spelling a)),
    bind_of_ok (space_apply ts), h, bind_of_ok (advance_cons _ rest)]
  rfl

/-- An axis is written as `@`, by name, or not at all. -/
theorem axis?_cases (ts : List Token) :
    (∃ us, ts = "@" :: us ∧ axis? ts = .ok (some .atSign, us)) ∨
    (∃ (a : Axis) (us rest : List Token), ts = Spelled.spelling a :: us ∧
      Token.skipSpace us = "::" :: rest ∧ axis? ts = .ok (some (.named a), rest)) ∨
    (startsAxis ts = false ∧ axis? ts = .ok (none, ts)) := by
  by_cases hat : ts.head? = some "@"
  · obtain ⟨us, rfl⟩ := List.head?_eq_some_iff.mp hat
    exact .inl ⟨us, rfl, rfl⟩
  refine .inr ?_
  cases haxis : startsAxis ts with
  | false => exact .inr ⟨rfl, axis?_none hat haxis⟩
  | true =>
    obtain ⟨t, us, rfl⟩ : ∃ t us, ts = t :: us := by
      cases ts with
      | nil => cases haxis
      | cons t us => exact ⟨t, us, rfl⟩
    obtain ⟨hsome, hcolons⟩ : (Spelled.ofToken? t : Option Axis).isSome ∧ isNext "::" us := by
      simpa [startsAxis] using haxis
    obtain ⟨a, ha⟩ := Option.isSome_iff_exists.mp hsome
    obtain rfl := Spelled.spelling_of_ofToken? ha
    obtain ⟨rest, hrest⟩ := isNext_iff_cons.mp hcolons
    exact .inl ⟨a, us, rest, rfl, hrest, axis?_colons a hrest⟩

/-- An axis is spelled with its colons, or as its abbreviation. -/
theorem axis?_sound : axis?.Sound (fun a => a.elim [] StepAxis.pieces) fun _ _ => True := by
  intro ts a rest h
  refine ⟨?_, trivial⟩
  obtain ⟨us, rfl, hread⟩ | ⟨axis, us, vs, rfl, hcolons, hread⟩ | ⟨-, hread⟩ := axis?_cases ts
  all_goals
    rw [hread] at h
    cases h
  · exact .text rfl (.nil _)
  · exact .text (isWord_axis axis) (.word rfl hcolons)
  · exact .nil _

/-- A step is spelled with its axis, its test and its predicates. -/
theorem axisStep_sound (hi : inner.Sound levels) :
    (axisStep inner).Sound Tree.pieces (Tree.ReadBefore 20 levels) := by
  intro ts n rest h
  rw [axisStep, bind_of_ok (space_apply ts)] at h
  suffices hs : Spells (Token.skipSpace ts) n.pieces rest ∧ n.ReadBefore 20 levels rest from
    ⟨.of_skipSpace hs.1, hs.2⟩
  generalize Token.skipSpace ts = us at h ⊢
  obtain ⟨up, mid, hup, h⟩ := bind_eq_ok.mp h
  obtain ⟨rfl, rfl⟩ | ⟨rfl, rfl, -⟩ := take?_eq_ok.mp hup
  · obtain ⟨rfl, rfl⟩ := pure_eq_ok.mp h
    refine ⟨?_, Form.FitsIn.readBefore (f := .parentStep)
      (.of_leaf rfl rfl rfl trivial trivial) (fun _ => rfl) _⟩
    rw [Node.of, Tree.pieces_node]
    exact .text rfl (.nil _)
  · obtain ⟨axis, mid, haxis, h⟩ := bind_eq_ok.mp h
    obtain ⟨test, mid', htest, h⟩ := bind_eq_ok.mp h
    obtain ⟨predicates, rest', hpredicates, h⟩ := bind_eq_ok.mp h
    obtain ⟨rfl, rfl⟩ := pure_eq_ok.mp h
    obtain ⟨hs, -⟩ := axis?_sound haxis
    obtain ⟨hs', hw⟩ := nodeTest_sound htest
    obtain ⟨hs'', hp⟩ := many_sound (predicate?_advances hi) (fun _ _ _ => predicate?_eq_ok hi)
      hpredicates
    refine ⟨?_, Form.FitsIn.readBefore (f := .axisStep axis test predicates)
      (.of_contents rfl rfl hp trivial hw) (fun _ => rfl) _⟩
    rw [Node.of, Tree.pieces_node]
    simp only [Form.map, Form.pieces, List.flatMap_map]
    exact (hs.append hs').append hs''

/-- A step is sound, whether it is a primary expression or not. -/
theorem stepExpr_sound (hi : inner.Sound levels) :
    (stepExpr inner).Sound Tree.pieces (Tree.ReadBefore 20 levels) := by
  intro ts n rest h
  rw [stepExpr, bind_of_ok (space_apply ts), bind_of_ok (rest_apply _)] at h
  suffices hs : Spells (Token.skipSpace ts) n.pieces rest ∧ n.ReadBefore 20 levels rest from
    ⟨.of_skipSpace hs.1, hs.2⟩
  split at h
  next hc => exact suffixedExpr_sound hi (by simp_all) h
  · exact axisStep_sound hi h

/-! ## Chains -/

theorem isWord_chainOp (op : ChainOp) : (Spelled.spelling op).isWord := by
  cases op <;> rfl

theorem isWord_pathOp (op : PathOp) : (Spelled.spelling op).isWord := by
  cases op <;> rfl

/-- An operator that is found at a level stands at this level. -/
theorem level_of_ofToken? {level : ChainLevel} {t : Token} {op : ChainOp}
    (h : level.ofToken? t = some op) : Spelled.spelling op = t ∧ op.level = level := by
  obtain ⟨hop, hlevel⟩ := Option.filter_eq_some_iff.mp h
  exact ⟨Spelled.spelling_of_ofToken? hop, by simpa using hlevel⟩

/-- A chain is spelled by its operands and the operators between them. -/
theorem chainOf_sound {level : ChainLevel} {operand : Rule Node} {k : Nat} (hk : level.rank < k)
    (hop : operand.Sound Tree.pieces (Tree.ReadBefore k levels)) :
    (chainOf level operand).Sound Tree.pieces (Tree.ReadBefore level.rank levels) := by
  intro ts n rest h
  obtain ⟨⟨first, others⟩, mid, hchain, h⟩ := bind_eq_ok.mp h
  obtain ⟨us, hfirst, hl⟩ := links_of_chain hop.shrinks hchain
  obtain ⟨hs, hp⟩ := hop hfirst
  cases others with
  | nil =>
    obtain ⟨rfl, rfl⟩ := pure_eq_ok.mp h
    cases hl
    exact ⟨hs, hp.of_rank_le (Nat.le_of_lt hk)⟩
  | cons x others =>
    obtain ⟨rfl, rfl⟩ := pure_eq_ok.mp h
    have hall : ∀ e ∈ first :: (x :: others).map Prod.snd, ∃ rest',
        e.ReadBefore k levels rest' := by
      rintro e (_ | ⟨_, he⟩)
      · exact ⟨_, hp⟩
      · obtain ⟨y, hy, rfl⟩ := List.mem_map.mp he
        exact hl.forall_mem hop y hy
    have hlevel : ∀ y ∈ x :: others, y.1.level = level := by
      intro y hy
      obtain ⟨t, ht⟩ := hl.read_of_mem y hy
      exact (level_of_ofToken? ht).2
    have hoperand : ∀ e ∈ first :: (x :: others).map Prod.snd,
        level.rank < e.rank ∧ e.Fits levels := by
      intro e he
      obtain ⟨_, he⟩ := hall e he
      exact ⟨Nat.lt_of_lt_of_le hk he.rank_le, he.fits⟩
    -- an operand ends where the next operator was read
    have hfollowed : ∀ p ∈ (Form.chain level first (x :: others)).followers, p.1.admits p.2 := by
      have hops : (x :: others).map (fun y => Spelled.spelling y.1) =
          ((x :: others).map Prod.fst).map Spelled.spelling := by
        rw [List.map_map]
        rfl
      intro p hp'
      simp only [Form.followers] at hp'
      rw [hops, List.zip_map_right] at hp'
      obtain ⟨q, hq, rfl⟩ := List.mem_map.mp hp'
      obtain ⟨mid', t, more, hread, hmid, ht⟩ := hl.followed hp hop q hq
      rw [Prod.map_snd, (level_of_ofToken? ht).1]
      exact hread.admits t (by simp [hmid])
    have hfit : (Form.chain level first (x :: others)).FitsIn levels :=
      .of_operands rfl hoperand ⟨List.cons_ne_nil _ _, hlevel⟩ trivial hfollowed
    refine ⟨?_, hfit.readBefore_last rfl (hl.last hp hop).admits⟩
    rw [Node.of, Tree.pieces_node]
    simp only [Form.map, Form.pieces, List.flatMap_map]
    refine hs.append (hl.spells level.operatorPieces hop fun hmid ht => ?_)
    obtain ⟨rfl, -⟩ := level_of_ofToken? ht
    unfold ChainLevel.operatorPieces
    split
    · exact .word (isWord_chainOp _) hmid
    · exact .keyword (isWord_chainOp _) hmid

theorem relativePath_sound (hi : inner.Sound levels) :
    (relativePath inner).Sound Tree.pieces (Tree.ReadBefore 19 levels) :=
  chainOf_sound (show ChainLevel.relativePath.rank < 20 by decide) (stepExpr_sound hi)

/-- The pieces of a path begin with its slash, which has been read already. -/
theorem pathAfter_eq_ok (hi : inner.Sound levels) {leading : PathOp} {ts rest : List Token}
    {n : Node} (h : pathAfter inner leading ts = .ok (n, rest)) :
    (∃ ps, n.pieces = .text (Spelled.spelling leading) :: ps ∧ Spells ts ps rest) ∧
      n.ReadBefore 18 levels rest := by
  unfold pathAfter at h
  split at h
  next relative more hr =>
    cases h
    obtain ⟨hs, hp⟩ := relativePath_sound hi hr
    have hfit : (Form.path leading (some relative)).FitsIn levels :=
      .of_operands rfl (by simpa [Form.operands] using ⟨hp.rank_le, hp.fits⟩) nofun trivial
        (List.forall_mem_nil _)
    exact ⟨⟨relative.pieces, by rw [Node.of, Tree.pieces_node]; rfl, hs⟩,
      hfit.readBefore_last rfl hp.admits⟩
  next e _ =>
    split at h
    next at' _ =>
      simp only at h
      split at h
      next hc =>
        cases h
        refine ⟨⟨[], by rw [Node.of, Tree.pieces_node]; rfl, .nil _⟩, Nat.le_refl _,
          Tree.fits_node.mpr (.of_leaf rfl rfl rfl (fun _ => rfl) trivial),
          fun t ht => ?_⟩
        obtain ⟨us, hus⟩ := List.head?_eq_some_iff.mp ht
        have hstep : canStartStep (t :: us) = false := by
          rw [← hus]
          simpa using hc.2
        show (!canStartStep [t]) = true
        rw [show canStartStep [t] = canStartStep (t :: us) from rfl, hstep]
        rfl
      · cases h
    · cases h

/-- A path is spelled with its leading slash, which may be all of it. -/
theorem pathExpr_sound (hi : inner.Sound levels) :
    (pathExpr inner).Sound Tree.pieces (Tree.ReadBefore 18 levels) := by
  intro ts n rest h
  rw [pathExpr, bind_of_ok (space_apply ts), bind_of_ok (rest_apply _)] at h
  suffices hs : Spells (Token.skipSpace ts) n.pieces rest ∧ n.ReadBefore 18 levels rest from
    ⟨.of_skipSpace hs.1, hs.2⟩
  generalize Token.skipSpace ts = us at h ⊢
  cases hlead : us.head?.bind (Spelled.ofToken? : Token → Option PathOp) with
  | none =>
    rw [hlead] at h
    obtain ⟨hs, hp⟩ := relativePath_sound hi h
    exact ⟨hs, hp.of_rank_le (by decide)⟩
  | some leading =>
    rw [hlead] at h
    obtain ⟨t, ht, hop⟩ := Option.bind_eq_some_iff.mp hlead
    obtain ⟨vs, rfl⟩ := List.head?_eq_some_iff.mp ht
    obtain rfl := Spelled.spelling_of_ofToken? hop
    obtain ⟨⟨ps, hpieces, hs⟩, hp⟩ :=
      pathAfter_eq_ok hi (show pathAfter inner leading vs = .ok (n, rest) from h)
    exact ⟨hpieces ▸ .text (isWord_pathOp leading) hs, hp⟩

end XPath.Grammar
