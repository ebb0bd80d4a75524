import XPath.Grammar.Primary
import XPath.Proofs.Sound.SequenceType

/-!
# Soundness of the rules for primary expressions

What is nested one level deeper is read by the rules in `inner`. If these are sound for the levels
that are left (`Nested.Sound`), so are the rules here.
-/

namespace XPath.Grammar

open Rule

/-- A single expression on the next level. -/
def SingleBefore (levels : Nat) (n : Node) (rest : List Token) : Prop :=
  ∃ k, levels = k + 1 ∧ n.ReadBefore 1 k rest

/-- The rules for what is nested are sound, with so many levels left. -/
structure Nested.Sound (inner : Nested) (levels : Nat) : Prop where
  exprSingle : inner.exprSingle.Sound Tree.pieces (SingleBefore levels)
  itemType : ReadsItems inner.itemType (ItemType.Fits levels)

/-- What is asked of a single expression as a part of a construct. -/
def IsSingle (levels : Nat) (n : Node) : Prop := 0 < n.rank ∧ ∃ k, levels = k + 1 ∧ n.Fits k

theorem SingleBefore.isSingle {levels : Nat} {n : Node} {rest : List Token}
    (h : SingleBefore levels n rest) : IsSingle levels n := by
  obtain ⟨k, rfl, hn⟩ := h
  exact ⟨hn.rank_le, k, rfl, hn.fits⟩

variable {inner : Nested} {levels : Nat}

/-- Single expressions are spelled with commas between them. -/
theorem expr_sound (hi : inner.Sound levels) :
    (expr inner).Sound Tree.pieces fun n _ => n.kind = .expr ∧ n.Fits levels := by
  intro ts n rest h
  obtain ⟨items, mid, hitems, h⟩ := bind_eq_ok.mp h
  obtain ⟨rfl, rfl⟩ := pure_eq_ok.mp h
  obtain ⟨hs, hne, hall, -⟩ := commaList_sound hi.exprSingle hitems
  refine ⟨?_, rfl, Tree.fits_node.mpr (.of_singles rfl (fun e he => ?_) hne trivial
    (List.forall_mem_nil _))⟩
  · rw [Node.of, Tree.pieces_node]
    simpa only [Form.map, Form.pieces, List.map_map, Tree.snd_comp_withPieces] using hs
  · obtain ⟨mid, he⟩ := hall e he
    exact he.isSingle

/-- Up to a closing token an expression is spelled, or nothing. -/
theorem exprUntil_sound (hi : inner.Sound levels) (closing : Token) :
    (exprUntil inner closing).Sound (fun o => o.elim [] Tree.pieces)
      fun o _ => ∀ n ∈ o, n.kind = .expr ∧ n.Fits levels := by
  intro ts o rest h
  replace h : (if isNext closing ts then pure none else expr inner >>= fun n => pure (some n)
    : Rule (Option Node)) ts = .ok (o, rest) := h
  split at h
  · obtain ⟨rfl, rfl⟩ := pure_eq_ok.mp h
    exact ⟨.nil _, by simp⟩
  · obtain ⟨n, mid, hn, h⟩ := bind_eq_ok.mp h
    obtain ⟨rfl, rfl⟩ := pure_eq_ok.mp h
    obtain ⟨hs, hw⟩ := expr_sound hi hn
    exact ⟨hs, by rintro _ ⟨⟩; exact hw⟩

/-! ## Brackets -/

/-- Brackets are spelled around what stands in them. -/
theorem group_sound {α : Type} {opening closing : Token} {owner : String} {body : Rule α}
    {pieces : α → List Piece} {P : α → Prop} (ho : opening.isWord) (hc : closing.isWord)
    (hb : body.Sound pieces fun a _ => P a) :
    (group opening closing owner body).Sound
      (fun a => [.text opening] ++ pieces a ++ [.text closing]) fun a _ => P a := by
  intro ts a rest h
  obtain ⟨ts', mid, hopen, ha, hclose⟩ := group_eq_ok.mp h
  obtain ⟨hs, hp⟩ := hb ha
  exact ⟨.of_skipSpace (.bracketed ho hc hopen hs hclose), hp⟩

theorem parenthesizedExpr_sound (hi : inner.Sound levels) :
    (parenthesizedExpr inner).Sound Tree.pieces fun n rest =>
      n.kind = .parenthesizedExpr ∧ n.ReadBefore 21 levels rest := by
  intro ts n rest h
  obtain ⟨o, mid, ho, h⟩ := bind_eq_ok.mp h
  obtain ⟨rfl, rfl⟩ := pure_eq_ok.mp h
  obtain ⟨hs, hp⟩ := group_sound rfl rfl (exprUntil_sound hi ")") ho
  refine ⟨?_, rfl, Form.FitsIn.readBefore (f := .parenthesized o) ?_ (fun _ => rfl) _⟩
  · rw [Node.of, Tree.pieces_node]
    cases o <;> exact hs
  · exact .of_contents rfl rfl
      (fun e he => hp e (by simpa [Form.contents] using he)) trivial trivial

theorem enclosedExpr_sound (hi : inner.Sound levels) :
    (enclosedExpr inner).Sound (fun o => enclosedPieces (o.map Tree.withPieces))
      fun o _ => ∀ n ∈ o, n.kind = .expr ∧ n.Fits levels := by
  intro ts o rest h
  obtain ⟨ts', mid, hopen, ho, hclose⟩ := group_eq_ok.mp h
  obtain ⟨hs, hp⟩ := exprUntil_sound hi _ ho
  refine ⟨.of_skipSpace ?_, hp⟩
  cases o with
  | none => exact .bracketed rfl rfl hopen hs hclose
  | some n =>
    have hbody : Spells ts' ([.gap] ++ n.pieces ++ [.gap]) mid :=
      (Spells.append (.gap (.nil ts')) hs).append (.gap (.nil mid))
    simpa [enclosedPieces, Tree.withPieces] using Spells.bracketed rfl rfl hopen hbody hclose

theorem predicate_sound (hi : inner.Sound levels) :
    (predicate inner).Sound (fun n => predicatePieces n.withPieces)
      fun n _ => n.kind = .expr ∧ n.Fits levels :=
  group_sound rfl rfl (expr_sound hi)

/-! ## Arguments and keys -/

theorem argument_sound (hi : inner.Sound levels) :
    (argument inner).Sound (fun a => (a.map Tree.withPieces).pieces)
      fun a _ => ∀ e ∈ a.children, IsSingle levels e := by
  intro ts a rest h
  have hexpr {us : List Token} (h : (inner.exprSingle >>= fun n => pure (Argument.expr n)) us =
      .ok (a, rest)) : Spells us (a.map Tree.withPieces).pieces rest ∧
        ∀ e ∈ a.children, IsSingle levels e := by
    obtain ⟨n, mid, hn, h⟩ := bind_eq_ok.mp h
    obtain ⟨rfl, rfl⟩ := pure_eq_ok.mp h
    obtain ⟨hs, hw⟩ := hi.exprSingle hn
    exact ⟨hs, by simpa [Argument.children] using hw.isSingle⟩
  suffices hs : Spells (Token.skipSpace ts) (a.map Tree.withPieces).pieces rest ∧
      ∀ e ∈ a.children, IsSingle levels e from ⟨.of_skipSpace hs.1, hs.2⟩
  rw [argument, bind_of_ok (space_apply ts), bind_of_ok (rest_apply _)] at h
  generalize Token.skipSpace ts = us at h ⊢
  split at h
  next us =>
    split at h
    · rw [bind_of_ok (advance_cons _ us)] at h
      obtain ⟨rfl, rfl⟩ := pure_eq_ok.mp h
      exact ⟨.text rfl (.nil _), by simp [Argument.children]⟩
    · exact hexpr h
  · exact hexpr h

/-- An argument is a single expression or a placeholder. -/
theorem argumentList_sound (hi : inner.Sound levels) :
    (argumentList inner).Sound (fun args => argumentPieces (args.map (·.map Tree.withPieces)))
      fun args _ => ∀ e ∈ args.flatMap Argument.children, IsSingle levels e := by
  intro ts args rest h
  obtain ⟨ts', mid, hopen, hargs, hclose⟩ := group_eq_ok.mp h
  obtain ⟨hs, hp⟩ := separated_sound (argument_sound hi) hargs
  refine ⟨.of_skipSpace ?_, fun e he => ?_⟩
  · simp only [argumentPieces, List.map_map]
    exact .bracketed rfl rfl hopen hs hclose
  · obtain ⟨a, ha, he⟩ := List.mem_flatMap.mp he
    obtain ⟨-, ha⟩ := hp a ha
    exact ha e he

/-- A key is spelled as what it is read as. -/
theorem keySpecifier_sound (hi : inner.Sound levels) :
    (keySpecifier inner).Sound (fun k => (k.map Tree.withPieces).pieces) fun k _ =>
      k.WellFormed ∧ ∀ e ∈ k.children, e.kind = .parenthesizedExpr ∧ e.Fits levels := by
  intro ts k rest h
  suffices hs : Spells (Token.skipSpace ts) (k.map Tree.withPieces).pieces rest ∧
      k.WellFormed ∧ ∀ e ∈ k.children, e.kind = .parenthesizedExpr ∧ e.Fits levels from
    ⟨.of_skipSpace hs.1, hs.2⟩
  rw [keySpecifier, bind_of_ok (space_apply ts), bind_of_ok (rest_apply _)] at h
  generalize Token.skipSpace ts = us at h ⊢
  split at h
  · cases h
  next t us =>
    split at h
    next ht =>
      rw [bind_of_ok (advance_cons _ us)] at h
      obtain ⟨rfl, rfl⟩ := pure_eq_ok.mp h
      subst ht
      exact ⟨.text rfl (.nil _), trivial, by simp [KeySpecifier.children]⟩
    split at h
    · obtain ⟨n, mid, hn, h⟩ := bind_eq_ok.mp h
      obtain ⟨rfl, rfl⟩ := pure_eq_ok.mp h
      obtain ⟨hs, hkind, hw⟩ := parenthesizedExpr_sound hi hn
      refine ⟨?_, trivial, by simpa [KeySpecifier.children] using ⟨hkind, hw.fits⟩⟩
      simpa [KeySpecifier.map, KeySpecifier.pieces, parenthesizedPieces, Tree.withPieces, hkind]
        using hs
    split at h
    next hd =>
      rw [bind_of_ok (advance_cons _ us), Integer.ofText_digits hd] at h
      obtain ⟨rfl, rfl⟩ := pure_eq_ok.mp h
      refine ⟨?_, Int.natCast_nonneg _, by simp [KeySpecifier.children]⟩
      simpa [KeySpecifier.map, KeySpecifier.pieces, integer_text] using Spells.digits hd (.nil us)
    · obtain ⟨t', mid, ht, h⟩ := bind_eq_ok.mp h
      obtain ⟨hname, hts⟩ := one_eq_ok.mp ht
      obtain ⟨rfl, rfl⟩ := pure_eq_ok.mp h
      rw [hts]
      refine ⟨.text (Token.isWord_of_startsName hname) (.nil _), hname, ?_⟩
      simp [KeySpecifier.children]

/-! ## Functions -/

/-- A reference is a `#` and a number that is not too large. -/
theorem namedFunctionRef_eq_ok {name : EQName} {ts rest : List Token} {n : Node}
    (h : namedFunctionRef name ts = .ok (n, rest)) : ∃ arity ≤ maxArity,
      n = .of (.namedFunctionRef name arity) ∧
        Spells ts [.text "#", .text (Nat.repr arity)] rest := by
  obtain ⟨_, mid, hhash, h⟩ := bind_eq_ok.mp h
  rw [bind_of_ok (space_apply mid)] at h
  obtain ⟨digits, mid', hd, h⟩ := bind_eq_ok.mp h
  obtain ⟨hdigits, hmid⟩ := one_eq_ok.mp hd
  split at h
  next ha =>
    obtain ⟨rfl, rfl⟩ := pure_eq_ok.mp h
    refine ⟨_, ha, rfl, (Spells.word rfl (expect_eq_ok.mp hhash)).append (.of_skipSpace ?_)⟩
    rw [hmid]
    exact .digits hdigits (.nil _)
  · cases h

/-- A type may be declared behind `as`. -/
theorem declaredType?_sound (hi : inner.Sound levels) :
    (declaredType? inner).Sound (fun o => o.elim [] fun t => Piece.keyword "as" ++ t.pieces)
      fun o _ => ∀ t ∈ o, t.FitsIn (ItemType.Fits levels) := by
  intro ts o rest h
  obtain ⟨found, mid, hf, h⟩ := bind_eq_ok.mp h
  obtain ⟨rfl, has⟩ | ⟨rfl, rfl, -⟩ := skip?_eq_ok.mp hf
  · obtain ⟨t, mid', ht, h⟩ := bind_eq_ok.mp h
    obtain ⟨rfl, rfl⟩ := pure_eq_ok.mp h
    obtain ⟨hs, hw, -⟩ := sequenceType_sound hi.itemType ht
    exact ⟨(Spells.keyword rfl has).append hs, by rintro _ ⟨⟩; exact hw⟩
  · obtain ⟨rfl, rfl⟩ := pure_eq_ok.mp h
    exact ⟨.nil _, by simp⟩

theorem param_sound (hi : inner.Sound levels) :
    (param inner).Sound Param.pieces fun p _ => p.FitsIn (ItemType.Fits levels) := by
  intro ts p rest h
  obtain ⟨name, mid, hname, h⟩ := bind_eq_ok.mp h
  obtain ⟨type, mid', htype, h⟩ := bind_eq_ok.mp h
  obtain ⟨rfl, rfl⟩ := pure_eq_ok.mp h
  obtain ⟨ts', hdollar, hname⟩ := after_eq_ok.mp hname
  obtain ⟨hs, hn⟩ := eqName_sound hname
  obtain ⟨hs', ht⟩ := declaredType?_sound hi htype
  exact ⟨((Spells.word rfl hdollar).append hs).append hs', hn, ht⟩

theorem paramList_sound (hi : inner.Sound levels) :
    (paramList inner).Sound paramsPieces fun ps _ =>
      ∀ p ∈ ps, p.FitsIn (ItemType.Fits levels) := by
  intro ts ps rest h
  obtain ⟨hs, hp⟩ := separated_sound (param_sound hi) h
  exact ⟨hs, fun p hpm => (hp p hpm).choose_spec⟩

/-- A function is spelled with its parameters, its type and its body. -/
theorem inlineFunction_sound (hi : inner.Sound levels) :
    (inlineFunction inner).Sound Tree.pieces (Tree.ReadBefore 21 levels) := by
  intro ts n rest h
  obtain ⟨_, us, hkw, h⟩ := bind_eq_ok.mp h
  obtain ⟨params, vs, hparams, h⟩ := bind_eq_ok.mp h
  obtain ⟨result, ws, hresult, h⟩ := bind_eq_ok.mp h
  obtain ⟨body, rest', hbody, h⟩ := bind_eq_ok.mp h
  obtain ⟨rfl, rfl⟩ := pure_eq_ok.mp h
  obtain ⟨us', mid, hopen, hps, hclose⟩ := bracketed_eq_ok.mp hparams
  obtain ⟨hs, hp⟩ := paramList_sound hi hps
  obtain ⟨hs', hr⟩ := declaredType?_sound hi hresult
  obtain ⟨hs'', hb⟩ := enclosedExpr_sound hi hbody
  refine ⟨?_, Form.FitsIn.readBefore (f := .inlineFunction params result body)
    (.of_contents rfl rfl (fun e he => hb e (by simpa [Form.contents] using he)) trivial ⟨hp, hr⟩)
    (fun _ => rfl) _⟩
  have hcall : Spells ts (callPieces "function" (paramsPieces params)) vs :=
    (Spells.word rfl (expect_eq_ok.mp hkw)).append (.bracketed rfl rfl hopen hs hclose)
  rw [Node.of, Tree.pieces_node]
  exact ((hcall.append hs').append (.gap (.nil _))).append hs''

/-! ## Constructors -/

/-- Key and value are single expressions. -/
theorem mapEntry_sound (hi : inner.Sound levels) :
    (mapEntry inner).Sound (fun e => (e.map Tree.withPieces).pieces)
      fun e _ => IsSingle levels e.key ∧ IsSingle levels e.value := by
  intro ts e rest h
  obtain ⟨key, mid, hkey, h⟩ := bind_eq_ok.mp h
  obtain ⟨_, mid', hcolon, h⟩ := bind_eq_ok.mp h
  obtain ⟨value, rest', hvalue, h⟩ := bind_eq_ok.mp h
  obtain ⟨rfl, rfl⟩ := pure_eq_ok.mp h
  obtain ⟨hs, hk⟩ := hi.exprSingle hkey
  obtain ⟨hs', hv⟩ := hi.exprSingle hvalue
  exact ⟨(hs.append (.keyword rfl (expect_eq_ok.mp hcolon))).append hs', hk.isSingle, hv.isSingle⟩

theorem mapConstructor_sound (hi : inner.Sound levels) :
    (mapConstructor inner).Sound Tree.pieces (Tree.ReadBefore 21 levels) := by
  intro ts n rest h
  obtain ⟨_, mid, hkw, h⟩ := bind_eq_ok.mp h
  obtain ⟨entries, rest', hentries, h⟩ := bind_eq_ok.mp h
  obtain ⟨rfl, rfl⟩ := pure_eq_ok.mp h
  obtain ⟨ts', us, hopen, hes, hclose⟩ := bracketed_eq_ok.mp hentries
  obtain ⟨hs, hp⟩ := separated_sound (mapEntry_sound hi) hes
  refine ⟨?_, Form.FitsIn.readBefore (f := .mapConstructor entries)
    (.of_singles rfl (fun e he => ?_) trivial trivial (List.forall_mem_nil _)) (fun _ => rfl) _⟩
  · rw [Node.of, Tree.pieces_node]
    simp only [Form.map, Form.pieces, List.map_map]
    exact (Spells.word rfl (expect_eq_ok.mp hkw)).append (.bracketed rfl rfl hopen hs hclose)
  · obtain ⟨entry, hentry, he⟩ := List.mem_flatMap.mp he
    obtain ⟨-, hk, hv⟩ := hp entry hentry
    rcases (by simpa using he : e = entry.key ∨ e = entry.value) with rfl | rfl
    · exact hk
    · exact hv

theorem squareArray_sound (hi : inner.Sound levels) :
    (squareArray inner).Sound Tree.pieces (Tree.ReadBefore 21 levels) := by
  intro ts n rest h
  obtain ⟨members, rest', hmembers, h⟩ := bind_eq_ok.mp h
  obtain ⟨rfl, rfl⟩ := pure_eq_ok.mp h
  obtain ⟨ts', us, hopen, hms, hclose⟩ := group_eq_ok.mp hmembers
  obtain ⟨hs, hp⟩ := separated_sound hi.exprSingle hms
  refine ⟨.of_skipSpace ?_, Form.FitsIn.readBefore (f := .squareArray members)
    (.of_singles rfl (fun e he => ?_) trivial trivial (List.forall_mem_nil _)) (fun _ => rfl) _⟩
  · rw [Node.of, Tree.pieces_node]
    simp only [Form.map, Form.pieces, List.map_map, Tree.snd_comp_withPieces]
    exact .bracketed rfl rfl hopen hs hclose
  · obtain ⟨_, hsingle⟩ := hp e he
    exact hsingle.isSingle

theorem curlyArray_sound (hi : inner.Sound levels) :
    (curlyArray inner).Sound Tree.pieces (Tree.ReadBefore 21 levels) := by
  intro ts n rest h
  obtain ⟨_, mid, hkw, h⟩ := bind_eq_ok.mp h
  obtain ⟨body, rest', hbody, h⟩ := bind_eq_ok.mp h
  obtain ⟨rfl, rfl⟩ := pure_eq_ok.mp h
  obtain ⟨hs, hb⟩ := enclosedExpr_sound hi hbody
  refine ⟨?_, Form.FitsIn.readBefore (f := .curlyArray body)
    (.of_contents rfl rfl (fun e he => hb e (by simpa [Form.contents] using he)) trivial trivial)
    (fun _ => rfl) _⟩
  rw [Node.of, Tree.pieces_node]
  exact (Spells.word rfl (expect_eq_ok.mp hkw)).append hs

/-! ## Primary expressions -/

/-- A name in front of a parenthesis is that of a function. -/
def NamesFunction (ts : List Token) : Prop :=
  ∀ name more, eqName ts = .ok (name, more) → isNext "#" more = false → isNext "(" more = true →
    isReserved name = false

/-- A name with what stands behind it is spelled as a call or a reference. -/
theorem functionExpr_sound (hi : inner.Sound levels) {ts rest : List Token} {n : Node}
    (hts : NamesFunction ts) (h : functionExpr inner ts = .ok (n, rest)) :
    Spells ts n.pieces rest ∧ n.ReadBefore 21 levels rest := by
  obtain ⟨name, mid, hname, h⟩ := bind_eq_ok.mp h
  obtain ⟨hs, hw⟩ := eqName_sound hname
  rw [bind_of_ok (rest_apply mid)] at h
  split at h
  · obtain ⟨arity, ha, rfl, hs'⟩ := namedFunctionRef_eq_ok h
    refine ⟨?_, Form.FitsIn.readBefore (f := .namedFunctionRef name arity)
      (.of_leaf rfl rfl rfl trivial ⟨hw, ha⟩) (fun _ => rfl) _⟩
    rw [Node.of, Tree.pieces_node]
    exact hs.append hs'
  next hhash =>
    split at h
    next hparen =>
      obtain ⟨args, mid', hargs, h⟩ := bind_eq_ok.mp h
      obtain ⟨rfl, rfl⟩ := pure_eq_ok.mp h
      obtain ⟨hs', hp⟩ := argumentList_sound hi hargs
      have hproper : isReserved name = false := hts name mid hname (by simpa using hhash) hparen
      refine ⟨?_, Form.FitsIn.readBefore (f := .functionCall name args)
        (.of_singles rfl hp hproper hw (List.forall_mem_nil _)) (fun _ => rfl) _⟩
      rw [Node.of, Tree.pieces_node]
      exact hs.append hs'
    · cases h

theorem varRef_sound {name : EQName} (hw : name.WellFormed) (rest : List Token) :
    (Node.of (.varRef name)).ReadBefore 21 levels rest :=
  Form.FitsIn.readBefore (f := .varRef name) (.of_leaf rfl rfl rfl trivial hw) (fun _ => rfl) rest

/-- The first token decides which primary expression is spelled. -/
theorem primaryFrom_sound (hi : inner.Sound levels) {t : Token} {ts rest : List Token} {n : Node}
    (hfun : t ≠ "(" → t ≠ "." → t ≠ "$" → t ≠ "?" → t.isQuote = false → t ≠ "[" →
      ¬ (t = "function" ∧ isNext "(" ts) → ¬ (t = "map" ∧ isNext "\x7b" ts) →
      ¬ (t = "array" ∧ isNext "\x7b" ts) → t.isDigits = false → NamesFunction (t :: ts))
    (h : primaryFrom inner t ts (t :: ts) = .ok (n, rest)) :
    Spells (t :: ts) n.pieces rest ∧ n.ReadBefore 21 levels rest := by
  unfold primaryFrom at h
  rcases ite_eq_ok.mp h with ⟨-, h⟩ | ⟨h1, h⟩
  · exact ⟨(parenthesizedExpr_sound hi h).1, (parenthesizedExpr_sound hi h).2.2⟩
  rcases ite_eq_ok.mp h with ⟨rfl, h⟩ | ⟨h2, h⟩
  · rcases ite_eq_ok.mp h with ⟨-, h⟩ | ⟨-, h⟩
    · exact numericLiteral_sound levels h
    · rw [bind_of_ok (advance_cons _ ts)] at h
      obtain ⟨rfl, rfl⟩ := pure_eq_ok.mp h
      refine ⟨?_, Form.FitsIn.readBefore (f := .contextItem)
        (.of_leaf rfl rfl rfl trivial trivial) (fun _ => rfl) _⟩
      rw [Node.of, Tree.pieces_node]
      exact .text rfl (.nil _)
  rcases ite_eq_ok.mp h with ⟨-, h⟩ | ⟨h3, h⟩
  · obtain ⟨name, mid, hname, h⟩ := bind_eq_ok.mp h
    obtain ⟨rfl, rfl⟩ := pure_eq_ok.mp h
    obtain ⟨ts', hdollar, hname⟩ := after_eq_ok.mp hname
    obtain ⟨hs, hw⟩ := eqName_sound hname
    refine ⟨?_, varRef_sound hw _⟩
    rw [Node.of, Tree.pieces_node]
    exact (Spells.word rfl hdollar).append hs
  rcases ite_eq_ok.mp h with ⟨-, h⟩ | ⟨h4, h⟩
  · obtain ⟨key, mid, hkey, h⟩ := bind_eq_ok.mp h
    obtain ⟨rfl, rfl⟩ := pure_eq_ok.mp h
    obtain ⟨ts', hmark, hkey⟩ := after_eq_ok.mp hkey
    obtain ⟨hs, hw, hp⟩ := keySpecifier_sound hi hkey
    refine ⟨?_, Form.FitsIn.readBefore (f := .unaryLookup key)
      ⟨List.forall_mem_nil _, List.forall_mem_nil _, List.forall_mem_nil _, hp, trivial, hw,
        List.forall_mem_nil _⟩ (fun _ => rfl) _⟩
    rw [Node.of, Tree.pieces_node]
    exact (Spells.word rfl hmark).append hs
  rcases ite_eq_ok.mp h with ⟨-, h⟩ | ⟨h5, h⟩
  · obtain ⟨s, mid, hlit, h⟩ := bind_eq_ok.mp h
    obtain ⟨rfl, rfl⟩ := pure_eq_ok.mp h
    refine ⟨?_, Form.FitsIn.readBefore (f := .string s)
      (.of_leaf rfl rfl rfl trivial trivial) (fun _ => rfl) _⟩
    rw [Node.of, Tree.pieces_node]
    exact (stringLiteral_sound hlit).1
  rcases ite_eq_ok.mp h with ⟨-, h⟩ | ⟨h6, h⟩
  · exact squareArray_sound hi h
  rcases ite_eq_ok.mp h with ⟨-, h⟩ | ⟨h7, h⟩
  · exact inlineFunction_sound hi h
  rcases ite_eq_ok.mp h with ⟨-, h⟩ | ⟨h8, h⟩
  · exact mapConstructor_sound hi h
  rcases ite_eq_ok.mp h with ⟨-, h⟩ | ⟨h9, h⟩
  · exact curlyArray_sound hi h
  rcases ite_eq_ok.mp h with ⟨-, h⟩ | ⟨h10, h⟩
  · exact numericLiteral_sound levels h
  · have hname : NamesFunction (t :: ts) :=
      hfun h1 h2 h3 h4 (by simpa using h5) h6 h7 h8 h9 (by simpa using h10)
    exact functionExpr_sound hi hname h

end XPath.Grammar
