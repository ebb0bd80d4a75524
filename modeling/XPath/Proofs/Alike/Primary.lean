import XPath.Proofs.Alike.SequenceType
import XPath.Proofs.Stops.Expr

/-!
# Primary expressions in sequences that read alike

The look-ahead for a primary expression sees a token behind a name. The second run cannot see one
there that the first one does not (`couldBePrimary_back`); and what the first one sees there is
taken by the primary expression that it goes on to read (`couldBePrimary_of_again`).
-/

namespace XPath.Grammar

open Rule Alike

variable {A : Alike}

/-! ## Primary expressions -/

theorem transfersFrom_expect {α : Type} {t : Token} {owner : String} {k : Unit → Rule α}
    (hs : t.isSpace = false) (hk : A.Transfers (k ())) (ht : (k ()).Takes) :
    TransfersFrom A t (expect t owner >>= k) :=
  ⟨(transfers_expect t owner).bind fun _ => hk, goesOn_expect hs ht⟩

theorem transfers_namedFunctionRef (name : EQName) : A.Transfers (namedFunctionRef name) :=
  (transfers_expect "#" _).bind fun _ => (transfers_one Token.isDigits _).bind fun _ =>
    .ite _ (transfers_pure _) ⟨nofun, fun _ => nofun⟩

theorem takes_namedFunctionRef (name : EQName) : (namedFunctionRef name).Takes := by
  refine (takes_expect "#" _).bind fun _ => Stops.suffix (n := 0) <| Consumes.space <|
    (consumes_one (fun _ => Token.isOrdinary_of_isDigits) (by decide)).bind fun digits => ?_
  exact Stops.ite _ (mayConsume_pure _) fun _ => .value _

theorem takes_argumentList (levels : Nat) : (argumentList (nested levels)).Takes :=
  takes_group (mayConsume_separated _ (argument_consumes (nested_stops levels))).suffix

theorem functionExpr_goesOn {levels : Nat} {ts mid rest : List Token} {name : EQName} {n : Node}
    (hname : eqName ts = .ok (name, mid)) (h : functionExpr (nested levels) ts = .ok (n, rest)) :
    ∃ t more, Token.skipSpace mid = t :: more ∧ rest <:+ more := by
  replace h : (if isNext "#" mid = true then namedFunctionRef name
      else if isNext "(" mid = true then argumentList (nested levels) >>= fun args =>
        pure (Node.of (.functionCall name args))
      else space >>= fun _ => fail "'(' or '#' after function name" : Rule Node) mid =
        .ok (n, rest) := by
    rw [functionExpr, bind_of_ok hname] at h
    exact h
  obtain ⟨-, h⟩ | ⟨-, h⟩ := ite_eq_ok.mp h
  · exact takes_namedFunctionRef name h
  obtain ⟨-, h⟩ | ⟨-, h⟩ := ite_eq_ok.mp h
  · exact ((takes_argumentList levels).bind fun _ => leavesSuffix_pure _) h
  · cases h

theorem eqName_keyword {k w : Token} (hk : Text.startsName k) (hQ : k ≠ "Q") (hw : w ≠ ":")
    {ts : List Token} (hts : isNext w ts = true) :
    eqName (k :: ts) = .ok (.qName none ⟨k⟩, ts) := by
  have hcolon : ts.head? ≠ some ":" := by
    intro hhead
    obtain ⟨us, rfl⟩ := List.head?_eq_some_iff.mp hhead
    exact hw (Option.some.inj (isNext_iff.mp hts)).symm
  rw [eqName_apply, skipSpace_of_isWord (Token.isWord_of_startsName hk), startsBracedUri_of_ne hQ,
    if_neg (by decide), bind_of_ok (ncName_cons (n := ⟨k⟩) hk ts)]
  exact bind_of_ok (colonName?_of_head?_ne hcolon) _

theorem isNext_unique {t u : Token} {ts : List Token} (ht : isNext t ts = true)
    (hu : isNext u ts = true) : t = u :=
  Option.some.inj ((isNext_iff.mp ht).symm.trans (isNext_iff.mp hu))

/-- A name in front of a parenthesis or a `#`, other than one that is kept for other uses, is that
of a function. -/
theorem primaryFrom_of_eqName {inner : Nested} {t : Token} {ts more : List Token} {name : EQName}
    (h : eqName (t :: ts) = .ok (name, more))
    (hmore : isNext "#" more = true ∨ isNext "(" more = true ∧ isReserved name = false) :
    primaryFrom inner t ts = functionExpr inner := by
  have hkeyword {k w : Token} (hk : Text.startsName k) (hQ : k ≠ "Q") (hw : w ≠ ":")
      (hhash : w ≠ "#") (hparen : w ≠ "(" ∨ isReserved (.qName none ⟨k⟩) = true) :
      ¬ (t = k ∧ isNext w ts = true) := by
    rintro ⟨rfl, hnext⟩
    rw [eqName_keyword hk hQ hw hnext] at h
    obtain ⟨rfl, rfl⟩ : EQName.qName none ⟨t⟩ = name ∧ ts = more := by simpa using h
    obtain hmore | ⟨hmore, hreserved⟩ := hmore
    · exact hhash (isNext_unique hnext hmore)
    · rcases hparen with hparen | hparen
      · exact hparen (isNext_unique hnext hmore)
      · rw [hreserved] at hparen
        cases hparen
  have hne {u : Token} (hu : Text.startsName u = false) (hs : u.isSpace = false) : t ≠ u := by
    rintro rfl
    rw [eqName_error hu hs] at h
    cases h
  have hquote : ¬ t.isQuote = true := by
    simp [Token.isQuote, hne (u := "'") (by decide) rfl, hne (u := "\"") (by decide) rfl]
  have hdigits : ¬ t.isDigits = true := by
    intro hd
    have hname : Text.startsName t = false :=
      Bool.eq_false_iff.mpr fun hn => by simp [Token.isDigits_of_startsName hn] at hd
    exact hne hname (Token.isSpace_of_isDigits hd) rfl
  rw [primaryFrom, if_neg (hne (by decide) rfl), if_neg (hne (by decide) rfl),
    if_neg (hne (by decide) rfl), if_neg (hne (by decide) rfl), if_neg hquote,
    if_neg (hne (by decide) rfl),
    if_neg (hkeyword (by decide) (by decide) (by decide) (by decide) (.inr (by decide))),
    if_neg (hkeyword (by decide) (by decide) (by decide) (by decide) (.inl (by decide))),
    if_neg (hkeyword (by decide) (by decide) (by decide) (by decide) (.inl (by decide))),
    if_neg hdigits]

theorem transfers_declaredType? (levels : Nat) : A.Transfers (declaredType? (nested levels)) :=
  (transfers_skip? "as").bind fun _ => .ite _
    ((transfers_sequenceType fun _ => transfers_itemType).bind fun _ => transfers_pure _)
    (transfers_pure _)

/-- A point in front of digits begins a number, and they are found in both sequences. -/
theorem numericLiteral_point {ts rest : List Token} {n : Node}
    (h : numericLiteral ("." :: ts) = .ok (n, rest)) : ts.head?.any Token.isDigits = true := by
  obtain ⟨m, mid, hm, -⟩ := bind_eq_ok.mp (show (mantissa >>= _) ("." :: ts) = .ok (n, rest) from h)
  have hpoint : Token.isDigits "." ≠ true := by decide
  cases mantissa_tokens hm with
  | fraction ht | wholePoint ht | whole ht => exact absurd ht hpoint
  | point hf => exact hf

/-! ## Looking ahead -/

theorem startsAxis_back {t : Token} {more more' : List Token} (hmore : A.rel more more')
    (h : startsAxis (t :: more') = true) : startsAxis (t :: more) = true := by
  obtain ⟨haxis, hcolons⟩ : (Spelled.ofToken? t : Option Axis).isSome ∧ isNext "::" more' := by
    simpa [startsAxis] using h
  simp [startsAxis, haxis, isNext_of_back hmore hcolons]

theorem again_axis? {t : Token} {more more' : List Token} (hmore : A.rel more more')
    (hrel : A.rel (t :: more) (t :: more')) : A.Again (axis? (t :: more)) (axis? (t :: more')) := by
  intro axis rest h hkept
  obtain ⟨us, hts, h'⟩ | ⟨a, us, mid, hts, hcolons, h'⟩ | ⟨haxis, h'⟩ := axis?_cases (t :: more)
  · obtain ⟨rfl, rfl⟩ := List.cons_eq_cons.mp hts
    obtain ⟨rfl, rfl⟩ : some StepAxis.atSign = axis ∧ more = rest := by simpa [h'] using h
    exact ⟨more', rfl, hmore⟩
  · obtain ⟨rfl, rfl⟩ := List.cons_eq_cons.mp hts
    obtain ⟨rfl, rfl⟩ : some (StepAxis.named a) = axis ∧ mid = rest := by simpa [h'] using h
    obtain ⟨rest', hus, hrest⟩ := A.next hmore hcolons hkept
    exact ⟨rest', axis?_colons a hus, hrest⟩
  · obtain ⟨rfl, rfl⟩ : none = axis ∧ t :: more = rest := by simpa [h'] using h
    have hat : (t :: more').head? ≠ some "@" := by
      rintro ⟨⟩
      cases h'
    have haxis' : startsAxis (t :: more') = false :=
      Bool.eq_false_iff.mpr fun hc =>
        Bool.false_ne_true (haxis.symm.trans (startsAxis_back hmore hc))
    exact ⟨t :: more', axis?_none hat haxis', hrel⟩

/-- What a word is followed by in the second sequence it is followed by in the first. -/
theorem rel_of_cons {t : Token} {more more' : List Token} (ht : t.isSpace = false)
    (h : A.rel (t :: more) (t :: more')) : A.rel more more' := by
  have hskip (ts : List Token) : Token.skipSpace (t :: ts) = t :: ts := by
    simp [Token.skipSpace, ht]
  obtain ⟨vs, hvs, hrel, -⟩ := A.back h (hskip more')
  rw [hskip] at hvs
  exact (List.cons_eq_cons.mp hvs).2 ▸ hrel

/-- A URI and its name in the second sequence are in the first one, too. -/
theorem uriQualifiedName_back {ts us mid' : List Token} {name : EQName} (hrel : A.rel ts us)
    (hhead : ts.head? = us.head?) (hs : startsBracedUri us = true)
    (h : uriQualifiedName us = .ok (name, mid')) : startsBracedUri ts = true ∧
      ∃ mid, uriQualifiedName ts = .ok (name, mid) ∧ A.rel mid mid' := by
  have hall := touching_of_startsBracedUri hrel (.inr hs)
  obtain ⟨us, rfl⟩ := startsBracedUri_iff.mp hs
  obtain ⟨ts, rfl⟩ := List.head?_eq_some_iff.mp hhead
  obtain ⟨uri, mid, hu, h⟩ := bind_eq_ok.mp h
  obtain ⟨w, rfl, hw, rfl⟩ := bracedUri_iff.mp hu
  obtain ⟨n, rest, hn, h⟩ := bind_eq_ok.mp h
  obtain ⟨rfl, rfl⟩ := pure_eq_ok.mp h
  obtain ⟨t, last, hone, hpure⟩ := bind_eq_ok.mp hn
  obtain ⟨hname, rfl⟩ := one_eq_ok.mp hone
  obtain ⟨rfl, rfl⟩ := pure_eq_ok.mp hpure
  have hnear : A.Near ts (("\x7b" :: w ++ ["\x7d"]) ++ t :: last) :=
    ⟨"Q", hall _, by simpa using hrel⟩
  obtain ⟨vs, rfl, u, hu', hrel'⟩ := hnear.append_back fun t _ => hall t
  obtain ⟨mid, rfl, hmid⟩ := A.touch_back hrel' hu' (hall t)
  refine ⟨rfl, mid, ?_, rel_of_cons (Token.isSpace_of_startsName hname) hmid⟩
  have huri : bracedUri ("Q" :: ("\x7b" :: w ++ ["\x7d"] ++ t :: mid)) =
      .ok (String.join w, t :: mid) := bracedUri_iff.mpr ⟨w, by simp, hw, rfl⟩
  rw [uriQualifiedName, bind_of_ok huri, bind_of_ok (localPart_complete _ (n := ⟨t⟩) hname mid),
    pure_apply]

/-- A name in front of a parenthesis or a `#` in the second sequence is in the first one, too. -/
theorem eqName_back {ts us mid' : List Token} {name : EQName} {w : Token} (hrel : A.rel ts us)
    (h : eqName us = .ok (name, mid')) (hw : isNext w mid' = true) (hcolon : w ≠ ":")
    (hbrace : w ≠ "\x7b") : ∃ mid, eqName ts = .ok (name, mid) ∧ isNext w mid = true := by
  obtain ⟨t, more', hus, -⟩ := eqName_sound.takes (fun _ _ hn => (EQName.solid hn).starts) h
  obtain ⟨more, hts, -, hrel'⟩ := A.back hrel hus
  rw [eqName_apply, hus] at h
  rw [eqName_apply, hts]
  by_cases hs : startsBracedUri (t :: more') = true
  · rw [if_pos hs] at h
    obtain ⟨hs', mid, h', hmid⟩ := uriQualifiedName_back hrel' rfl hs h
    rw [if_pos hs']
    exact ⟨mid, h', isNext_of_back hmid hw⟩
  · rw [if_neg hs] at h
    obtain ⟨first, us', hf, h⟩ := bind_eq_ok.mp h
    rw [ncName_apply] at hf
    obtain ⟨n, _, hone, hpure⟩ := bind_eq_ok.mp hf
    obtain ⟨hn, hus'⟩ := one_eq_ok.mp hone
    obtain ⟨rfl, rfl⟩ := pure_eq_ok.mp hpure
    obtain ⟨ts', hts', hrel'', hnrel⟩ := A.back hrel' hus'
    have hfirst : ncName (t :: more) = .ok (⟨n⟩, ts') := by
      rw [ncName_apply, hts']
      exact bind_of_ok (one_eq_ok.mpr ⟨hn, rfl⟩) _
    -- No braced URI is in the first sequence, since no brace follows the name.
    have hplain (hhead : ts'.head? ≠ some "\x7b") : ¬ startsBracedUri (t :: more) = true := by
      intro hs'
      obtain ⟨vs, hvs⟩ := startsBracedUri_iff.mp hs'
      rw [hvs] at hts'
      obtain ⟨-, rfl⟩ := List.cons_eq_cons.mp (show "Q" :: "\x7b" :: vs = n :: ts' from hts')
      exact hhead rfl
    have hnext {ts : List Token} (hts : isNext w ts = true) {u : Token} (hu : u.isSpace = false)
        (hne : w ≠ u) : ts.head? ≠ some u := by
      intro hhead
      obtain ⟨vs, rfl⟩ := List.head?_eq_some_iff.mp hhead
      rw [isNext_iff, Token.skipSpace, hu] at hts
      exact hne (Option.some.inj hts).symm
    obtain ⟨name?, last, hc, hname⟩ := bind_eq_ok.mp h
    obtain ⟨rfl, rfl⟩ | ⟨p, rfl, rfl, hp⟩ := colonName?_eq_ok hc
    · obtain ⟨rfl, rfl⟩ := pure_eq_ok.mp hname
      have hw' := isNext_of_back hrel'' hw
      refine ⟨ts', ?_, hw'⟩
      rw [if_neg (hplain (hnext hw' rfl hbrace)), bind_of_ok hfirst]
      exact bind_of_ok (colonName?_of_head?_ne (hnext hw' rfl hcolon)) _
    · obtain ⟨rfl, rfl⟩ := pure_eq_ok.mp hname
      have hnear : A.Near ts' (":" :: p.text :: last) := ⟨n, touching_of_startsName hn, hnrel⟩
      obtain ⟨vs, rfl, u, hu, hcolons⟩ := hnear.cons_back (A.touching_of (by decide))
      obtain ⟨mid, rfl, hmid⟩ := A.touch_back hcolons hu (touching_of_startsName hp)
      refine ⟨mid, ?_, isNext_of_back (rel_of_cons (Token.isSpace_of_startsName hp) hmid) hw⟩
      rw [if_neg (hplain (by simp)), bind_of_ok hfirst]
      exact bind_of_ok (colonName?_cons hp mid) _

theorem couldBePrimary_back {t : Token} {more more' : List Token} (hmore : A.rel more more')
    (hrel : A.rel (t :: more) (t :: more')) (h : couldBePrimary (t :: more') = true) :
    couldBePrimary (t :: more) = true := by
  refine couldBePrimary_iff.mpr ?_
  obtain h | h | h | h | ⟨name, mid', hname, h⟩ := couldBePrimary_iff.mp h
  · exact .inl h
  · exact .inr (.inl h)
  · exact .inr (.inr (.inl ⟨h.1, isNext_of_back hmore h.2⟩))
  · exact .inr (.inr (.inr (.inl ⟨h.1, isNext_of_back hmore h.2⟩)))
  · refine .inr (.inr (.inr (.inr ?_)))
    obtain h | ⟨h, hreserved⟩ := h
    · obtain ⟨mid, hmid, hnext⟩ := eqName_back hrel hname h (by decide) (by decide)
      exact ⟨name, mid, hmid, .inl hnext⟩
    · obtain ⟨mid, hmid, hnext⟩ := eqName_back hrel hname h (by decide) (by decide)
      exact ⟨name, mid, hmid, .inr ⟨hnext, hreserved⟩⟩

section Primary

variable {levels : Nat} (hi : ∀ A : Alike, A.Transfers (exprSingle levels))
include hi

theorem transfers_expr : A.Transfers (expr (nested levels)) :=
  (transfers_commaList (hi A)).bind fun _ => transfers_pure _

theorem transfers_exprUntil (closing : Token) :
    A.inside.Transfers (exprUntil (nested levels) closing) :=
  transfers_byNext (fun ts us h => by rw [isNext, isNext, h]) fun ts =>
    .ite _ (transfers_pure _) ((transfers_expr hi).bind fun _ => transfers_pure _)

theorem transfers_parenthesizedExpr : A.Transfers (parenthesizedExpr (nested levels)) :=
  (transfers_group _ _ _ (transfers_exprUntil hi ")")).bind fun _ => transfers_pure _

theorem transfers_enclosedExpr : A.Transfers (enclosedExpr (nested levels)) :=
  transfers_group _ _ _ (transfers_exprUntil hi "\x7d")

theorem transfers_predicate : A.Transfers (predicate (nested levels)) :=
  transfers_group _ _ _ (transfers_expr hi)

/-- Inside of a bracket, what follows a `?` is the same in both sequences. -/
theorem transfers_argument : A.inside.Transfers (argument (nested levels)) := by
  have hexpr : A.inside.Transfers (exprSingle levels >>= fun n => pure (Argument.expr n)) :=
    (hi A.inside).bind fun _ => transfers_pure _
  refine ⟨(argument_consumes (nested_stops levels)).suffix, fun {ts us} hrel => ?_⟩
  by_cases hmark : ∃ vs, Token.skipSpace ts = "?" :: vs ∧ (isNext "," vs || isNext ")" vs) = true
  · obtain ⟨vs, hts, hvs⟩ := hmark
    rintro a rest h hkept
    rw [argument_apply, hts] at h
    obtain ⟨rfl, rfl⟩ : Argument.placeholder = a ∧ vs = rest := by
      simpa [hvs, bind_apply, advance, pure_apply] using h
    obtain ⟨vs', hus, hrel'⟩ := A.inside.next hrel hts hkept
    have hhead := head?_inside (A := A) hrel' hkept
    refine ⟨vs', ?_, hrel'⟩
    rw [isNext, isNext, ← hhead] at hvs
    rw [argument_apply, hus]
    simp [isNext, hvs, bind_apply, advance, pure_apply]
  · have hplain {ts : List Token} (h : ¬ ∃ vs, Token.skipSpace ts = "?" :: vs ∧
        (isNext "," vs || isNext ")" vs) = true) : argument (nested levels) ts =
          (exprSingle levels >>= fun n => pure (Argument.expr n)) (Token.skipSpace ts) := by
      rw [argument_apply]
      generalize Token.skipSpace ts = vs at h ⊢
      split
      next vs => exact congrFun (if_neg fun hvs => h ⟨vs, rfl, hvs⟩) _
      · rfl
    rw [hplain hmark, hplain]
    · exact (transfers_space.bind fun _ => hexpr).again hrel
    · rintro ⟨vs', hus, hvs'⟩
      obtain ⟨vs, hts, hrel', -⟩ := A.back hrel hus
      refine hmark ⟨vs, hts, ?_⟩
      simp only [Bool.or_eq_true] at hvs' ⊢
      exact hvs'.imp (isNext_of_back hrel') (isNext_of_back hrel')

theorem transfers_argumentList : A.Transfers (argumentList (nested levels)) :=
  transfers_group _ _ _ (transfers_separated ")" (transfers_argument hi))

theorem transfers_keySpecifier : A.Transfers (keySpecifier (nested levels)) := by
  have htakes : (keySpecifier (nested levels)).Takes :=
    (keySpecifier_sound (nested_sound levels)).takes fun key _ h =>
      (KeySpecifier.solid h.1 fun e he => ⟨(h.2 e he).1, e.solid (h.2 e he).2⟩).starts
  refine transfers_next htakes fun {t more more'} hmore hrel => ?_
  refine .ite (fun _ _ _ _ => id) id ((again_advance hmore).bind fun _ => transfers_pure _) ?_
  refine .ite (fun _ _ _ _ => id) id
    (((transfers_parenthesizedExpr hi).bind fun _ => transfers_pure _).again hrel) ?_
  refine .ite (fun _ _ _ _ => id) id ((again_advance hmore).bind fun _ =>
    (transfers_ofExcept _).bind fun _ => transfers_pure _) ?_
  exact (again_one hmore).bind fun _ => transfers_pure _

theorem transfersFrom_inlineFunction :
    TransfersFrom A "function" (inlineFunction (nested levels)) := by
  have hparams : A.inside.Transfers (paramList (nested levels)) :=
    transfers_separated ")" ((transfers_after "$" _ transfers_eqName).bind fun _ =>
      (transfers_declaredType? levels).bind fun _ => transfers_pure _)
  have hbody (params : List Param) : A.Transfers (declaredType? (nested levels) >>= fun result =>
      enclosedExpr (nested levels) >>= fun body =>
        pure (Node.of (.inlineFunction params result body))) :=
    (transfers_declaredType? levels).bind fun _ => (transfers_enclosedExpr hi).bind fun _ =>
      transfers_pure _
  exact transfersFrom_expect rfl ((transfers_bracketed _ _ _ hparams).bind hbody)
    ((takes_bracketed hparams.suffix).bind fun params => (hbody params).suffix)

theorem transfersFrom_mapConstructor : TransfersFrom A "map" (mapConstructor (nested levels)) := by
  have hentry : A.inside.Transfers (mapEntry (nested levels)) :=
    (hi A.inside).bind fun _ => (transfers_expect ":" _).bind fun _ =>
      (hi A.inside).bind fun _ => transfers_pure _
  have hentries := transfers_separated "\x7d" hentry
  exact transfersFrom_expect rfl
    ((transfers_bracketed _ _ _ hentries).bind fun _ => transfers_pure _)
    ((takes_bracketed hentries.suffix).bind fun _ => leavesSuffix_pure _)

theorem transfers_squareArray : A.Transfers (squareArray (nested levels)) :=
  (transfers_group _ _ _ (transfers_separated "]" (hi A.inside))).bind fun _ => transfers_pure _

theorem transfersFrom_curlyArray : TransfersFrom A "array" (curlyArray (nested levels)) := by
  have hbody := transfers_exprUntil (A := A) hi "\x7d"
  exact transfersFrom_expect rfl ((transfers_enclosedExpr hi).bind fun _ => transfers_pure _)
    ((takes_group hbody.suffix).bind fun _ => leavesSuffix_pure _)

theorem transfers_functionExpr : A.Transfers (functionExpr (nested levels)) := by
  refine transfers_eqName.bind fun name => transfers_byTaken (fun ts us h => by
    rw [isNext, isNext, isNext, isNext, h]) (fun ts => ?_) fun ts => ?_
  · exact .ite _ (transfers_namedFunctionRef name)
      (.ite _ ((transfers_argumentList hi).bind fun _ => transfers_pure _)
        (transfers_space.bind fun _ => transfers_fail _))
  · split
    · exact .inr (takes_namedFunctionRef name)
    split
    · exact .inr ((takes_argumentList levels).bind fun _ => leavesSuffix_pure _)
    · exact .inl rfl

theorem again_primaryFrom {t : Token} {more more' : List Token} (hmore : A.rel more more')
    (hrel : A.rel (t :: more) (t :: more')) :
    A.Again (primaryFrom (nested levels) t more (t :: more))
      (primaryFrom (nested levels) t more' (t :: more')) := by
  unfold primaryFrom
  refine .ite (fun _ _ _ _ => id) id ((transfers_parenthesizedExpr hi).again hrel) ?_
  by_cases hpoint : t = "."
  · rw [if_pos hpoint, if_pos hpoint]
    subst hpoint
    refine .ite (fun n rest h hkept _ => ?_) (fun hdigits => ?_)
      (transfers_numericLiteral.again hrel) ((again_advance hmore).bind fun _ => transfers_pure _)
    · obtain ⟨rest', h', -⟩ := transfers_numericLiteral.again hrel h hkept
      exact numericLiteral_point h'
    · cases more' with
      | nil => cases hdigits
      | cons f more' =>
        have hf : f.isDigits := by simpa using hdigits
        obtain ⟨vs, rfl, -⟩ :=
          A.touch_back hrel (A.touching_of (by decide)) (touching_of_isDigits hf)
        exact hdigits
  rw [if_neg hpoint, if_neg hpoint]
  refine .ite (fun _ _ _ _ => id) id
    (((transfers_after "$" _ transfers_eqName).bind fun _ => transfers_pure _).again hrel) ?_
  refine .ite (fun _ _ _ _ => id) id
    (((transfers_after "?" _ (transfers_keySpecifier hi)).bind fun _ => transfers_pure _).again
      hrel) ?_
  refine .ite (fun _ _ _ _ => id) id
    ((transfers_stringLiteral.bind fun _ => transfers_pure _).again hrel) ?_
  refine .ite (fun _ _ _ _ => id) id ((transfers_squareArray hi).again hrel) ?_
  refine (transfersFrom_inlineFunction hi).again_ite hmore hrel ?_
  refine (transfersFrom_mapConstructor hi).again_ite hmore hrel ?_
  refine (transfersFrom_curlyArray hi).again_ite hmore hrel ?_
  exact .ite (fun _ _ _ _ => id) id (transfers_numericLiteral.again hrel)
    ((transfers_functionExpr hi).again hrel)

/-- The look-ahead lets a primary expression be read only from tokens that it takes. -/
theorem again_primaryExpr {ts us : List Token} (hrel : A.rel ts us)
    (hts : couldBePrimary ts = true) :
    A.Again (primaryExpr (nested levels) ts) (primaryExpr (nested levels) us) := by
  intro n rest h hkept
  obtain ⟨hs, hn⟩ := primaryExpr_sound (nested_sound levels) hts h
  obtain ⟨t, more, hmore, hrest⟩ := hs.takes (n.solid hn.fits).starts
  have hkept' : A.kept more := A.kept_suffix hrest hkept
  obtain ⟨more', hus, hrel'⟩ := A.next hrel hmore hkept'
  have hskip := A.skip hrel (A.kept_suffix (hmore ▸ List.suffix_cons t more) hkept')
  rw [hmore, hus] at hskip
  rw [primaryExpr_cons hmore] at h
  rw [primaryExpr_cons hus]
  exact again_primaryFrom hi hrel' hskip h hkept

/-! ## Paths -/

theorem transfers_suffix? : A.Transfers (suffix? (nested levels)) := by
  have hpredicate : A.Transfers (space >>= fun _ => predicate (nested levels) >>= fun n =>
      pure (some (Suffix.predicate n))) :=
    transfers_space.bind fun _ => (transfers_predicate hi).bind fun _ => transfers_pure _
  refine transfers_byTaken (fun ts us h => by rw [h]) (fun ts => ?_) fun ts => ?_
  · generalize (Token.skipSpace ts).head? = t?
    split
    · exact hpredicate
    · exact transfers_space.bind fun _ => (transfers_argumentList hi).bind fun _ => transfers_pure _
    · exact transfers_space.bind fun _ =>
        (transfers_after "?" _ (transfers_keySpecifier hi)).bind fun _ => transfers_pure _
    · exact transfers_pure _
  · generalize (Token.skipSpace ts).head? = t?
    split
    · exact .inr (Takes.space ((takes_group (transfers_expr (A := A) hi).suffix).bind fun _ =>
        leavesSuffix_pure _))
    · exact .inr (Takes.space ((takes_argumentList levels).bind fun _ => leavesSuffix_pure _))
    · exact .inr (Takes.space (((takes_expect "?" _).bind fun _ =>
        (transfers_keySpecifier (A := A) hi).suffix).bind fun _ => leavesSuffix_pure _))
    · exact .inl rfl

theorem transfers_suffixes (primary : Node) :
    A.Transfers (many (suffix? (nested levels)) >>= fun suffixes => match suffixes with
      | [] => pure primary
      | suffixes => pure (Node.of (.suffixed primary suffixes))) := by
  refine (transfers_many (suffix?_advances (nested_sound levels)) (transfers_suffix? hi)).bind
    fun suffixes => ?_
  cases suffixes <;> exact transfers_pure _

theorem again_suffixedExpr {ts us : List Token} (hrel : A.rel ts us)
    (hts : couldBePrimary ts = true) :
    A.Again (suffixedExpr (nested levels) ts) (suffixedExpr (nested levels) us) :=
  (again_primaryExpr hi hrel hts).bind (transfers_suffixes hi)

/-- Where a primary expression is read from the first sequence, the second one shows it, too. -/
theorem couldBePrimary_of_again {t : Token} {more more' : List Token} (hmore : A.rel more more')
    (hrel : A.rel (t :: more) (t :: more')) (hlook : couldBePrimary (t :: more) = true)
    {n : Node} {rest : List Token} (h : suffixedExpr (nested levels) (t :: more) = .ok (n, rest))
    (hkept : A.kept rest) : couldBePrimary (t :: more') = true := by
  obtain ⟨primary, end', h, hsuffixes⟩ := bind_eq_ok.mp h
  replace hkept : A.kept end' :=
    A.kept_suffix ((transfers_suffixes (A := A) hi primary).suffix hsuffixes) hkept
  have hkeyword {w u : Token} {r : Rule Node} (hr : TransfersFrom A w r) (hw : w.isSpace = false)
      (hfirst : primaryFrom (nested levels) w more = r) (ht : t = w) (hu : isNext u more = true) :
      isNext u more' = true := by
    subst ht
    have hskip : Token.skipSpace (t :: more) = t :: more := by simp [Token.skipSpace, hw]
    rw [primaryExpr_cons hskip, hfirst] at h
    obtain ⟨v, mid, hmid, hrest⟩ := hr.goesOn h
    obtain ⟨mid', hmid'⟩ := isNext_iff_cons.mp hu
    obtain ⟨rfl, rfl⟩ := List.cons_eq_cons.mp (hmid.symm.trans hmid')
    exact isNext_of_kept hmore hmid (A.kept_suffix hrest hkept)
  refine couldBePrimary_iff.mpr ?_
  obtain hlook | hlook | ⟨rfl, hparen⟩ | ⟨rfl | rfl, hbrace⟩ | ⟨name, mid, hname, hmid⟩ :=
    couldBePrimary_iff.mp hlook
  · exact .inl hlook
  · exact .inr (.inl hlook)
  · have hfirst : primaryFrom (nested levels) "function" more = inlineFunction (nested levels) := by
      simp [primaryFrom, Token.isQuote, hparen]
    exact .inr (.inr (.inl ⟨rfl, hkeyword (transfersFrom_inlineFunction hi) rfl hfirst rfl hparen⟩))
  · have hfirst : primaryFrom (nested levels) "map" more = mapConstructor (nested levels) := by
      simp [primaryFrom, Token.isQuote, hbrace]
    exact .inr (.inr (.inr (.inl ⟨.inl rfl,
      hkeyword (transfersFrom_mapConstructor hi) rfl hfirst rfl hbrace⟩)))
  · have hfirst : primaryFrom (nested levels) "array" more = curlyArray (nested levels) := by
      simp [primaryFrom, Token.isQuote, hbrace]
    exact .inr (.inr (.inr (.inl ⟨.inr rfl,
      hkeyword (transfersFrom_curlyArray hi) rfl hfirst rfl hbrace⟩)))
  · refine .inr (.inr (.inr (.inr ?_)))
    have hname' := eqName_skipSpace hname (hmid.imp id And.left)
    obtain ⟨u, vs, hts, -⟩ := eqName_sound.takes (fun _ _ hn => (EQName.solid hn).starts) hname
    rw [hts] at hname'
    rw [primaryExpr_cons hts, primaryFrom_of_eqName hname' hmid] at h
    obtain ⟨v, last, hlast, hrest⟩ := functionExpr_goesOn hname' h
    have hkept' : A.kept last := A.kept_suffix hrest hkept
    have hmid' : A.kept mid :=
      A.kept_suffix ((List.suffix_cons v last).trans (hlast ▸ Token.skipSpace_suffix mid)) hkept'
    obtain ⟨mid', hagain, hrel'⟩ := transfers_eqName.again hrel hname hmid'
    have hnext {w : Token} (hw : isNext w mid = true) : isNext w mid' = true := by
      obtain ⟨last', hlast'⟩ := isNext_iff_cons.mp hw
      obtain ⟨rfl, rfl⟩ := List.cons_eq_cons.mp (hlast.symm.trans hlast')
      exact isNext_of_kept hrel' hlast hkept'
    exact ⟨name, mid', hagain, hmid.imp hnext fun h => ⟨hnext h.1, h.2⟩⟩

theorem transfers_predicate? : A.Transfers (predicate? (nested levels)) := by
  refine transfers_byTaken (fun ts us h => by rw [isNext, isNext, h]) (fun ts => ?_) fun ts => ?_
  · exact .ite _ ((transfers_predicate hi).bind fun _ => transfers_pure _) (transfers_pure _)
  · split
    · exact .inr ((takes_group (transfers_expr (A := A) hi).suffix).bind fun _ =>
        leavesSuffix_pure _)
    · exact .inl rfl

end Primary

end XPath.Grammar
