import XPath.Proofs.Alike.Rule
import XPath.Proofs.Parse
import XPath.Proofs.Stops.Name

/-!
# Names and literals in sequences that read alike

The parts of a name or a number stand side by side. No punctuation is among them, so that behind
each part the next one is found in both sequences or in none (`Alike.Near`). A string literal or a
braced URI takes any tokens, but then all tokens are touching.
-/

namespace XPath

open Rule Grammar

variable {α : Type} {A : Alike} {ts us : List Token}

/-! ## Rules that take a token -/

theorem Spells.takes {ps : List Piece} {rest : List Token} (h : Spells ts ps rest)
    (hs : Starts ps) :
    ∃ t more, Token.skipSpace ts = t :: more ∧ rest <:+ more := by
  have hword {t : Token} {ts rest : List Token} (ht : t.isSpace = false) (h : rest <:+ ts) :
      ∃ u more, Token.skipSpace (t :: ts) = u :: more ∧ rest <:+ more :=
    ⟨t, ts, by simp [Token.skipSpace, ht], h⟩
  induction h with
  | nil => cases hs
  | gap => cases hs
  | space _ ih =>
    obtain ⟨t, more, hts, hrest⟩ := ih hs
    obtain ⟨u, more', hcons, hmore⟩ := exists_next_of_suffix (List.suffix_cons _ _) hts
    exact ⟨u, more', hcons, hrest.trans hmore⟩
  | text ht h _ => exact hword (Token.isSpace_eq_false ht) h.suffix
  | digits ht h _ => exact hword (Token.isSpace_of_isDigits ht) h.suffix
  | @fraction a b w _ _ _ _ _ hw _ h _ =>
    exact hword (Token.isSpace_eq_false (hw a (by simp)))
      (h.suffix.trans (List.suffix_append (b :: w) _))
  | @string q s _ _ _ hq h _ =>
    exact hword (Token.isSpace_of_isQuote hq) (h.suffix.trans (List.suffix_append [s, q] _))
  | @bracedUri w _ _ _ _ h _ =>
    refine hword rfl (h.suffix.trans ?_)
    simpa using List.suffix_append ("\x7b" :: w ++ ["\x7d"]) _

theorem Rule.Sound.takes {r : Rule α} {pieces : α → List Piece} {P : α → List Token → Prop}
    (hr : r.Sound pieces P) (hs : ∀ a rest, P a rest → Starts (pieces a)) : r.Takes := by
  intro ts a rest h
  obtain ⟨hspells, hp⟩ := hr h
  exact hspells.takes (hs a rest hp)

/-! ## Side by side -/

namespace Alike

variable (A) in
/-- The sequences go on after the same token, which is touching. -/
def Near (ts us : List Token) : Prop := ∃ t, A.touching t ∧ A.rel (t :: ts) (t :: us)

/-- A token of a kind that no space or punctuation is of. -/
theorem touching_of_kind {p : Token → Bool} {t : Token} (ht : p t)
    (h : ∀ u ∈ Token.space :: Token.punctuation, p u = false) : A.touching t :=
  A.touching_of fun hmem => Bool.false_ne_true ((h t hmem).symm.trans ht)

theorem touching_of_startsName {t : Token} (h : Text.startsName t) : A.touching t :=
  touching_of_kind h (by decide)

theorem touching_of_isDigits {t : Token} (h : t.isDigits) : A.touching t :=
  touching_of_kind h (by decide)

theorem Near.cons {t : Token} {more : List Token} (h : A.Near (t :: more) us) (ht : A.touching t)
    (hmore : A.kept more) : ∃ more', us = t :: more' ∧ A.Near more more' := by
  obtain ⟨u, hu, hrel⟩ := h
  obtain ⟨more', hus, hrel'⟩ := A.touch hrel hu ht hmore
  exact ⟨more', hus, t, ht, hrel'⟩

theorem Near.cons_back {t : Token} {more' : List Token} (h : A.Near ts (t :: more'))
    (ht : A.touching t) : ∃ more, ts = t :: more ∧ A.Near more more' := by
  obtain ⟨u, hu, hrel⟩ := h
  obtain ⟨more, hts, hrel'⟩ := A.touch_back hrel hu ht
  exact ⟨more, hts, t, ht, hrel'⟩

theorem Near.append {w more : List Token} (h : A.Near (w ++ more) us) (hw : ∀ t ∈ w, A.touching t)
    (hmore : A.kept more) : ∃ more', us = w ++ more' ∧ A.Near more more' := by
  induction w generalizing us with
  | nil => exact ⟨us, rfl, h⟩
  | cons t w ih =>
    obtain ⟨us', rfl, h'⟩ := h.cons (hw t (by simp))
      (A.kept_suffix (List.suffix_append w more) hmore)
    obtain ⟨more', rfl, hnear⟩ := ih h' fun u hu => hw u (by simp [hu])
    exact ⟨more', rfl, hnear⟩

theorem Near.append_back {w more' : List Token} (h : A.Near ts (w ++ more'))
    (hw : ∀ t ∈ w, A.touching t) : ∃ more, ts = w ++ more ∧ A.Near more more' := by
  induction w generalizing ts with
  | nil => exact ⟨ts, rfl, h⟩
  | cons t w ih =>
    obtain ⟨ts', rfl, h'⟩ := h.cons_back (hw t (by simp))
    obtain ⟨more, rfl, hnear⟩ := ih h' fun u hu => hw u (by simp [hu])
    exact ⟨more, rfl, hnear⟩

theorem Near.rel (h : A.Near ts us) (hts : A.kept ts) : A.rel ts us := by
  obtain ⟨t, -, hrel⟩ := h
  cases hs : t.isSpace with
  | true =>
    have hskip (more : List Token) : Token.skipSpace (t :: more) = more := by
      simp [Token.skipSpace, hs]
    have := A.skip hrel ((hskip ts).symm ▸ hts)
    rwa [hskip, hskip] at this
  | false =>
    have hskip (more : List Token) : Token.skipSpace (t :: more) = t :: more := by
      simp [Token.skipSpace, hs]
    obtain ⟨more', hus, hrel'⟩ := A.next hrel (hskip ts) hts
    rw [hskip, List.cons.injEq] at hus
    exact hus.2 ▸ hrel'

/-- The sequences after their next token, if it is touching. -/
theorem near_next (hrel : A.rel ts us) {t : Token} {more : List Token}
    (hts : Token.skipSpace ts = t :: more) (ht : A.touching t) (hmore : A.kept more) :
    ∃ more', Token.skipSpace us = t :: more' ∧ A.Near more more' := by
  obtain ⟨more', hus, -⟩ := A.next hrel hts hmore
  have := A.skip hrel (A.kept_suffix (hts ▸ List.suffix_cons t more) hmore)
  rw [hts, hus] at this
  exact ⟨more', hus, t, ht, this⟩

/-! ## Names -/

theorem again_localPart (owner : String) (h : A.Near ts us) :
    A.Again (localPart owner ts) (localPart owner us) := by
  intro n rest hn hkept
  obtain ⟨t, mid, ht, hpure⟩ := bind_eq_ok.mp hn
  obtain ⟨hname, rfl⟩ := one_eq_ok.mp ht
  obtain ⟨rfl, rfl⟩ := pure_eq_ok.mp hpure
  obtain ⟨rest', rfl, hnear⟩ := h.cons (touching_of_startsName hname) hkept
  exact ⟨rest', localPart_complete owner (n := ⟨t⟩) hname rest', hnear.rel hkept⟩

theorem again_colonName? (h : A.Near ts us) : A.Again (colonName? ts) (colonName? us) := by
  have hcolon : A.touching ":" := A.touching_of (by decide)
  intro n? rest hn hkept
  obtain ⟨rfl, rfl⟩ | ⟨n, rfl, rfl, hname⟩ := colonName?_eq_ok hn
  · refine ⟨us, ?_, h.rel hkept⟩
    obtain hus | ⟨n, rest, hname, rfl, -⟩ := colonName?_cases us
    · exact hus
    · obtain ⟨more, rfl, h'⟩ := h.cons_back hcolon
      obtain ⟨more', rfl, -⟩ := h'.cons_back (touching_of_startsName hname)
      rw [colonName?_cons hname] at hn
      cases hn
  · obtain ⟨us', rfl, h'⟩ := h.cons hcolon (A.kept_suffix (List.suffix_cons _ rest) hkept)
    obtain ⟨rest', rfl, hnear⟩ := h'.cons (touching_of_startsName hname) hkept
    exact ⟨rest', colonName?_cons hname rest', hnear.rel hkept⟩

theorem ncName_near (hrel : A.rel ts us) {n : NCName} {mid : List Token}
    (h : ncName ts = .ok (n, mid)) (hkept : A.kept mid) :
    ∃ mid', ncName us = .ok (n, mid') ∧ A.Near mid mid' := by
  rw [ncName_apply] at h
  obtain ⟨t, _, ht, hpure⟩ := bind_eq_ok.mp h
  obtain ⟨hname, hts⟩ := one_eq_ok.mp ht
  obtain ⟨rfl, rfl⟩ := pure_eq_ok.mp hpure
  obtain ⟨mid', hus, hnear⟩ := near_next hrel hts (touching_of_startsName hname) hkept
  exact ⟨mid', by rw [ncName_apply, hus]; exact bind_of_ok (one_eq_ok.mpr ⟨hname, rfl⟩) _, hnear⟩

theorem transfers_ncName : A.Transfers ncName where
  suffix := Stops.suffix (n := 0) ncName_consumes
  again hrel := by
    intro n rest h hkept
    obtain ⟨rest', h', hnear⟩ := ncName_near hrel h hkept
    exact ⟨rest', h', hnear.rel hkept⟩

/-! ## Braced URIs -/

/-- Wherever a braced URI begins, all tokens are touching. -/
theorem touching_of_startsBracedUri (hrel : A.rel ts us)
    (h : startsBracedUri ts = true ∨ startsBracedUri us = true) (t : Token) : A.touching t := by
  obtain hall | hnone := A.literal
  · exact hall t
  · have hskip {vs : List Token} (hvs : startsBracedUri vs = true) : Token.skipSpace vs = vs := by
      obtain ⟨more, rfl⟩ := startsBracedUri_iff.mp hvs
      rfl
    obtain ⟨⟨hts, -⟩, hus, -⟩ := hnone hrel
    rcases h with h | h
    · rw [hskip h, h] at hts
      cases hts
    · rw [hskip h, h] at hus
      cases hus

theorem startsBracedUri_back {t : Token} {more more' : List Token}
    (hrel : A.rel (t :: more) (t :: more')) (h : startsBracedUri (t :: more') = true) :
    startsBracedUri (t :: more) = true := by
  have hall := touching_of_startsBracedUri hrel (.inr h)
  obtain ⟨us, hus⟩ := startsBracedUri_iff.mp h
  obtain ⟨rfl, rfl⟩ := List.cons_eq_cons.mp hus
  obtain ⟨vs, rfl, -⟩ := A.touch_back hrel (hall _) (hall _)
  rfl

theorem bracedUri_near (hrel : A.rel ts us) (hs : startsBracedUri ts = true) {uri : String}
    {mid : List Token} (h : bracedUri ts = .ok (uri, mid)) (hkept : A.kept mid)
    (hhead : us.head? = ts.head?) :
    startsBracedUri us = true ∧ ∃ mid', bracedUri us = .ok (uri, mid') ∧ A.Near mid mid' := by
  have hall := touching_of_startsBracedUri hrel (.inl hs)
  obtain ⟨more, rfl⟩ := startsBracedUri_iff.mp hs
  obtain ⟨us', rfl⟩ := List.head?_eq_some_iff.mp hhead
  obtain ⟨w, rfl, hw, rfl⟩ := bracedUri_iff.mp h
  have hnear : A.Near ("\x7b" :: (w ++ ["\x7d"]) ++ mid) us' := ⟨"Q", hall _, by simpa using hrel⟩
  obtain ⟨mid', rfl, hmid⟩ := hnear.append (fun t _ => hall t) hkept
  refine ⟨rfl, mid', ?_, hmid⟩
  exact bracedUri_iff.mpr ⟨w, by simp, hw, rfl⟩

/-! ## Qualified names and name tests -/

theorem transfers_qName : A.Transfers qName := by
  refine ⟨Stops.suffix (n := 0) qName_consumes, fun {ts us} hrel n rest h hkept => ?_⟩
  obtain ⟨first, mid, hf, h⟩ := bind_eq_ok.mp h
  have hsuffix : rest <:+ mid := by
    obtain ⟨name?, mid', hc, h⟩ := bind_eq_ok.mp h
    have hrest : rest <:+ mid' :=
      Transfers.suffix (A := A) (by cases name? <;> exact transfers_pure _) h
    exact hrest.trans (Stops.suffix (n := 0) colonName?_mayConsume hc)
  obtain ⟨mid', hf', hnear⟩ := ncName_near hrel hf (A.kept_suffix hsuffix hkept)
  obtain ⟨rest', h', hrest⟩ := (again_colonName? hnear).bind
    (fun name? => by cases name? <;> exact transfers_pure _) h hkept
  exact ⟨rest', (bind_of_ok hf' _).trans h', hrest⟩

theorem transfers_eqName : A.Transfers eqName := by
  refine transfers_next (eqName_sound.takes fun _ _ hn => (EQName.solid hn).starts)
    fun {t more more'} _ hrel => ?_
  change A.Again ((if startsBracedUri (t :: more) then uriQualifiedName else qName) (t :: more))
    ((if startsBracedUri (t :: more') then uriQualifiedName else qName) (t :: more'))
  by_cases hs : startsBracedUri (t :: more) = true
  · intro n rest h hkept
    rw [if_pos hs] at h
    obtain ⟨uri, mid, hu, h⟩ := bind_eq_ok.mp h
    obtain ⟨hs', mid', hu', hnear⟩ := bracedUri_near hrel hs hu
      (A.kept_suffix (Stops.suffix (n := 0) ((localPart_consumes _).bind fun _ =>
        mayConsume_pure _) h) hkept) rfl
    obtain ⟨rest', h', hrest⟩ := (again_localPart _ hnear).bind (fun _ => transfers_pure _) h hkept
    exact ⟨rest', by rw [if_pos hs']; exact (bind_of_ok hu' _).trans h', hrest⟩
  · rw [if_neg hs, if_neg (mt (startsBracedUri_back hrel) hs)]
    exact transfers_qName.again hrel

theorem again_nameTestIn (uri : String) (h : A.Near ts us) :
    A.Again (nameTestIn uri ts) (nameTestIn uri us) := by
  have hstar : A.touching "*" := A.touching_of (by decide)
  intro test rest ht hkept
  obtain ⟨star, mid, htake, ht⟩ := bind_eq_ok.mp ht
  obtain ⟨rfl, rfl⟩ | ⟨rfl, rfl, hne⟩ := take?_eq_ok.mp htake
  · obtain ⟨rfl, rfl⟩ := pure_eq_ok.mp ht
    obtain ⟨rest', rfl, hnear⟩ := h.cons hstar hkept
    exact ⟨rest', bind_of_ok (take?_cons_self "*" rest') _, hnear.rel hkept⟩
  · have hne' : us.head? ≠ some "*" := by
      intro hus
      obtain ⟨more', rfl⟩ := List.head?_eq_some_iff.mp hus
      obtain ⟨more, rfl, -⟩ := h.cons_back hstar
      exact hne rfl
    obtain ⟨rest', ht', hrest⟩ := (again_localPart _ h).bind (fun _ => transfers_pure _) ht hkept
    exact ⟨rest', (bind_of_ok (take?_of_ne hne') _).trans ht', hrest⟩

theorem again_plainNameTest {t : Token} {more more' : List Token}
    (hrel : A.rel (t :: more) (t :: more')) :
    A.Again (plainNameTest (t :: more)) (plainNameTest (t :: more')) := by
  have hstar : A.touching "*" := A.touching_of (by decide)
  have hcolon : A.touching ":" := A.touching_of (by decide)
  by_cases ht : t = "*"
  · subst ht
    rw [plainNameTest, bind_of_ok (take?_cons_self "*" more),
      bind_of_ok (take?_cons_self "*" more')]
    refine (again_colonName? ⟨"*", hstar, hrel⟩).bind fun name? => ?_
    cases name? <;> exact transfers_pure _
  · have hne (ts : List Token) : (t :: ts).head? ≠ some "*" := by simpa using ht
    rw [plainNameTest, bind_of_ok (take?_of_ne (hne more)), bind_of_ok (take?_of_ne (hne more'))]
    intro test rest h hkept
    obtain ⟨name?, mid, hw, h⟩ := bind_eq_ok.mp h
    obtain ⟨rfl, rfl⟩ | ⟨p, rfl, hts, hp⟩ := prefixWildcard?_eq_ok hw
    · -- The second sequence begins with a wildcard only if the first one does.
      have hus : prefixWildcard? (t :: more') = .ok (none, t :: more') := by
        obtain hus | ⟨p, us, hp, hus, -⟩ := prefixWildcard?_cases (t :: more')
        · exact hus
        · obtain ⟨rfl, rfl⟩ := List.cons_eq_cons.mp hus
          have hnear : A.Near more (":" :: "*" :: us) := ⟨p.text, touching_of_startsName hp, hrel⟩
          obtain ⟨vs, rfl, hnear'⟩ := hnear.cons_back hcolon
          obtain ⟨ws, rfl, -⟩ := hnear'.cons_back hstar
          rw [prefixWildcard?, if_pos ⟨hp, rfl, rfl⟩] at hw
          cases hw
      obtain ⟨rest', h', hrest⟩ :=
        (transfers_eqName.bind fun n => transfers_pure (NameTest.name n)).again hrel h hkept
      exact ⟨rest', (bind_of_ok hus _).trans h', hrest⟩
    · obtain ⟨rfl, rfl⟩ := pure_eq_ok.mp h
      obtain ⟨rfl, rfl⟩ := List.cons_eq_cons.mp hts
      have hnear : A.Near (":" :: "*" :: mid) more' := ⟨p.text, touching_of_startsName hp, hrel⟩
      obtain ⟨us, rfl, hnear'⟩ := hnear.cons hcolon (A.kept_suffix (List.suffix_cons _ _) hkept)
      obtain ⟨rest', rfl, hrest⟩ := hnear'.cons hstar hkept
      have hus : prefixWildcard? (p.text :: ":" :: "*" :: rest') = .ok (some p, rest') := by
        rw [prefixWildcard?, if_pos ⟨hp, rfl, rfl⟩]
      exact ⟨rest', bind_of_ok hus _, hrest.rel hkept⟩

theorem transfers_nameTest : A.Transfers nameTest := by
  refine transfers_next (nameTest_sound.takes fun _ _ ht => (NameTest.solid ht).starts)
    fun {t more more'} _ hrel => ?_
  change A.Again
    ((if startsBracedUri (t :: more) then bracedUri >>= nameTestIn else plainNameTest) (t :: more))
    ((if startsBracedUri (t :: more') then bracedUri >>= nameTestIn else plainNameTest)
      (t :: more'))
  by_cases hs : startsBracedUri (t :: more) = true
  · intro test rest h hkept
    rw [if_pos hs] at h
    obtain ⟨uri, mid, hu, h⟩ := bind_eq_ok.mp h
    obtain ⟨hs', mid', hu', hnear⟩ := bracedUri_near hrel hs hu
      (A.kept_suffix (Stops.suffix (n := 0) (nameTestIn_consumes uri) h) hkept) rfl
    obtain ⟨rest', h', hrest⟩ := again_nameTestIn uri hnear h hkept
    exact ⟨rest', by rw [if_pos hs', bind_of_ok hu', h'], hrest⟩
  · rw [if_neg hs, if_neg (mt (startsBracedUri_back hrel) hs)]
    exact again_plainNameTest hrel

/-! ## Literals -/

theorem stringLiteral_eq_ok {s : String} {rest : List Token} : stringLiteral ts = .ok (s, rest) ↔
    ∃ q : Token, q.isQuote ∧ Token.skipSpace ts = q :: s :: q :: rest := by
  rw [stringLiteral_apply, bind_eq_ok]
  simp only [one_eq_ok, enclosed_eq_ok, stringBody_eq_ok]
  constructor
  · rintro ⟨q, mid, ⟨hq, hts⟩, rfl⟩
    exact ⟨q, hq, hts⟩
  · rintro ⟨q, hq, hts⟩
    exact ⟨q, _, ⟨hq, hts⟩, rfl⟩

theorem transfers_stringLiteral : A.Transfers stringLiteral where
  suffix := Stops.suffix (n := 0) stringLiteral_consumes
  again {ts us} hrel := by
    intro s rest h hkept
    obtain ⟨q, hq, hts⟩ := stringLiteral_eq_ok.mp h
    have hall : ∀ t, A.touching t := by
      refine A.literal.resolve_right fun hnone => ?_
      have := (hnone hrel).1.2 q (by rw [hts]; rfl)
      rw [hq] at this
      cases this
    have hmore : A.kept (s :: q :: rest) := A.kept_suffix (List.suffix_append [s, q] rest) hkept
    obtain ⟨more', hus, hnear⟩ := near_next hrel hts (hall q) hmore
    obtain ⟨rest', rfl, hrest⟩ := Near.append (w := [s, q]) hnear (fun t _ => hall t) hkept
    exact ⟨rest', stringLiteral_eq_ok.mpr ⟨q, hq, hus⟩, hrest.rel hkept⟩

theorem mantissa_near {t : Token} {more more' : List Token} (hrel : A.rel (t :: more) (t :: more'))
    {m : Mantissa} {mid : List Token} (h : mantissa (t :: more) = .ok (m, mid))
    (hkept : A.kept mid) : ∃ mid', mantissa (t :: more') = .ok (m, mid') ∧ A.Near mid mid' := by
  have hpoint : A.touching "." := A.touching_of (by decide)
  have hnear (ht : A.touching t) : A.Near more more' := ⟨t, ht, hrel⟩
  cases mantissa_tokens h with
  | @fraction _ f _ ht hf =>
    obtain ⟨us, rfl, hus⟩ := (hnear (touching_of_isDigits ht)).cons hpoint
      (A.kept_suffix (List.suffix_cons f mid) hkept)
    obtain ⟨mid', rfl, hmid'⟩ := hus.cons (touching_of_isDigits hf) hkept
    exact ⟨mid', mantissa_fraction ht hf mid', hmid'⟩
  | wholePoint ht hmid =>
    obtain ⟨mid', rfl, hmid'⟩ := (hnear (touching_of_isDigits ht)).cons hpoint hkept
    refine ⟨mid', mantissa_whole_point ht fun f hhead => Bool.eq_false_iff.mpr fun hf => ?_, hmid'⟩
    obtain ⟨us, rfl⟩ := List.head?_eq_some_iff.mp hhead
    obtain ⟨vs, rfl, -⟩ := hmid'.cons_back (touching_of_isDigits hf)
    exact Bool.false_ne_true ((hmid f rfl).symm.trans hf)
  | whole ht hmid =>
    refine ⟨more', mantissa_whole ht fun hhead => hmid ?_, hnear (touching_of_isDigits ht)⟩
    obtain ⟨us, rfl⟩ := List.head?_eq_some_iff.mp hhead
    obtain ⟨vs, rfl, -⟩ := (hnear (touching_of_isDigits ht)).cons_back hpoint
    rfl
  | point hf =>
    obtain ⟨mid', rfl, hmid'⟩ := (hnear hpoint).cons (touching_of_isDigits hf) hkept
    exact ⟨mid', mantissa_point hf mid', hmid'⟩

/-- The tokens of an exponent are touching. -/
theorem touching_of_exponentTokens {w : List Token} {e : String} (h : ExponentTokens w e) :
    ∀ t ∈ w, A.touching t :=
  h.forall_mem
    (fun _ ht => touching_of_kind (p := fun t => (wholeExponent? t).isSome) ht (by decide))
    (fun _ => touching_of_isDigits)
    fun t ht => A.touching_of (by revert t; decide)

theorem again_exponent? (h : A.Near ts us) : A.Again (exponent? ts) (exponent? us) := by
  intro e? rest he hkept
  obtain hts | ⟨w, e, mid, hw, rfl, hts⟩ := exponent?_cases ts
  · obtain ⟨rfl, rfl⟩ : none = e? ∧ ts = rest := by simpa [hts] using he
    refine ⟨us, ?_, h.rel hkept⟩
    obtain hus | ⟨w, e, mid, hw, rfl, -⟩ := exponent?_cases us
    · exact hus
    · obtain ⟨more, rfl, -⟩ := h.append_back (touching_of_exponentTokens hw)
      rw [hw.read] at hts
      cases hts
  · obtain ⟨rfl, rfl⟩ : some e = e? ∧ mid = rest := by simpa [hts] using he
    obtain ⟨rest', rfl, hrest⟩ := h.append (touching_of_exponentTokens hw) hkept
    exact ⟨rest', hw.read rest', hrest.rel hkept⟩

/-- What is read behind a mantissa and an exponent. -/
theorem again_mantissa {k : Mantissa → Option String → Rule α} (hk : ∀ m e?, A.Transfers (k m e?))
    {t : Token} {more more' : List Token} (hrel : A.rel (t :: more) (t :: more')) :
    A.Again ((mantissa >>= fun m => exponent? >>= k m) (t :: more))
      ((mantissa >>= fun m => exponent? >>= k m) (t :: more')) := by
  intro n rest h hkept
  obtain ⟨m, mid, hm, h⟩ := bind_eq_ok.mp h
  have hsuffix : rest <:+ mid := by
    obtain ⟨e?, mid', he, h⟩ := bind_eq_ok.mp h
    exact ((hk m e?).suffix h).trans (Stops.suffix (n := 0) exponent?_mayConsume he)
  obtain ⟨mid', hm', hnear⟩ := mantissa_near hrel hm (A.kept_suffix hsuffix hkept)
  obtain ⟨rest', h', hrest⟩ := (again_exponent? hnear).bind (hk m) h hkept
  exact ⟨rest', (bind_of_ok hm' _).trans h', hrest⟩

theorem transfers_numericLiteral : A.Transfers numericLiteral := by
  refine transfers_next ((numericLiteral_sound 0).takes fun n _ h => (n.solid h.fits).starts)
    fun {t more more'} _ hrel => again_mantissa (fun m e? => ?_) hrel
  obtain ⟨whole, fraction⟩ := m
  cases e? with
  | some e => exact (transfers_ofExcept _).bind fun _ => transfers_pure _
  | none => cases fraction <;> exact (transfers_ofExcept _).bind fun _ => transfers_pure _

end Alike

end XPath
