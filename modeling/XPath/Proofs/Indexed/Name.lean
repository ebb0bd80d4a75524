import XPath.Indexed.Name
import XPath.Proofs.Indexed.Rule

/-!
# Names and literals at an index

The tokens that a name or a number is made of stand right after one another. What a rule finds in
the first of the tokens it is given, its counterpart finds at the indices that come next.
-/

namespace XPath

theorem Input.uriText_of_get_none {input : Input} {i : Nat} (h : input.get i = none)
    (uri : String) :
    input.uriText uri i = .error (input.unexpected i "'\x7d' of BracedURILiteral") := by
  rw [uriText.eq_def]
  split
  · rfl
  next t ht => cases h.symm.trans ht

theorem Input.uriText_of_get {input : Input} {i : Nat} {t : Token} (h : input.get i = some t)
    (uri : String) : input.uriText uri i =
      if t = "\x7d" then .ok (uri, i + 1)
      else if t = "\x7b" then .error (.value (.bracesInUri (uri ++ "\x7b")))
      else input.uriText (uri ++ t) (i + 1) := by
  rw [uriText.eq_def]
  split
  next ht => cases h.symm.trans ht
  next u hu =>
    obtain rfl : t = u := Option.some.inj (h.symm.trans hu)
    rfl

namespace Grammar

open Rule

variable {input : Input} {first second i : Nat}

/-! ## Names -/

theorem matches_ncName : Matches input first second ncName input.ncName :=
  fun _ hi => agreeAt_space <|
    agreeAt_map (Input.skipSpace_le hi) (matches_one _ _) fun _ => by simp

theorem matches_localPart (owner : String) :
    Matches input first second (localPart owner) (input.localPart owner) :=
  (matches_one _ _).map fun _ => Iff.rfl

theorem startsBracedUri_drop (input : Input) (i : Nat) :
    startsBracedUri (input.drop i) = input.startsBracedUri i := by
  rw [Input.startsBracedUri]
  cases h : input.get i with
  | none =>
    rw [Input.drop_of_get_none h]
    rfl
  | some q =>
    rw [Input.drop_of_get h]
    cases h' : input.get (i + 1) with
    | none => simp [Input.drop_of_get_none h', startsBracedUri]
    | some b => simp [Input.drop_of_get h', startsBracedUri]

theorem get_of_startsBracedUri (h : input.startsBracedUri i = true) :
    input.get i = some "Q" ∧ input.get (i + 1) = some "\x7b" := by
  simpa [Input.startsBracedUri] using h

theorem matches_uriText (uri : String) :
    Matches input first second (uriText uri) (input.uriText uri) := by
  intro i hi
  generalize hts : input.drop i = ts
  induction ts generalizing uri i with
  | nil =>
    have hget : input.get i = none := by rw [← Input.head?_drop, hts, List.head?_nil]
    have hfail : AgreeAt input first second True (fun _ => True)
        ((fail "'\x7d' of BracedURILiteral" : Rule String) (input.drop i))
        (.error (input.unexpected i "'\x7d' of BracedURILiteral")) :=
      agreeAt_fail _ hi
    rw [hts] at hfail
    rw [Input.uriText_of_get_none hget]
    exact hfail
  | cons t ts ih =>
    have hget : input.get i = some t := by rw [← Input.head?_drop, hts, List.head?_cons]
    have hlt := Input.lt_of_get hget
    have hrest : input.drop (i + 1) = ts := by
      rw [Input.drop_of_get hget] at hts
      exact (List.cons.inj hts).2
    rw [Input.uriText_of_get hget, uriText]
    split
    · rw [← hrest]
      exact agreeAt_pure hlt Iff.rfl
    split
    · exact agreeAt_failWith _ []
    · exact ih _ (i + 1) hlt hrest

theorem agreeAt_bracedUri (h : input.startsBracedUri i = true) :
    AgreeAt input first second True (fun _ => True) (bracedUri (input.drop i))
      (input.bracedUri i) := by
  obtain ⟨hq, hb⟩ := get_of_startsBracedUri h
  have hskip : input.skipSpace i = i := by
    rw [Input.skipSpace, hq]
    rfl
  have hlt := Input.lt_of_get hb
  have huri : AgreeAt input first second True (fun _ => True)
      (uriText "" (input.drop (i + 2))) (input.uriText "" (i + 2)) :=
    matches_uriText "" (i + 2) hlt
  rw [← Input.drop_one_drop, ← Input.drop_one_drop, List.drop_drop] at huri
  have hbody : Rule.enclosed (input.drop (i + 1)) (fun _ => uriText "" ((input.drop i).drop 2))
      (input.drop i) = bracedUri (input.drop i) := by
    rw [← Input.drop_one_drop]
    rfl
  rw [Input.bracedUri, hskip, if_pos h, ← hbody]
  exact agreeAt_enclosed (Nat.le_of_lt hlt) huri

theorem agreeAt_uriQualifiedName (h : input.startsBracedUri i = true) :
    AgreeAt input first second True (fun _ => True) (uriQualifiedName (input.drop i))
      (input.uriQualifiedName i) :=
  agreeAt_bind (agreeAt_bracedUri h) fun _ _ hnext =>
    agreeAt_map hnext (matches_localPart _) fun _ => by simp

/-- The two tokens of `:local` are found, or nothing is taken. -/
theorem colonName?_drop (input : Input) (i : Nat) :
    (input.colonName? i = none ∧ colonName? (input.drop i) = .ok (none, input.drop i)) ∨
      ∃ name, input.colonName? i = some name ∧ i + 2 ≤ input.tokens.length ∧
        colonName? (input.drop i) = .ok (some name, input.drop (i + 2)) := by
  rw [Input.colonName?]
  cases hcolon : input.get i with
  | none => simp [Input.drop_of_get_none hcolon, colonName?]
  | some colon =>
    rw [Input.drop_of_get hcolon]
    cases hname : input.get (i + 1) with
    | none => simp [Input.drop_of_get_none hname, colonName?]
    | some name =>
      rw [Input.drop_of_get hname]
      by_cases h : colon = ":" ∧ Text.startsName name
      · have hle : i + 2 ≤ input.tokens.length := Input.lt_of_get hname
        simp [colonName?, h, hle]
      · rw [not_and] at h
        by_cases hc : colon = ":" <;> simp_all [colonName?]

theorem matches_eqName : Matches input first second eqName input.eqName := by
  intro i hi
  have hhere := Input.skipSpace_le hi
  refine agreeAt_space (agreeAt_rest (agreeAt_ite (by rw [startsBracedUri_drop])
    agreeAt_uriQualifiedName fun _ => ?_))
  refine agreeAt_bind (matches_ncName _ hhere) fun name next hnext => ?_
  obtain ⟨h, hcolon⟩ | ⟨n, h, hle, hcolon⟩ := colonName?_drop input next
  · rw [bind_of_ok hcolon]
    simp only [h]
    exact agreeAt_pure hnext (by simp)
  · rw [bind_of_ok hcolon]
    simp only [h]
    exact agreeAt_pure hle (by simp)

/-- The three tokens of `prefix:*` are found, or nothing is taken. -/
theorem prefixWildcard?_drop (input : Input) (i : Nat) :
    (input.prefixWildcard? i = none ∧ prefixWildcard? (input.drop i) = .ok (none, input.drop i)) ∨
      ∃ name, input.prefixWildcard? i = some name ∧ i + 3 ≤ input.tokens.length ∧
        prefixWildcard? (input.drop i) = .ok (some name, input.drop (i + 3)) := by
  rw [Input.prefixWildcard?]
  cases hname : input.get i with
  | none => simp [Input.drop_of_get_none hname, prefixWildcard?]
  | some name =>
    rw [Input.drop_of_get hname]
    cases hcolon : input.get (i + 1) with
    | none => simp [Input.drop_of_get_none hcolon, prefixWildcard?]
    | some colon =>
      rw [Input.drop_of_get hcolon]
      cases hstar : input.get (i + 2) with
      | none => simp [Input.drop_of_get_none hstar, prefixWildcard?]
      | some star =>
        have hle : i + 3 ≤ input.tokens.length := Input.lt_of_get hstar
        rw [Input.drop_of_get hstar]
        by_cases h : Text.startsName name ∧ colon = ":" ∧ star = "*"
        · simp [prefixWildcard?, h, hle]
        · by_cases hc : colon = ":" ∧ star = "*" <;> simp_all [prefixWildcard?]

theorem matches_nameTest : Matches input first second nameTest input.nameTest := by
  intro i hi
  have hhere := Input.skipSpace_le hi
  refine agreeAt_space (agreeAt_rest ?_)
  rw [Input.nameTest, startsBracedUri_drop]
  by_cases hstar : input.get (input.skipSpace i) = some "*"
  · have huri : input.startsBracedUri (input.skipSpace i) = false := by
      rw [Input.startsBracedUri, hstar]
      rfl
    have hlt := Input.lt_of_get hstar
    rw [huri, if_neg Bool.false_ne_true, if_pos hstar, Input.drop_of_get hstar,
      bind_of_ok (take?_cons_self "*" _)]
    obtain ⟨h, hcolon⟩ | ⟨n, h, hle, hcolon⟩ := colonName?_drop input (input.skipSpace i + 1)
    · simp only [if_true, bind_of_ok hcolon, h]
      exact agreeAt_pure hlt (by simp)
    · simp only [if_true, bind_of_ok hcolon, h]
      exact agreeAt_pure hle (by simp)
  rw [if_neg hstar]
  refine agreeAt_ite Iff.rfl (fun huri => ?_) fun _ => ?_
  · refine agreeAt_bind (agreeAt_bracedUri huri) fun uri next hnext => ?_
    refine agreeAt_take? (fun h => agreeAt_pure (Input.lt_of_get h) (by simp)) fun _ => ?_
    exact agreeAt_map hnext (matches_localPart _) fun _ => by simp
  · rw [bind_of_ok (take?_of_ne (Input.head?_drop input _ ▸ hstar))]
    obtain ⟨h, hprefix⟩ | ⟨n, h, hle, hprefix⟩ := prefixWildcard?_drop input (input.skipSpace i)
    · rw [if_neg Bool.false_ne_true, bind_of_ok hprefix]
      simp only [h]
      exact agreeAt_map hhere matches_eqName fun _ => by simp
    · rw [if_neg Bool.false_ne_true, bind_of_ok hprefix]
      simp only [h]
      exact agreeAt_pure hle (by simp)

/-! ## Literals -/

theorem matches_mantissa : Matches input first second mantissa input.mantissa := by
  intro i hi
  have hfail : AgreeAt input first second True (fun _ => True)
      ((fail "NumericLiteral" : Rule Mantissa) (input.drop i))
      (.error (input.unexpected i "NumericLiteral")) :=
    agreeAt_fail _ hi
  rw [Input.mantissa]
  cases ht : input.get i with
  | none =>
    rw [Input.drop_of_get_none ht] at hfail ⊢
    exact hfail
  | some t =>
    have hlt : i + 1 ≤ input.tokens.length := Input.lt_of_get ht
    rw [Input.drop_of_get ht] at hfail ⊢
    by_cases hdigits : t.isDigits
    · by_cases hpoint : input.get (i + 1) = some "."
      · have hlt : i + 2 ≤ input.tokens.length := Input.lt_of_get hpoint
        rw [Input.drop_of_get hpoint]
        cases hf : (input.get (i + 2)).filter Token.isDigits with
        | none =>
          have hrest : ∀ f ∈ (input.drop (i + 2)).head?, f.isDigits = false := by
            simpa [Input.head?_drop, Option.filter_eq_none_iff] using hf
          rw [mantissa_whole_point hdigits hrest]
          simp only [hdigits, hpoint, if_true]
          exact agreeAt_pure hlt Iff.rfl
        | some f =>
          obtain ⟨hget, hf'⟩ := Option.filter_eq_some_iff.mp hf
          rw [Input.drop_of_get hget, mantissa_fraction hdigits hf']
          simp only [hdigits, hpoint, if_true]
          exact agreeAt_pure (Input.lt_of_get hget) Iff.rfl
      · rw [mantissa_whole hdigits (by rwa [Input.head?_drop])]
        simp only [hdigits, hpoint, if_true, if_false]
        exact agreeAt_pure hlt Iff.rfl
    · simp only [hdigits]
      by_cases hpoint : ∃ f, input.get (i + 1) = some f ∧ t = "." ∧ f.isDigits
      · obtain ⟨f, hget, rfl, hf⟩ := hpoint
        rw [Input.drop_of_get hget, mantissa_point hf]
        simp only [hget, hf]
        exact agreeAt_pure (Input.lt_of_get hget) Iff.rfl
      · have hrest : t = "." → ∀ f ∈ (input.drop (i + 1)).head?, f.isDigits = false := by
          intro ht f hf
          rw [Input.head?_drop] at hf
          exact Bool.eq_false_iff.mpr fun h => hpoint ⟨f, hf, ht, h⟩
        rw [mantissa_of_not (Bool.eq_false_iff.mpr hdigits) hrest]
        cases hget : input.get (i + 1) with
        | none => exact hfail
        | some f =>
          have hnot : ¬ (t = "." ∧ f.isDigits) := fun h => hpoint ⟨f, hget, h⟩
          simp only [hnot, if_false]
          exact hfail

/-- The tokens of an exponent are found, or nothing is taken. -/
theorem exponent?_drop (hi : i ≤ input.tokens.length) :
    ∃ e? next, next ≤ input.tokens.length ∧ input.exponent? i = (e?, next) ∧
      exponent? (input.drop i) = .ok (e?, input.drop next) := by
  have hnothing : exponent? (input.drop i) = .ok (none, input.drop i) →
      ∃ e? next, next ≤ input.tokens.length ∧ (none, i) = (e?, next) ∧
        exponent? (input.drop i) = .ok (e?, input.drop next) :=
    fun h => ⟨none, i, hi, rfl, h⟩
  rw [Input.exponent?]
  cases ht : input.get i with
  | none =>
    refine hnothing ?_
    rw [Input.drop_of_get_none ht]
    rfl
  | some t =>
    rw [Option.bind_some]
    have hdrop := Input.drop_of_get ht
    cases he : wholeExponent? t with
    | some e => exact ⟨some e, i + 1, Input.lt_of_get ht, rfl, by simp [hdrop, exponent?, he]⟩
    | none =>
      cases hsign : input.get (i + 1) with
      | none =>
        refine hnothing ?_
        simp only [hdrop, Input.drop_of_get_none hsign, exponent?, he]
      | some sign =>
        cases hdigits : input.get (i + 2) with
        | none =>
          refine hnothing ?_
          simp only [hdrop, Input.drop_of_get hsign, Input.drop_of_get_none hdigits, exponent?, he]
        | some digits =>
          simp only [hdrop, Input.drop_of_get hsign, Input.drop_of_get hdigits, exponent?, he]
          split
          · exact ⟨_, i + 3, Input.lt_of_get hdigits, rfl, rfl⟩
          · exact ⟨none, i, hi, rfl, by
              rw [hdrop, Input.drop_of_get hsign, Input.drop_of_get hdigits]⟩

theorem matches_stringLiteral : Matches input first second stringLiteral input.stringLiteral := by
  intro i hi
  have hhere := Input.skipSpace_le hi
  refine agreeAt_space
    (agreeAt_rest (agreeAt_bind (matches_one _ _ _ hhere) fun q next hnext => ?_))
  refine agreeAt_enclosed hhere
    (agreeAt_bind (matches_one _ _ _ hnext) fun content next hnext => ?_)
  rw [discard_bind]
  exact agreeAt_bind (matches_one _ _ _ hnext) fun _ _ hnext => agreeAt_pure hnext (by simp)

end Grammar

end XPath
