import XPath.Proofs.Complete.Name
import XPath.Proofs.Stops.Rule

/-!
# Where the rules for names and literals stop

The parts of a name or a number stand side by side, and none of them is a space or a bracket. A
string literal or a braced URI takes any tokens up to the one that closes it, so that the laws for
rules do not apply to what stands inside.
-/

namespace XPath.Grammar

open Rule

variable {levels : Nat} {ts : List Token}

/-! ## Names -/

/-- A name. -/
theorem ncName_consumes : ncName.Consumes levels :=
  Consumes.space <| (consumes_one (fun _ => Token.isOrdinary_of_startsName) (by decide)).bind
    fun _ => mayConsume_pure _

/-- A name right behind a braced URI. -/
theorem localPart_consumes (owner : String) : (localPart owner).Consumes levels :=
  have hne : "NCName of " ++ owner ≠ bareName :=
    ne_bareName ⟨"NCName".toList, owner.toList, by simp⟩
  (consumes_one (fun _ => Token.isOrdinary_of_startsName) hne).bind fun _ => mayConsume_pure _

/-- A colon and a name are read, or nothing is. -/
theorem colonName?_cases (ts : List Token) : colonName? ts = .ok (none, ts) ∨
    ∃ (n : NCName) (rest : List Token), n.WellFormed ∧ ts = ":" :: n.text :: rest ∧
      colonName? ts = .ok (some n, rest) := by
  match ts with
  | colon :: name :: ts =>
    rw [colonName?]
    split
    next h => exact .inr ⟨⟨name⟩, ts, h.2, by rw [h.1], rfl⟩
    · exact .inl rfl
  | [_] | [] => exact .inl rfl

/-- A colon and a name, or nothing. -/
theorem colonName?_mayConsume : colonName?.MayConsume levels := by
  intro ts
  obtain h | ⟨n, rest, hn, rfl, h⟩ := colonName?_cases ts
  · rw [h]
    exact .left id
  · rw [h]
    refine ⟨[":", n.text], rfl, .of_ordinary ?_, False.elim⟩
    have hname := Token.isOrdinary_of_startsName hn
    simpa using ⟨by decide, hname⟩

/-- A wildcard with a prefix is read, or nothing is. -/
theorem prefixWildcard?_cases (ts : List Token) : prefixWildcard? ts = .ok (none, ts) ∨
    ∃ (n : NCName) (rest : List Token), n.WellFormed ∧ ts = n.text :: ":" :: "*" :: rest ∧
      prefixWildcard? ts = .ok (some n, rest) := by
  match ts with
  | name :: colon :: star :: ts =>
    rw [prefixWildcard?]
    split
    next h => exact .inr ⟨⟨name⟩, ts, h.1, by rw [h.2.1, h.2.2], rfl⟩
    · exact .inl rfl
  | [_, _] | [_] | [] => exact .inl rfl

/-- A wildcard with a prefix, or nothing. -/
theorem prefixWildcard?_stops : prefixWildcard?.Stops levels (·.isSome) := by
  intro ts
  obtain h | ⟨n, rest, hn, rfl, h⟩ := prefixWildcard?_cases ts
  · rw [h]
    exact .left nofun
  · rw [h]
    refine ⟨[n.text, ":", "*"], rfl, .of_ordinary ?_, fun _ => List.cons_ne_nil _ _⟩
    have hname := Token.isOrdinary_of_startsName hn
    simpa using ⟨hname, by decide, by decide⟩

/-! ## Braced URIs -/

/-- The text of a URI fails at the end of the tokens, or for another brace. -/
theorem uriText_error {uri : String} {e : Failure} (h : uriText uri ts = .error e) :
    e = .unexpected [] "'\x7d' of BracedURILiteral" ∨ ∃ v, e = .value v := by
  induction ts generalizing uri with
  | nil =>
    cases h
    exact .inl rfl
  | cons t ts ih =>
    rw [uriText] at h
    split at h
    · cases h
    split at h
    · cases h
      exact .inr ⟨_, rfl⟩
    · exact ih h

/-- A braced URI, whatever its tokens are. -/
theorem bracedUri_stopsAt {taking : String → Prop} (hts : startsBracedUri ts) :
    StopsAt levels taking ts (bracedUri ts) := by
  obtain ⟨us, rfl⟩ := startsBracedUri_iff.mp hts
  have happly : bracedUri ("Q" :: "\x7b" :: us) =
      enclosed ("\x7b" :: us) (fun _ => uriText "" us) us := rfl
  rw [happly]
  refine stopsAt_enclosed (List.suffix_cons "Q" _) (List.cons_ne_nil _ _) ?_ fun e he => ?_
  · rintro ⟨u, rest⟩ h
    obtain ⟨w, rfl, hw, -⟩ := uriText_eq_ok h
    have hlast : Taken (("Q" :: "\x7b" :: w) ++ ["\x7d"]) := .of_last (.bracedUri hw .nil) rfl
    exact ⟨_, by simp, hlast, fun _ => List.cons_ne_nil _ _⟩
  · obtain rfl | ⟨v, rfl⟩ := uriText_error he
    · exact ⟨List.nil_suffix, by decide⟩
    · trivial

/-- A name with a URI. -/
theorem uriQualifiedName_stopsAt (hts : startsBracedUri ts) :
    StopsAt levels (fun _ => True) ts (uriQualifiedName ts) :=
  stopsAt_behind (bracedUri_stopsAt hts) fun _ =>
    ((localPart_consumes _).bind fun _ => mayConsume_pure _).mayConsume

/-- A name without a URI. -/
def qName : Rule EQName := do
  let first ← ncName
  match ← colonName? with
  | some name => return .qName (some first) name
  | none => return .qName none first

/-- A name without a URI. -/
theorem qName_consumes : qName.Consumes levels := by
  refine ncName_consumes.bind fun _ => colonName?_mayConsume.followed fun n? => ?_
  cases n? <;> exact mayConsume_pure _

/-- A qualified name. -/
theorem eqName_consumes : eqName.Consumes levels :=
  Consumes.space <| stops_rest fun ts => stopsAt_ite uriQualifiedName_stopsAt fun _ =>
    qName_consumes ts

/-- A name test after its URI. -/
def nameTestIn (uri : String) : Rule NameTest := do
  if ← take? "*" then return .nsWildcard (.anyLocalIn uri)
  else return .name (.uriQualified uri (← localPart "URIQualifiedName"))

/-- A name test without a URI. -/
def plainNameTest : Rule NameTest := do
  if ← take? "*" then
    match ← colonName? with
    | some name => return .nsWildcard (.anyNamespace name)
    | none => return .wildcard
  else
    match ← prefixWildcard? with
    | some name => return .nsWildcard (.anyLocal name)
    | none => return .name (← eqName)

/-- A name test after its URI. -/
theorem nameTestIn_consumes (uri : String) : (nameTestIn uri).Consumes levels :=
  consumes_take? (by decide) (mayConsume_pure _)
    ((localPart_consumes _).bind fun _ => mayConsume_pure _)

/-- A name test without a URI. -/
theorem plainNameTest_consumes : plainNameTest.Consumes levels := by
  refine consumes_take? (by decide) (colonName?_mayConsume.followed fun n? => ?_) ?_
  · cases n? <;> exact mayConsume_pure _
  · refine prefixWildcard?_stops.bind (fun n? h => ?_) fun n? h => ?_
    · obtain ⟨n, rfl⟩ := Option.isSome_iff_exists.mp h
      exact mayConsume_pure _
    · obtain rfl : n? = none := by simpa using h
      exact eqName_consumes.bind fun _ => mayConsume_pure _

/-- A name test. -/
theorem nameTest_consumes : nameTest.Consumes levels :=
  Consumes.space <| stops_rest fun ts => stopsAt_ite
    (fun hq => stopsAt_behind (r := bracedUri) (k := nameTestIn) (bracedUri_stopsAt hq) fun uri =>
      (nameTestIn_consumes uri).mayConsume)
    fun _ => plainNameTest_consumes ts

/-! ## Numbers -/

/-- Digits around a point. -/
theorem mantissa_consumes : mantissa.Consumes levels := by
  intro ts
  have hpoint : Token.isOrdinary "." := by decide
  have hdigits {t : Token} (ht : t.isDigits) := Token.isOrdinary_of_isDigits ht
  obtain ⟨m, mid, h⟩ | herror := mantissa_cases ts
  · rw [h.read]
    cases h with
    | @fraction t f _ ht hf =>
      exact ⟨[t, ".", f], rfl, .of_ordinary (by simp [hpoint, hdigits ht, hdigits hf]),
        fun _ => List.cons_ne_nil _ _⟩
    | @wholePoint t _ ht =>
      exact ⟨[t, "."], rfl, .of_ordinary (by simp [hpoint, hdigits ht]),
        fun _ => List.cons_ne_nil _ _⟩
    | @whole t _ ht =>
      exact ⟨[t], rfl, .singleton (hdigits ht), fun _ => List.cons_ne_nil _ _⟩
    | @point f _ hf =>
      exact ⟨[".", f], rfl, .of_ordinary (by simp [hpoint, hdigits hf]),
        fun _ => List.cons_ne_nil _ _⟩
  · rw [herror]
    exact .unexpected (by decide) ts

/-- An exponent, or nothing. -/
theorem exponent?_mayConsume : exponent?.MayConsume levels := by
  intro ts
  obtain h | ⟨w, e, rest, hw, rfl, h⟩ := exponent?_cases ts
  · rw [h]
    exact .left id
  · rw [h]
    refine ⟨w, rfl, .of_ordinary (hw.forall_mem (fun t ht => ?_)
      (fun _ => Token.isOrdinary_of_isDigits) (by decide)), False.elim⟩
    exact Token.isOrdinary_of (p := fun t => (wholeExponent? t).isSome) ht (by decide)

/-- What is made of mantissa and exponent. -/
theorem numericValue_mayConsume (m : Mantissa) (e? : Option String) : (match e? with
    | some e => return .of (.double (← ofExcept (doubleOf m e)))
    | none =>
      match m.fraction with
      | some f => return .of (.decimal (← ofExcept (Decimal.ofText (m.whole ++ "." ++ f))))
      | none => return .of (.integer (← ofExcept (Integer.ofText m.whole))) :
    Rule Node).MayConsume levels := by
  cases e? with
  | some e => exact (mayConsume_ofExcept _).followed fun _ => mayConsume_pure _
  | none =>
    obtain ⟨whole, fraction⟩ := m
    cases fraction <;> exact (mayConsume_ofExcept _).followed fun _ => mayConsume_pure _

/-- A number. -/
theorem numericLiteral_consumes : numericLiteral.Consumes levels :=
  Consumes.space <| mantissa_consumes.bind fun m => exponent?_mayConsume.followed fun e? =>
    numericValue_mayConsume m e?

/-! ## Strings -/

/-- Content and quote, after the first quote. -/
def stringBody (quote : Token) : Rule String :=
  one (fun _ => true) "StringLiteral" >>= fun content =>
    (one (· == quote) ("closing " ++ quote ++ " of StringLiteral") >>= fun _ => pure ()) >>=
      fun _ => pure content

/-- A string is a quote and what is behind it. -/
theorem stringLiteral_apply (ts : List Token) : stringLiteral ts =
    (one Token.isQuote "StringLiteral" >>= fun quote =>
      enclosed (Token.skipSpace ts) (stringBody quote)) (Token.skipSpace ts) :=
  rfl

/-- Behind the first quote stand any token and the same quote. -/
theorem stringBody_eq_ok {quote : Token} {rest : List Token} {s : String} :
    stringBody quote ts = .ok (s, rest) ↔ ts = s :: quote :: rest := by
  match ts with
  | [] | [_] => simp [stringBody, bind_apply, one]
  | content :: q :: ts =>
    by_cases h : q = quote <;> simp [stringBody, bind_apply, one, h, pure_apply]

/-- A string fails for its content or its second quote. -/
theorem stringBody_error {quote : Token} {e : Failure} (h : stringBody quote ts = .error e) :
    e.FoundIn levels ts := by
  have hclosing : "closing " ++ quote ++ " of StringLiteral" ≠ bareName :=
    ne_bareName ⟨"closing ".toList ++ quote.toList, "StringLiteral".toList, by simp⟩
  match ts with
  | [] =>
    obtain rfl : .unexpected [] "StringLiteral" = e := by
      simpa [stringBody, bind_apply, one] using h
    exact ⟨List.suffix_rfl, by decide⟩
  | [content] =>
    obtain rfl : .unexpected [] ("closing " ++ quote ++ " of StringLiteral") = e := by
      simpa [stringBody, bind_apply, one] using h
    exact ⟨List.nil_suffix, hclosing⟩
  | content :: q :: ts =>
    by_cases hq : q = quote
    · simp [stringBody, bind_apply, one, hq, pure_apply] at h
    · obtain rfl : .unexpected (q :: ts) ("closing " ++ quote ++ " of StringLiteral") = e := by
        simpa [stringBody, bind_apply, one, hq] using h
      exact ⟨List.suffix_cons content _, hclosing⟩

/-- A string, whatever its content is. -/
theorem stringLiteral_consumes : stringLiteral.Consumes levels := by
  intro ts
  rw [stringLiteral_apply]
  refine .of_skipSpace ?_
  generalize Token.skipSpace ts = us
  by_cases hquote : ∃ q ∈ us.head?, Token.isQuote q
  · obtain ⟨q, hhead, hq⟩ := hquote
    obtain ⟨us, rfl⟩ := List.head?_eq_some_iff.mp hhead
    rw [bind_of_ok (one_eq_ok.mpr ⟨hq, rfl⟩)]
    refine stopsAt_enclosed List.suffix_rfl (List.cons_ne_nil _ _) ?_ fun e he => ?_
    · rintro ⟨s, rest⟩ h
      rw [stringBody_eq_ok.mp h]
      have hlast : Taken ([q, s] ++ [q]) :=
        .of_last (.string hq .nil) (Token.isSpace_of_isQuote hq)
      exact ⟨_, rfl, hlast, fun _ => List.cons_ne_nil _ _⟩
    · have hfound : e.FoundIn levels us := stringBody_error he
      exact hfound.append (w := [q]) (Nat.le_add_right _ _)
  · rw [bind_of_error (one_of_not (fun q hhead => Bool.eq_false_iff.mpr fun hq =>
      hquote ⟨q, hhead, hq⟩) _)]
    exact .unexpected (by decide) us

end XPath.Grammar
