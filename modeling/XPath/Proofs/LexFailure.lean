import XPath.Proofs.Adjacent

/-!
# Texts that are no tokens

What lexemes look like is said here without reading them: a run of blanks, a word of one of the
classes (`Lexeme.Word`), or a literal, in which its quote occurs only doubled (`Lexeme.Doubled`). A
text is read as lexemes if it is these lexemes one after another, each of which stops where the next
one begins (`Lexeme.scan_eq_ok_iff`). Where reading stops before the text does, a character stands
that begins no lexeme, or a quote that is never closed (`Lexeme.read_eq_none_iff`).

An error gives the place of that character. The text in front of it is tokens (`tokenize_exact`),
since a lexeme that stops there also stops where the text ends.
-/

namespace XPath

namespace Lexeme

variable {c q : Char} {cs rest : List Char} {l : Lexeme}

/-! ## Words -/

/-- The characters that begin a word of each class, and the characters that go on with it. -/
def classes : List ((Char → Bool) × (Char → Bool)) :=
  [((· == '.'), (· == '.')), ((· == '/'), (· == '/')), (Char.isDigit, Char.isDigit),
    ((· == ':'), fun d => d == ':' || d == '='),
    (fun c => c == '<' || c == '=' || c == '>', fun d => d == '<' || d == '=' || d == '>'),
    ((· == '|'), (· == '|')), (isPunctuation, fun _ => false), (Text.isNameStart, Text.isNameChar)]

/-- What becomes one token as it is written. -/
inductive Word : List Char → Prop
  | bang : Word ['!']
  | bangEqual : Word ['!', '=']
  | run {starts goesOn : Char → Bool} (h : (starts, goesOn) ∈ classes) {c : Char} (hc : starts c)
    {cs : List Char} (hcs : cs.all goesOn) : Word (c :: cs)

theorem continuation?_of_mem {starts goesOn : Char → Bool} (h : (starts, goesOn) ∈ classes)
    (hc : starts c) : continuation? c = some goesOn := by
  simp only [classes, List.mem_cons, Prod.mk.injEq, List.not_mem_nil, or_false] at h
  obtain ⟨rfl, rfl⟩ | ⟨rfl, rfl⟩ | ⟨rfl, rfl⟩ | ⟨rfl, rfl⟩ | ⟨rfl, rfl⟩ | ⟨rfl, rfl⟩ | ⟨rfl, rfl⟩ |
    ⟨rfl, rfl⟩ := h
  · obtain rfl : c = '.' := by simpa using hc
    rfl
  · obtain rfl : c = '/' := by simpa using hc
    rfl
  · exact continuation?_digit hc
  · obtain rfl : c = ':' := by simpa using hc
    rfl
  · obtain rfl | rfl | rfl : c = '<' ∨ c = '=' ∨ c = '>' := by simpa [or_assoc] using hc
    all_goals rfl
  · obtain rfl : c = '|' := by simpa using hc
    rfl
  · obtain ⟨-, hdot, hslash, hcolon, hlt, heq, hgt, hbar, -, hdigit, -⟩ := isPunctuation_ne hc
    simp [continuation?, hdot, hslash, hcolon, hlt, heq, hgt, hbar, hdigit, hc]
  · exact continuation?_nameStart hc

theorem continuation?_eq_find? (c : Char) :
    continuation? c = (classes.find? fun k => k.1 c).map Prod.snd := by
  unfold continuation? classes
  simp only [List.find?_cons]
  repeat' split
  all_goals simp_all

theorem exists_of_continuation? {goesOn : Char → Bool} (h : continuation? c = some goesOn) :
    ∃ starts, (starts, goesOn) ∈ classes ∧ starts c := by
  rw [continuation?_eq_find?] at h
  obtain ⟨⟨starts, goesOn⟩, hfind, rfl⟩ := Option.map_eq_some_iff.mp h
  exact ⟨starts, List.mem_of_find?_eq_some hfind, by simpa using List.find?_some hfind⟩

/-- What begins a word of a class is neither blank nor quote nor `!`. -/
theorem not_special_of_continuation? {goesOn : Char → Bool} (h : continuation? c = some goesOn) :
    isBlank c = false ∧ isQuote c = false ∧ c ≠ '!' := by
  refine ⟨Bool.eq_false_iff.mpr fun hb => ?_, Bool.eq_false_iff.mpr fun hq => ?_, ?_⟩
  · have hb : c = '\t' ∨ c = '\n' ∨ c = '\r' ∨ c = ' ' := by simpa [isBlank, or_assoc] using hb
    rcases hb with rfl | rfl | rfl | rfl <;> cases h
  · have hq : c = '\'' ∨ c = '"' := by simpa [isQuote] using hq
    rcases hq with rfl | rfl <;> cases h
  · rintro rfl
    cases h

theorem isWhole_plain_iff {text : List Char} : (plain text).isWhole ↔ Word text := by
  constructor
  · intro h
    cases text with
    | nil => cases h
    | cons c cs =>
      rw [isWhole, Bool.and_eq_true] at h
      obtain ⟨-, h⟩ := h
      split at h
      next hc =>
        subst hc
        obtain rfl | rfl : cs = [] ∨ cs = ['='] := by simpa using h
        · exact .bang
        · exact .bangEqual
      next =>
        obtain ⟨goesOn, hp, hcs⟩ := (Option.any_eq_true _ _).mp h
        obtain ⟨starts, hmem, hc⟩ := exists_of_continuation? hp
        exact .run hmem hc hcs
  · intro h
    cases h with
    | bang | bangEqual => rfl
    | @run starts goesOn hmem c hc cs hcs =>
      have hp := continuation?_of_mem hmem hc
      obtain ⟨hb, hq, hx⟩ := not_special_of_continuation? hp
      simp [isWhole, hb, hq, hx, hp, hcs]

/-! ## Literals -/

/-- The text `w` is `content` with every quote doubled. -/
inductive Doubled (q : Char) : (content w : List Char) → Prop
  | nil : Doubled q [] []
  | other {c : Char} (hc : c ≠ q) {content w : List Char} (h : Doubled q content w) :
    Doubled q (c :: content) (c :: w)
  | quote {content w : List Char} (h : Doubled q content w) : Doubled q (q :: content) (q :: q :: w)

theorem doubled_iff {content w : List Char} :
    Doubled q content w ↔ w = content.flatMap fun c => if c = q then [c, c] else [c] := by
  constructor
  · intro h
    induction h with
    | nil => rfl
    | other hc _ ih => rw [List.flatMap_cons, if_neg hc, ← ih, List.singleton_append]
    | quote _ ih =>
      rw [List.flatMap_cons, if_pos rfl, ← ih]
      rfl
  · rintro rfl
    induction content with
    | nil => exact .nil
    | cons c content ih =>
      rw [List.flatMap_cons]
      split
      next hc =>
        subst hc
        exact .quote ih
      next hc => exact .other hc ih

/-- A literal ends at the first quote that is not doubled. -/
theorem readContent_eq_some_iff {content : List Char} : readContent q cs = some (content, rest) ↔
    ∃ w, Doubled q content w ∧ cs = w ++ q :: rest ∧ rest.head? ≠ some q := by
  constructor
  · intro h
    have hstop : rest.head? ≠ some q := fun hq => readContent_eq_some h q hq rfl
    suffices ∃ w, Doubled q content w ∧ cs = w ++ q :: rest from
      this.imp fun w ⟨hw, hcs⟩ => ⟨hw, hcs, hstop⟩
    clear hstop
    fun_induction readContent q cs generalizing content rest with
    | case1 => cases h
    | case2 c cs hc ih =>
      obtain ⟨⟨content, rest⟩, hread, he⟩ := Option.map_eq_some_iff.mp h
      cases he
      obtain ⟨w, hw, rfl⟩ := ih hread
      exact ⟨c :: w, .other hc hw, rfl⟩
    | case3 c hc =>
      cases h
      exact ⟨[], .nil, by simpa using hc⟩
    | case4 c hc ds ih =>
      obtain ⟨⟨content, rest⟩, hread, he⟩ := Option.map_eq_some_iff.mp h
      cases he
      obtain ⟨w, hw, rfl⟩ := ih hread
      obtain rfl : c = q := by simpa using hc
      exact ⟨c :: c :: w, .quote hw, rfl⟩
    | case5 c hc d ds hd =>
      cases h
      exact ⟨[], .nil, by simpa using hc⟩
  · rintro ⟨w, hw, rfl, hstop⟩
    have hrest : ∀ d ∈ rest.head?, d ≠ q := by
      rintro d hd rfl
      exact hstop hd
    rw [doubled_iff.mp hw]
    exact readContent_append hrest content

/-! ## Lexemes -/

/-- The lexeme as it may be written. -/
inductive Written : Lexeme → List Char → Prop
  | space {w : List Char} (hne : w ≠ []) (hw : w.all isBlank) : Written .space w
  | plain {w : List Char} (hw : Word w) : Written (.plain w) w
  | literal {q : Char} (hq : isQuote q) {content w : List Char} (hw : Doubled q content w) :
    Written (.literal q content) (q :: (w ++ [q]))

/-- A text is lexemes, each of which stops where the next one begins. -/
inductive Splits : List Char → List Lexeme → Prop
  | nil : Splits [] []
  | cons {l : Lexeme} {c : Char} {w rest : List Char} {ls : List Lexeme} (hl : Written l (c :: w))
    (hstop : ∀ d ∈ rest.head?, l.stopsAt d) (hrest : Splits rest ls) :
    Splits (c :: (w ++ rest)) (l :: ls)

theorem read_eq_some_iff : read c cs = some (l, rest) ↔
    ∃ w, Written l (c :: w) ∧ cs = w ++ rest ∧ ∀ d ∈ rest.head?, l.stopsAt d := by
  constructor
  · intro h
    obtain ⟨hwhole, hstop, -⟩ := read_eq_some h
    suffices ∃ w, Written l (c :: w) ∧ cs = w ++ rest from
      this.imp fun w ⟨hw, hcs⟩ => ⟨hw, hcs, hstop⟩
    unfold read at h
    split at h
    next hb =>
      cases h
      have hall : (c :: cs.takeWhile isBlank).all isBlank := by simp [hb]
      exact ⟨_, .space (List.cons_ne_nil _ _) hall, List.takeWhile_append_dropWhile.symm⟩
    split at h
    next hq =>
      obtain ⟨⟨content, rest⟩, hread, he⟩ := Option.map_eq_some_iff.mp h
      cases he
      obtain ⟨w, hw, rfl, -⟩ := readContent_eq_some_iff.mp hread
      exact ⟨w ++ [c], .literal hq hw, by simp⟩
    split at h
    next hx =>
      subst hx
      split at h
      · cases h
        exact ⟨['='], .plain .bangEqual, rfl⟩
      · cases h
        exact ⟨[], .plain .bang, rfl⟩
    next =>
      obtain ⟨goesOn, hp, he⟩ := Option.map_eq_some_iff.mp h
      cases he
      exact ⟨_, .plain (isWhole_plain_iff.mp hwhole), List.takeWhile_append_dropWhile.symm⟩
  · rintro ⟨w, hl, rfl, hstop⟩
    generalize hcw : c :: w = cw at hl
    cases hl with
    | space hne hw =>
      subst hcw
      obtain ⟨hc, hw⟩ : isBlank c ∧ w.all isBlank := by simpa using hw
      have hrest : ∀ d ∈ rest.head?, isBlank d = false := fun d hd => by
        simpa [stopsAt] using hstop d hd
      unfold read
      rw [if_pos hc, (takeWhile_append hw hrest).2]
    | plain hw => exact read_append (isWhole_plain_iff.mpr hw) hcw.symm hstop
    | @literal q hq content v hv =>
      refine read_append hq ?_ hstop
      rw [hcw, chars, ← doubled_iff.mp hv]
      rfl

theorem scan_eq_ok_iff {ls : List Lexeme} : scan cs = .ok ls ↔ Splits cs ls := by
  constructor
  · intro h
    induction ls generalizing cs with
    | nil =>
      cases cs with
      | nil => exact .nil
      | cons c cs =>
        obtain ⟨_, _, _, -, -, hls⟩ := scan_eq_ok h
        cases hls
    | cons l ls ih =>
      cases cs with
      | nil => simp [scan] at h
      | cons c cs =>
        obtain ⟨_, rest, _, hread, hrest, hls⟩ := scan_eq_ok h
        obtain ⟨rfl, rfl⟩ := List.cons_eq_cons.mp hls
        obtain ⟨w, hl, rfl, hstop⟩ := read_eq_some_iff.mp hread
        exact .cons hl hstop (ih hrest)
  · intro h
    induction h with
    | nil => rw [scan]
    | cons hl hstop _ ih =>
      rw [scan_cons (read_eq_some_iff.mpr ⟨_, hl, rfl, hstop⟩), ih]
      rfl

/-! ## What begins no lexeme -/

/-- The character is no quote and begins no lexeme. -/
structure BeginsNone (c : Char) : Prop where
  not_blank : isBlank c = false
  not_quote : isQuote c = false
  not_bang : c ≠ '!'
  not_class : ∀ k ∈ classes, k.1 c = false

/-- The literal that the quote `q` opens is not closed. -/
def Unclosed (q : Char) (cs : List Char) : Prop :=
  ∀ content w rest, Doubled q content w → cs = w ++ q :: rest → rest.head? = some q

theorem readContent_eq_none_iff : readContent q cs = none ↔ Unclosed q cs := by
  rw [Option.eq_none_iff_forall_ne_some]
  constructor
  · intro h content w rest hw hcs
    by_contra hstop
    exact h (content, rest) (readContent_eq_some_iff.mpr ⟨w, hw, hcs, hstop⟩)
  · rintro h ⟨content, rest⟩ hread
    obtain ⟨w, hw, hcs, hstop⟩ := readContent_eq_some_iff.mp hread
    exact hstop (h content w rest hw hcs)

theorem continuation?_eq_none_iff : continuation? c = none ↔ ∀ k ∈ classes, k.1 c = false := by
  rw [continuation?_eq_find?, Option.map_eq_none_iff, List.find?_eq_none]
  simp only [Bool.not_eq_true]

theorem read_eq_none_iff : read c cs = none ↔ BeginsNone c ∨ isQuote c ∧ Unclosed c cs := by
  constructor
  · intro h
    unfold read at h
    split at h
    · cases h
    next hb =>
    split at h
    next hq => exact .inr ⟨hq, readContent_eq_none_iff.mp (Option.map_eq_none_iff.mp h)⟩
    next hq =>
    split at h
    · split at h <;> cases h
    next hx =>
      rw [Bool.not_eq_true] at hb hq
      exact .inl ⟨hb, hq, hx, continuation?_eq_none_iff.mp (Option.map_eq_none_iff.mp h)⟩
  · rintro (h | ⟨hq, hopen⟩)
    · unfold read
      simp [h.not_blank, h.not_quote, h.not_bang, continuation?_eq_none_iff.mpr h.not_class]
    · have hb : isBlank c = false := isBlank_of_isQuote hq
      unfold read
      rw [if_neg (by simp [hb]), if_pos hq, readContent_eq_none_iff.mpr hopen]
      rfl

/-- Reading stops behind lexemes, in front of the first character that begins none. -/
theorem scan_eq_error (h : scan cs = .error (c, rest)) :
    ∃ before ls, cs = before ++ c :: rest ∧ Splits before ls ∧ read c rest = none := by
  fun_induction scan cs with
  | case1 => cases h
  | case2 d ds hread =>
    cases h
    exact ⟨[], [], rfl, .nil, hread⟩
  | case3 d ds l mid hread ih =>
    obtain ⟨w, hl, rfl, hstop⟩ := read_eq_some_iff.mp hread
    have hmid : scan mid = .error (c, rest) := by
      cases hs : scan mid with
      | ok ls => simp [hs, Except.map] at h
      | error e => simpa [hs, Except.map] using h
    obtain ⟨before, ls, rfl, hsplits, hnone⟩ := ih hmid
    -- What comes next is the same with the text cut off, or there is nothing.
    have hstop' : ∀ e ∈ before.head?, l.stopsAt e := fun e he =>
      hstop e (by rw [List.head?_append, Option.mem_def.mp he, Option.some_or, Option.mem_some])
    exact ⟨d :: (w ++ before), l :: ls, by simp, .cons hl hstop' hsplits, hnone⟩

end Lexeme

/-! ## Errors -/

theorem utf8Length_append (cs ds : List Char) :
    utf8Length (cs ++ ds) = utf8Length cs + utf8Length ds := by
  simp [utf8Length]

theorem utf8ByteSize_ofList (cs : List Char) : (String.ofList cs).utf8ByteSize = utf8Length cs := by
  induction cs with
  | nil => rfl
  | cons c cs ih =>
    rw [String.ofList_cons, String.utf8ByteSize_append, String.utf8ByteSize_singleton, ih]
    simp [utf8Length]

/-- The error is that the text `c :: cs` begins with no lexeme. -/
def LexError.Explains (c : Char) (cs : List Char) : LexError → Prop
  | unexpectedCharacter d _ => d = c ∧ Lexeme.BeginsNone c
  | unterminatedString q _ => q = c ∧ Lexeme.isQuote c ∧ Lexeme.Unclosed c cs

theorem LexError.explains {c : Char} {cs : List Char} (h : Lexeme.read c cs = none) (offset : Nat) :
    let e : LexError := if Lexeme.isQuote c then .unterminatedString c offset
      else .unexpectedCharacter c offset
    e.offset = offset ∧ e.Explains c cs := by
  have hnone := Lexeme.read_eq_none_iff.mp h
  dsimp only
  split
  next hq =>
    exact ⟨rfl, rfl, hnone.resolve_left fun hnone => by simp [hnone.not_quote] at hq⟩
  next hq => exact ⟨rfl, rfl, hnone.resolve_right fun hopen => hq hopen.1⟩

/-- A text is tokens if it splits into lexemes. Otherwise the error tells where the first character
stands that begins none: in front of it the text is tokens. -/
theorem tokenize_exact (source : String) :
    match tokenize source with
    | .ok ts => ∃ ls, Lexeme.Splits source.toList ls ∧ ts = ls.flatMap Lexeme.tokens
    | .error e => ∃ before c after, source = before ++ String.ofList (c :: after) ∧
        e.offset = before.utf8ByteSize ∧ e.offset < source.utf8ByteSize ∧
        (∃ ts, tokenize before = .ok ts) ∧ e.Explains c after := by
  rw [tokenize]
  cases hscan : Lexeme.scan source.toList with
  | ok ls => exact ⟨ls, Lexeme.scan_eq_ok_iff.mp hscan, rfl⟩
  | error x =>
    obtain ⟨c, after⟩ := x
    obtain ⟨before, ls, hsource, hsplits, hnone⟩ := Lexeme.scan_eq_error hscan
    have hbytes : source.utf8ByteSize = utf8Length before + utf8Length (c :: after) := by
      rw [← utf8Length_append, ← hsource, ← utf8ByteSize_ofList, String.ofList_toList]
    have hpos : 0 < utf8Length (c :: after) :=
      Nat.lt_of_lt_of_le c.utf8Size_pos (by simp [utf8Length])
    have hoffset : utf8Length source.toList - utf8Length (c :: after) = utf8Length before := by
      rw [hsource, utf8Length_append, Nat.add_sub_cancel]
    have htokens : tokenize (String.ofList before) = .ok (ls.flatMap Lexeme.tokens) := by
      rw [tokenize, String.toList_ofList, Lexeme.scan_eq_ok_iff.mpr hsplits]
    obtain ⟨heq, hexplains⟩ := LexError.explains hnone (utf8Length before)
    dsimp only
    rw [hoffset]
    refine ⟨String.ofList before, c, after, ?_, ?_, ?_, ⟨_, htokens⟩, hexplains⟩
    · rw [← String.ofList_append, ← hsource, String.ofList_toList]
    · rw [heq, utf8ByteSize_ofList]
    · omega

end XPath
