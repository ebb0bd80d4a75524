import Mathlib.Data.List.Chain
import XPath.Proofs.Lexeme

/-!
# The text of the tokens of a text

A text is compared with what its tokens are joined to. What the text becomes is said of its
characters alone (`Place.collapse`): a character outside of literals that follows a blank is dropped
if it is a blank too. The lexemes of a text are the middle: they spell the collapsed text
(`collapse_of_scan`), and their tokens are joined to the same (`joinChars_tokens`), for no token is
taken for a quote that is none.
-/

namespace XPath

/-! ## Blanks collapsed -/

/-- Where a character of a text stands. -/
inductive Place where
  | outside
  | afterBlank
  | inside (quote : Char)
  deriving DecidableEq

namespace Place

/-- A quote inside of a literal ends it. If it is doubled, its second half begins a literal again,
with nothing between the two. -/
def next : Place → Char → Place
  | inside quote, c => if c = quote then outside else inside quote
  | _, c => if Lexeme.isBlank c then afterBlank else if Lexeme.isQuote c then inside c else outside

/-- Blanks behind a blank are dropped, and one is a space. -/
def kept : Place → Char → List Char
  | inside _, c => [c]
  | afterBlank, c => if Lexeme.isBlank c then [] else [c]
  | outside, c => if Lexeme.isBlank c then [' '] else [c]

/-- The text with one space for every run of blanks outside of literals. -/
def collapse : Place → List Char → List Char
  | _, [] => []
  | p, c :: cs => p.kept c ++ collapse (p.next c) cs

/-- Behind a blank, all blanks are dropped. -/
theorem collapse_dropWhile (cs : List Char) :
    collapse afterBlank cs = collapse outside (cs.dropWhile Lexeme.isBlank) := by
  induction cs with
  | nil => rfl
  | cons c cs ih =>
    cases hc : Lexeme.isBlank c with
    | true => simp [collapse, next, kept, hc, ih]
    | false => simp [collapse, next, kept, hc]

/-- A text without blanks and quotes is left as it is. -/
theorem collapse_append {cs : List Char}
    (h : ∀ c ∈ cs, Lexeme.isBlank c = false ∧ Lexeme.isQuote c = false) (rest : List Char) :
    collapse outside (cs ++ rest) = cs ++ collapse outside rest := by
  induction cs with
  | nil => rfl
  | cons c cs ih =>
    obtain ⟨hc, hcs⟩ := List.forall_mem_cons.mp h
    simp [collapse, next, kept, hc, ih hcs]

end Place

namespace Lexeme

/-- A literal is left as it is. -/
theorem readContent_collapse {quote : Char} (hq : isQuote quote) {cs content rest : List Char}
    (h : readContent quote cs = some (content, rest)) :
    Place.collapse (.inside quote) cs =
      (content.flatMap fun c => if c = quote then [c, c] else [c]) ++
        quote :: Place.collapse .outside rest := by
  have hb : isBlank quote = false := isBlank_of_isQuote hq
  fun_induction readContent quote cs generalizing content rest with
  | case1 => simp at h
  | case2 c cs hc ih =>
    obtain ⟨⟨a, b⟩, hab, he⟩ := Option.map_eq_some_iff.mp h
    cases he
    simp [Place.collapse, Place.next, Place.kept, hc, ih hab]
  | case3 c hc =>
    cases h
    simp [Place.collapse, Place.kept, not_not.mp hc]
  | case4 c hc ds ih =>
    obtain ⟨⟨a, b⟩, hab, he⟩ := Option.map_eq_some_iff.mp h
    cases he
    simp [Place.collapse, Place.next, Place.kept, not_not.mp hc, hb, hq, ih hab]
  | case5 c hc d ds hd =>
    cases h
    simp [Place.collapse, Place.next, Place.kept, not_not.mp hc]

/-- No run goes on with a quote. -/
theorem continuation?_quote {c d : Char} {p : Char → Bool} (h : continuation? c = some p)
    (hd : isQuote d) : p d = false := by
  have hd : d = '\'' ∨ d = '"' := by simpa [isQuote] using hd
  unfold continuation? at h
  repeat' split at h
  all_goals cases h
  all_goals rcases hd with rfl | rfl <;> decide

/-- Blanks and quotes stand in no plain lexeme. -/
theorem isWhole_plain {text : List Char} (h : (plain text).isWhole) :
    ∀ c ∈ text, isBlank c = false ∧ isQuote c = false := by
  cases text with
  | nil => simp
  | cons c cs =>
    simp only [isWhole, Bool.and_eq_true, Bool.not_eq_true'] at h
    obtain ⟨⟨hb, hq⟩, hw⟩ := h
    refine List.forall_mem_cons.mpr ⟨⟨hb, hq⟩, fun d hd => ?_⟩
    split at hw
    · obtain rfl | rfl : cs = [] ∨ cs = ['='] := by simpa using hw
      · simp at hd
      · obtain rfl : d = '=' := by simpa using hd
        decide
    · obtain ⟨p, hp, hcs⟩ : ∃ p, continuation? c = some p ∧ cs.all p := by
        simpa [Option.any_eq_true] using hw
      have hpd : p d := List.all_eq_true.mp hcs d hd
      constructor
      · exact Bool.eq_false_iff.mpr fun h => by simp [continuation?_blank hp h] at hpd
      · exact Bool.eq_false_iff.mpr fun h => by simp [continuation?_quote hp h] at hpd

/-- A lexeme collapses to its own text. -/
theorem read_collapse {c : Char} {cs rest : List Char} {l : Lexeme}
    (h : read c cs = some (l, rest)) :
    Place.collapse .outside (c :: cs) = l.chars ++ Place.collapse .outside rest := by
  have hl := (read_eq_some h).1
  unfold read at h
  split at h
  next hb =>
    cases h
    simp [Place.collapse, Place.next, Place.kept, hb, chars, Place.collapse_dropWhile]
  next hb =>
  split at h
  next hq =>
    obtain ⟨⟨content, b⟩, hab, he⟩ := Option.map_eq_some_iff.mp h
    cases he
    simp [Place.collapse, Place.next, Place.kept, hb, hq, chars, readContent_collapse hq hab]
  next hq =>
  suffices ∃ text, l = plain text ∧ c :: cs = text ++ rest by
    obtain ⟨text, rfl, he⟩ := this
    rw [he, chars, Place.collapse_append (isWhole_plain hl)]
  split at h
  next hx => split at h <;> cases h <;> exact ⟨_, rfl, by simp [hx]⟩
  next hx =>
    obtain ⟨p, _, he⟩ := Option.map_eq_some_iff.mp h
    cases he
    exact ⟨_, rfl, by simp⟩

/-- A text of lexemes collapses to their texts. -/
theorem collapse_of_scan {cs : List Char} {ls : List Lexeme} (h : scan cs = .ok ls) :
    Place.collapse .outside cs = ls.flatMap chars := by
  induction ls generalizing cs with
  | nil =>
    cases cs with
    | nil => rfl
    | cons c cs =>
      obtain ⟨l, rest, ls', -, -, he⟩ := scan_eq_ok h
      cases he
  | cons l ls ih =>
    cases cs with
    | nil => simp [scan] at h
    | cons c cs =>
      obtain ⟨l', rest, ls', hr, hs, he⟩ := scan_eq_ok h
      cases he
      rw [read_collapse hr, ih hs, List.flatMap_cons]

end Lexeme

/-! ## Tokens of lexemes -/

namespace Token

/-- The tokens without those that stand as a content between two quotes. -/
def withoutContents : List Token → List Token
  | [] => []
  | opening :: content :: closing :: ts =>
    if opening.isQuote ∧ closing = opening then opening :: closing :: withoutContents ts
    else opening :: withoutContents (content :: closing :: ts)
  | t :: ts => t :: withoutContents ts

/-- A token that is no quote is written as it is. -/
theorem joinChars_cons {t : Token} (ht : t.isQuote = false) (ts : List Token) :
    joinChars (t :: ts) = t.toList ++ joinChars ts := by
  match ts with
  | [] | [_] => simp [joinChars]
  | _ :: _ :: _ => simp [joinChars, ht]

/-- A token that is no quote is not followed by a content. -/
theorem withoutContents_cons {t : Token} (ht : t.isQuote = false) (ts : List Token) :
    withoutContents (t :: ts) = t :: withoutContents ts := by
  match ts with
  | [] | [_] => simp [withoutContents]
  | _ :: _ :: _ => simp [withoutContents, ht]

end Token

namespace Lexeme

/-- A lexeme that is no literal is no quote. -/
theorem isQuote_ofList {text : List Char} (h : (plain text).isWhole) :
    Token.isQuote (String.ofList text) = false := by
  have hq := isWhole_plain h
  refine Bool.eq_false_iff.mpr fun ht => ?_
  obtain he | he : String.ofList text = "'" ∨ String.ofList text = "\"" := by
    simpa [Token.isQuote] using ht
  all_goals
    obtain rfl := by simpa using congrArg String.toList he
    simp [isQuote] at hq

/-- The quotes of the text are those of the tokens. -/
theorem isQuote_singleton {quote : Char} (h : isQuote quote) :
    Token.isQuote (String.singleton quote) := by
  obtain rfl | rfl : quote = '\'' ∨ quote = '"' := by simpa [isQuote] using h
  all_goals rfl

/-- The tokens of whole lexemes are joined to their texts. -/
theorem joinChars_tokens {ls : List Lexeme} (h : ∀ l ∈ ls, l.isWhole) :
    Token.joinChars (ls.flatMap tokens) = ls.flatMap chars := by
  induction ls with
  | nil => rfl
  | cons l ls ih =>
    obtain ⟨hl, hls⟩ := List.forall_mem_cons.mp h
    rw [List.flatMap_cons, List.flatMap_cons, ← ih hls]
    cases l with
    | space => exact Token.joinChars_cons rfl _
    | plain text =>
      rw [tokens, List.singleton_append, Token.joinChars_cons (isQuote_ofList hl), chars,
        String.toList_ofList]
    | literal quote content =>
      simp [tokens, Token.joinChars, isQuote_singleton hl, Token.doubled, chars,
        String.singleton_inj]

/-- Joined lexemes are whole. -/
theorem Joined.whole : ∀ {ls : List Lexeme}, Joined ls → ∀ l ∈ ls, l.isWhole
  | [], _ => by simp
  | _ :: _, ⟨hl, _, hls⟩ => List.forall_mem_cons.mpr ⟨hl, hls.whole⟩

/-- The tokens, a literal's content apart. -/
def marks : Lexeme → List Token
  | literal quote _ => [String.singleton quote, String.singleton quote]
  | l => l.tokens

/-- Without contents, the tokens of lexemes are their marks. -/
theorem withoutContents_tokens {ls : List Lexeme} (h : ∀ l ∈ ls, l.isWhole) :
    Token.withoutContents (ls.flatMap tokens) = ls.flatMap marks := by
  induction ls with
  | nil => rfl
  | cons l ls ih =>
    obtain ⟨hl, hls⟩ := List.forall_mem_cons.mp h
    rw [List.flatMap_cons, List.flatMap_cons, ← ih hls]
    cases l with
    | space => exact Token.withoutContents_cons rfl _
    | plain text => exact Token.withoutContents_cons (isQuote_ofList hl) _
    | literal quote content =>
      simp [tokens, marks, Token.withoutContents, isQuote_singleton hl]

/-- No mark is empty. -/
theorem empty_notMem_marks {ls : List Lexeme} (h : ∀ l ∈ ls, l.isWhole) :
    "" ∉ ls.flatMap marks := by
  intro hm
  obtain ⟨l, hl, ht⟩ := List.mem_flatMap.mp hm
  have hw := h l hl
  cases l with
  | space => exact absurd ht (by decide)
  | plain text =>
    obtain rfl : [] = text := by
      simpa using congrArg String.toList (List.mem_singleton.mp ht)
    cases hw
  | literal quote content => simp [marks] at ht

/-- Only space is marked by a space. -/
theorem isSpace_of_mem_marks {l : Lexeme} (hne : l ≠ space) (hl : l.isWhole) :
    ∀ t ∈ l.marks, t.isSpace = false := by
  intro t ht
  refine Bool.eq_false_iff.mpr fun hs => ?_
  obtain rfl : t = " " := by simpa [Token.isSpace, Token.space] using hs
  cases l with
  | space => exact hne rfl
  | plain text =>
    obtain rfl : [' '] = text := by
      simpa using congrArg String.toList (List.mem_singleton.mp ht)
    exact absurd hl (by decide)
  | literal quote content =>
    have he : " " = String.singleton quote := by simpa [marks] using ht
    obtain rfl : ' ' = quote := by simpa using congrArg String.toList he
    exact absurd (show isQuote ' ' from hl) (by decide)

theorem isSpace_head?_marks {ls : List Lexeme} (h : ∀ l ∈ ls, l.isWhole)
    (hb : ∀ d ∈ (ls.flatMap chars).head?, isBlank d = false) :
    ∀ t ∈ (ls.flatMap marks).head?, t.isSpace = false := by
  cases ls with
  | nil => simp
  | cons l ls =>
    have hl := h l (List.mem_cons_self ..)
    have hne : l ≠ space := by
      rintro rfl
      exact absurd (hb ' ' rfl) (by decide)
    intro t ht
    refine isSpace_of_mem_marks hne hl t (List.mem_of_mem_head? ?_)
    cases l <;> simpa [marks, tokens] using ht

/-- No two spaces follow each other, for blanks are one run. -/
theorem marks_chain {ls : List Lexeme} (h : Joined ls) :
    (ls.flatMap marks).IsChain fun t u => ¬(t.isSpace ∧ u.isSpace) := by
  induction ls with
  | nil => exact .nil
  | cons l ls ih =>
    obtain ⟨hl, hstop, hls⟩ := h
    have hmarks : l.marks.IsChain fun t u => ¬(t.isSpace ∧ u.isSpace) := by
      cases l with
      | space | plain => exact .singleton _
      | literal quote content =>
        have := isSpace_of_mem_marks (by simp) hl (String.singleton quote) (List.mem_cons_self ..)
        simp [marks, this]
    refine List.isChain_append.mpr ⟨hmarks, ih hls, fun t ht u hu hs => ?_⟩
    by_cases hne : l = space
    · subst hne
      have := isSpace_head?_marks (fun l hl => hls.whole l hl) (by simpa [stopsAt] using hstop) u hu
      simp [this] at hs
    · have := isSpace_of_mem_marks hne hl t (List.mem_of_mem_getLast? ht)
      simp [this] at hs

end Lexeme

/-- The tokens of a text are those of its lexemes. -/
theorem tokenize_eq_ok {source : String} {ts : List Token} (h : tokenize source = .ok ts) :
    ∃ ls, Lexeme.scan source.toList = .ok ls ∧ ts = ls.flatMap Lexeme.tokens := by
  rw [tokenize] at h
  split at h
  next ls hs =>
    cases h
    exact ⟨ls, hs, rfl⟩
  · cases h

/-- The tokens of a text are joined to this text with its blanks collapsed, and read back from it.
Outside of literals none of them is empty, and no two spaces follow each other. -/
theorem join_tokenize {source : String} {ts : List Token} (h : tokenize source = .ok ts) :
    Token.join ts = String.ofList (Place.collapse .outside source.toList) ∧
      tokenize (Token.join ts) = .ok ts ∧ "" ∉ Token.withoutContents ts ∧
      (Token.withoutContents ts).IsChain fun t u => ¬(t.isSpace ∧ u.isSpace) := by
  obtain ⟨ls, hs, rfl⟩ := tokenize_eq_ok h
  have hj := Lexeme.joined_of_scan hs
  have hw := hj.whole
  rw [Token.join, Lexeme.joinChars_tokens hw, Lexeme.collapse_of_scan hs,
    Lexeme.withoutContents_tokens hw]
  refine ⟨rfl, ?_, Lexeme.empty_notMem_marks hw, Lexeme.marks_chain hj⟩
  rw [tokenize, String.toList_ofList, Lexeme.scan_chars hj]

/-- A doubled quote, blanks inside and outside of literals, and a literal of the other quote. -/
theorem join_tokenize_literals :
    tokenize "a \t'it''s  b'\n\n,\"\" " =
        .ok ["a", " ", "'", "it's  b", "'", " ", ",", "\"", "", "\"", " "] ∧
      Token.join ["a", " ", "'", "it's  b", "'", " ", ",", "\"", "", "\"", " "] =
        "a 'it''s  b' ,\"\" " ∧
      tokenize "a 'it''s  b' ,\"\" " =
        .ok ["a", " ", "'", "it's  b", "'", " ", ",", "\"", "", "\"", " "] := by
  have h : tokenize "a \t'it''s  b'\n\n,\"\" " =
      .ok ["a", " ", "'", "it's  b", "'", " ", ",", "\"", "", "\"", " "] := by
    decide +kernel
  obtain ⟨hjoin, hread, -⟩ := join_tokenize h
  have hjoin := hjoin.trans (by decide +kernel :
    _ = "a 'it''s  b' ,\"\" ")
  exact ⟨h, hjoin, hjoin ▸ hread⟩

end XPath
