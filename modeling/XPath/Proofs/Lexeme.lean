import XPath.Token.Join
import XPath.Token.Lexer

/-!
# Lexemes in a row

A text written lexeme by lexeme is read as these lexemes if each one is whole, which is to say that
its characters are all of its class, and stops at the first character of what follows it
(`Lexeme.scan_chars`). What is read from any text consists of such lexemes
(`Lexeme.joined_of_scan`).
-/

namespace XPath.Lexeme

/-- The characters that the lexeme is read from, with one blank for a space. -/
def chars : Lexeme → List Char
  | space => [' ']
  | plain text => text
  | literal quote content =>
    quote :: (content.flatMap fun c => if c = quote then [c, c] else [c]) ++ [quote]

/-- All of the text is of the class that its first character begins. -/
def isWhole : Lexeme → Bool
  | space => true
  | plain [] => false
  | plain (c :: cs) => !isBlank c && !isQuote c &&
    if c = '!' then cs == [] || cs == ['='] else (continuation? c).any (cs.all ·)
  | literal quote _ => isQuote quote

/-- The character does not continue the lexeme. -/
def stopsAt : Lexeme → Char → Bool
  | space, d => !isBlank d
  | plain [], _ => true
  | plain (c :: cs), d =>
    if c = '!' then cs != [] || d != '=' else (continuation? c).all fun p => !p d
  | literal quote _, d => d != quote

/-- Whole lexemes, each of which stops where the next one begins. -/
def Joined : List Lexeme → Prop
  | [] => True
  | l :: ls => l.isWhole ∧ (∀ d ∈ (ls.flatMap chars).head?, l.stopsAt d) ∧ Joined ls

/-! ## Reading back -/

theorem isBlank_of_isQuote {c : Char} (h : isQuote c) : isBlank c = false := by
  obtain rfl | rfl : c = '\'' ∨ c = '"' := by simpa [isQuote] using h
  all_goals rfl

/-- A content is read back from the text with its quotes doubled. -/
theorem readContent_append {quote : Char} {rest : List Char} (hrest : ∀ d ∈ rest.head?, d ≠ quote)
    (content : List Char) :
    readContent quote ((content.flatMap fun c => if c = quote then [c, c] else [c]) ++
      quote :: rest) = some (content, rest) := by
  induction content with
  | nil =>
    cases rest with
    | nil => simp [readContent]
    | cons d ds =>
      have : d ≠ quote := hrest d rfl
      simp [readContent, this]
  | cons c content ih =>
    rw [List.flatMap_cons]
    split
    next h => simp [readContent, h, ih]
    next h =>
      rw [List.singleton_append, List.cons_append]
      unfold readContent
      rw [if_pos h, ih, Option.map_some]

/-- A run goes as far as its class does. -/
theorem takeWhile_append {p : Char → Bool} {cs : List Char} (hcs : cs.all p) {rest : List Char}
    (hrest : ∀ d ∈ rest.head?, p d = false) :
    (cs ++ rest).takeWhile p = cs ∧ (cs ++ rest).dropWhile p = rest := by
  rw [List.all_eq_true] at hcs
  rw [List.takeWhile_append_of_pos hcs, List.dropWhile_append_of_pos hcs]
  cases rest with
  | nil => simp
  | cons d ds => simp [hrest d rfl]

/-- A whole lexeme is read in front of any text where it stops. -/
theorem read_append {l : Lexeme} {c : Char} {cs rest : List Char} (hl : l.isWhole)
    (hc : l.chars = c :: cs) (hrest : ∀ d ∈ rest.head?, l.stopsAt d) :
    read c (cs ++ rest) = some (l, rest) := by
  cases l with
  | space =>
    obtain ⟨rfl, rfl⟩ : ' ' = c ∧ [] = cs := by simpa [chars] using hc
    have hb : rest.dropWhile isBlank = rest := by
      cases rest with
      | nil => rfl
      | cons d ds =>
        have : isBlank d = false := by simpa [stopsAt] using hrest d rfl
        simp [this]
    unfold read
    rw [if_pos (by decide), List.nil_append, hb]
  | plain text =>
    obtain rfl : text = c :: cs := hc
    simp only [isWhole, Bool.and_eq_true, Bool.not_eq_true'] at hl
    obtain ⟨⟨hb, hq⟩, hw⟩ := hl
    unfold read
    rw [if_neg (by simp [hb]), if_neg (by simp [hq])]
    by_cases hx : c = '!'
    · subst hx
      rw [if_pos rfl] at hw
      rw [if_pos rfl]
      obtain rfl | rfl : cs = [] ∨ cs = ['='] := by simpa using hw
      · cases rest with
        | nil => rfl
        | cons d ds =>
          have : d ≠ '=' := by simpa [stopsAt] using hrest d rfl
          simp [this]
      · rfl
    · rw [if_neg hx] at hw
      obtain ⟨p, hp, hcs⟩ : ∃ p, continuation? c = some p ∧ cs.all p := by
        simpa [Option.any_eq_true] using hw
      have hr : ∀ d ∈ rest.head?, p d = false := fun d hd => by
        simpa [stopsAt, hx, hp] using hrest d hd
      rw [if_neg hx, hp, Option.map_some, (takeWhile_append hcs hr).1, (takeWhile_append hcs hr).2]
  | literal quote content =>
    obtain ⟨rfl, rfl⟩ := List.cons.inj hc
    have hq : isQuote quote := hl
    have hb : isBlank quote = false := isBlank_of_isQuote hq
    have hend : ∀ d ∈ rest.head?, d ≠ quote := fun d hd => by simpa [stopsAt] using hrest d hd
    have := readContent_append hend content
    unfold read
    rw [if_neg (by simp [hb]), if_pos hq]
    simp [this]

/-- A whole lexeme has a character. -/
theorem chars_ne_nil {l : Lexeme} (hl : l.isWhole) : l.chars ≠ [] := by
  cases l with
  | plain text => cases text <;> simp_all [chars, isWhole]
  | _ => simp [chars]

/-- Lexemes are read one after another. -/
theorem scan_cons {c : Char} {cs rest : List Char} {l : Lexeme} (h : read c cs = some (l, rest)) :
    scan (c :: cs) = (scan rest).map (l :: ·) := by
  rw [scan]
  split
  next h' => simp [h] at h'
  next h' =>
    rw [h] at h'
    cases h'
    rfl

/-- Joined lexemes are read back from their text. -/
theorem scan_chars {ls : List Lexeme} (h : Joined ls) : scan (ls.flatMap chars) = .ok ls := by
  induction ls with
  | nil => simp [scan]
  | cons l ls ih =>
    obtain ⟨hl, hstop, hls⟩ := h
    obtain ⟨c, cs, hc⟩ := List.exists_cons_of_ne_nil (chars_ne_nil hl)
    rw [List.flatMap_cons, hc, List.cons_append, scan_cons (read_append hl hc hstop), ih hls]
    rfl

/-! ## Texts in general -/

theorem head?_dropWhile {p : Char → Bool} {cs : List Char} :
    ∀ d ∈ (cs.dropWhile p).head?, p d = false := by
  intro d hd
  have := List.head?_dropWhile_not p cs
  rw [hd] at this
  simpa using this

/-- A literal stops at its closing quote, since this is not doubled. -/
theorem readContent_eq_some {quote : Char} {cs content rest : List Char}
    (h : readContent quote cs = some (content, rest)) : ∀ d ∈ rest.head?, d ≠ quote := by
  fun_induction readContent quote cs generalizing content rest with
  | case1 => simp at h
  | case2 c cs hc ih =>
    obtain ⟨⟨a, b⟩, hab, he⟩ := Option.map_eq_some_iff.mp h
    cases he
    exact ih hab
  | case3 => cases h; simp
  | case4 c ds _ ih =>
    obtain ⟨⟨a, b⟩, hab, he⟩ := Option.map_eq_some_iff.mp h
    cases he
    exact ih hab
  | case5 c hc d ds hd =>
    cases h
    simpa using hd

/-- What is read is whole, and stops where the text goes on. -/
theorem read_eq_some {c : Char} {cs rest : List Char} {l : Lexeme}
    (h : read c cs = some (l, rest)) :
    l.isWhole ∧ (∀ d ∈ rest.head?, l.stopsAt d) ∧
      (l = space ∧ isBlank c ∨ l.chars.head? = some c) := by
  unfold read at h
  split at h
  next hb =>
    cases h
    exact ⟨rfl, fun d hd => by simp [stopsAt, head?_dropWhile d hd], .inl ⟨rfl, hb⟩⟩
  next hb =>
  split at h
  next hq =>
    obtain ⟨⟨a, b⟩, hab, he⟩ := Option.map_eq_some_iff.mp h
    cases he
    exact ⟨hq, fun d hd => by simp [stopsAt, readContent_eq_some hab d hd], .inr rfl⟩
  next hq =>
  split at h
  next hx =>
    subst hx
    split at h
    · cases h
      exact ⟨rfl, fun d _ => by simp [stopsAt], .inr rfl⟩
    next hne =>
      cases h
      refine ⟨rfl, fun d hd => ?_, .inr rfl⟩
      have : d ≠ '=' := by
        rintro rfl
        obtain ⟨ds, hds⟩ := List.head?_eq_some_iff.mp hd
        exact hne ds hds
      simp [stopsAt, this]
  next hx =>
    obtain ⟨p, hp, he⟩ := Option.map_eq_some_iff.mp h
    cases he
    refine ⟨?_, fun d hd => ?_, .inr rfl⟩
    · simp only [Bool.not_eq_true] at hb hq
      simp [isWhole, hb, hq, hx, hp]
    · simp [stopsAt, hx, hp, head?_dropWhile d hd]

/-- If the whole text is lexemes, the first one is read, and then the others. -/
theorem scan_eq_ok {c : Char} {cs : List Char} {ls : List Lexeme} (h : scan (c :: cs) = .ok ls) :
    ∃ l rest ls', read c cs = some (l, rest) ∧ scan rest = .ok ls' ∧ ls = l :: ls' := by
  rw [scan] at h
  split at h
  · cases h
  next l rest hr =>
    cases hs : scan rest with
    | error e => simp [hs, Except.map] at h
    | ok ls' => exact ⟨l, rest, ls', hr, hs, by simpa [hs, Except.map, eq_comm] using h⟩

/-- No run goes on with a blank. -/
theorem continuation?_blank {c d : Char} {p : Char → Bool} (h : continuation? c = some p)
    (hd : isBlank d) : p d = false := by
  have hd : d = '\t' ∨ d = '\n' ∨ d = '\r' ∨ d = ' ' := by simpa [isBlank, or_assoc] using hd
  unfold continuation? at h
  repeat' split at h
  all_goals cases h
  all_goals rcases hd with rfl | rfl | rfl | rfl <;> decide

/-- A blank continues nothing but blanks. -/
theorem stopsAt_blank {l : Lexeme} {d : Char} (hl : l ≠ space) (hq : l.isWhole) (hd : isBlank d) :
    l.stopsAt d := by
  cases l with
  | space => exact absurd rfl hl
  | plain text =>
    cases text with
    | nil => rfl
    | cons c cs =>
      rw [stopsAt]
      split
      next h =>
        have : d ≠ '=' := by
          rintro rfl
          exact absurd hd (by decide)
        simp [this]
      next h =>
        cases hp : continuation? c with
        | none => rfl
        | some p => simp [continuation?_blank hp hd]
  | literal quote content =>
    have : d ≠ quote := by
      rintro rfl
      have hb : isBlank d = false := isBlank_of_isQuote hq
      simp [hb] at hd
    simp [stopsAt, this]

/-- A lexeme that stops where a text begins stops where the lexemes of the text do. -/
theorem head?_chars_of_scan {cs : List Char} {ls : List Lexeme} {l : Lexeme}
    (h : scan cs = .ok ls) (hl : l.isWhole) (hstop : ∀ d ∈ cs.head?, l.stopsAt d) :
    ∀ d ∈ (ls.flatMap chars).head?, l.stopsAt d := by
  cases cs with
  | nil =>
    obtain rfl : ls = [] := by simpa [scan, eq_comm] using h
    simp
  | cons c cs =>
    obtain ⟨l', rest, ls', hr, -, rfl⟩ := scan_eq_ok h
    intro d hd
    obtain ⟨e, es, he⟩ := List.exists_cons_of_ne_nil (chars_ne_nil (read_eq_some hr).1)
    obtain rfl : e = d := by simpa [he] using hd
    obtain ⟨rfl, hc⟩ | hc := (read_eq_some hr).2.2
    · obtain rfl : ' ' = e := by simpa [chars] using congrArg List.head? he
      have : l ≠ space := by
        rintro rfl
        simpa [stopsAt, hc] using hstop c rfl
      exact stopsAt_blank this hl rfl
    · exact hstop e (by simpa [he, eq_comm] using hc)

/-- What is read from a text is joined. -/
theorem joined_of_scan {cs : List Char} {ls : List Lexeme} (h : scan cs = .ok ls) : Joined ls := by
  induction ls generalizing cs with
  | nil => trivial
  | cons l ls ih =>
    cases cs with
    | nil => simp [scan] at h
    | cons c cs =>
      obtain ⟨l', rest, ls', hr, hs, he⟩ := scan_eq_ok h
      cases he
      obtain ⟨hl, hstop, -⟩ := read_eq_some hr
      exact ⟨hl, head?_chars_of_scan hs hl hstop, ih hs⟩

end XPath.Lexeme
