import Mathlib.Data.List.Chain
import XPath.Proofs.Numeral
import XPath.Proofs.TokenText

/-!
# Pieces side by side

Rendering writes a space only where it asks for one. Everywhere else two pieces stand side by side,
and read as one text they must not run together: the last lexeme of the first has to stop where the
second begins (`Piece.apart`).
-/

namespace XPath

namespace Lexeme

/-- What punctuation is not. -/
theorem isPunctuation_ne {d : Char} (h : isPunctuation d) : d ≠ '!' ∧ d ≠ '.' ∧ d ≠ '/' ∧ d ≠ ':' ∧
    d ≠ '<' ∧ d ≠ '=' ∧ d ≠ '>' ∧ d ≠ '|' ∧ isQuote d = false ∧ d.isDigit = false ∧
      (d ≠ '-' → Text.isNameChar d = false) := by
  have hall : "#$%&()*+,-;?@[\\]^\x60\x7b\x7d~".toList.all fun d => d ≠ '!' ∧ d ≠ '.' ∧ d ≠ '/' ∧
      d ≠ ':' ∧ d ≠ '<' ∧ d ≠ '=' ∧ d ≠ '>' ∧ d ≠ '|' ∧ isQuote d = false ∧ d.isDigit = false ∧
        (d ≠ '-' → Text.isNameChar d = false) := by decide
  exact of_decide_eq_true (List.all_eq_true.mp hall d (of_decide_eq_true h))

/-- A character of punctuation other than the hyphen goes on with nothing. -/
theorem continuation?_punctuation {c d : Char} {p : Char → Bool} (h : continuation? c = some p)
    (hd : isPunctuation d) (hhyphen : d ≠ '-') : p d = false := by
  have hne := isPunctuation_ne hd
  unfold continuation? at h
  repeat' split at h
  all_goals cases h
  all_goals simp [hne, hhyphen]

/-- Any lexeme but space stops at punctuation. A hyphen may go on with a name. -/
theorem stopsAt_punctuation {l : Lexeme} {d : Char} (hl : l.isWhole) (hspace : l ≠ space)
    (hd : isPunctuation d) (hhyphen : d ≠ '-') : l.stopsAt d := by
  have hne := isPunctuation_ne hd
  cases l with
  | space => exact absurd rfl hspace
  | plain text =>
    cases text with
    | nil => rfl
    | cons c cs =>
      rw [stopsAt]
      split
      next => simp [hne]
      next =>
        cases hp : continuation? c with
        | none => rfl
        | some p => simp [continuation?_punctuation hp hd hhyphen]
  | literal quote content =>
    have hquote : isQuote quote := hl
    have : d ≠ quote := by
      rintro rfl
      simp [hne] at hquote
    simp [stopsAt, this]

/-- Nothing goes on with a character of punctuation. -/
theorem stopsAt_of_punctuation {c : Char} (hc : isPunctuation c) (d : Char) :
    (plain [c]).stopsAt d := by
  have hne := isPunctuation_ne hc
  simp [stopsAt, continuation?, hne, hc]

end Lexeme

namespace Piece

/-- The piece is made of whole lexemes. A gap is none. -/
def isWhole : Piece → Bool
  | text t => (Lexeme.plain t.toList).isWhole
  | gap => false
  | _ => true

/-- The lexeme that ends the piece. -/
def last : Piece → Lexeme
  | text t => .plain t.toList
  | string s => .literal '"' s.toList
  | bracedUri _ => .plain ['\x7d']
  | gap => .space

/-- The character that begins the piece. -/
def first? : Piece → Option Char
  | text t => t.toList.head?
  | string _ => some '"'
  | bracedUri _ => some 'Q'
  | gap => some ' '

/-- Side by side, the pieces are read as two. -/
def apart (p q : Piece) : Bool := !p.isWhole || !q.isWhole || q.first?.all p.last.stopsAt

/-- No piece after it goes on with it. -/
def isFinal : Piece → Bool
  | text t => t.toList.length == 1 && t.toList.all Lexeme.isPunctuation
  | string _ => false
  | _ => true

/-- It goes on with no piece before it. -/
def isInitial : Piece → Bool
  | text t => t.toList.head?.any fun c => Lexeme.isPunctuation c && c != '-'
  | gap => true
  | _ => false

/-- A final piece stays apart from whatever comes next. -/
theorem apart_of_isFinal {p : Piece} (h : p.isFinal) (q : Piece) : p.apart q := by
  cases p with
  | text t =>
    obtain ⟨c, hc⟩ : ∃ c, t.toList = [c] := by
      simp only [isFinal, Bool.and_eq_true, beq_iff_eq] at h
      exact List.length_eq_one_iff.mp h.1
    have hpunct : Lexeme.isPunctuation c := by simpa [isFinal, hc] using h
    have hstop : q.first?.all (Lexeme.plain [c]).stopsAt := by
      rw [Option.all_eq_true]
      exact fun d _ => Lexeme.stopsAt_of_punctuation hpunct d
    simp [apart, last, hc, hstop]
  | string s => cases h
  | bracedUri u =>
    have hstop : q.first?.all (Lexeme.plain ['\x7d']).stopsAt := by
      rw [Option.all_eq_true]
      exact fun d _ => Lexeme.stopsAt_of_punctuation (by decide) d
    simp [apart, last, hstop]
  | gap => rfl

/-- The last lexeme of a piece is whole, and is not space. -/
theorem isWhole_last {p : Piece} (h : p.isWhole) : p.last.isWhole ∧ p.last ≠ .space := by
  cases p with
  | text t => exact ⟨h, nofun⟩
  | string s => exact ⟨rfl, nofun⟩
  | bracedUri u => exact ⟨rfl, nofun⟩
  | gap => cases h

/-- Whatever comes first stays apart from an initial piece. -/
theorem apart_of_isInitial (p : Piece) {q : Piece} (h : q.isInitial) : p.apart q := by
  cases hp : p.isWhole with
  | false => simp [apart, hp]
  | true =>
    cases q with
    | text t =>
      obtain ⟨c, hc, hpunct, hhyphen⟩ :
          ∃ c, t.toList.head? = some c ∧ Lexeme.isPunctuation c ∧ c ≠ '-' := by
        simpa [isInitial, Option.any_eq_true] using h
      obtain ⟨hwhole, hspace⟩ := isWhole_last hp
      simp [apart, first?, hc, Lexeme.stopsAt_punctuation hwhole hspace hpunct hhyphen]
    | gap => simp [apart, isWhole]
    | _ => cases h

end Piece

/-! ## Readable pieces -/

open Piece

/-- No two pieces side by side run together. -/
def Readable (ps : List Piece) : Prop := ps.IsChain fun p q => p.apart q

namespace Readable

variable {ps qs ks : List Piece}

theorem nil : Readable [] := List.IsChain.nil

theorem singleton (p : Piece) : Readable [p] := List.IsChain.singleton p

/-- Two parts are readable side by side if the pieces where they meet stay apart. -/
theorem append (hp : Readable ps) (hq : Readable qs)
    (h : ∀ p ∈ ps.getLast?, ∀ q ∈ qs.head?, p.apart q) : Readable (ps ++ qs) :=
  List.isChain_append.mpr ⟨hp, hq, h⟩

/-- A part that begins with punctuation may follow any other. -/
theorem append_initial (hp : Readable ps) (hq : Readable qs) (h : qs.head?.all isInitial) :
    Readable (ps ++ qs) := by
  rw [Option.all_eq_true] at h
  exact hp.append hq fun p _ q hmem => apart_of_isInitial p (h q hmem)

/-- A part that ends with punctuation may stand in front of any other. -/
theorem final_append (hp : Readable ps) (hq : Readable qs) (h : ps.getLast?.all isFinal) :
    Readable (ps ++ qs) := by
  rw [Option.all_eq_true] at h
  exact hp.append hq fun p hmem q _ => apart_of_isFinal (h p hmem) q

end Readable

/-- Pieces that can stand between any two. -/
structure Bridge (ks : List Piece) : Prop where
  ne_nil : ks ≠ []
  readable : Readable ks
  initial : ks.head?.all isInitial
  final : ks.getLast?.all isFinal

namespace Bridge

variable {ps qs ks : List Piece}

/-- One piece that is both initial and final is a bridge. -/
theorem singleton {p : Piece} (h : p.isInitial && p.isFinal) : Bridge [p] := by
  rw [Bool.and_eq_true] at h
  exact ⟨by simp, .singleton p, h.1, h.2⟩

/-- A keyword with its spaces may stand between any two parts. -/
theorem keyword (word : Token) : Bridge (Piece.keyword word) where
  ne_nil := by simp [Piece.keyword]
  readable := by simp [Readable, Piece.keyword, apart, isWhole]
  initial := rfl
  final := rfl

/-- So may a comma with the space behind it. -/
theorem comma : Bridge [text ",", gap] := ⟨by simp, by simp [Readable, apart, isWhole], rfl, rfl⟩

/-- A bridge may stand in front of any part. -/
theorem before (hk : Bridge ks) (hq : Readable qs) : Readable (ks ++ qs) :=
  hk.readable.final_append hq hk.final

/-- A bridge may stand behind any part. -/
theorem after (hk : Bridge ks) (hp : Readable ps) : Readable (ps ++ ks) :=
  hp.append_initial hk.readable hk.initial

/-- Whatever the parts, they are readable with a bridge between them. -/
theorem between (hk : Bridge ks) (hp : Readable ps) (hq : Readable qs) :
    Readable (ps ++ ks ++ qs) := by
  rw [List.append_assoc]
  refine hp.append_initial (hk.before hq) ?_
  rw [List.head?_append_of_ne_nil _ hk.ne_nil]
  exact hk.initial

end Bridge

/-! ## Words -/

namespace Lexeme

/-- A name goes on with the characters of names. -/
theorem continuation?_nameStart {c : Char} (h : Text.isNameStart c) :
    continuation? c = some Text.isNameChar := by
  have hne {d : Char} (hd : Text.isNameStart d = false) : c ≠ d := by
    rintro rfl
    simp [h] at hd
  have hdigit : c.isDigit = false := by
    refine Bool.eq_false_iff.mpr fun hd => ?_
    have hname : Text.startsName (String.singleton c) := by simpa [Text.startsName] using h
    simpa [Token.isDigits, hd] using Token.isDigits_of_startsName hname
  have hpunct : isPunctuation c = false := by
    refine Bool.eq_false_iff.mpr fun hp => ?_
    have := (isPunctuation_ne hp).2.2.2.2.2.2.2.2.2.2 (hne (by decide))
    simp [Text.isNameChar_of_isNameStart h] at this
  have hspecial : c ≠ '.' ∧ c ≠ '/' ∧ c ≠ ':' ∧ c ≠ '<' ∧ c ≠ '=' ∧ c ≠ '>' ∧ c ≠ '|' :=
    ⟨hne rfl, hne rfl, hne rfl, hne rfl, hne rfl, hne rfl, hne rfl⟩
  simp [continuation?, hspecial, hdigit, hpunct, h]

/-- A name stops at the first character that no name has. -/
theorem stopsAt_name {c d : Char} {cs : List Char} (hc : Text.isNameStart c)
    (hd : Text.isNameChar d = false) : (plain (c :: cs)).stopsAt d := by
  have hx : c ≠ '!' := by
    rintro rfl
    exact absurd hc (by decide)
  simp [stopsAt, hx, continuation?_nameStart hc, hd]

/-- A slash goes on with slashes only. -/
theorem stopsAt_slash {l : Lexeme} (hl : l.isWhole) (hspace : l ≠ space)
    (hslash : l.chars.head? ≠ some '/') : l.stopsAt '/' := by
  cases l with
  | space => exact absurd rfl hspace
  | plain text =>
    cases text with
    | nil => rfl
    | cons c cs =>
      have hc : c ≠ '/' := by simpa [chars] using hslash
      rw [stopsAt]
      split
      next => simp
      next =>
        cases hp : continuation? c with
        | none => rfl
        | some p =>
          unfold continuation? at hp
          repeat' split at hp
          all_goals cases hp
          all_goals rfl
  | literal quote content =>
    rcases (by simpa [isWhole, isQuote] using hl :
      quote = '\'' ∨ quote = '"') with rfl | rfl <;> rfl

end Lexeme

namespace Piece

/-- It begins as no operator does that stands without space: neither with a colon nor a slash. -/
def isTerm (p : Piece) : Bool := p.first?.all fun d => d != ':' && d != '=' && d != '/'

/-- A name is a term. -/
theorem isTerm_of_startsName {t : Token} (h : Text.startsName t) : (text t).isTerm := by
  rw [Text.startsName] at h
  cases hcs : t.toList with
  | nil => simp [isTerm, first?, hcs]
  | cons c cs =>
    have hc : Text.isNameStart c := by simpa [hcs] using h
    have hne : c ≠ ':' ∧ c ≠ '=' ∧ c ≠ '/' := by
      refine ⟨?_, ?_, ?_⟩ <;> rintro rfl <;> exact absurd hc (by decide)
    simp [isTerm, first?, hcs, hne]

/-- A number is a term. -/
theorem isTerm_of_isDigits {t : Token} (h : t.isDigits) : (text t).isTerm := by
  obtain ⟨-, hall⟩ := Token.isDigits_iff.mp h
  cases hcs : t.toList with
  | nil => simp [isTerm, first?, hcs]
  | cons c cs =>
    have hc : c.isDigit := by
      rw [hcs, List.all_cons, Bool.and_eq_true] at hall
      exact hall.1
    have hne : c ≠ ':' ∧ c ≠ '=' ∧ c ≠ '/' :=
      ⟨Lexeme.digit_ne hc rfl, Lexeme.digit_ne hc rfl, Lexeme.digit_ne hc rfl⟩
    simp [isTerm, first?, hcs, hne]

/-- What a piece stops at it does not run together with. -/
theorem apart_of_stopsAt {p q : Piece} (h : ∀ d ∈ q.first?, p.last.stopsAt d) : p.apart q := by
  have hall : q.first?.all p.last.stopsAt := by
    rw [Option.all_eq_true]
    exact h
  simp [apart, hall]

/-- No term begins with a character that a colon or a slash goes on with. -/
theorem ne_of_isTerm {q : Piece} (hq : q.isTerm) : ∀ d ∈ q.first?, d ≠ ':' ∧ d ≠ '=' ∧ d ≠ '/' := by
  rw [isTerm, Option.all_eq_true] at hq
  intro d hd
  simpa [and_assoc] using hq d hd

/-- A colon stays apart from a term behind it. -/
theorem colon_apart {t : Token} (ht : t = ":" ∨ t = "::") {q : Piece} (hq : q.isTerm) :
    (text t).apart q := by
  refine apart_of_stopsAt fun d hd => ?_
  obtain ⟨hcolon, hequals, -⟩ := ne_of_isTerm hq d hd
  rcases ht with rfl | rfl <;> simp [last, Lexeme.stopsAt, Lexeme.continuation?, hcolon, hequals]

/-- A name stays apart from a colon behind it. -/
theorem name_apart_colon {t : Token} (ht : Text.startsName t) : (text t).apart (text ":") := by
  refine apart_of_stopsAt fun d hd => ?_
  obtain rfl : ':' = d := Option.some.inj hd
  rw [Text.startsName] at ht
  cases hcs : t.toList with
  | nil => simp [last, hcs, Lexeme.stopsAt]
  | cons c cs =>
    rw [last, hcs]
    exact Lexeme.stopsAt_name (by simpa [hcs] using ht) (by decide)

/-- A slash stays apart from a term behind it. -/
theorem slash_apart {t : Token} (ht : t = "/" ∨ t = "//") {q : Piece} (hq : q.isTerm) :
    (text t).apart q := by
  refine apart_of_stopsAt fun d hd => ?_
  have hslash := (ne_of_isTerm hq d hd).2.2
  rcases ht with rfl | rfl <;> simp [last, Lexeme.stopsAt, Lexeme.continuation?, hslash]

/-- A term stays apart from a slash behind it. -/
theorem apart_slash {t : Token} (ht : t = "/" ∨ t = "//") {p : Piece} (hp : p.isTerm) :
    p.apart (text t) := by
  cases hw : p.isWhole with
  | false => simp [apart, hw]
  | true =>
    refine apart_of_stopsAt fun d hd => ?_
    obtain rfl : '/' = d := by rcases ht with rfl | rfl <;> exact Option.some.inj hd
    obtain ⟨hwhole, hspace⟩ := isWhole_last hw
    refine Lexeme.stopsAt_slash hwhole hspace fun hslash => ?_
    cases p with
    | text t => exact (ne_of_isTerm hp '/' hslash).2.2 rfl
    | string s => exact absurd hslash (by simp [last, Lexeme.chars])
    | bracedUri u => exact absurd hslash (by simp [last, Lexeme.chars])
    | gap => cases hw

theorem digits_apart {t : Token} (ht : t.isDigits) {q : Piece}
    (hq : ∀ d ∈ q.first?, d.isDigit = false) : (text t).apart q :=
  apart_of_stopsAt fun d hd => Lexeme.stopsAt_digits (Token.isDigits_iff.mp ht).2 (hq d hd)

end Piece

/-! ## Terms -/

/-- The first piece can stand after a colon or a slash. -/
def StartsTerm (ps : List Piece) : Prop := ∃ p, ps.head? = some p ∧ p.isTerm

/-- The last piece can stand before a slash. -/
def EndsTerm (ps : List Piece) : Prop := ∃ p, ps.getLast? = some p ∧ p.isTerm

/-- What ends with a term does so behind other pieces. -/
theorem EndsTerm.append {qs : List Piece} (h : EndsTerm qs) (ps : List Piece) :
    EndsTerm (ps ++ qs) := by
  obtain ⟨q, hq, hterm⟩ := h
  exact ⟨q, by rw [List.getLast?_append, hq, Option.some_or], hterm⟩

theorem EndsTerm.append_flatMap {α : Type} {ps : List Piece} (h : EndsTerm ps)
    {g : α → List Piece} :
    ∀ {xs : List α}, (∀ x ∈ xs, EndsTerm (g x)) → EndsTerm (ps ++ xs.flatMap g)
  | [], _ => by simpa using h
  | x :: xs, hg => by
    rw [List.flatMap_cons, ← List.append_assoc]
    exact ((hg x List.mem_cons_self).append ps).append_flatMap fun y hy =>
      hg y (List.mem_cons_of_mem x hy)

namespace Readable

variable {α : Type} {ps qs : List Piece}

/-- A colon or a slash in front of a term. -/
theorem append_term {t : Token} (ht : ∀ {q : Piece}, q.isTerm → (text t).apart q)
    (hq : Readable qs) (hterm : StartsTerm qs) : Readable ([text t] ++ qs) := by
  obtain ⟨u, hu, huterm⟩ := hterm
  refine (singleton (text t)).append hq fun p hp q hmem => ?_
  obtain rfl : text t = p := by simpa using hp
  obtain rfl : u = q := by simpa [hu] using hmem
  exact ht huterm

/-- Parts that begin with punctuation may follow each other in any number. -/
theorem append_flatMap {ps : List Piece} (hp : Readable ps) {g : α → List Piece} : ∀ {xs : List α},
    (∀ x ∈ xs, Readable (g x) ∧ (g x).head?.all isInitial) → Readable (ps ++ xs.flatMap g)
  | [], _ => by simpa using hp
  | x :: xs, hg => by
    obtain ⟨hx, hinitial⟩ := hg x List.mem_cons_self
    rw [List.flatMap_cons, ← List.append_assoc]
    exact (hp.append_initial hx hinitial).append_flatMap fun y hy =>
      hg y (List.mem_cons_of_mem x hy)

/-- Punctuation in any number may stand in front of a part. -/
theorem final_all_append (hq : Readable qs) :
    ∀ {ps : List Piece}, (∀ p ∈ ps, p.isFinal) → Readable (ps ++ qs)
  | [], _ => hq
  | p :: ps, h => by
    have hps := final_all_append hq fun p' hp' => h p' (List.mem_cons_of_mem p hp')
    exact (singleton p).final_append hps (by simpa using h p List.mem_cons_self)

/-- Steps with slashes between. -/
theorem append_steps {ps : List Piece} (hp : Readable ps) (hterm : EndsTerm ps) {slash : α → Token}
    {step : α → List Piece} : ∀ {xs : List α}, (∀ x ∈ xs, (slash x = "/" ∨ slash x = "//") ∧
      Readable (step x) ∧ StartsTerm (step x) ∧ EndsTerm (step x)) →
        Readable (ps ++ xs.flatMap fun x => [text (slash x)] ++ step x)
  | [], _ => by simpa using hp
  | x :: xs, h => by
    obtain ⟨hslash, hstep, hstarts, hends⟩ := h x List.mem_cons_self
    obtain ⟨p, hlast, hpterm⟩ := hterm
    have hlink : Readable ([text (slash x)] ++ step x) :=
      hstep.append_term (slash_apart hslash) hstarts
    have hnext : Readable (ps ++ ([text (slash x)] ++ step x)) := by
      refine hp.append hlink fun p' hp' q hq => ?_
      obtain rfl : p = p' := by simpa [hlast] using hp'
      obtain rfl : text (slash x) = q := by simpa using hq
      exact apart_slash hslash hpterm
    rw [List.flatMap_cons, ← List.append_assoc]
    exact hnext.append_steps ((hends.append _).append _) fun y hy => h y (List.mem_cons_of_mem x hy)

end Readable

end XPath
