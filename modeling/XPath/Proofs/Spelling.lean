import XPath.Grammar.Literal
import XPath.Proofs.Rule
import XPath.Render.Expr

/-!
# Tokens spelling pieces

What a rule takes from a token sequence it gives back when its value is rendered, up to four
liberties (`Spells`): a space may stand in the tokens and a gap in the pieces without the other, a
run of digits loses superfluous zeros, the tokens of a braced URI become one, and the tokens of a
decimal or a double become those of its own text. A string keeps its content and loses only the
choice of its quotes.

`Rule.Sound` says this of a rule, together with what its values are like.
-/

namespace XPath

/-! ## Words and numbers -/

/-- Neither a space nor a quote. -/
def Token.isWord (t : Token) : Bool := !t.isSpace && !t.isQuote

/-- The first two tokens of a number that is not a run of digits. -/
def startsFraction (a b : Token) : Bool :=
  a.isDigits && (b == "." || b == "e" || b == "E" || (Grammar.wholeExponent? b).isSome) ||
    a == "." && b.isDigits

/-- The pieces of a number that is not a run of digits. -/
inductive FractionPieces : List Piece → Prop
  | decimal (d : Decimal) (h : 0 ≤ d.unscaled) : FractionPieces (readPieces d.text)
  | double (x : Double) (hf : x.isFinite) (hn : x.negative = false) :
    FractionPieces (readPieces x.text)

theorem Token.isWord_of_ne {t : Token} (hs : t ≠ " ") (ha : t ≠ "'") (hq : t ≠ "\"") :
    t.isWord := by
  simp [isWord, isSpace, space, isQuote, hs, ha, hq]

/-- A name is a word. -/
theorem Token.isWord_of_startsName {t : Token} (h : Text.startsName t) : t.isWord := by
  apply isWord_of_ne <;> rintro rfl <;> exact absurd h (by decide)

/-- A number is a word. -/
theorem Token.isWord_of_isDigits {t : Token} (h : t.isDigits) : t.isWord := by
  apply isWord_of_ne <;> rintro rfl <;> exact absurd h (by decide)

theorem Token.isSpace_eq_false {t : Token} (h : t.isWord) : t.isSpace = false := by
  rw [isWord, Bool.and_eq_true] at h
  simpa using h.1

theorem Token.isQuote_eq_false {t : Token} (h : t.isWord) : t.isQuote = false := by
  rw [isWord, Bool.and_eq_true] at h
  simpa using h.2

theorem Token.isSpace_of_startsName {t : Token} (h : Text.startsName t) : t.isSpace = false :=
  isSpace_eq_false (isWord_of_startsName h)

theorem Token.isSpace_of_isDigits {t : Token} (h : t.isDigits) : t.isSpace = false :=
  isSpace_eq_false (isWord_of_isDigits h)

theorem Token.isSpace_of_isQuote {t : Token} (h : t.isQuote) : t.isSpace = false := by
  obtain rfl | rfl : t = "'" ∨ t = "\"" := by simpa [isQuote] using h
  all_goals rfl

/-- No space is skipped in front of a word. -/
theorem skipSpace_of_isWord {t : Token} {ts : List Token} (h : t.isWord) :
    Token.skipSpace (t :: ts) = t :: ts :=
  Rule.skipSpace_eq_self fun he => by
    obtain rfl : t = Token.space := by simpa using he
    exact absurd h (by decide)

/-- A tree beside its pieces, as its parent is given it. -/
def Tree.withPieces {ι : Type} (t : Tree ι) : Tree ι × List Piece := (t, t.pieces)

theorem Tree.snd_comp_withPieces {ι : Type} :
    Prod.snd ∘ (withPieces : Tree ι → _) = Tree.pieces :=
  rfl

/-- The pieces of a node are those of its form, with the children beside their pieces. -/
theorem Tree.pieces_node {ι : Type} (l : ι) (f : Form (Tree ι)) :
    (node l f).pieces = (f.map withPieces).pieces :=
  para_node _ l f

/-! ## Spelling -/

/-- The tokens at the front of a sequence spell the pieces, and the last sequence is left. -/
inductive Spells : List Token → List Piece → List Token → Prop
  | nil (ts : List Token) : Spells ts [] ts
  | space {ts ps rest} : Spells ts ps rest → Spells (Token.space :: ts) ps rest
  | gap {ts ps rest} : Spells ts ps rest → Spells ts (.gap :: ps) rest
  | text {t ts ps rest} (ht : t.isWord) : Spells ts ps rest → Spells (t :: ts) (.text t :: ps) rest
  | digits {t ts ps rest} (ht : t.isDigits) : Spells ts ps rest →
    Spells (t :: ts) (.text (Nat.repr (Nat.ofDigitChars 10 t.toList 0)) :: ps) rest
  | fraction {a b w ts qs ps rest} (hab : startsFraction a b) (hw : ∀ t ∈ a :: b :: w, t.isWord)
    (hq : FractionPieces qs) : Spells ts ps rest → Spells (a :: b :: (w ++ ts)) (qs ++ ps) rest
  | string {q s ts ps rest} (hq : q.isQuote) : Spells ts ps rest →
    Spells (q :: s :: q :: ts) (.string s :: ps) rest
  | bracedUri {w ts ps rest} (hw : ∀ t ∈ w, t ≠ "\x7b" ∧ t ≠ "\x7d") : Spells ts ps rest →
    Spells ("Q" :: "\x7b" :: (w ++ "\x7d" :: ts)) (.bracedUri (String.join w) :: ps) rest

namespace Spells

variable {ts mid rest : List Token} {ps qs : List Piece}

theorem append (h : Spells ts ps mid) (h' : Spells mid qs rest) : Spells ts (ps ++ qs) rest := by
  induction h with
  | nil => exact h'
  | space _ ih => exact .space (ih h')
  | gap _ ih => exact .gap (ih h')
  | text ht _ ih => exact .text ht (ih h')
  | digits ht _ ih => exact .digits ht (ih h')
  | fraction hab hw hq _ ih =>
    rw [List.append_assoc]
    exact .fraction hab hw hq (ih h')
  | string hq _ ih => exact .string hq (ih h')
  | bracedUri hw _ ih => exact .bracedUri hw (ih h')

theorem length_le (h : Spells ts ps rest) : rest.length ≤ ts.length := by
  induction h with
  | nil => exact Nat.le_refl _
  | gap _ ih => exact ih
  | _ =>
    simp only [List.length_cons, List.length_append]
    omega

/-- Tokens that begin with a token of their own are longer than what is left. -/
theorem length_lt (h : Spells ts ps rest) {t : Token} (ht : ps.head? = some (.text t)) :
    rest.length < ts.length := by
  induction h with
  | nil => simp at ht
  | gap => simp at ht
  | space _ ih => exact Nat.lt_succ_of_lt (ih ht)
  | text _ h | digits _ h | fraction _ _ _ h | string _ h | bracedUri _ h =>
    have := h.length_le
    simp only [List.length_cons, List.length_append]
    omega

/-- A space in front does not count. -/
theorem of_skipSpace (h : Spells (Token.skipSpace ts) ps rest) : Spells ts ps rest := by
  cases ts with
  | nil => exact h
  | cons t ts =>
    rw [Token.skipSpace] at h
    split at h
    next hs =>
      obtain rfl : t = Token.space := by simpa [Token.isSpace] using hs
      exact .space h
    · exact h

/-- A word that comes next spells itself. -/
theorem word {t : Token} (ht : t.isWord) (h : Token.skipSpace ts = t :: rest) :
    Spells ts [.text t] rest :=
  of_skipSpace (h ▸ .text ht (.nil rest))

/-- So it does with the spaces that it is rendered with. -/
theorem keyword {t : Token} (ht : t.isWord) (h : Token.skipSpace ts = t :: rest) :
    Spells ts (Piece.keyword t) rest :=
  .gap (append (word ht h) (.gap (.nil rest)))

/-- What stands between two brackets. -/
theorem bracketed {opening closing : Token} {ts' : List Token} (ho : opening.isWord)
    (hc : closing.isWord) (hts : Token.skipSpace ts = opening :: ts') (h : Spells ts' ps mid)
    (hmid : Token.skipSpace mid = closing :: rest) :
    Spells ts ([.text opening] ++ ps ++ [.text closing]) rest :=
  ((word ho hts).append h).append (word hc hmid)

/-- Words that are read one after another spell these words. -/
theorem words {expected : String} {ws : List Token} (hws : ∀ w ∈ ws, w.isWord)
    (h : Rule.words expected ws ts = .ok ((), rest)) :
    Spells ts (ws.flatMap Piece.keyword) rest := by
  induction ws generalizing ts with
  | nil =>
    obtain ⟨-, rfl⟩ := Rule.pure_eq_ok.mp h
    exact .nil ts
  | cons w ws ih =>
    obtain ⟨mid, ht, h⟩ := Rule.words_cons_eq_ok.mp h
    rw [List.flatMap_cons]
    exact (keyword (hws w (by simp)) ht).append (ih (fun w hw => hws w (by simp [hw])) h)

end Spells

/-! ## Sound rules -/

namespace Rule

variable {α β ω : Type}

/-- What the rule reads is spelled by what it takes, and `P` holds of it and of what it leaves. -/
def Sound (r : Rule α) (pieces : α → List Piece) (P : α → List Token → Prop) : Prop :=
  ∀ ⦃ts a rest⦄, r ts = .ok (a, rest) → Spells ts (pieces a) rest ∧ P a rest

/-- A sound rule takes a token at least. -/
theorem Sound.shrinks {r : Rule α} {pieces : α → List Piece} {P : α → List Token → Prop}
    (hr : r.Sound pieces P) : r.Shrinks :=
  fun _ _ _ h => (hr h).1.length_le

/-- A sound rule stays so if its value is changed, pieces and all. -/
theorem Sound.map {r : Rule α} {pieces : α → List Piece} {pieces' : β → List Piece}
    {P : α → Prop} {P' : β → Prop} {f : α → β} (hr : r.Sound pieces fun a _ => P a)
    (hpieces : ∀ a, pieces' (f a) = pieces a) (hP : ∀ a, P a → P' (f a)) :
    (f <$> r).Sound pieces' fun b _ => P' b := by
  intro ts b rest h
  obtain ⟨a, mid, ha, h⟩ := bind_eq_ok.mp h
  obtain ⟨rfl, rfl⟩ := pure_eq_ok.mp h
  obtain ⟨hs, hp⟩ := hr ha
  exact ⟨hpieces a ▸ hs, hP a hp⟩

section Links

variable {read : Token → Option ω} {right : Rule α} {pieces : α → List Piece}
  {P : α → List Token → Prop} {ts rest : List Token} {others : List (ω × α)}

/-- Links spell their operators and operands, one after another. -/
theorem Links.spells (operatorPieces : ω → List Piece) (hr : right.Sound pieces P)
    (hop : ∀ {ts mid t op}, Token.skipSpace ts = t :: mid → read t = some op →
      Spells ts (operatorPieces op) mid) (h : Links read right ts others rest) :
    Spells ts (others.flatMap fun x => operatorPieces x.1 ++ pieces x.2) rest := by
  induction h with
  | nil => exact .nil _
  | cons ht hread hb _ _ ih =>
    rw [List.flatMap_cons]
    exact ((hop ht hread).append (hr hb).1).append ih

/-- What holds of all that the rule reads holds of every operand. -/
theorem Links.forall_mem (hr : right.Sound pieces P) (h : Links read right ts others rest) :
    ∀ x ∈ others, ∃ rest', P x.2 rest' := by
  induction h with
  | nil => simp
  | cons _ _ hb _ _ ih =>
    rintro x (_ | ⟨_, hx⟩)
    · exact ⟨_, (hr hb).2⟩
    · exact ih x hx

/-- Every operator has been read from a token. -/
theorem Links.read_of_mem {right : Rule β} {others : List (ω × β)}
    (h : Links read right ts others rest) : ∀ x ∈ others, ∃ t, read t = some x.1 := by
  induction h with
  | nil => simp
  | cons _ hop _ _ _ ih =>
    rintro x (_ | ⟨_, hx⟩)
    · exact ⟨_, hop⟩
    · exact ih x hx

/-- The last operand is the one at which the links end. -/
theorem Links.last {first : α} (hfirst : P first ts) (hr : right.Sound pieces P)
    (h : Links read right ts others rest) :
    P ((others.getLast?.map Prod.snd).getD first) rest := by
  induction h generalizing first with
  | nil => exact hfirst
  | @cons _ _ _ _ _ _ b others _ _ hb _ _ ih =>
    have := ih (hr hb).2
    cases others with
    | nil => exact this
    | cons x others => rwa [List.getLast?_cons_cons]

/-- Every operand but the last stands in front of an operator. -/
theorem Links.followed {first : α} (hfirst : P first ts) (hr : right.Sound pieces P)
    (h : Links read right ts others rest) :
    ∀ p ∈ (first :: others.map Prod.snd).zip (others.map Prod.fst), ∃ mid t more,
      P p.1 mid ∧ Token.skipSpace mid = t :: more ∧ read t = some p.2 := by
  induction h generalizing first with
  | nil => simp
  | cons ht hop hb _ _ ih =>
    rintro p (_ | ⟨_, hp⟩)
    · exact ⟨_, _, _, hfirst, ht, hop⟩
    · exact ih (hr hb).2 p hp

end Links

/-- A repetition of a sound rule is sound. -/
theorem many_sound {next? : Rule (Option α)} {pieces : α → List Piece} {P : α → Prop}
    (hn : Advances next?)
    (hr : ∀ ⦃ts a mid⦄, next? ts = .ok (some a, mid) → Spells ts (pieces a) mid ∧ P a) :
    (many next?).Sound (fun as => as.flatMap pieces) fun as _ => ∀ a ∈ as, P a := by
  intro ts as rest h
  obtain ⟨hs, -⟩ := (many_eq_ok hn).mp h
  clear h
  induction hs with
  | nil ts => exact ⟨.nil ts, by simp⟩
  | cons h _ _ ih =>
    obtain ⟨hs, hp⟩ := hr h
    simp only [List.flatMap_cons]
    refine ⟨hs.append ih.1, ?_⟩
    rintro a (_ | ⟨_, ha⟩)
    · exact hp
    · exact ih.2 a ha

/-- A list is its first part, and the others behind commas. -/
theorem commaSeparated_cons (ps : List Piece) (qs : List (List Piece)) :
    Piece.commaSeparated (ps :: qs) =
      ps ++ qs.flatMap fun q => [.text ",", .gap] ++ q := by
  induction qs generalizing ps with
  | nil => simp [Piece.commaSeparated]
  | cons q qs ih => rw [Piece.commaSeparated, ih q, List.flatMap_cons, List.append_assoc,
      List.append_assoc]; simp

/-- `,` and the space after it. -/
theorem spells_comma {ts rest : List Token} (h : Token.skipSpace ts = "," :: rest) :
    Spells ts [.text ",", .gap] rest :=
  Spells.append (Spells.word rfl h) (.gap (.nil _))

theorem separator_eq {t : Token} {s : Separator} (h : Spelled.ofToken? t = some s) : t = "," :=
  (Spelled.spelling_of_ofToken? h).symm

/-- The items of a list, of which the last is read where the list is. -/
theorem commaList_sound {item : Rule α} {pieces : α → List Piece} {P : α → List Token → Prop}
    (hi : item.Sound pieces P) :
    (commaList item).Sound (fun as => Piece.commaSeparated (as.map pieces)) fun as rest =>
      as ≠ [] ∧ (∀ a ∈ as, ∃ mid, P a mid) ∧ ∀ a ∈ as.getLast?, P a rest := by
  intro ts as rest h
  obtain ⟨first, others, mid, rfl, hfirst, hl⟩ := links_of_commaList hi.shrinks h
  obtain ⟨hs, hp⟩ := hi hfirst
  refine ⟨?_, by simp, ?_, ?_⟩
  · simp only [List.map_cons, commaSeparated_cons, List.map_map, List.flatMap_map]
    exact hs.append (hl.spells _ hi fun ht hop => spells_comma (separator_eq hop ▸ ht))
  · rintro a (_ | ⟨_, ha⟩)
    · exact ⟨mid, hp⟩
    · obtain ⟨x, hx, rfl⟩ := List.mem_map.mp ha
      exact hl.forall_mem hi x hx
  · intro a ha
    have := hl.last hp hi
    rw [List.getLast?_cons, List.getLast?_map, Option.mem_some_iff] at ha
    rwa [← ha]

/-- A list of what a sound rule reads is sound. -/
theorem separated_sound {closing : Token} {item : Rule α} {pieces : α → List Piece}
    {P : α → List Token → Prop} (hi : item.Sound pieces P) :
    (separated closing item).Sound (fun as => Piece.commaSeparated (as.map pieces)) fun as _ =>
      ∀ a ∈ as, ∃ mid, P a mid := by
  intro ts as rest h
  obtain ⟨-, rfl, rfl⟩ | ⟨-, h⟩ := separated_eq_ok.mp h
  · exact ⟨.nil _, by simp⟩
  · obtain ⟨hs, -, hp, -⟩ := commaList_sound hi h
    exact ⟨hs, hp⟩

end Rule

end XPath
