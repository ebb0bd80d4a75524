import XPath.Proofs.Canonical

/-!
# Reading what is written

A rule reads a value from its tokens if it does so after a space or none, whatever follows
(`Rule.Reads`). What follows has to be such that nothing else is read: every token that may stand
after an expression has the rank of the construct it continues (`Token.rank`), and an expression of
some rank ends in front of tokens of lower rank (`Ends`).

A repetition reads its parts if every part is read in front of the parts after it
(`Rule.links_of_lay`, `Rule.commaList_reads`, `Rule.many_reads`).
-/

namespace XPath

/-! ## What follows -/

namespace Token

/-- Tokens after an expression, with the rank of the construct that they continue. -/
def ranks : List (Token × Nat) :=
  [")", "]", "\x7d", ":", ",", "return", "satisfies", "else"].map (·, 0) ++
    (Spelled.all : List ChainOp).map (fun op => (Spelled.spelling op, op.level.rank)) ++
    (Spelled.all : List ComparisonOp).map (fun op => (Spelled.spelling op, 4)) ++
    [("to", 6), ("instance", 11), ("treat", 12), ("castable", 13), ("cast", 14), ("=>", 15),
      ("[", 20), ("(", 20), ("?", 20)]

/-- The rank of the construct that the token continues, and of primary expressions if it is none
that stands after an expression. -/
def rank (t : Token) : Nat := (ranks.lookup t).getD 21

/-- An operator has the rank of its level. -/
theorem rank_chainOp (op : ChainOp) : rank (Spelled.spelling op) = op.level.rank := by
  cases op <;> decide

/-- Comparisons have one rank. -/
theorem rank_comparisonOp (op : ComparisonOp) : rank (Spelled.spelling op) = 4 := by
  cases op <;> decide

theorem mem_of_lookup {α : Type} {t : Token} {a : α} {l : List (Token × α)}
    (h : l.lookup t = some a) : (t, a) ∈ l := by
  induction l with
  | nil => cases h
  | cons p l ih =>
    rw [List.lookup_cons] at h
    by_cases hp : t = p.1
    · obtain rfl : p.2 = a := by simpa [hp] using h
      rw [hp]
      exact List.mem_cons_self
    · have : (t == p.1) = false := by simpa using hp
      rw [this] at h
      exact List.mem_cons_of_mem p (ih h)

/-- What holds of all tokens of the table holds of those that rank below primary expressions. -/
theorem of_rank_lt {P : Token → Prop} (hP : ∀ p ∈ ranks, P p.1) {t : Token} (h : t.rank < 21) :
    P t := by
  cases hl : ranks.lookup t with
  | none =>
    rw [rank, hl] at h
    exact absurd h (Nat.lt_irrefl 21)
  | some k => exact hP _ (mem_of_lookup hl)

end Token

/-- An expression of the rank, or of a higher one, is not continued by what is left. -/
structure Ends (rank : Nat) (rest : List Token) : Prop where
  rank_lt : ∀ t ∈ (Token.skipSpace rest).head?, t.rank < rank
  ne_colon : rest.head? ≠ some ":"

/-- The token, after a space or none, and what is left after it. -/
def Follows (t : Token) (rest mid : List Token) : Prop :=
  rest = t :: mid ∨ rest = Token.space :: t :: mid

/-- What follows comes next. -/
theorem Follows.skipSpace_eq {t : Token} {rest mid : List Token} (h : Follows t rest mid)
    (ht : t.isWord) : Token.skipSpace rest = t :: mid := by
  rcases h with rfl | rfl
  · exact skipSpace_of_isWord ht
  · rfl

namespace Ends

variable {j k : Nat} {rest : List Token}

/-- What ends expressions of a rank ends those of a higher one. -/
theorem mono (h : Ends j rest) (hjk : j ≤ k) : Ends k rest :=
  ⟨fun t ht => Nat.lt_of_lt_of_le (h.rank_lt t ht) hjk, h.ne_colon⟩

/-- The end of the tokens ends every expression. -/
theorem nil : Ends k [] := ⟨by simp [Token.skipSpace], by simp⟩

/-- A word of a lower rank ends an expression. -/
theorem of_follows {t : Token} {mid : List Token} (h : Follows t rest mid) (ht : t.isWord)
    (hrank : t.rank < k) (hcolon : t ≠ ":") : Ends k rest := by
  refine ⟨fun u hu => ?_, ?_⟩
  · rw [h.skipSpace_eq ht] at hu
    obtain rfl : t = u := by simpa using hu
    exact hrank
  · rcases h with rfl | rfl
    · simpa using hcolon
    · simp [Token.space]

/-- A token of the rank or a higher one does not come next. -/
theorem not_isNext (h : Ends k rest) {t : Token} (ht : k ≤ t.rank) :
    Rule.isNext t rest = false := by
  rw [← Bool.not_eq_true, Rule.isNext_iff]
  intro he
  exact Nat.not_lt.mpr ht (h.rank_lt t he)

/-- Nor does it stand there at once. -/
theorem head?_ne (h : Ends k rest) {t : Token} (ht : k ≤ t.rank) (hs : t.isSpace = false) :
    rest.head? ≠ some t := by
  intro he
  obtain ⟨us, rfl⟩ := List.head?_eq_some_iff.mp he
  have : Token.skipSpace (t :: us) = t :: us := by simp [Token.skipSpace, hs]
  exact Nat.not_lt.mpr ht (h.rank_lt t (by simp [this]))

/-- No operator of a level that binds tighter. -/
theorem read_eq_none {ω : Type} {read : Token → Option ω} (h : Ends k rest)
    (hread : ∀ t op, read t = some op → k ≤ t.rank) :
    ∀ t ∈ (Token.skipSpace rest).head?, read t = none := by
  intro t ht
  cases hr : read t with
  | none => rfl
  | some op => exact absurd (h.rank_lt t ht) (Nat.not_lt.mpr (hread t op hr))

end Ends

/-! ## Layout between parts -/

namespace Piece

variable {σ : UriTokens}

/-- A keyword is laid out with a space on both sides. -/
theorem lay_keyword {t : Token} (h : t.isWord) (ps : List Piece) :
    lay σ false (keyword t ++ ps) = Token.space :: t :: Token.space :: write σ ps := by
  rw [keyword, List.cons_append, List.cons_append, List.singleton_append, lay_gap_false,
    lay_text h, lay_gap_false, write]

/-- A comma is laid out with a space behind it. -/
theorem lay_comma (ps : List Piece) :
    lay σ false ([text ",", gap] ++ ps) = "," :: Token.space :: write σ ps := by
  rw [List.cons_append, List.singleton_append, lay_text rfl, lay_gap_false, write]

/-- A word is written as it is. -/
theorem write_text {t : Token} (h : t.isWord) (ps : List Piece) :
    write σ (text t :: ps) = t :: lay σ false ps :=
  lay_text h true ps

theorem write_word {t : Token} (h : t.isWord) (rest : List Token) :
    write σ [text t] ++ rest = t :: rest := by
  rw [write_text h]
  rfl

theorem lay_word {t : Token} (h : t.isWord) (rest : List Token) :
    lay σ false [text t] ++ rest = t :: rest := by
  rw [lay_text h]
  rfl

/-- Solid pieces are laid out as they are written. -/
theorem lay_false_of_solid {ps : List Piece} (h : Solid ps) (qs : List Piece) :
    lay σ false (ps ++ qs) = write σ ps ++ lay σ false qs :=
  lay_solid h false qs

/-- What comes behind solid pieces does not change how these are written. -/
theorem write_solid_append {ps : List Piece} (h : Solid ps) (qs : List Piece) :
    write σ (ps ++ qs) = write σ ps ++ lay σ false qs :=
  lay_solid h true qs

/-- No space comes first. -/
theorem head?_write {ps : List Piece} (h : Starts ps) (rest : List Token) :
    (write σ ps ++ rest).head? ≠ some Token.space := by
  cases ps with
  | nil => cases h
  | cons p ps =>
    cases p with
    | text t =>
      rw [write_text h, List.cons_append, List.head?_cons]
      intro he
      have ht : t.isWord := h
      rw [Option.some.inj he] at ht
      exact absurd ht (by decide)
    | string s => simp [write, lay, Token.space]
    | bracedUri u => simp [write, lay, Token.space]
    | gap => cases h

/-- Pieces that start with a token have one. -/
theorem length_write_pos (σ : UriTokens) {ps : List Piece} (h : Starts ps) :
    0 < (write σ ps).length := by
  cases ps with
  | nil => cases h
  | cons p ps =>
    cases p with
    | gap => cases h
    | _ => simp [write, lay]

/-- No space is written in front. -/
theorem skipSpace_write {ps : List Piece} (h : Starts ps) (rest : List Token) :
    Token.skipSpace (write σ ps ++ rest) = write σ ps ++ rest :=
  Rule.skipSpace_eq_self (head?_write h rest)

/-- The first token is that of the pieces. -/
theorem head?_write_append {ps : List Piece} (h : Starts ps) (rest : List Token) :
    (write σ ps ++ rest).head? = (write σ ps).head? :=
  List.head?_append_of_ne_nil _ (List.length_pos_iff.mp (length_write_pos σ h))

end Piece

/-- What does not stand behind the space does not come next. -/
theorem Rule.isNext_eq_false {t : Token} {ts : List Token}
    (h : (Token.skipSpace ts).head? ≠ some t) : isNext t ts = false := by
  rw [← Bool.not_eq_true, isNext_iff]
  exact h

/-- Only the token that follows comes next. -/
theorem Rule.isNext_of_follows {t u : Token} {rest mid : List Token} (h : Follows t rest mid)
    (ht : t.isWord) (hne : t ≠ u) : isNext u rest = false := by
  refine isNext_eq_false ?_
  rw [h.skipSpace_eq ht]
  simpa using hne

theorem Rule.isNext_cons {t : Token} (ht : t.isWord) (ts : List Token) :
    isNext t (t :: ts) = true :=
  isNext_iff_cons.mpr ⟨ts, skipSpace_of_isWord ht⟩

/-- What does not begin the pieces does not come next. -/
theorem Rule.isNext_write {σ : UriTokens} {ps : List Piece} (h : Starts ps) {t : Token}
    (rest : List Token) (ht : (Piece.write σ ps).head? ≠ some t) :
    isNext t (Piece.write σ ps ++ rest) = false := by
  refine isNext_eq_false ?_
  rwa [Piece.skipSpace_write h, Piece.head?_write_append h]

/-- Between two parts stands the token, and the second part is written in full. -/
def Separates (σ : UriTokens) (t : Token) (sep : List Piece) : Prop :=
  ∀ ps rest, Starts ps → ∃ mid, Follows t (Piece.lay σ false (sep ++ ps) ++ rest) mid ∧
    Token.skipSpace mid = Piece.write σ ps ++ rest

/-- A keyword separates its operands by itself. -/
theorem separates_keyword (σ : UriTokens) {t : Token} (h : t.isWord) :
    Separates σ t (Piece.keyword t) := by
  intro ps rest hs
  rw [Piece.lay_keyword h]
  exact ⟨_, .inr rfl, rfl⟩

/-- So does a comma. -/
theorem separates_comma (σ : UriTokens) : Separates σ "," [.text ",", .gap] := by
  intro ps rest hs
  rw [Piece.lay_comma]
  exact ⟨_, .inl rfl, rfl⟩

/-- So does a word without spaces. -/
theorem separates_text (σ : UriTokens) {t : Token} (h : t.isWord) : Separates σ t [.text t] := by
  intro ps rest hs
  rw [List.singleton_append, Piece.lay_text h, Piece.lay_of_starts hs]
  exact ⟨_, .inl rfl, Piece.skipSpace_write hs rest⟩

namespace Rule

variable {α β ω : Type} {σ : UriTokens}

/-! ## Reading -/

/-- The rule reads `a` from the tokens, after a space or none, and leaves what follows them. -/
def Reads (r : Rule α) (ts : List Token) (a : α) (rest : List Token) : Prop :=
  ∀ us, Token.skipSpace us = ts ++ rest → r us = .ok (a, rest)

/-- What is written is read. -/
theorem Reads.write {r : Rule α} {ps : List Piece} {a : α} {rest : List Token}
    (h : r.Reads (Piece.write σ ps) a rest) (hs : Starts ps) :
    r (Piece.write σ ps ++ rest) = .ok (a, rest) :=
  h _ (Piece.skipSpace_write hs rest)

/-- A space in front of it does not change this. -/
theorem Reads.space {r : Rule α} {ts rest : List Token} {a : α} (h : r.Reads ts a rest) :
    r (Token.space :: (ts ++ rest)) = .ok (a, rest) :=
  h _ rfl

/-- A changed value is read where the value is. -/
theorem Reads.map {r : Rule α} {ts rest : List Token} {a : α} (h : r.Reads ts a rest) (f : α → β) :
    (f <$> r).Reads ts (f a) rest := by
  intro us hus
  rw [map_apply, bind_of_ok (h us hus), pure_apply]

/-! ## Repetition -/

section Links

variable {read : Token → Option ω} {right : Rule β} (sep : ω → List Piece)
  (pieces : α → List Piece) (value : α → β) {others : List (ω × α)} (rest : List Token)

/-- The operators and operands after the first operand. -/
def linkTokens (σ : UriTokens) (sep : ω → List Piece) (pieces : α → List Piece)
    (others : List (ω × α)) (rest : List Token) : List Token :=
  Piece.lay σ false (others.flatMap fun x => sep x.1 ++ pieces x.2) ++ rest

/-- The first link begins with its operator, and goes on with its operand. -/
theorem linkTokens_cons {x : ω × α} (hs : Solid (pieces x.2)) {t : Token}
    (hsep : Separates σ t (sep x.1)) :
    ∃ mid, Follows t (linkTokens σ sep pieces (x :: others) rest) mid ∧
      Token.skipSpace mid =
        Piece.write σ (pieces x.2) ++ linkTokens σ sep pieces others rest := by
  have hstart := hs.starts.append (others.flatMap fun x => sep x.1 ++ pieces x.2)
  obtain ⟨mid, hmid, hskip⟩ := hsep _ rest hstart
  refine ⟨mid, ?_, ?_⟩
  · rwa [linkTokens, List.flatMap_cons, List.append_assoc]
  · rw [hskip, Piece.write_solid_append hs, List.append_assoc]
    rfl

/-- Links are read if every operand is, in front of the links after it. -/
theorem links_of_lay (hsolid : ∀ x ∈ others, Solid (pieces x.2))
    (hsep : ∀ x ∈ others, ∃ t, t.isWord ∧ read t = some x.1 ∧ Separates σ t (sep x.1))
    (hread : ∀ l₁ x l₂, others = l₁ ++ x :: l₂ →
      right.Reads (Piece.write σ (pieces x.2)) (value x.2) (linkTokens σ sep pieces l₂ rest))
    (hend : ∀ t ∈ (Token.skipSpace rest).head?, read t = none) :
    Links read right (linkTokens σ sep pieces others rest)
      (others.map fun x => (x.1, value x.2)) rest := by
  induction others with
  | nil => exact .nil hend
  | cons x others ih =>
    obtain ⟨t, hword, ht, hsep'⟩ := hsep x (by simp)
    obtain ⟨mid, hmid, hskip⟩ := linkTokens_cons sep pieces rest (hsolid x (by simp)) hsep'
    refine .cons (hmid.skipSpace_eq hword) ht (hread [] x others rfl mid hskip) ?_
      (ih (fun y hy => hsolid y (by simp [hy])) (fun y hy => hsep y (by simp [hy]))
        fun l₁ y l₂ h => hread (x :: l₁) y l₂ (by rw [h, List.cons_append]))
    have := length_skipSpace_le mid
    rw [hskip, List.length_append] at this
    omega

end Links

section Lists

variable {pieces : α → List Piece} {value : α → β} {as : List α} {rest : List Token}

/-- A comma and a gap in front of every item but the first. -/
def commaTokens (σ : UriTokens) (pieces : α → List Piece) (as : List α) (rest : List Token) :
    List Token :=
  linkTokens σ (fun _ => [.text ",", .gap]) pieces (as.map (Separator.comma, ·)) rest

/-- A list is written as its first part, and the others behind commas. -/
theorem write_commaSeparated {a : α} (h : Solid (pieces a)) :
    Piece.write σ (Piece.commaSeparated ((a :: as).map pieces)) ++ rest =
      Piece.write σ (pieces a) ++ commaTokens σ pieces as rest := by
  have hlist : Piece.commaSeparated ((a :: as).map pieces) = pieces a ++
      (as.map (Separator.comma, ·)).flatMap fun x => [.text ",", .gap] ++ pieces x.2 := by
    rw [List.map_cons, commaSeparated_cons, List.flatMap_map, List.flatMap_map]
  rw [hlist, Piece.write_solid_append h, List.append_assoc]
  rfl

/-- Behind the first part of a list comes a comma. -/
theorem commaTokens_cons (rest : List Token) {a : α} (h : Solid (pieces a)) :
    ∃ mid, Follows "," (commaTokens σ pieces (a :: as) rest) mid := by
  obtain ⟨mid, hmid, -⟩ := linkTokens_cons (fun _ : Separator => [.text ",", .gap]) pieces rest
    (x := (Separator.comma, a)) h (separates_comma σ)
  exact ⟨mid, hmid⟩

/-- A list is read if each of its items is, in front of a comma or of what ends the list. -/
theorem commaList_reads {item : Rule β} (hne : as ≠ []) (hsolid : ∀ a ∈ as, Solid (pieces a))
    (hread : ∀ a ∈ as, ∀ rest' mid, Follows "," rest' mid →
      item.Reads (Piece.write σ (pieces a)) (value a) rest')
    (hlast : ∀ a ∈ as.getLast?, item.Reads (Piece.write σ (pieces a)) (value a) rest)
    (hend : isNext "," rest = false) :
    (commaList item).Reads (Piece.write σ (Piece.commaSeparated (as.map pieces)))
      (as.map value) rest := by
  obtain ⟨first, others, rfl⟩ := List.exists_cons_of_ne_nil hne
  have hbefore : ∀ l₁ a l₂, first :: others = l₁ ++ a :: l₂ →
      item.Reads (Piece.write σ (pieces a)) (value a) (commaTokens σ pieces l₂ rest) := by
    intro l₁ a l₂ h
    cases l₂ with
    | nil => exact hlast a (by rw [h, List.getLast?_append]; simp)
    | cons b l₂ =>
      obtain ⟨mid, hmid⟩ := commaTokens_cons rest (hsolid b (by rw [h]; simp))
      exact hread a (by rw [h]; simp) _ mid hmid
  intro us hus
  rw [write_commaSeparated (hsolid first (by simp))] at hus
  suffices hlinks : Links (Spelled.ofToken? : Token → Option Separator) item
      (commaTokens σ pieces others rest)
      ((others.map (Separator.comma, ·)).map fun x => (x.1, value x.2)) rest by
    rw [commaList_of_links (hbefore [] first others rfl us hus) hlinks, List.map_map, List.map_map,
      List.map_cons]
    rfl
  refine links_of_lay _ pieces value rest ?_ ?_ ?_ ?_
  · simpa using fun b hb => hsolid b (by simp [hb])
  · rintro ⟨⟨⟩, b⟩ -
    exact ⟨",", rfl, rfl, separates_comma σ⟩
  · intro l₁ x l₂ h
    obtain ⟨m₁, m₂, rfl, rfl, hm⟩ := List.map_eq_append_iff.mp h
    obtain ⟨a, m₃, rfl, rfl, rfl⟩ := List.map_eq_cons_iff.mp hm
    exact hbefore (first :: m₁) a m₃ rfl
  · intro t ht
    cases hr : (Spelled.ofToken? t : Option Separator) with
    | none => rfl
    | some op =>
      rw [separator_eq hr] at ht
      rw [isNext_iff.mpr ht] at hend
      cases hend

/-- Steps are found one after another, each in front of those after it. -/
theorem many_reads {next? : Rule (Option β)} (hsolid : ∀ a ∈ as, Solid (pieces a))
    (hread : ∀ l₁ a l₂, as = l₁ ++ a :: l₂ →
      next?.Reads (Piece.write σ (pieces a)) (some (value a))
        (Piece.lay σ false (l₂.flatMap pieces) ++ rest))
    (hend : next? rest = .ok (none, rest)) :
    many next? (Piece.lay σ false (as.flatMap pieces) ++ rest) = .ok (as.map value, rest) := by
  refine many_of_steps ?_ hend
  induction as with
  | nil => exact .nil rest
  | cons a as ih =>
    have ha := hsolid a (by simp)
    have hread' := (hread [] a as rfl).write ha.starts
    have hlen := Piece.length_write_pos σ ha.starts
    rw [List.flatMap_cons, Piece.lay_false_of_solid ha, List.append_assoc]
    refine .cons hread' ?_ (ih (fun b hb => hsolid b (by simp [hb])) fun l₁ b l₂ h =>
      hread (a :: l₁) b l₂ (by rw [h, List.cons_append]))
    simp only [List.length_append]
    omega

end Lists

/-! ## Brackets -/

/-- The rule reads up to the closing token, with which the tokens end. -/
def ReadsUntil (closing : Token) (body : Rule α) (ts : List Token) (a : α)
    (rest : List Token) : Prop :=
  ∃ mid, body (ts ++ rest) = .ok (a, mid) ∧ Token.skipSpace mid = closing :: rest

/-- What is read in front of a closing token is read up to it. -/
theorem Reads.until {closing : Token} {body : Rule α} {ps : List Piece} {a : α}
    {rest : List Token} (hc : closing.isWord) (hs : Solid ps)
    (h : body.Reads (Piece.write σ ps) a (closing :: rest)) :
    body.ReadsUntil closing (Piece.lay σ false (ps ++ [.text closing])) a rest := by
  refine ⟨closing :: rest, ?_, skipSpace_of_isWord hc⟩
  rw [Piece.lay_false_of_solid hs, Piece.lay_text hc, List.append_assoc]
  exact h.write hs.starts

/-- A list of solid parts is solid. -/
theorem solid_commaSeparated {ps : List Piece} {qs : List (List Piece)} (h : Solid ps)
    (hq : ∀ q ∈ qs, Solid q) : Solid (Piece.commaSeparated (ps :: qs)) := by
  rw [commaSeparated_cons]
  exact ⟨h.starts.append _, h.closes.append_flatMap fun q hq' => (hq q hq').closes.append _⟩

/-- A list does not begin with a token that none of its parts begins with. -/
theorem isNext_list {closing u : Token} {pieces : α → List Piece} {as : List α}
    (rest : List Token) (hc : closing.isWord) (hu : closing ≠ u)
    (hsolid : ∀ a ∈ as, Solid (pieces a))
    (hstart : ∀ a ∈ as, (Piece.write σ (pieces a)).head? ≠ some u) :
    isNext u (Piece.lay σ false (Piece.commaSeparated (as.map pieces) ++ [.text closing]) ++ rest) =
      false := by
  cases as with
  | nil =>
    rw [List.map_nil, Piece.commaSeparated, List.nil_append, Piece.lay_word hc]
    exact isNext_of_follows (.inl rfl) hc hu
  | cons a as =>
    have ha := hsolid a (by simp)
    have hs : Solid (Piece.commaSeparated ((a :: as).map pieces)) :=
      solid_commaSeparated ha (by simpa using fun b hb => hsolid b (by simp [hb]))
    rw [Piece.lay_false_of_solid hs, List.append_assoc, write_commaSeparated ha]
    exact isNext_write ha.starts _ (hstart a (by simp))

/-- A list that may be empty, up to its bracket. -/
theorem separated_reads {closing : Token} {item : Rule β} {pieces : α → List Piece} {value : α → β}
    {as : List α} {rest : List Token} (hc : closing.isWord) (hcomma : closing ≠ ",")
    (hsolid : ∀ a ∈ as, Solid (pieces a))
    (hstart : ∀ a ∈ as, (Piece.write σ (pieces a)).head? ≠ some closing)
    (hread : ∀ a ∈ as, ∀ t rest' mid, t = "," ∨ t = closing → Follows t rest' mid →
      item.Reads (Piece.write σ (pieces a)) (value a) rest') :
    (separated closing item).ReadsUntil closing
      (Piece.lay σ false (Piece.commaSeparated (as.map pieces) ++ [.text closing])) (as.map value)
      rest := by
  cases as with
  | nil =>
    refine ⟨closing :: rest, separated_eq_ok.mpr (.inl ⟨?_, rfl, ?_⟩), skipSpace_of_isWord hc⟩
    · rw [List.map_nil, Piece.commaSeparated, List.nil_append, Piece.lay_word hc]
      exact isNext_cons hc rest
    · rw [List.map_nil, Piece.commaSeparated, List.nil_append, Piece.lay_text hc]
      rfl
  | cons a as =>
    have ha := hsolid a (by simp)
    have hs : Solid (Piece.commaSeparated ((a :: as).map pieces)) :=
      solid_commaSeparated ha (by simpa using fun b hb => hsolid b (by simp [hb]))
    suffices hlist : (commaList item).Reads
        (Piece.write σ (Piece.commaSeparated ((a :: as).map pieces))) ((a :: as).map value)
        (closing :: rest) by
      obtain ⟨mid, hmid, hskip⟩ := hlist.until hc hs
      refine ⟨mid, separated_eq_ok.mpr (.inr ⟨?_, hmid⟩), hskip⟩
      rw [Piece.lay_false_of_solid hs, List.append_assoc, write_commaSeparated ha]
      exact isNext_write ha.starts _ (hstart a (by simp))
    exact commaList_reads (List.cons_ne_nil a as) hsolid
      (fun b hb rest' mid => hread b hb "," rest' mid (.inl rfl))
      (fun b hb => hread b (List.mem_of_getLast? hb) closing (closing :: rest) rest (.inr rfl)
        (.inl rfl))
      (isNext_of_follows (.inl rfl) hc hcomma)

/-- A body that is read up to its bracket is read between both. -/
theorem bracketed_reads {opening closing : Token} {owner : String} {body : Rule α}
    {ts rest : List Token}
    {a : α} (h : body.ReadsUntil closing ts a rest) :
    (bracketed opening closing owner body).Reads (opening :: ts) a rest := by
  intro us hus
  obtain ⟨mid, hb, hmid⟩ := h
  exact bracketed_eq_ok.mpr ⟨ts ++ rest, mid, hus, hb, hmid⟩

/-- A body that is read up to its bracket is read between both. -/
theorem group_reads {opening closing : Token} {owner : String} {body : Rule α}
    {ts rest : List Token}
    {a : α} (ho : opening.isWord) (h : body.ReadsUntil closing ts a rest) :
    (group opening closing owner body).Reads (opening :: ts) a rest := by
  intro us hus
  obtain ⟨mid, hb, hmid⟩ := h
  refine group_eq_ok.mpr ⟨ts ++ rest, mid, ?_, hb, hmid⟩
  rw [hus]
  exact skipSpace_of_isWord ho

end Rule

end XPath
