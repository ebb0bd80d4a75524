import XPath.Grammar.Rule

/-!
# Laws of rules

What a rule has read, from its success. A sequence of rules succeeds if each succeeds on what the
one before it leaves (`Rule.bind_eq_ok`), and every shape of a rule has one law that says what its
success means. A bracket only changes errors (`Rule.enclosed_eq_ok`).

A repetition is a run of steps (`Rule.Steps`): success of `Rule.many` gives one
(`Rule.steps_of_many`), and a run that ends where no further step is found is what `Rule.many` finds
(`Rule.many_of_steps`).
-/

namespace XPath.Rule

variable {α β ω : Type}

/-! ## Sequences -/

theorem pure_apply (a : α) (ts : List Token) : (pure a : Rule α) ts = .ok (a, ts) :=
  rfl

/-- Where the first rule succeeds, the second one takes over. -/
theorem bind_of_ok {r : Rule α} {ts mid : List Token} {a : α} (h : r ts = .ok (a, mid))
    (k : α → Rule β) : (r >>= k) ts = k a mid := by
  rw [bind_apply, h]

/-- Where the first rule fails, all fails. -/
theorem bind_of_error {r : Rule α} {ts : List Token} {e : Failure} (h : r ts = .error e)
    (k : α → Rule β) : (r >>= k) ts = .error e := by
  rw [bind_apply, h]

/-- Two rules succeed one after another if the second does on what the first one leaves. -/
theorem bind_eq_ok {r : Rule α} {k : α → Rule β} {ts rest : List Token} {b : β} :
    (r >>= k) ts = .ok (b, rest) ↔ ∃ a mid, r ts = .ok (a, mid) ∧ k a mid = .ok (b, rest) := by
  rw [bind_apply]
  cases r ts with
  | ok x => exact ⟨fun h => ⟨x.1, x.2, rfl, h⟩, by rintro ⟨a, mid, ⟨⟩, h⟩; exact h⟩
  | error e => simp

/-- A value that is there is read from no tokens. -/
theorem pure_eq_ok {a b : α} {ts rest : List Token} :
    (pure a : Rule α) ts = .ok (b, rest) ↔ a = b ∧ ts = rest := by
  simp [pure_apply]

/-- A changed value is read as the value, and then changed. -/
theorem map_apply (f : α → β) (r : Rule α) (ts : List Token) :
    (f <$> r) ts = (r >>= fun a => pure (f a)) ts :=
  rfl

/-- A value that is thrown away is read like any other. -/
theorem discard_bind (r : Rule α) (k : Unit → Rule β) (ts : List Token) :
    (discard r >>= k) ts = (r >>= fun _ => k ()) ts := by
  rw [bind_apply, bind_apply, show discard r ts = (r >>= fun _ => pure ()) ts from rfl, bind_apply]
  cases r ts <;> rfl

/-- A rule with a condition succeeds where the one that it chooses does. -/
theorem ite_eq_ok {c : Prop} [Decidable c] {r s : Rule α} {ts : List Token} {x : α × List Token} :
    (if c then r else s) ts = .ok x ↔ c ∧ r ts = .ok x ∨ ¬c ∧ s ts = .ok x := by
  by_cases hc : c <;> simp [hc]

/-- A value that is read succeeds if it can be had. -/
theorem ofExcept_eq_ok {x : Except ValueError α} {ts rest : List Token} {a : α} :
    ofExcept x ts = .ok (a, rest) ↔ x = .ok a ∧ ts = rest := by
  cases x with
  | ok b =>
    rw [ofExcept, pure_eq_ok, Except.ok.injEq]
  | error e => simp [ofExcept, failWith]

/-! ## Single tokens -/

theorem rest_apply (ts : List Token) : rest ts = .ok (ts, ts) :=
  rfl

theorem space_apply (ts : List Token) : space ts = .ok ((), Token.skipSpace ts) :=
  rfl

theorem advance_cons (t : Token) (ts : List Token) : advance (t :: ts) = .ok ((), ts) :=
  rfl

/-- One token is read if it is there and the test lets it through. -/
theorem one_eq_ok {p : Token → Bool} {expected : String} {ts rest : List Token} {t : Token} :
    one p expected ts = .ok (t, rest) ↔ p t ∧ ts = t :: rest := by
  cases ts with
  | nil => simp [one]
  | cons u us =>
    simp only [one]
    split
    next h => simp only [Except.ok.injEq, Prod.mk.injEq, List.cons.injEq]; grind
    next h => simp only [reduceCtorEq, List.cons.injEq, false_iff]; grind

/-- Otherwise the failure is at this very token. -/
theorem one_of_not {p : Token → Bool} {ts : List Token} (h : ∀ t ∈ ts.head?, p t = false)
    (expected : String) : one p expected ts = .error (.unexpected ts expected) := by
  cases ts with
  | nil => rfl
  | cons t ts =>
    rw [one, if_neg]
    simpa using h

/-- The token is taken where it stands. -/
theorem take?_cons_self (t : Token) (ts : List Token) : take? t (t :: ts) = .ok (true, ts) := by
  simp [take?]

/-- Nothing is taken where it does not stand. -/
theorem take?_of_ne {t : Token} {ts : List Token} (h : ts.head? ≠ some t) :
    take? t ts = .ok (false, ts) := by
  cases ts with
  | nil => rfl
  | cons u us => simp_all [take?]

/-- A token may be taken or not, and looking for it never fails. -/
theorem take?_eq_ok {t : Token} {ts rest : List Token} {found : Bool} :
    take? t ts = .ok (found, rest) ↔
      found = true ∧ ts = t :: rest ∨ found = false ∧ ts = rest ∧ ts.head? ≠ some t := by
  cases ts with
  | nil => cases found <;> simp [take?, eq_comm]
  | cons u us =>
    simp only [take?]
    split <;> cases found <;> simp_all

/-- Nothing is skipped where no space stands. -/
theorem skipSpace_eq_self {ts : List Token} (h : ts.head? ≠ some Token.space) :
    Token.skipSpace ts = ts := by
  cases ts with
  | nil => rfl
  | cons t ts => simp_all [Token.skipSpace, Token.isSpace]

/-- What comes next is what stands behind a space. -/
theorem isNext_iff {t : Token} {ts : List Token} :
    isNext t ts = true ↔ (Token.skipSpace ts).head? = some t := by
  simp [isNext]

theorem isNext_iff_cons {t : Token} {ts : List Token} :
    isNext t ts = true ↔ ∃ us, Token.skipSpace ts = t :: us := by
  rw [isNext_iff]
  cases Token.skipSpace ts <;> simp

theorem expect_apply (t : Token) (owner : String) (ts : List Token) :
    expect t owner ts =
      (one (· == t) ("'" ++ t ++ "' of " ++ owner) >>= fun _ => pure ()) (Token.skipSpace ts) :=
  rfl

/-- What is expected is read where it comes next. -/
theorem expect_of_skipSpace {t : Token} {ts rest : List Token} (h : Token.skipSpace ts = t :: rest)
    (owner : String) : expect t owner ts = .ok ((), rest) := by
  simp [expect_apply, h, bind_apply, one, pure_apply]

/-- Otherwise the failure is at what comes next. -/
theorem expect_of_ne {t : Token} {ts : List Token} (h : (Token.skipSpace ts).head? ≠ some t)
    (owner : String) : expect t owner ts =
      .error (.unexpected (Token.skipSpace ts) ("'" ++ t ++ "' of " ++ owner)) := by
  refine bind_of_error (one_of_not (fun u hu => beq_false_of_ne ?_) _) _
  rintro rfl
  exact h hu

/-- What is expected is read only where it comes next. -/
theorem expect_eq_ok {t : Token} {owner : String} {ts rest : List Token} {u : Unit} :
    expect t owner ts = .ok (u, rest) ↔ Token.skipSpace ts = t :: rest := by
  rw [expect_apply, bind_eq_ok]
  simp only [one_eq_ok, pure_eq_ok, beq_iff_eq]
  constructor
  · rintro ⟨_, _, ⟨rfl, h⟩, -, rfl⟩
    exact h
  · intro h
    exact ⟨t, rest, ⟨rfl, h⟩, trivial, rfl⟩

/-- A token that comes next is skipped, with the space before it. -/
theorem skip?_of_skipSpace {t : Token} {ts rest : List Token}
    (h : Token.skipSpace ts = t :: rest) : skip? t ts = .ok (true, rest) := by
  simp [skip?, isNext, h]

/-- Nothing is skipped where another token comes next, not even a space. -/
theorem skip?_of_not_isNext {t : Token} {ts : List Token} (h : isNext t ts = false) :
    skip? t ts = .ok (false, ts) := by
  simp [skip?, h]

/-- A token may be skipped or not, and looking for it never fails. -/
theorem skip?_eq_ok {t : Token} {ts rest : List Token} {found : Bool} :
    skip? t ts = .ok (found, rest) ↔
      found = true ∧ Token.skipSpace ts = t :: rest ∨
        found = false ∧ ts = rest ∧ isNext t ts = false := by
  cases h : isNext t ts with
  | false =>
    rw [skip?_of_not_isNext h]
    have : ∀ us, Token.skipSpace ts ≠ t :: us := fun us hu =>
      Bool.false_ne_true (h.symm.trans (isNext_iff_cons.mpr ⟨us, hu⟩))
    simp [this, eq_comm]
  | true =>
    obtain ⟨us, hu⟩ := isNext_iff_cons.mp h
    rw [skip?_of_skipSpace hu, hu]
    simp [eq_comm]

/-- An operator that comes next is read. -/
theorem operator?_of_some {read : Token → Option ω} {t : Token} {op : ω} {ts rest : List Token}
    (h : Token.skipSpace ts = t :: rest) (hop : read t = some op) :
    operator? read ts = .ok (some op, rest) := by
  simp [operator?, h, hop]

/-- Nothing is read where no operator comes next. -/
theorem operator?_of_none {read : Token → Option ω} {ts : List Token}
    (h : ∀ t ∈ (Token.skipSpace ts).head?, read t = none) : operator? read ts = .ok (none, ts) := by
  have : (Token.skipSpace ts).head?.bind read = none := by
    simpa [Option.bind_eq_none_iff] using h
  simp [operator?, this]

/-- An operator is read only where it comes next. -/
theorem operator?_eq_some {read : Token → Option ω} {ts rest : List Token} {op : ω} :
    operator? read ts = .ok (some op, rest) ↔
      ∃ t, Token.skipSpace ts = t :: rest ∧ read t = some op := by
  simp only [operator?]
  cases Token.skipSpace ts with
  | nil => simp
  | cons t us =>
    cases h : read t with
    | none =>
      simp only [List.head?_cons, Option.bind_some, h, List.cons.injEq]
      simp only [Except.ok.injEq, Prod.mk.injEq, reduceCtorEq, false_and, false_iff]
      rintro ⟨u, ⟨rfl, -⟩, hu⟩
      simp [h] at hu
    | some o =>
      simp only [List.head?_cons, Option.bind_some, h, List.cons.injEq]
      simp only [Except.ok.injEq, Prod.mk.injEq, Option.some.injEq, List.drop_one, List.tail_cons]
      constructor
      · rintro ⟨rfl, rfl⟩
        exact ⟨t, ⟨rfl, rfl⟩, h⟩
      · rintro ⟨u, ⟨rfl, rfl⟩, hu⟩
        exact ⟨Option.some.inj (h.symm.trans hu), rfl⟩

/-- Looking for an operator never fails. -/
theorem operator?_cases (read : Token → Option ω) (ts : List Token) :
    operator? read ts = .ok (none, ts) ∨ ∃ t op rest, Token.skipSpace ts = t :: rest ∧
      read t = some op ∧ operator? read ts = .ok (some op, rest) := by
  cases hop : (Token.skipSpace ts).head?.bind read with
  | none => exact .inl (operator?_of_none (by simpa [Option.bind_eq_none_iff] using hop))
  | some op =>
    obtain ⟨t, ht, hread⟩ := Option.bind_eq_some_iff.mp hop
    obtain ⟨rest, hrest⟩ := List.head?_eq_some_iff.mp ht
    exact .inr ⟨t, op, rest, hrest, hread, operator?_of_some hrest hread⟩

theorem operator?_eq_none {read : Token → Option ω} {ts rest : List Token} :
    operator? read ts = .ok (none, rest) ↔
      ts = rest ∧ ∀ t ∈ (Token.skipSpace ts).head?, read t = none := by
  constructor
  · intro h
    simp only [operator?] at h
    split at h
    · simp at h
    next hn =>
      simp only [Except.ok.injEq, Prod.mk.injEq, true_and] at h
      exact ⟨h, by simpa [Option.bind_eq_none_iff] using hn⟩
  · rintro ⟨rfl, h⟩
    exact operator?_of_none h

/-! ## Brackets -/

/-- Inside of a bracket the same succeeds as elsewhere. -/
theorem enclosed_eq_ok {opening : List Token} {body : Rule α} {ts : List Token}
    {x : α × List Token} : enclosed opening body ts = .ok x ↔ body ts = .ok x := by
  unfold enclosed
  split
  next h => simp [h]
  · rfl

/-- A body is read between its brackets, with space in front of both. -/
theorem bracketedAt_eq_ok {bracket : List Token} {opening closing : Token} {owner : String}
    {body : Rule α} {ts rest : List Token} {a : α} :
    bracketedAt bracket opening closing owner body ts = .ok (a, rest) ↔
      ∃ ts' mid, Token.skipSpace ts = opening :: ts' ∧ body ts' = .ok (a, mid) ∧
        Token.skipSpace mid = closing :: rest := by
  simp only [bracketedAt, bind_eq_ok, expect_eq_ok, enclosed_eq_ok, pure_eq_ok]
  constructor
  · rintro ⟨-, ts', h, _, mid, hb, -, _, hc, rfl, rfl⟩
    exact ⟨ts', mid, h, hb, hc⟩
  · rintro ⟨ts', mid, h, hb, hc⟩
    exact ⟨(), ts', h, a, mid, hb, (), rest, hc, rfl, rfl⟩

/-- A body is read between its brackets, with space in front of both. -/
theorem bracketed_eq_ok {opening closing : Token} {owner : String} {body : Rule α}
    {ts rest : List Token} {a : α} :
    bracketed opening closing owner body ts = .ok (a, rest) ↔
      ∃ ts' mid, Token.skipSpace ts = opening :: ts' ∧ body ts' = .ok (a, mid) ∧
        Token.skipSpace mid = closing :: rest := by
  rw [bracketed, bind_of_ok (rest_apply ts), bracketedAt_eq_ok]

/-- A body is read between its brackets, with space in front of both. -/
theorem group_eq_ok {opening closing : Token} {owner : String} {body : Rule α}
    {ts rest : List Token} {a : α} :
    group opening closing owner body ts = .ok (a, rest) ↔
      ∃ ts' mid, Token.skipSpace (Token.skipSpace ts) = opening :: ts' ∧ body ts' = .ok (a, mid) ∧
        Token.skipSpace mid = closing :: rest := by
  rw [group, bind_of_ok (space_apply ts), bind_of_ok (rest_apply _), bracketedAt_eq_ok]

/-! ## Repetition -/

/-- The rule leaves no more than it is given. -/
def Shrinks (r : Rule α) : Prop :=
  ∀ ⦃ts a rest⦄, r ts = .ok (a, rest) → rest.length ≤ ts.length

/-- Values found one after another, each at a shorter rest. -/
inductive Steps (next? : Rule (Option α)) : List Token → List α → List Token → Prop
  | nil (ts : List Token) : Steps next? ts [] ts
  | cons {ts mid rest : List Token} {a : α} {as : List α} (h : next? ts = .ok (some a, mid))
    (hmid : mid.length < ts.length) : Steps next? mid as rest → Steps next? ts (a :: as) rest

/-- Every step takes a token at least. -/
theorem Steps.length_le {next? : Rule (Option α)} {ts rest : List Token} {as : List α}
    (h : Steps next? ts as rest) : as.length + rest.length ≤ ts.length := by
  induction h with
  | nil => simp
  | cons h hmid _ ih =>
    simp only [List.length_cons]
    omega

/-- Enough fuel for the steps is enough. -/
theorem upTo_of_steps {next? : Rule (Option α)} {ts rest : List Token} {as : List α}
    (h : Steps next? ts as rest) (hend : next? rest = .ok (none, rest)) :
    ∀ fuel : List Token, as.length ≤ fuel.length → upTo next? fuel ts = .ok (as, rest) := by
  induction h with
  | nil ts =>
    rintro (_ | ⟨t, fuel⟩) -
    · rfl
    · rw [upTo, bind_of_ok hend]
      rfl
  | cons h _ _ ih =>
    rintro (_ | ⟨t, fuel⟩) hf
    · simp at hf
    · rw [upTo, bind_of_ok h]
      exact bind_of_ok (ih hend fuel (by simpa using hf)) _

/-- A repetition finds the steps there are. -/
theorem many_of_steps {next? : Rule (Option α)} {ts rest : List Token} {as : List α}
    (h : Steps next? ts as rest) (hend : next? rest = .ok (none, rest)) :
    many next? ts = .ok (as, rest) :=
  upTo_of_steps h hend ts (Nat.le_trans (Nat.le_add_right _ _) h.length_le)

/-- A step that finds a value leaves a shorter rest, and one that finds none leaves everything. -/
structure Advances (next? : Rule (Option α)) : Prop where
  some {ts mid : List Token} {a : α} : next? ts = .ok (some a, mid) → mid.length < ts.length
  none {ts mid : List Token} : next? ts = .ok (none, mid) → ts = mid
  nil : next? [] = .ok (Option.none, [])

/-- With enough fuel the steps go on until there are no more. -/
theorem steps_of_upTo {next? : Rule (Option α)} (hn : Advances next?) :
    ∀ {fuel ts rest : List Token} {as : List α}, ts.length ≤ fuel.length →
      upTo next? fuel ts = .ok (as, rest) →
        Steps next? ts as rest ∧ next? rest = .ok (none, rest)
  | [], ts, rest, as, hf, h => by
    obtain ⟨rfl, rfl⟩ := pure_eq_ok.mp h
    obtain rfl := List.eq_nil_of_length_eq_zero (Nat.le_zero.mp hf)
    exact ⟨.nil [], hn.nil⟩
  | _ :: fuel, ts, rest, as, hf, h => by
    obtain ⟨a?, mid, ha, h⟩ := bind_eq_ok.mp h
    cases a? with
    | none =>
      obtain ⟨rfl, rfl⟩ := pure_eq_ok.mp h
      obtain rfl := hn.none ha
      exact ⟨.nil ts, ha⟩
    | some a =>
      obtain ⟨as', rest', has, h⟩ := bind_eq_ok.mp h
      obtain ⟨rfl, rfl⟩ := pure_eq_ok.mp h
      have hmid := hn.some ha
      rw [List.length_cons] at hf
      obtain ⟨hs, hend⟩ := steps_of_upTo hn (by omega) has
      exact ⟨.cons ha hmid hs, hend⟩

/-- A repetition succeeds with the steps there are, and only with all of them. -/
theorem many_eq_ok {next? : Rule (Option α)} (hn : Advances next?) {ts rest : List Token}
    {as : List α} :
    many next? ts = .ok (as, rest) ↔ Steps next? ts as rest ∧ next? rest = .ok (none, rest) :=
  ⟨steps_of_upTo hn (Nat.le_refl _), fun h => many_of_steps h.1 h.2⟩

/-! ## Chains -/

section Chains

variable {read : Token → Option ω} {left : Rule α} {right : Rule β}

/-- Operators, each with what `right` reads after it, up to a token that is none. -/
inductive Links (read : Token → Option ω) (right : Rule β) :
    List Token → List (ω × β) → List Token → Prop
  | nil {ts : List Token} (h : ∀ t ∈ (Token.skipSpace ts).head?, read t = none) :
    Links read right ts [] ts
  | cons {ts mid mid' rest : List Token} {t : Token} {op : ω} {b : β} {others : List (ω × β)}
    (ht : Token.skipSpace ts = t :: mid) (hop : read t = some op)
    (hb : right mid = .ok (b, mid')) (hmid : mid'.length ≤ mid.length) :
    Links read right mid' others rest → Links read right ts ((op, b) :: others) rest

/-- One operator and what `right` reads after it. -/
def link (read : Token → Option ω) (right : Rule β) : Rule (Option (ω × β)) := do
  match ← operator? read with
  | none => return none
  | some op => return some (op, ← right)

/-- A link is an operator with its operand, or there is none. -/
theorem link_eq_ok {ts rest : List Token} {x : Option (ω × β)} :
    link read right ts = .ok (x, rest) ↔
      x = none ∧ ts = rest ∧ (∀ t ∈ (Token.skipSpace ts).head?, read t = none) ∨
        ∃ t mid op b, x = some (op, b) ∧ Token.skipSpace ts = t :: mid ∧ read t = some op ∧
          right mid = .ok (b, rest) := by
  rw [link, bind_eq_ok]
  constructor
  · rintro ⟨op?, mid, hop, h⟩
    cases op? with
    | none =>
      obtain ⟨rfl, hnone⟩ := operator?_eq_none.mp hop
      obtain ⟨rfl, rfl⟩ := pure_eq_ok.mp h
      exact .inl ⟨rfl, rfl, hnone⟩
    | some op =>
      obtain ⟨t, ht, hop⟩ := operator?_eq_some.mp hop
      obtain ⟨b, rest', hb, h⟩ := bind_eq_ok.mp h
      obtain ⟨rfl, rfl⟩ := pure_eq_ok.mp h
      exact .inr ⟨t, mid, op, b, rfl, ht, hop, hb⟩
  · rintro (⟨rfl, rfl, hnone⟩ | ⟨t, mid, op, b, rfl, ht, hop, hb⟩)
    · exact ⟨none, ts, operator?_of_none hnone, rfl⟩
    · exact ⟨some op, mid, operator?_of_some ht hop, bind_of_ok hb _⟩

theorem length_skipSpace_le (ts : List Token) : (Token.skipSpace ts).length ≤ ts.length :=
  (Token.skipSpace_suffix ts).length_le

/-- What comes after the next token is shorter. -/
theorem length_lt_of_skipSpace {t : Token} {ts mid : List Token}
    (h : Token.skipSpace ts = t :: mid) : mid.length < ts.length := by
  have := length_skipSpace_le ts
  rw [h, List.length_cons] at this
  omega

/-- Operators advance. -/
theorem operator?_advances (read : Token → Option ω) : Advances (operator? read) where
  some h :=
    have ⟨_, ht, _⟩ := operator?_eq_some.mp h
    length_lt_of_skipSpace ht
  none h := (operator?_eq_none.mp h).1
  nil := rfl

/-- A link advances as its operator does. -/
theorem link_advances (hr : right.Shrinks) :
    Advances (link read right) where
  some h := by
    obtain ⟨h, -⟩ | ⟨t, mid, op, b, -, ht, -, hb⟩ := link_eq_ok.mp h
    · cases h
    · exact Nat.lt_of_le_of_lt (hr hb) (length_lt_of_skipSpace ht)
  none h := by
    obtain ⟨-, h, -⟩ | ⟨_, _, _, _, h, -⟩ := link_eq_ok.mp h
    · exact h
    · cases h
  nil := link_eq_ok.mpr (.inl ⟨rfl, rfl, by simp [Token.skipSpace]⟩)

/-- Steps from link to link are links, if none comes after them. -/
theorem links_of_steps (hr : right.Shrinks)
    {ts rest : List Token} {others : List (ω × β)} (h : Steps (link read right) ts others rest)
    (hend : link read right rest = .ok (none, rest)) : Links read right ts others rest := by
  induction h with
  | nil ts =>
    obtain ⟨-, -, h⟩ | ⟨_, _, _, _, h, -⟩ := link_eq_ok.mp hend
    · exact .nil h
    · cases h
  | cons h _ _ ih =>
    obtain ⟨h, -⟩ | ⟨t, mid, op, b, h, ht, hop, hb⟩ := link_eq_ok.mp h
    · cases h
    · cases h
      exact .cons ht hop hb (hr hb) (ih hend)

/-- Links are steps, and no link comes after them. -/
theorem Links.steps {ts rest : List Token} {others : List (ω × β)}
    (h : Links read right ts others rest) :
    Steps (link read right) ts others rest ∧ link read right rest = .ok (none, rest) := by
  induction h with
  | nil h => exact ⟨.nil _, link_eq_ok.mpr (.inl ⟨rfl, rfl, h⟩)⟩
  | cons ht hop hb hmid _ ih =>
    refine ⟨.cons (link_eq_ok.mpr (.inr ⟨_, _, _, _, rfl, ht, hop, hb⟩)) ?_ ih.1, ih.2⟩
    exact Nat.lt_of_le_of_lt hmid (length_lt_of_skipSpace ht)

theorem chain_apply (read : Token → Option ω) (left : Rule α) (right : Rule β) :
    chain read left right = left >>= fun first => many (link read right) >>= fun others =>
      pure (first, others) :=
  rfl

/-- A chain is read as its first operand and the links behind it. -/
theorem chain_of_links {ts mid rest : List Token} {a : α} {others : List (ω × β)}
    (ha : left ts = .ok (a, mid)) (h : Links read right mid others rest) :
    chain read left right ts = .ok ((a, others), rest) := by
  rw [chain_apply, bind_of_ok ha, bind_of_ok (many_of_steps h.steps.1 h.steps.2)]
  rfl

/-- A chain that is read is its first operand and the links behind it. -/
theorem links_of_chain (hr : right.Shrinks)
    {ts rest : List Token} {x : α × List (ω × β)} (h : chain read left right ts = .ok (x, rest)) :
    ∃ mid, left ts = .ok (x.1, mid) ∧ Links read right mid x.2 rest := by
  rw [chain_apply] at h
  obtain ⟨a, mid, ha, h⟩ := bind_eq_ok.mp h
  obtain ⟨others, rest', hs, h⟩ := bind_eq_ok.mp h
  obtain ⟨rfl, rfl⟩ := pure_eq_ok.mp h
  obtain ⟨hs, hend⟩ := (many_eq_ok (link_advances hr)).mp hs
  exact ⟨mid, ha, links_of_steps hr hs hend⟩

end Chains

/-! ## Shapes -/

/-- A list that is read is its first item and the others behind commas. -/
theorem links_of_commaList {item : Rule α} (hr : item.Shrinks) {ts rest : List Token}
    {as : List α} (h : commaList item ts = .ok (as, rest)) :
    ∃ first others mid, as = first :: List.map Prod.snd others ∧ item ts = .ok (first, mid) ∧
      Links (Spelled.ofToken? : Token → Option Separator) item mid others rest := by
  obtain ⟨x, rest', hx, h⟩ := bind_eq_ok.mp h
  obtain ⟨rfl, rfl⟩ := pure_eq_ok.mp h
  obtain ⟨mid, hfirst, hl⟩ := links_of_chain hr hx
  exact ⟨x.1, x.2, mid, rfl, hfirst, hl⟩

/-- A list is read as its first item and the others behind commas. -/
theorem commaList_of_links {item : Rule α} {ts mid rest : List Token} {first : α}
    {others : List (Separator × α)} (hfirst : item ts = .ok (first, mid))
    (h : Links (Spelled.ofToken? : Token → Option Separator) item mid others rest) :
    commaList item ts = .ok (first :: others.map Prod.snd, rest) :=
  bind_of_ok (chain_of_links hfirst h) _

/-- A list is empty if its closing token comes next, and only then. -/
theorem separated_eq_ok {closing : Token} {item : Rule α} {ts rest : List Token} {as : List α} :
    separated closing item ts = .ok (as, rest) ↔
      isNext closing ts = true ∧ as = [] ∧ ts = rest ∨
        isNext closing ts = false ∧ commaList item ts = .ok (as, rest) := by
  have h : separated closing item ts =
      (if isNext closing ts then pure [] else commaList item : Rule (List α)) ts :=
    rfl
  rw [h]
  cases isNext closing ts with
  | false => simp
  | true => simp [pure_eq_ok, eq_comm (b := as)]

/-- Words are read one after another. -/
theorem words_cons_eq_ok {expected : String} {w : Token} {ws ts rest : List Token} {u : Unit} :
    words expected (w :: ws) ts = .ok (u, rest) ↔
      ∃ mid, Token.skipSpace ts = w :: mid ∧ words expected ws mid = .ok (u, rest) := by
  have h : words expected (w :: ws) ts = ((one (· == w) expected >>= fun _ => pure ()) >>=
      fun _ => words expected ws) (Token.skipSpace ts) :=
    rfl
  simp only [h, bind_eq_ok, one_eq_ok, pure_eq_ok, beq_iff_eq]
  constructor
  · rintro ⟨_, mid, ⟨_, _, ⟨rfl, ht⟩, -, rfl⟩, hws⟩
    exact ⟨_, ht, hws⟩
  · rintro ⟨mid, ht, hws⟩
    exact ⟨(), mid, ⟨w, mid, ⟨rfl, ht⟩, trivial, rfl⟩, hws⟩

theorem followedBy_cons (w : Token) (ws : List Token) (left : Rule α) (right : Rule β) :
    followedBy (w :: ws) left right = left >>= fun a => rest >>= fun ts =>
      if isNext w ts then
        words (" ".intercalate ((w :: ws).map fun w => "'" ++ w ++ "'")) (w :: ws) >>= fun _ =>
          right >>= fun b => pure (a, some b)
      else pure (a, none) :=
  rfl

/-- What is announced by its first word is read. -/
theorem followedBy_of_isNext {w : Token} {ws ts mid mid' rest : List Token} {left : Rule α}
    {right : Rule β} {a : α} {b : β} (ha : left ts = .ok (a, mid))
    (hws : ∀ expected, words expected (w :: ws) mid = .ok ((), mid'))
    (hb : right mid' = .ok (b, rest)) :
    followedBy (w :: ws) left right ts = .ok ((a, some b), rest) := by
  have hw : isNext w mid = true := by
    obtain ⟨_, ht, -⟩ := words_cons_eq_ok.mp (hws "")
    exact isNext_iff_cons.mpr ⟨_, ht⟩
  rw [followedBy_cons, bind_of_ok ha, bind_of_ok (rest_apply mid), if_pos hw, bind_of_ok (hws _),
    bind_of_ok hb, pure_apply]

/-- What is not announced is not looked for. -/
theorem followedBy_of_not_isNext {w : Token} {ws ts rest : List Token} {left : Rule α}
    {right : Rule β} {a : α} (ha : left ts = .ok (a, rest)) (hw : isNext w rest = false) :
    followedBy (w :: ws) left right ts = .ok ((a, none), rest) := by
  rw [followedBy_cons, bind_of_ok ha, bind_of_ok (rest_apply rest), if_neg (by simp [hw]),
    pure_apply]

/-- Either the first word does not come next, or all of the words and what they announce do. -/
theorem followedBy_eq_ok {w : Token} {ws ts rest : List Token} {left : Rule α} {right : Rule β}
    {x : α × Option β} (h : followedBy (w :: ws) left right ts = .ok (x, rest)) :
    ∃ mid, left ts = .ok (x.1, mid) ∧
      (x.2 = none ∧ mid = rest ∧ isNext w mid = false ∨ ∃ expected mid' b, x.2 = some b ∧
        words expected (w :: ws) mid = .ok ((), mid') ∧ right mid' = .ok (b, rest)) := by
  rw [followedBy_cons] at h
  obtain ⟨a, mid, ha, h⟩ := bind_eq_ok.mp h
  rw [bind_of_ok (rest_apply mid)] at h
  cases hw : isNext w mid with
  | false =>
    rw [if_neg (by simp [hw])] at h
    obtain ⟨rfl, rfl⟩ := pure_eq_ok.mp h
    exact ⟨mid, ha, .inl ⟨rfl, rfl, hw⟩⟩
  | true =>
    rw [if_pos hw] at h
    obtain ⟨_, mid', hws, h⟩ := bind_eq_ok.mp h
    obtain ⟨b, rest', hb, h⟩ := bind_eq_ok.mp h
    obtain ⟨rfl, rfl⟩ := pure_eq_ok.mp h
    exact ⟨mid, ha, .inr ⟨_, mid', b, rfl, hws, hb⟩⟩

/-- A child is read behind its token. -/
theorem after_eq_ok {op : Token} {owner : String} {child : Rule α} {ts rest : List Token} {a : α} :
    after op owner child ts = .ok (a, rest) ↔
      ∃ mid, Token.skipSpace ts = op :: mid ∧ child mid = .ok (a, rest) := by
  simp only [after, bind_eq_ok, expect_eq_ok]
  exact ⟨fun ⟨_, h⟩ => h, fun h => ⟨(), h⟩⟩

/-- A mark is read where it comes next. -/
theorem marked_eq_ok {op : Token} {child : Rule α} {ts rest : List Token} {a : α} {found : Bool} :
    marked op child ts = .ok ((a, found), rest) ↔
      ∃ mid, child ts = .ok (a, mid) ∧ skip? op mid = .ok (found, rest) := by
  simp only [marked, bind_eq_ok, pure_eq_ok, Prod.mk.injEq]
  constructor
  · rintro ⟨_, mid, ha, _, _, hs, ⟨rfl, rfl⟩, rfl⟩
    exact ⟨mid, ha, hs⟩
  · rintro ⟨mid, ha, hs⟩
    exact ⟨a, mid, ha, found, rest, hs, ⟨rfl, rfl⟩, rfl⟩

end XPath.Rule
