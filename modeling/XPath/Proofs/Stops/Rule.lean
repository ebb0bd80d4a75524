import XPath.Proofs.Stops.Taken

/-!
# Where a rule stops

Four things are said of a run of a rule at once (`StopsAt`), so that the grammar is gone through
only once for all of them:

* what it takes is balanced and ends with a token that is no space (`Taken`);
* it takes something if the value it reads is one that asks for that;
* it fails among the tokens it is given, at the end of them only if nothing is open there, and too
  deep only behind as many of them as levels are left;
* it does not fail for a name that is neither called nor referred to (`bareName`).

There is one law for every shape of a rule. A rule either takes something whenever it succeeds
(`Rule.Consumes`), or it may leave everything (`Rule.MayConsume`). What comes after a rule that
takes something gets by with one level less (`StopsAt.descend`).
-/

namespace XPath

variable {α β ω : Type} {levels : Nat}

/-! ## An error that is not told -/

/-- What is expected after a name that is neither called nor referred to. -/
def bareName : String := "'(' or '#' after function name"

/-- The text names the construct that a token is part of. -/
theorem ne_bareName {expected : String} (h : " of ".toList <:+: expected.toList) :
    expected ≠ bareName := by
  have hfree : ¬ " of ".toList <:+: bareName.toList := by decide +kernel
  rintro rfl
  exact hfree h

/-- A token that is missing is told with its construct. -/
theorem expect_ne_bareName (t : Token) (owner : String) :
    "'" ++ t ++ "' of " ++ owner ≠ bareName :=
  ne_bareName ⟨'\'' :: t.toList ++ ['\''], owner.toList, by simp⟩

/-! ## One run -/

/-- The failure of a rule that is given `ts` is at one of these tokens, and there is another token
in front of it for every level that was left. -/
def Failure.FoundIn (levels : Nat) (ts : List Token) : Failure → Prop
  | .unexpected rest expected => rest <:+ ts ∧ expected ≠ bareName
  | .tooDeep rest => rest <:+ ts ∧ rest.length + levels ≤ ts.length
  | .value _ => True

/-- A rule that is given `ts` stops with this result. If it reads a value of which `taking` holds,
it has taken something. -/
def StopsAt (levels : Nat) (taking : α → Prop) (ts : List Token) :
    Except Failure (α × List Token) → Prop
  | .ok (a, rest) => ∃ w, ts = w ++ rest ∧ Taken w ∧ (taking a → w ≠ [])
  | .error e => e.FoundIn levels ts ∧ ∀ expected, e = .unexpected [] expected → EndsClosed ts

/-- Every token in front pays for a level. -/
theorem Failure.FoundIn.append {levels' : Nat} {mid : List Token} {e : Failure}
    (h : e.FoundIn levels' mid) {w : List Token} (hlevels : levels ≤ levels' + w.length) :
    e.FoundIn levels (w ++ mid) := by
  cases e with
  | unexpected rest expected => exact ⟨h.1.trans (List.suffix_append w mid), h.2⟩
  | tooDeep rest =>
    obtain ⟨hsuffix, hlen⟩ := h
    refine ⟨hsuffix.trans (List.suffix_append w mid), ?_⟩
    rw [List.length_append]
    omega
  | value e => trivial

namespace StopsAt

variable {ts mid : List Token} {taking taking' : α → Prop} {x : Except Failure (α × List Token)}

/-- What is left are the last ones of the tokens. -/
theorem suffix {a : α} (h : StopsAt levels taking ts (.ok (a, mid))) : mid <:+ ts := by
  obtain ⟨w, rfl, -, -⟩ := h
  exact List.suffix_append w mid

/-- Less may be asked of the values. -/
theorem imp (h : StopsAt levels taking ts x) (himp : ∀ a, taking' a → taking a) :
    StopsAt levels taking' ts x := by
  match x with
  | .ok (a, rest) =>
    obtain ⟨w, hw, htaken, hne⟩ := h
    exact ⟨w, hw, htaken, fun ha => hne (himp a ha)⟩
  | .error _ => exact h

/-- What comes behind tokens that have been taken. -/
theorem after {levels' : Nat} {w : List Token} (hw : Taken w) (h : StopsAt levels' taking' mid x)
    (hlevels : levels ≤ levels' + w.length) (htaking : ∀ a, taking a → w ≠ [] ∨ taking' a) :
    StopsAt levels taking (w ++ mid) x := by
  match x with
  | .ok (a, rest) =>
    obtain ⟨w', rfl, hw', hne⟩ := h
    refine ⟨w ++ w', (List.append_assoc ..).symm, hw.append hw', fun ha => ?_⟩
    obtain hsome | ha' := htaking a ha
    · exact List.append_ne_nil_of_left_ne_nil hsome w'
    · exact List.append_ne_nil_of_right_ne_nil w (hne ha')
  | .error e =>
    exact ⟨h.1.append hlevels, fun expected he => hw.balanced.append_endsClosed (h.2 expected he)⟩

/-- Less levels may be left. -/
theorem mono {levels' : Nat} (h : StopsAt levels taking ts x) (hle : levels' ≤ levels) :
    StopsAt levels' taking ts x :=
  .after (w := []) .nil h hle fun _ => .inr

/-- What takes something may do so behind a space. -/
theorem of_skipSpace (h : StopsAt levels (fun _ => True) (Token.skipSpace ts) x) :
    StopsAt levels taking ts x := by
  obtain ⟨v, hv, hbalanced⟩ := Balanced.exists_skipSpace ts
  match x with
  | .ok (a, rest) =>
    obtain ⟨w, hw, htaken, hne⟩ := h
    refine ⟨v ++ w, by rw [List.append_assoc, ← hw, ← hv],
      .behind hbalanced htaken (hne trivial), fun _ => ?_⟩
    exact List.append_ne_nil_of_right_ne_nil v (hne trivial)
  | .error e =>
    obtain ⟨he, hend⟩ := h
    rw [hv]
    exact ⟨he.append (Nat.le_add_right _ _),
      fun expected h => hbalanced.append_endsClosed (hend expected h)⟩

/-- What is unexpected stands in front. -/
theorem unexpected {expected : String} (h : expected ≠ bareName) (ts : List Token) :
    StopsAt levels taking ts (.error (.unexpected ts expected)) := by
  refine ⟨⟨List.suffix_rfl, h⟩, fun expected' hend => ?_⟩
  obtain ⟨rfl, -⟩ := Failure.unexpected.inj hend
  exact .inl .nil

/-- A token that is missing behind a space. -/
theorem missing (t : Token) (owner : String) :
    StopsAt levels taking ts
      (.error (.unexpected (Token.skipSpace ts) ("'" ++ t ++ "' of " ++ owner))) :=
  .of_skipSpace (.unexpected (expect_ne_bareName t owner) _)

/-- Whatever is wrong with a value is no matter of tokens. -/
theorem value (e : ValueError) : StopsAt levels taking ts (.error (.value e)) :=
  ⟨trivial, nofun⟩

/-- Nothing is taken. -/
theorem left {a : α} (h : ¬taking a) : StopsAt levels taking ts (.ok (a, ts)) :=
  ⟨[], rfl, .nil, fun ha => absurd ha h⟩

/-- The next token, a space aside. -/
theorem next {t : Token} {rest : List Token} (hts : Token.skipSpace ts = t :: rest)
    (ht : t.isOrdinary) (a : α) : StopsAt levels taking ts (.ok (a, rest)) :=
  .of_skipSpace ⟨[t], hts, .singleton ht, fun _ => List.cons_ne_nil t []⟩

end StopsAt

namespace Rule

/-- The rule stops as it should wherever it is used, with something taken whenever it reads a value
of which `taking` holds. -/
def Stops (levels : Nat) (taking : α → Prop) (r : Rule α) : Prop :=
  ∀ ts, StopsAt levels taking ts (r ts)

/-- Whatever the rule reads, it has taken something. -/
abbrev Consumes (levels : Nat) (r : Rule α) : Prop := r.Stops levels fun _ => True

/-- The rule may read a value and leave everything. -/
abbrev MayConsume (levels : Nat) (r : Rule α) : Prop := r.Stops levels fun _ => False

variable {r s : Rule α} {k : α → Rule β} {taking : α → Prop} {taking' : β → Prop}
  {ts us : List Token}

/-- Less may be asked of the values. -/
theorem Stops.imp {taking' : α → Prop} (h : r.Stops levels taking)
    (himp : ∀ a, taking' a → taking a) : r.Stops levels taking' :=
  fun ts => (h ts).imp himp

/-- A rule that takes something does so for every value. -/
theorem Consumes.stops (h : r.Consumes levels) (taking : α → Prop) : r.Stops levels taking :=
  h.imp fun _ _ => trivial

/-- Nothing need be asked of the values. -/
theorem Stops.mayConsume (h : r.Stops levels taking) : r.MayConsume levels :=
  h.imp fun _ => False.elim

/-- Less levels may be left. -/
theorem Stops.mono {levels' : Nat} (h : r.Stops levels taking) (hle : levels' ≤ levels) :
    r.Stops levels' taking :=
  fun ts => (h ts).mono hle

/-- Less levels may be left. -/
theorem Consumes.mono {levels' : Nat} (h : r.Consumes levels) (hle : levels' ≤ levels) :
    r.Consumes levels' :=
  Stops.mono h hle

/-! ## Sequences -/

/-- A failure is passed on, and a value handed over. -/
theorem stopsAt_bind (hr : StopsAt levels taking ts (r us))
    (hk : ∀ a mid, r us = .ok (a, mid) → StopsAt levels taking' ts (k a mid)) :
    StopsAt levels taking' ts ((r >>= k) us) := by
  rw [bind_apply]
  cases h : r us with
  | error e =>
    rw [h] at hr
    exact hr
  | ok x => exact hk x.1 x.2 h

/-- What comes after something that is taken gets by with one level less. -/
theorem stopsAt_descend (hr : StopsAt (levels + 1) (fun _ => True) ts (r us))
    (hk : ∀ a, (k a).MayConsume levels) : StopsAt (levels + 1) taking' ts ((r >>= k) us) := by
  refine stopsAt_bind hr fun a mid h => ?_
  rw [h] at hr
  obtain ⟨w, rfl, hw, hne⟩ := hr
  have hlength := List.length_pos_iff.mpr (hne trivial)
  exact (hk a mid).after hw (by omega) fun _ _ => .inl (hne trivial)

/-- What comes after something that is taken. -/
theorem stopsAt_behind (hr : StopsAt levels (fun _ => True) ts (r us))
    (hk : ∀ a, (k a).MayConsume levels) : StopsAt levels taking' ts ((r >>= k) us) := by
  refine stopsAt_bind hr fun a mid h => ?_
  rw [h] at hr
  obtain ⟨w, rfl, hw, hne⟩ := hr
  exact (hk a mid).after hw (Nat.le_add_right _ _) fun _ _ => .inl (hne trivial)

/-- What comes after something that is taken gets by with one level less. -/
theorem Consumes.descend (hr : r.Consumes (levels + 1)) (hk : ∀ a, (k a).MayConsume levels) :
    (r >>= k).Consumes (levels + 1) :=
  fun ts => stopsAt_descend (hr ts) hk

/-- If the first rule may leave everything, the second one takes something then. -/
theorem Stops.bind (hr : r.Stops levels taking) (hsome : ∀ a, taking a → (k a).MayConsume levels)
    (hnone : ∀ a, ¬taking a → (k a).Stops levels taking') : (r >>= k).Stops levels taking' := by
  refine fun ts => stopsAt_bind (hr ts) fun a mid h => ?_
  have hts := hr ts
  rw [h] at hts
  obtain ⟨w, rfl, hw, hne⟩ := hts
  by_cases ha : taking a
  · exact (hsome a ha mid).after hw (Nat.le_add_right _ _) fun _ _ => .inl (hne ha)
  · exact (hnone a ha mid).after hw (Nat.le_add_right _ _) fun _ => .inr

/-- The first rule takes something. -/
theorem Consumes.bind (hr : r.Consumes levels) (hk : ∀ a, (k a).MayConsume levels) :
    (r >>= k).Consumes levels :=
  fun ts => stopsAt_behind (hr ts) hk

/-- The second rule takes something. -/
theorem Stops.before (hr : r.Stops levels taking) (hk : ∀ a, (k a).Consumes levels) :
    (r >>= k).Consumes levels :=
  hr.bind (fun a _ => (hk a).mayConsume) fun a _ => hk a

/-- Neither rule need take anything. -/
theorem Stops.followed (hr : r.Stops levels taking) (hk : ∀ a, (k a).MayConsume levels) :
    (r >>= k).MayConsume levels :=
  hr.bind (fun a _ => hk a) fun a _ => hk a

/-- What is read without any token. -/
theorem stops_pure {a : α} (h : ¬taking a) : (pure a : Rule α).Stops levels taking :=
  fun _ => .left h

/-- What is read without any token. -/
theorem mayConsume_pure (a : α) : (pure a : Rule α).MayConsume levels :=
  stops_pure id

/-- What is made of a value takes no tokens. -/
theorem Consumes.map (hr : r.Consumes levels) (f : α → β) : (f <$> r).Consumes levels :=
  hr.bind fun a => mayConsume_pure (f a)

/-- A space is stepped over in front of something that is taken. -/
theorem Consumes.space {r : Unit → Rule α} (hr : (r ()).Consumes levels) :
    (space >>= r).Consumes levels :=
  fun ts => .of_skipSpace (hr (Token.skipSpace ts))

/-- What follows a look at the tokens is known to be given them. -/
theorem stops_rest {k : List Token → Rule α} (h : ∀ ts, StopsAt levels taking ts (k ts ts)) :
    (rest >>= k).Stops levels taking :=
  fun ts => h ts

/-- A choice, of which both sides are known. -/
theorem Stops.ite (c : Prop) [Decidable c] (hr : r.Stops levels taking)
    (hs : s.Stops levels taking) : (if c then r else s).Stops levels taking := by
  split
  · exact hr
  · exact hs

/-- A choice by what is known of the tokens. -/
theorem stopsAt_ite {c : Prop} [Decidable c] (hr : c → StopsAt levels taking ts (r us))
    (hs : ¬c → StopsAt levels taking ts (s us)) :
    StopsAt levels taking ts ((if c then r else s : Rule α) us) :=
  iteInduction (motive := fun r : Rule α => StopsAt levels taking ts (r us)) hr hs

/-- A failure right here. -/
theorem stops_fail {expected : String} (h : expected ≠ bareName) :
    (fail expected : Rule α).Stops levels taking :=
  fun ts => .unexpected h ts

/-- A failure behind a space. -/
theorem stops_space_fail {expected : String} (h : expected ≠ bareName) :
    (space >>= fun _ => fail expected : Rule α).Stops levels taking :=
  Consumes.stops (Consumes.space (stops_fail h)) taking

/-- A value that may be wrong. -/
theorem mayConsume_ofExcept (x : Except ValueError α) : (ofExcept x).MayConsume levels := by
  cases x with
  | ok a => exact mayConsume_pure a
  | error e => exact fun _ => .value e

/-! ## Single tokens -/

/-- A token of an ordinary kind. -/
theorem consumes_one {p : Token → Bool} (hp : ∀ t, p t → t.isOrdinary) {expected : String}
    (h : expected ≠ bareName) : (one p expected).Consumes levels := by
  intro ts
  cases ts with
  | nil => exact .unexpected h []
  | cons t ts =>
    rw [one]
    split
    next ht => exact ⟨[t], rfl, .singleton (hp t ht), fun _ => List.cons_ne_nil t []⟩
    · exact .unexpected h (t :: ts)

/-- A token that may stand right here. -/
theorem stops_take? {t : Token} (ht : t.isOrdinary) : (take? t).Stops levels (· = true) := by
  intro ts
  by_cases h : ts.head? = some t
  · obtain ⟨us, rfl⟩ := List.head?_eq_some_iff.mp h
    rw [take?_cons_self]
    exact ⟨[t], rfl, .singleton ht, fun _ => List.cons_ne_nil t []⟩
  · rw [take?_of_ne h]
    exact .left nofun

/-- What comes after a token that may stand there or not. -/
theorem consumes_take? {t : Token} (ht : t.isOrdinary) (hr : r.MayConsume levels)
    (hs : s.Consumes levels) :
    (take? t >>= fun found => if found then r else s).Consumes levels := by
  refine (stops_take? ht).bind (fun found h => ?_) fun found h => ?_
  · rw [if_pos h]
    exact hr
  · rw [if_neg h]
    exact hs

/-- A token that has to come next. -/
theorem consumes_expect {t : Token} (ht : t.isOrdinary) (owner : String) :
    (expect t owner).Consumes levels :=
  Consumes.space <| (consumes_one (fun u hu => by simp_all) (expect_ne_bareName t owner)).bind
    fun _ => mayConsume_pure _

/-- A step over a token that has been looked at. -/
theorem stopsAt_advance {t : Token} (ht : t.isOrdinary) {k : Unit → Rule α}
    (hk : (k ()).MayConsume levels) (ts : List Token) :
    StopsAt (levels + 1) taking (t :: ts) ((advance >>= k) (t :: ts)) :=
  (hk ts).after (.singleton ht) (Nat.le_refl _) fun _ _ => .inl (List.cons_ne_nil t [])

/-- A token that may come next. -/
theorem stops_skip? {t : Token} (ht : t.isOrdinary) : (skip? t).Stops levels (· = true) := by
  intro ts
  cases h : isNext t ts with
  | false =>
    rw [skip?_of_not_isNext h]
    exact .left nofun
  | true =>
    obtain ⟨us, hus⟩ := isNext_iff_cons.mp h
    rw [skip?_of_skipSpace hus]
    exact .next hus ht true

/-- An operator that may come next. -/
theorem stops_operator? {read : Token → Option ω}
    (hread : ∀ t op, read t = some op → t.isOrdinary) :
    (operator? read).Stops levels (·.isSome) := by
  intro ts
  obtain h | ⟨t, op, rest, hrest, hop, h⟩ := operator?_cases read ts
  · rw [h]
    exact .left nofun
  · rw [h]
    exact .next hrest (hread t op hop) (some op)

/-! ## Repetition -/

/-- A repetition may find nothing. -/
theorem mayConsume_many {next? : Rule (Option α)} (h : next?.MayConsume levels) :
    (many next?).MayConsume levels := by
  have hupTo : ∀ fuel, (upTo next? fuel).MayConsume levels := by
    intro fuel
    induction fuel with
    | nil => exact mayConsume_pure []
    | cons t fuel ih =>
      refine h.followed fun a => ?_
      cases a with
      | none => exact mayConsume_pure []
      | some a => exact ih.followed fun as => mayConsume_pure _
  exact fun ts => hupTo ts ts

section Shapes

variable {read : Token → Option ω} {left item body : Rule α} {right : Rule β}

/-- An operator and its right operand, if the operator comes next. -/
theorem stops_link (hread : ∀ t op, read t = some op → t.isOrdinary) (hr : right.Consumes levels) :
    (link read right).Stops levels (·.isSome) := by
  refine (stops_operator? hread).bind (fun op hop => ?_) fun op hop => ?_
  · obtain ⟨op, rfl⟩ := Option.isSome_iff_exists.mp hop
    exact (hr.bind fun b => mayConsume_pure _).mayConsume
  · obtain rfl : op = none := by simpa using hop
    exact stops_pure nofun

/-- The first operand of a chain is there. -/
theorem consumes_chain (hread : ∀ t op, read t = some op → t.isOrdinary)
    (hl : left.Consumes levels) (hr : right.Consumes levels) :
    (chain read left right).Consumes levels :=
  hl.bind fun _ => (mayConsume_many (stops_link hread hr).mayConsume).followed fun _ =>
    mayConsume_pure _

/-- What separates the items of a list is a comma. -/
theorem isOrdinary_separator (t : Token) (s : Separator) (h : Spelled.ofToken? t = some s) :
    t.isOrdinary := by
  rw [separator_eq h]
  decide

/-- The first item of a list is there. -/
theorem consumes_commaList (h : item.Consumes levels) : (commaList item).Consumes levels :=
  (consumes_chain isOrdinary_separator h h).bind fun _ => mayConsume_pure _

/-- A list that is closed at once is empty. -/
theorem mayConsume_separated (closing : Token) (h : item.Consumes levels) :
    (separated closing item).MayConsume levels :=
  stops_rest fun ts => Stops.ite _ (mayConsume_pure []) (consumes_commaList h).mayConsume ts

/-- All words have to follow. -/
theorem stops_words {expected : String} (h : expected ≠ bareName) {ws : List Token}
    (hws : ∀ w ∈ ws, w.isOrdinary) : (words expected ws).Stops levels fun _ => ws ≠ [] := by
  induction ws with
  | nil => exact stops_pure fun hne => hne rfl
  | cons w ws ih =>
    have hw : ∀ t, (t == w) = true → t.isOrdinary := fun t ht => by
      obtain rfl : t = w := by simpa using ht
      exact hws t (by simp)
    have hrest := ih fun v hv => hws v (by simp [hv])
    exact Consumes.stops (Consumes.space <| ((consumes_one hw h).bind fun _ =>
      mayConsume_pure _).bind fun _ => hrest.mayConsume) _

/-- What follows the words has one level less. -/
theorem consumes_followedBy {w : Token} {ws : List Token}
    (htext : " ".intercalate ((w :: ws).map fun w => "'" ++ w ++ "'") ≠ bareName)
    (hws : ∀ t ∈ w :: ws, t.isOrdinary) (hl : left.Consumes (levels + 1))
    (hr : right.Consumes levels) : (followedBy (w :: ws) left right).Consumes (levels + 1) := by
  refine hl.bind fun a => stops_rest fun ts => Stops.ite _ ?_ (mayConsume_pure _) ts
  have hwords : (words _ (w :: ws)).Consumes (levels + 1) :=
    (stops_words htext hws).imp fun _ _ => List.cons_ne_nil w ws
  exact (hwords.descend fun _ => (hr.bind fun b => mayConsume_pure _).mayConsume).mayConsume

/-- The token that introduces a construct. -/
theorem consumes_after {op : Token} (hop : op.isOrdinary) (owner : String)
    (h : item.Consumes levels) : (after op owner item).Consumes levels :=
  (consumes_expect hop owner).bind fun _ => h.mayConsume

/-- A mark may stand behind a construct. -/
theorem consumes_marked {op : Token} (hop : op.isOrdinary) (h : item.Consumes levels) :
    (marked op item).Consumes levels :=
  h.bind fun _ => (stops_skip? hop).followed fun _ => mayConsume_pure _

/-! ## Brackets -/

/-- In a bracket, which is the first of the tokens `opening`, nothing fails at the end. -/
theorem stopsAt_enclosed {opening : List Token} (hopening : opening <:+ ts) (hne : opening ≠ [])
    (hok : ∀ x, body us = .ok x → StopsAt levels taking ts (.ok x))
    (herror : ∀ e, body us = .error e → e.FoundIn levels ts) :
    StopsAt levels taking ts (enclosed opening body us) := by
  unfold enclosed
  split
  next expected h =>
    refine ⟨⟨hopening, (herror _ h).2⟩, fun _ hend => absurd ?_ hne⟩
    exact (Failure.unexpected.inj hend).1
  next hcase =>
    cases h : body us with
    | ok x => exact hok x h
    | error e =>
      refine ⟨herror e h, fun expected hend => ?_⟩
      subst hend
      exact absurd h (hcase expected)

/-- The tokens `ts` begin with the bracket, a space aside, and the body with what is after. -/
theorem stopsAt_closed {w : List Token} {opening closing : Token} {owner : String}
    (hts : ts = w ++ opening :: us) (hw : Balanced w) (h : Brackets opening closing)
    (hb : body.MayConsume levels) (f : α → β) : StopsAt (levels + 1) taking' ts (enclosed ts
      (body >>= fun a => expect closing owner >>= fun _ => pure (f a)) us) := by
  have hbody := hb us
  have hfound {e : Failure} (he : e.FoundIn levels us) : e.FoundIn (levels + 1) ts := by
    have hts' : ts = (w ++ [opening]) ++ us := by simp [hts]
    rw [hts']
    exact he.append (by simp)
  refine stopsAt_enclosed List.suffix_rfl (by simp [hts]) ?_ fun e he => ?_
  · rintro ⟨b, rest⟩ hclosed
    obtain ⟨a, mid, ha, hclosed⟩ := bind_eq_ok.mp hclosed
    obtain ⟨_, rest, hc, hp⟩ := bind_eq_ok.mp hclosed
    obtain ⟨rfl, rfl⟩ := pure_eq_ok.mp hp
    rw [ha] at hbody
    obtain ⟨v, rfl, hv, -⟩ := hbody
    obtain ⟨v', hmid, hv'⟩ := Balanced.exists_skipSpace mid
    rw [expect_eq_ok.mp hc] at hmid
    refine ⟨w ++ opening :: (v ++ v' ++ [closing]), by simp [hts, hmid],
      .behind hw (.bracket h (hv.balanced.append hv')) (List.cons_ne_nil _ _), fun _ => by simp⟩
  · refine hfound ?_
    cases ha : body us with
    | error e' =>
      obtain rfl : e' = e := by simpa [bind_of_error ha] using he
      rw [ha] at hbody
      exact hbody.1
    | ok x =>
      obtain ⟨a, mid⟩ := x
      rw [ha] at hbody
      rw [bind_of_ok ha] at he
      by_cases hc : (Token.skipSpace mid).head? = some closing
      · obtain ⟨rest, hrest⟩ := List.head?_eq_some_iff.mp hc
        rw [bind_of_ok (expect_of_skipSpace hrest owner)] at he
        cases he
      · rw [bind_of_error (expect_of_ne hc owner)] at he
        cases he
        exact ⟨(Token.skipSpace_suffix mid).trans hbody.suffix, expect_ne_bareName closing owner⟩

/-- A bracket, its body and the token that closes it. -/
theorem stopsAt_bracketedAt {bracket : List Token} {opening closing : Token} {owner : String}
    (h : Brackets opening closing) (hb : body.MayConsume levels)
    (hts : bracket = ts ∨ bracket = Token.skipSpace ts) :
    StopsAt (levels + 1) (fun _ => True) ts
      (bracketedAt bracket opening closing owner body ts) := by
  by_cases ho : (Token.skipSpace ts).head? = some opening
  · obtain ⟨us, hus⟩ := List.head?_eq_some_iff.mp ho
    rw [bracketedAt, bind_of_ok (expect_of_skipSpace hus owner)]
    obtain rfl | rfl := hts
    · obtain ⟨w, hw, hbalanced⟩ := Balanced.exists_skipSpace bracket
      exact stopsAt_closed (hus ▸ hw) hbalanced h hb id
    · exact .of_skipSpace (stopsAt_closed (List.nil_append _ ▸ hus) .nil h hb id)
  · rw [bracketedAt, bind_of_error (expect_of_ne ho owner)]
    exact .missing opening owner

/-- A bracket after a construct that is read already. -/
theorem consumes_bracketed {opening closing : Token} {owner : String}
    (h : Brackets opening closing) (hb : body.MayConsume levels) :
    (bracketed opening closing owner body).Consumes (levels + 1) :=
  stops_rest fun _ => stopsAt_bracketedAt h hb (.inr rfl)

/-- A bracket as a construct of its own. -/
theorem consumes_group {opening closing : Token} {owner : String} (h : Brackets opening closing)
    (hb : body.MayConsume levels) : (group opening closing owner body).Consumes (levels + 1) :=
  Consumes.space <| stops_rest fun _ => stopsAt_bracketedAt h hb (.inl rfl)

end Shapes

end Rule

end XPath
