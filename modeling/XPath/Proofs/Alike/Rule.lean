import XPath.Grammar.Name
import XPath.Proofs.Stops.Rule

/-!
# Sequences that read alike

A rule is run on two token sequences that differ where it does not look: behind what it takes, or in
spaces next to punctuation. `Alike` says what such a difference may be like, and `Alike.Transfers`
that a rule does not see it: what it reads from the first sequence it reads from the second, and the
rests are related again. There is one law for every shape of a rule.

A look-ahead may be declined, and then it must be declined on the second sequence too
(`Alike.back`). If it is taken, the token that was looked at is among those that the rule takes
(`Rule.Begins`), and stands in the second sequence as well (`Alike.next`).
-/

namespace XPath

open Rule

variable {α β ω : Type}

/-! ## Relations of sequences -/

/-- The tokens on either side of which a space has no meaning. -/
def Token.punctuation : List Token :=
  ["(", ")", "[", "]", "\x7b", "\x7d", ",", "$", "@", "#", "?", "/", "//", "|", "||", "!",
  "!=", "=", "<", "<=", "<<", ">", ">=", ">>", "=>", ":=", "::"]

/-- Neither a string literal nor a braced URI begins here. -/
def StartsNoLiteral (ts : List Token) : Prop :=
  Grammar.startsBracedUri ts = false ∧ ∀ t ∈ ts.head?, t.isQuote = false

/-- When a token sequence reads like another one, for a rule that leaves something `kept` of the
first. Right behind a token that is `touching`, the next such token is found in both sequences or in
none. A literal is read token by token, so there is none unless all tokens are touching. -/
structure Alike where
  rel : List Token → List Token → Prop
  kept : List Token → Prop
  touching : Token → Prop
  kept_suffix {rest mid : List Token} : rest <:+ mid → kept rest → kept mid
  skip {ts us : List Token} : rel ts us → kept (Token.skipSpace ts) →
    rel (Token.skipSpace ts) (Token.skipSpace us)
  next {t : Token} {ts us more : List Token} : rel ts us → Token.skipSpace ts = t :: more →
    kept more → ∃ more', Token.skipSpace us = t :: more' ∧ rel more more'
  back {t : Token} {ts us more' : List Token} : rel ts us → Token.skipSpace us = t :: more' →
    ∃ more, Token.skipSpace ts = t :: more ∧ rel more more' ∧ rel (t :: more) (t :: more')
  touch {t u : Token} {more us : List Token} : rel (t :: u :: more) (t :: us) → touching t →
    touching u → kept more → ∃ more', us = u :: more' ∧ rel (u :: more) (u :: more')
  touch_back {t u : Token} {ts more' : List Token} : rel (t :: ts) (t :: u :: more') → touching t →
    touching u → ∃ more, ts = u :: more ∧ rel (u :: more) (u :: more')
  touching_of {t : Token} : t ∉ Token.space :: Token.punctuation → touching t
  literal : (∀ t, touching t) ∨ ∀ {ts us : List Token}, rel ts us →
    StartsNoLiteral (Token.skipSpace ts) ∧ StartsNoLiteral (Token.skipSpace us)

/-- The tokens after the next one, a space aside, are among those after the next one of a longer
sequence. -/
theorem exists_next_of_suffix {t : Token} {rest mid more : List Token} (h : rest <:+ mid)
    (hrest : Token.skipSpace rest = t :: more) :
    ∃ u more', Token.skipSpace mid = u :: more' ∧ more <:+ more' := by
  obtain ⟨w, rfl⟩ := h
  have htail : more <:+ rest :=
    (List.suffix_cons t more).trans (hrest ▸ Token.skipSpace_suffix rest)
  cases w with
  | nil => exact ⟨t, more, hrest, List.suffix_rfl⟩
  | cons u w =>
    rw [List.cons_append, Token.skipSpace]
    split
    · cases w with
      | cons v w => exact ⟨v, w ++ rest, rfl, htail.trans (List.suffix_append w rest)⟩
      | nil =>
        cases rest with
        | nil => cases hrest
        | cons v rest =>
          refine ⟨v, rest, rfl, ?_⟩
          rw [Token.skipSpace] at hrest
          split at hrest
          · subst hrest
            exact List.suffix_cons t more
          · cases hrest
            exact List.suffix_rfl
    · exact ⟨u, w ++ rest, rfl, htail.trans (List.suffix_append w rest)⟩

namespace Alike

/-- The same relation inside of a bracket, where another token is kept: the one that closes it. -/
def inside (A : Alike) : Alike where
  rel := A.rel
  kept rest := ∃ t more, Token.skipSpace rest = t :: more ∧ A.kept more
  touching := A.touching
  kept_suffix := by
    rintro rest mid h ⟨t, more, hrest, hmore⟩
    obtain ⟨u, more', hmid, hsuffix⟩ := exists_next_of_suffix h hrest
    exact ⟨u, more', hmid, A.kept_suffix hsuffix hmore⟩
  skip := by
    rintro ts us h ⟨t, more, hts, hmore⟩
    have hsuffix : more <:+ Token.skipSpace ts :=
      (List.suffix_cons t more).trans (hts ▸ Token.skipSpace_suffix _)
    exact A.skip h (A.kept_suffix hsuffix hmore)
  next := by
    rintro t ts us more h hts ⟨u, more', hmore, hkept⟩
    have hsuffix : more' <:+ more :=
      (List.suffix_cons u more').trans (hmore ▸ Token.skipSpace_suffix more)
    exact A.next h hts (A.kept_suffix hsuffix hkept)
  back := A.back
  touch := by
    rintro t u more us h ht hu ⟨v, more', hmore, hkept⟩
    have hsuffix : more' <:+ more :=
      (List.suffix_cons v more').trans (hmore ▸ Token.skipSpace_suffix more)
    exact A.touch h ht hu (A.kept_suffix hsuffix hkept)
  touch_back := A.touch_back
  touching_of := A.touching_of
  literal := A.literal

variable {A : Alike} {ts us : List Token}

theorem kept_of_inside (h : A.inside.kept ts) : A.kept ts := by
  obtain ⟨t, more, hts, hmore⟩ := h
  exact A.kept_suffix ((List.suffix_cons t more).trans (hts ▸ Token.skipSpace_suffix ts)) hmore

theorem isNext_of_back {t : Token} (h : A.rel ts us) (ht : isNext t us = true) :
    isNext t ts = true := by
  obtain ⟨more', hus⟩ := isNext_iff_cons.mp ht
  obtain ⟨more, hts, -⟩ := A.back h hus
  exact isNext_iff_cons.mpr ⟨more, hts⟩

theorem isNext_of_kept {t : Token} {more : List Token} (h : A.rel ts us)
    (hts : Token.skipSpace ts = t :: more) (hmore : A.kept more) : isNext t us = true := by
  obtain ⟨more', hus, -⟩ := A.next h hts hmore
  exact isNext_iff_cons.mpr ⟨more', hus⟩

/-- Inside of a bracket the same token is next. -/
theorem head?_inside (h : A.rel ts us) (hts : A.inside.kept ts) :
    (Token.skipSpace us).head? = (Token.skipSpace ts).head? := by
  obtain ⟨t, more, hts, hmore⟩ := hts
  obtain ⟨more', hus, -⟩ := A.next h hts hmore
  rw [hts, hus]
  rfl

end Alike

/-! ## Transfer of a result -/

/-- The rule leaves the last ones of the tokens that it is given. -/
def Rule.LeavesSuffix (r : Rule α) : Prop :=
  ∀ ⦃ts a rest⦄, r ts = .ok (a, rest) → rest <:+ ts

/-- A rule that stops as it should leaves the last ones of its tokens. -/
theorem Rule.Stops.suffix {n : Nat} {taking : α → Prop} {r : Rule α} (hr : r.Stops n taking) :
    r.LeavesSuffix :=
  fun ts _ _ h => StopsAt.suffix (h ▸ hr ts)

/-- Nothing is taken for a value that is there. -/
theorem Rule.leavesSuffix_pure (a : α) : (pure a : Rule α).LeavesSuffix :=
  fun _ _ _ h => (pure_eq_ok.mp h).2 ▸ List.suffix_rfl

namespace Alike

variable (A : Alike)

/-- What the first run reads the second reads too, and leaves what is related. -/
def Again (x y : Except Failure (α × List Token)) : Prop :=
  ∀ ⦃a rest⦄, x = .ok (a, rest) → A.kept rest → ∃ rest', y = .ok (a, rest') ∧ A.rel rest rest'

/-- The rule reads alike from all sequences that are related. -/
structure Transfers (r : Rule α) : Prop where
  suffix : r.LeavesSuffix
  again {ts us : List Token} : A.rel ts us → A.Again (r ts) (r us)

end Alike

/-- Whatever the rule reads begins with a token, a space aside. -/
def Rule.Takes (r : Rule α) : Prop :=
  ∀ ⦃ts a rest⦄, r ts = .ok (a, rest) → ∃ t more, Token.skipSpace ts = t :: more ∧ rest <:+ more

namespace Alike

variable {A : Alike} {r s : Rule α} {k : α → Rule β} {ts us : List Token}

/-! ## Sequences -/

theorem Again.bind {r' : Rule α} (hr : A.Again (r ts) (r' us)) (hk : ∀ a, A.Transfers (k a)) :
    A.Again ((r >>= k) ts) ((r' >>= k) us) := by
  intro b rest h hkept
  obtain ⟨a, mid, ha, hb⟩ := bind_eq_ok.mp h
  obtain ⟨mid', ha', hrel⟩ := hr ha (A.kept_suffix ((hk a).suffix hb) hkept)
  rw [bind_of_ok ha']
  exact (hk a).again hrel hb hkept

theorem Transfers.bind (hr : A.Transfers r) (hk : ∀ a, A.Transfers (k a)) :
    A.Transfers (r >>= k) where
  suffix _ _ _ h :=
    have ⟨a, _, ha, hb⟩ := bind_eq_ok.mp h
    ((hk a).suffix hb).trans (hr.suffix ha)
  again h := (hr.again h).bind hk

theorem transfers_pure (a : α) : A.Transfers (pure a : Rule α) where
  suffix _ _ _ h := (pure_eq_ok.mp h).2 ▸ List.suffix_rfl
  again {ts us} hrel := by
    intro b rest h _
    obtain ⟨rfl, rfl⟩ := pure_eq_ok.mp h
    exact ⟨us, rfl, hrel⟩

theorem Transfers.map (hr : A.Transfers r) (f : α → β) : A.Transfers (f <$> r) :=
  hr.bind fun a => transfers_pure (f a)

theorem transfers_fail (expected : String) : A.Transfers (fail expected : Rule α) where
  suffix _ _ _ h := nomatch h
  again _ := nofun

theorem transfers_ofExcept (x : Except ValueError α) : A.Transfers (ofExcept x) := by
  cases x with
  | ok a => exact transfers_pure a
  | error e => exact ⟨nofun, fun _ => nofun⟩

theorem Transfers.ite (c : Prop) [Decidable c] (hr : A.Transfers r) (hs : A.Transfers s) :
    A.Transfers (if c then r else s) := by
  split
  · exact hr
  · exact hs

/-- A choice that the second run makes like the first one. -/
theorem Again.ite {c c' : Prop} [Decidable c] [Decidable c'] {r' s' : Rule α}
    (hforth : ∀ a rest, r ts = .ok (a, rest) → A.kept rest → c → c') (hback : c' → c)
    (hr : A.Again (r ts) (r' us)) (hs : A.Again (s ts) (s' us)) :
    A.Again ((if c then r else s) ts) ((if c' then r' else s') us) := by
  intro a rest h hkept
  by_cases hc : c
  · rw [if_pos hc] at h
    rw [if_pos (hforth a rest h hkept hc)]
    exact hr h hkept
  · rw [if_neg hc] at h
    rw [if_neg (mt hback hc)]
    exact hs h hkept

/-- A choice by the token that is next on `more`. What is chosen takes that token. -/
theorem Again.iteNext {r' s' : Rule α} {w : Token} {more more' : List Token}
    (hrel : A.rel more more')
    (htakes : ∀ {a rest}, isNext w more = true → r ts = .ok (a, rest) →
      ∃ u mid, Token.skipSpace more = u :: mid ∧ rest <:+ mid)
    (hr : A.Again (r ts) (r' us)) (hs : A.Again (s ts) (s' us)) :
    A.Again ((if isNext w more = true then r else s) ts)
      ((if isNext w more' = true then r' else s') us) := by
  refine .ite (fun a rest h hkept hw => ?_) (isNext_of_back hrel) hr hs
  obtain ⟨u, mid, hmid, hrest⟩ := htakes hw h
  obtain ⟨mid', hmore⟩ := isNext_iff_cons.mp hw
  obtain ⟨rfl, rfl⟩ := List.cons_eq_cons.mp (hmid.symm.trans hmore)
  exact isNext_of_kept hrel hmid (A.kept_suffix hrest hkept)

/-- The same choice under a condition on something else. -/
theorem Again.iteKeyword {p : Prop} [Decidable p] {r' s' : Rule α} {w : Token}
    {more more' : List Token} (hrel : A.rel more more')
    (htakes : ∀ {a rest}, p → isNext w more = true → r ts = .ok (a, rest) →
      ∃ u mid, Token.skipSpace more = u :: mid ∧ rest <:+ mid)
    (hr : p → A.Again (r ts) (r' us)) (hs : A.Again (s ts) (s' us)) :
    A.Again ((if p ∧ isNext w more = true then r else s) ts)
      ((if p ∧ isNext w more' = true then r' else s') us) := by
  by_cases hp : p
  · simpa only [hp, true_and] using Again.iteNext hrel (htakes hp) (hr hp) hs
  · simpa only [hp, false_and, if_false] using hs

/-! ## Single tokens -/

theorem transfers_space : A.Transfers space where
  suffix _ _ _ h := by
    cases h
    exact Token.skipSpace_suffix _
  again hrel := by
    rintro _ _ ⟨⟩ hkept
    exact ⟨_, rfl, A.skip hrel hkept⟩

/-- The first tokens of two related sequences, of which the rule takes the one. -/
theorem again_next (hrel : A.rel ts us)
    (htakes : ∀ {a rest}, r (Token.skipSpace ts) = .ok (a, rest) →
      ∃ t more, Token.skipSpace ts = t :: more ∧ rest <:+ more)
    (h : ∀ {t more more'}, Token.skipSpace ts = t :: more → A.rel more more' →
      A.rel (t :: more) (t :: more') → A.Again (r (t :: more)) (r (t :: more'))) :
    A.Again (r (Token.skipSpace ts)) (r (Token.skipSpace us)) := by
  intro a rest hr hkept
  obtain ⟨t, more, hts, hrest⟩ := htakes hr
  have hmore : A.kept more := A.kept_suffix hrest hkept
  obtain ⟨more', hus, hrel'⟩ := A.next hrel hts hmore
  have hrel'' := A.skip hrel (A.kept_suffix (hts ▸ List.suffix_cons t more) hmore)
  rw [hts] at hr
  rw [hts, hus] at hrel''
  rw [hus]
  exact h hts hrel' hrel'' hr hkept

/-- A rule that takes the next token, and may look at it. -/
theorem transfers_next (htakes : (space >>= fun _ => r).Takes)
    (h : ∀ {t more more'}, A.rel more more' → A.rel (t :: more) (t :: more') →
      A.Again (r (t :: more)) (r (t :: more'))) : A.Transfers (space >>= fun _ => r) where
  suffix _ _ _ hr :=
    have ⟨t, more, hts, hrest⟩ := htakes hr
    (hrest.trans (hts ▸ List.suffix_cons t more)).trans (Token.skipSpace_suffix _)
  again hrel := again_next hrel
    (fun {a rest} hr => htakes (show (space >>= fun _ => r) _ = .ok (a, rest) from hr)) fun _ => h

theorem again_advance {t : Token} {more more' : List Token} (h : A.rel more more') :
    A.Again (advance (t :: more)) (advance (t :: more')) := by
  rintro _ _ ⟨⟩ _
  exact ⟨more', rfl, h⟩

theorem again_one {p : Token → Bool} {expected : String} {t : Token} {more more' : List Token}
    (h : A.rel more more') :
    A.Again (one p expected (t :: more)) (one p expected (t :: more')) := by
  intro u rest hone _
  obtain ⟨hp, heq⟩ := one_eq_ok.mp hone
  cases heq
  exact ⟨more', one_eq_ok.mpr ⟨hp, rfl⟩, h⟩

theorem transfers_one (p : Token → Bool) (expected : String) :
    A.Transfers (space >>= fun _ => one p expected) := by
  refine transfers_next (fun ts t rest h => ?_) fun hrel _ => again_one hrel
  obtain ⟨-, hts⟩ := one_eq_ok.mp (show one p expected (Token.skipSpace ts) = .ok (t, rest) from h)
  exact ⟨t, rest, hts, List.suffix_rfl⟩

theorem transfers_expect (t : Token) (owner : String) : A.Transfers (expect t owner) where
  suffix _ _ _ h := (List.suffix_cons t _).trans (expect_eq_ok.mp h ▸ Token.skipSpace_suffix _)
  again hrel := by
    rintro _ rest h hkept
    obtain ⟨rest', hus, hrest⟩ := A.next hrel (expect_eq_ok.mp h) hkept
    exact ⟨rest', expect_of_skipSpace hus owner, hrest⟩

theorem transfers_skip? (t : Token) : A.Transfers (skip? t) where
  suffix _ _ _ h := by
    obtain ⟨-, hts⟩ | ⟨-, rfl, -⟩ := skip?_eq_ok.mp h
    · exact (List.suffix_cons t _).trans (hts ▸ Token.skipSpace_suffix _)
    · exact List.suffix_rfl
  again {ts us} hrel := by
    intro found rest h hkept
    obtain ⟨rfl, hts⟩ | ⟨rfl, rfl, hnext⟩ := skip?_eq_ok.mp h
    · obtain ⟨rest', hus, hrest⟩ := A.next hrel hts hkept
      exact ⟨rest', skip?_of_skipSpace hus, hrest⟩
    · have hus : isNext t us = false :=
        Bool.eq_false_iff.mpr fun ht =>
          Bool.false_ne_true (hnext.symm.trans (isNext_of_back hrel ht))
      exact ⟨us, skip?_of_not_isNext hus, hrel⟩

theorem transfers_operator? (read : Token → Option ω) : A.Transfers (operator? read) where
  suffix ts op rest h := by
    cases op with
    | none =>
      obtain ⟨rfl, -⟩ := operator?_eq_none.mp h
      exact List.suffix_rfl
    | some op =>
      obtain ⟨t, hts, -⟩ := operator?_eq_some.mp h
      exact (List.suffix_cons t _).trans (hts ▸ Token.skipSpace_suffix _)
  again {ts us} hrel := by
    intro op rest h hkept
    cases op with
    | none =>
      obtain ⟨rfl, hnone⟩ := operator?_eq_none.mp h
      refine ⟨us, operator?_of_none fun t ht => ?_, hrel⟩
      obtain ⟨more', hus⟩ := List.head?_eq_some_iff.mp ht
      obtain ⟨more, hts, -⟩ := A.back hrel hus
      exact hnone t (by rw [hts]; rfl)
    | some op =>
      obtain ⟨t, hts, hop⟩ := operator?_eq_some.mp h
      obtain ⟨rest', hus, hrest⟩ := A.next hrel hts hkept
      exact ⟨rest', operator?_of_some hus hop, hrest⟩

/-! ## Repetition -/

theorem suffix_of_steps {next? : Rule (Option α)} (h : A.Transfers next?) {rest : List Token}
    {as : List α} (hs : Steps next? ts as rest) : rest <:+ ts := by
  induction hs with
  | nil ts => exact List.suffix_rfl
  | cons ha _ _ ih => exact ih.trans (h.suffix ha)

theorem transfers_many {next? : Rule (Option α)} (hn : Advances next?) (h : A.Transfers next?) :
    A.Transfers (many next?) where
  suffix _ _ _ hm := suffix_of_steps h ((many_eq_ok hn).mp hm).1
  again {ts us} hrel := by
    intro as rest hm hkept
    obtain ⟨hs, hend⟩ := (many_eq_ok hn).mp hm
    clear hm
    -- On the run of steps, each of which the second sequence allows as well.
    suffices hsteps : ∃ rest', Steps next? us as rest' ∧ A.rel rest rest' by
      obtain ⟨rest', hs', hrest⟩ := hsteps
      obtain ⟨rest'', hend', -⟩ := h.again hrest hend hkept
      obtain rfl := hn.none hend'
      exact ⟨rest', many_of_steps hs' hend', hrest⟩
    induction hs generalizing us with
    | nil ts => exact ⟨us, .nil us, hrel⟩
    | cons ha hmid hs ih =>
      obtain ⟨mid', ha', hmid'⟩ := h.again hrel ha (A.kept_suffix (suffix_of_steps h hs) hkept)
      obtain ⟨rest', hs', hrest⟩ := ih hmid' hkept hend
      exact ⟨rest', .cons ha' (hn.some ha') hs', hrest⟩

section Shapes

variable {read : Token → Option ω} {left item : Rule α} {right : Rule β}

theorem Transfers.shrinks (h : A.Transfers r) : r.Shrinks :=
  fun _ _ _ hr => (h.suffix hr).length_le

theorem transfers_chain (hl : A.Transfers left) (hr : A.Transfers right) :
    A.Transfers (chain read left right) := by
  have hlink : A.Transfers (link read right) := by
    refine (transfers_operator? read).bind fun op => ?_
    cases op with
    | none => exact transfers_pure none
    | some op => exact hr.bind fun b => transfers_pure _
  exact hl.bind fun _ => (transfers_many (link_advances hr.shrinks) hlink).bind fun _ =>
    transfers_pure _

theorem transfers_commaList (h : A.Transfers item) : A.Transfers (commaList item) :=
  (transfers_chain h h).bind fun _ => transfers_pure _

theorem transfers_words (expected : String) (ws : List Token) :
    A.Transfers (words expected ws) := by
  induction ws with
  | nil => exact transfers_pure ()
  | cons w ws ih =>
    constructor
    · intro ts _ rest h
      obtain ⟨mid, hts, hws⟩ := words_cons_eq_ok.mp h
      exact ((ih.suffix hws).trans (List.suffix_cons w mid)).trans (hts ▸ Token.skipSpace_suffix ts)
    · intro ts us hrel _ rest h hkept
      obtain ⟨mid, hts, hws⟩ := words_cons_eq_ok.mp h
      obtain ⟨mid', hus, hmid⟩ := A.next hrel hts (A.kept_suffix (ih.suffix hws) hkept)
      obtain ⟨rest', hws', hrest⟩ := ih.again hmid hws hkept
      exact ⟨rest', words_cons_eq_ok.mpr ⟨mid', hus, hws'⟩, hrest⟩

theorem transfers_followedBy (w : Token) (ws : List Token) (hl : A.Transfers left)
    (hr : A.Transfers right) : A.Transfers (followedBy (w :: ws) left right) := by
  rw [show followedBy (w :: ws) left right = _ from funext fun ts =>
    congrFun (followedBy_cons w ws left right) ts]
  have hright (a : α) (expected : String) : A.Transfers (words expected (w :: ws) >>= fun _ =>
      right >>= fun b => pure (a, some b)) :=
    (transfers_words expected (w :: ws)).bind fun _ => hr.bind fun _ => transfers_pure _
  refine hl.bind fun a => ⟨fun ts x rest h => ?_, fun {ts us} hrel => ?_⟩
  · obtain ⟨-, h⟩ | ⟨-, h⟩ := ite_eq_ok.mp (show (if isNext w ts = true then _ else _ : Rule _) ts =
      .ok (x, rest) from h)
    · exact (hright a _).suffix h
    · exact (transfers_pure (A := A) _).suffix h
  · refine Again.ite (fun x rest h hkept _ => ?_) (isNext_of_back hrel) ((hright a _).again hrel)
      ((transfers_pure _).again hrel)
    obtain ⟨_, mid, hws, h⟩ := bind_eq_ok.mp h
    obtain ⟨mid', hts, hws⟩ := words_cons_eq_ok.mp hws
    have hsuffix : rest <:+ mid' :=
      ((hr.bind fun b => transfers_pure (a, some b)).suffix h).trans
        ((transfers_words (A := A) _ ws).suffix hws)
    exact isNext_of_kept hrel hts (A.kept_suffix hsuffix hkept)

theorem transfers_after (op : Token) (owner : String) (h : A.Transfers item) :
    A.Transfers (after op owner item) :=
  (transfers_expect op owner).bind fun _ => h

theorem transfers_marked (op : Token) (h : A.Transfers item) : A.Transfers (marked op item) :=
  h.bind fun _ => (transfers_skip? op).bind fun _ => transfers_pure _

/-! ## Brackets -/

/-- Inside of a bracket a rule may be chosen by the next token. -/
theorem transfers_byNext {k : List Token → Rule α}
    (hk : ∀ ts us, (Token.skipSpace us).head? = (Token.skipSpace ts).head? → k us = k ts)
    (h : ∀ ts, A.inside.Transfers (k ts)) : A.inside.Transfers (rest >>= k) where
  suffix ts _ _ hr := (h ts).suffix hr
  again {ts us} hrel := by
    intro a rest hr hkept
    have hts : A.inside.kept ts := A.inside.kept_suffix ((h ts).suffix hr) hkept
    rw [bind_of_ok (rest_apply us), hk ts us (head?_inside (A := A) hrel hts)]
    exact (h ts).again hrel hr hkept

theorem transfers_separated (closing : Token) (h : A.inside.Transfers item) :
    A.inside.Transfers (separated closing item) :=
  transfers_byNext (fun ts us hhead => by rw [isNext, isNext, hhead]) fun ts =>
    .ite _ (transfers_pure []) (transfers_commaList h)

theorem again_bracketedAt {bracket bracket' : List Token} {opening closing : Token} {owner : String}
    (h : A.inside.Transfers item) (hrel : A.rel ts us) :
    A.Again (bracketedAt bracket opening closing owner item ts)
      (bracketedAt bracket' opening closing owner item us) := by
  intro a rest hb hkept
  obtain ⟨ts', mid, hts, ha, hmid⟩ := bracketedAt_eq_ok.mp hb
  have hinside : A.inside.kept mid := ⟨closing, rest, hmid, hkept⟩
  have hts' : A.kept ts' := A.kept_suffix (h.suffix ha) (kept_of_inside hinside)
  obtain ⟨us', hus, hrel'⟩ := A.next hrel hts hts'
  obtain ⟨mid', ha', hrel''⟩ := h.again hrel' ha hinside
  obtain ⟨rest', hmid', hrest⟩ := A.next hrel'' hmid hkept
  exact ⟨rest', bracketedAt_eq_ok.mpr ⟨us', mid', hus, ha', hmid'⟩, hrest⟩

theorem transfers_bracketed (opening closing : Token) (owner : String)
    (h : A.inside.Transfers item) : A.Transfers (bracketed opening closing owner item) where
  suffix _ _ _ hb := by
    obtain ⟨ts', mid, hts, ha, hmid⟩ := bracketed_eq_ok.mp hb
    exact ((List.suffix_cons closing _).trans (hmid ▸ Token.skipSpace_suffix mid)).trans
      (((h.suffix ha).trans (List.suffix_cons opening ts')).trans (hts ▸ Token.skipSpace_suffix _))
  again hrel := again_bracketedAt h hrel

theorem transfers_group (opening closing : Token) (owner : String)
    (h : A.inside.Transfers item) : A.Transfers (group opening closing owner item) := by
  refine transfers_space.bind fun _ =>
    ⟨fun ts a rest hb => ?_, fun hrel => again_bracketedAt h hrel⟩
  obtain ⟨ts', mid, hts, ha, hmid⟩ := bracketedAt_eq_ok.mp hb
  exact ((List.suffix_cons closing _).trans (hmid ▸ Token.skipSpace_suffix mid)).trans
    (((h.suffix ha).trans (List.suffix_cons opening ts')).trans (hts ▸ Token.skipSpace_suffix _))

end Shapes

end Alike

/-! ## First tokens -/

namespace Rule

variable {r : Rule α} {k : α → Rule β} {A : Alike}

theorem Takes.bind (hr : r.Takes) (hk : ∀ a, (k a).LeavesSuffix) : (r >>= k).Takes := by
  intro ts b rest h
  obtain ⟨a, mid, ha, hb⟩ := bind_eq_ok.mp h
  obtain ⟨t, more, hts, hmid⟩ := hr ha
  exact ⟨t, more, hts, (hk a hb).trans hmid⟩

theorem Takes.space (hr : r.Takes) : (space >>= fun _ => r).Takes := by
  intro ts a rest h
  obtain ⟨t, more, hts, hrest⟩ := hr (show r (Token.skipSpace ts) = .ok (a, rest) from h)
  obtain ⟨u, more', hus, hmore⟩ := exists_next_of_suffix (Token.skipSpace_suffix ts) hts
  exact ⟨u, more', hus, hrest.trans hmore⟩

theorem takes_expect (t : Token) (owner : String) : (expect t owner).Takes :=
  fun _ _ rest h => ⟨t, rest, expect_eq_ok.mp h, List.suffix_rfl⟩

theorem takes_bracketedAt {bracket : List Token} {opening closing : Token} {owner : String}
    (hr : r.LeavesSuffix) : (bracketedAt bracket opening closing owner r).Takes := by
  intro ts a rest h
  obtain ⟨ts', mid, hts, ha, hmid⟩ := bracketedAt_eq_ok.mp h
  exact ⟨opening, ts', hts,
    ((List.suffix_cons closing _).trans (hmid ▸ Token.skipSpace_suffix mid)).trans (hr ha)⟩

theorem takes_bracketed {opening closing : Token} {owner : String} (hr : r.LeavesSuffix) :
    (bracketed opening closing owner r).Takes :=
  fun _ _ _ h => takes_bracketedAt hr h

theorem takes_group {opening closing : Token} {owner : String} (hr : r.LeavesSuffix) :
    (group opening closing owner r).Takes :=
  Takes.space fun _ _ _ h => takes_bracketedAt hr h

theorem Takes.commaList {levels : Nat} (hr : r.Takes) (hs : r.Consumes levels) :
    (commaList r).Takes := by
  have hlinks : (many (link (Spelled.ofToken? : Token → Option Separator) r)).MayConsume levels :=
    mayConsume_many (stops_link isOrdinary_separator hs).mayConsume
  exact (hr.bind fun _ => (hlinks.followed fun _ => mayConsume_pure _).suffix).bind fun _ =>
    leavesSuffix_pure _

/-- What the rule reads from the token `t` on goes on with another token, a space aside. -/
def GoesOn (t : Token) (r : Rule α) : Prop :=
  ∀ ⦃more a rest⦄, r (t :: more) = .ok (a, rest) →
    ∃ u mid, Token.skipSpace more = u :: mid ∧ rest <:+ mid

theorem GoesOn.bind {t : Token} (hr : r.GoesOn t) (hk : ∀ a, (k a).LeavesSuffix) :
    (r >>= k).GoesOn t := by
  intro more b rest h
  obtain ⟨a, mid, ha, hb⟩ := bind_eq_ok.mp h
  obtain ⟨u, mid', hmore, hmid⟩ := hr ha
  exact ⟨u, mid', hmore, (hk a hb).trans hmid⟩

theorem goesOn_expect {t : Token} {owner : String} (hs : t.isSpace = false) {k : Unit → Rule β}
    (hk : (k ()).Takes) : (expect t owner >>= k).GoesOn t := by
  intro more b rest h
  have hskip : Token.skipSpace (t :: more) = t :: more := by simp [Token.skipSpace, hs]
  rw [bind_of_ok (expect_of_skipSpace hskip owner)] at h
  exact hk h

theorem goesOn_advance (t : Token) {k : Unit → Rule β} (hk : (k ()).Takes) :
    (advance >>= k).GoesOn t :=
  fun more b rest h => hk (show k () more = .ok (b, rest) from h)

end Rule

/-- A rule may be chosen by the next token, if whatever is chosen takes that token. -/
theorem Alike.transfers_byTaken {A : Alike} {k : List Token → Rule α}
    (hk : ∀ ts us, (Token.skipSpace us).head? = (Token.skipSpace ts).head? → k us = k ts)
    (h : ∀ ts, A.Transfers (k ts)) (htakes : ∀ ts, k ts = k [] ∨ (k ts).Takes) :
    A.Transfers (rest >>= k) where
  suffix ts _ _ hr := (h ts).suffix hr
  again {ts us} hrel := by
    intro a rest hr hkept
    suffices hus : k us = k ts by
      rw [bind_of_ok (rest_apply us), hus]
      exact (h ts).again hrel hr hkept
    have hnext {t : Token} {more' : List Token} (hus : Token.skipSpace us = t :: more') :
        k us = k ts := by
      obtain ⟨more, hts, -⟩ := A.back hrel hus
      exact hk ts us (by rw [hts, hus]; rfl)
    cases hus : Token.skipSpace us with
    | cons t more' => exact hnext hus
    | nil =>
      have hnil : k us = k [] := hk [] us (by rw [hus]; rfl)
      obtain hts | htakes := htakes ts
      · rw [hnil, hts]
      · obtain ⟨t, more, hts, hrest⟩ := htakes hr
        obtain ⟨more', hus', -⟩ := A.next hrel hts (A.kept_suffix hrest hkept)
        exact hnext hus'

end XPath
