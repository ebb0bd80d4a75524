import XPath.Indexed.Input
import XPath.Proofs.Rule

/-!
# A rule and its counterpart at an index

A rule is given the tokens from an index on and says what is left; its counterpart is given the
index and says at which one it stops. The two outcomes are the same (`Mirrors`) if what is left are
the tokens from there on, and if a failure is told with the token that stands there.

The two may also be run with different numbers of levels left for what is nested, `first` and
`second`. Whatever the first run reads the second one reads too, if it fits into its limit, and
otherwise goes too deep; and a failure that the limits have no part in is found again under a larger
one (`AgreeAt`). With the same number on both sides nothing but the index is left
(`AgreeAt.mirrors`), and one law for every shape of a rule is good for both.

The laws for sequences keep account of what has been read before: a value fits if all parts of it do
(`Rule.agreeAt_bind`).
-/

namespace XPath

variable {α β ω : Type} {first second : Nat} {so : Prop} {input : Input} {i : Nat}

namespace Input

/-! ## The tokens from an index on -/

/-- The tokens from an index on. -/
def drop (input : Input) (i : Nat) : List Token := input.tokens.drop i

theorem head?_drop (input : Input) (i : Nat) : (input.drop i).head? = input.get i := by
  rw [drop, List.head?_drop, get]

theorem length_drop (input : Input) (i : Nat) :
    (input.drop i).length = input.tokens.length - i := by
  rw [drop, List.length_drop]

theorem lt_of_get {t : Token} (h : input.get i = some t) : i < input.tokens.length :=
  (List.getElem?_eq_some_iff.mp h).1

theorem drop_of_get {t : Token} (h : input.get i = some t) :
    input.drop i = t :: input.drop (i + 1) := by
  obtain ⟨hlt, rfl⟩ := List.getElem?_eq_some_iff.mp h
  exact List.drop_eq_getElem_cons hlt

theorem get_of_drop {t : Token} {ts : List Token} (h : input.drop i = t :: ts) :
    input.get i = some t ∧ ts = input.drop (i + 1) := by
  have hget : input.get i = some t := by rw [← head?_drop, h, List.head?_cons]
  rw [drop_of_get hget] at h
  exact ⟨hget, (List.cons.inj h).2.symm⟩

theorem get_of_drop_nil (h : input.drop i = []) : input.get i = none := by
  rw [← head?_drop, h, List.head?_nil]

theorem drop_of_get_none (h : input.get i = none) : input.drop i = [] :=
  List.drop_of_length_le (List.getElem?_eq_none_iff.mp h)

theorem drop_eq_nil_iff : input.drop i = [] ↔ input.tokens.length ≤ i :=
  List.drop_eq_nil_iff

/-- What is left fixes the index. -/
theorem drop_inj {j : Nat} (hi : i ≤ input.tokens.length) (hj : j ≤ input.tokens.length)
    (h : input.drop i = input.drop j) : i = j := by
  have hlength := congrArg List.length h
  rw [length_drop, length_drop] at hlength
  omega

theorem drop_one_drop (input : Input) (i : Nat) : (input.drop i).drop 1 = input.drop (i + 1) := by
  rw [drop, drop, List.drop_drop]

theorem skipSpace_drop (input : Input) (i : Nat) :
    Token.skipSpace (input.drop i) = input.drop (input.skipSpace i) := by
  rw [skipSpace]
  cases h : input.get i with
  | none =>
    rw [drop_of_get_none h, Option.any_none, if_neg Bool.false_ne_true, drop_of_get_none h]
    rfl
  | some t =>
    rw [drop_of_get h, Token.skipSpace, Option.any_some]
    split
    · rfl
    · rw [drop_of_get h]

theorem skipSpace_le (hi : i ≤ input.tokens.length) : input.skipSpace i ≤ input.tokens.length := by
  rw [skipSpace]
  split
  next h =>
    obtain ⟨t, ht, -⟩ := (Option.any_eq_true _ _).mp h
    exact lt_of_get ht
  · exact hi

theorem le_skipSpace (input : Input) (i : Nat) : i ≤ input.skipSpace i := by
  rw [skipSpace]
  split
  · exact Nat.le_succ i
  · exact Nat.le_refl i

theorem head?_skipSpace_drop (input : Input) (i : Nat) :
    (Token.skipSpace (input.drop i)).head? = input.peek i := by
  rw [skipSpace_drop, head?_drop, peek]

theorem isNext_drop (t : Token) (input : Input) (i : Nat) :
    Rule.isNext t (input.drop i) = input.isNext t i := by
  rw [Rule.isNext, head?_skipSpace_drop, isNext]

theorem get_of_isNext {t : Token} (h : input.isNext t i = true) :
    input.get (input.skipSpace i) = some t := by
  simpa [isNext, peek] using h

theorem isNext_of_get_none {t : Token} (h : input.get i = none) :
    input.isNext t (i + 1) = false := by
  refine Bool.eq_false_iff.mpr fun hnext => ?_
  have hlt := lt_of_get (get_of_isNext hnext)
  have hle := le_skipSpace input (i + 1)
  have hend := List.getElem?_eq_none_iff.mp h
  omega

/-- An error at the end of the tokens is reported at the bracket. -/
theorem enclosed_unexpected (input : Input) (opening position : Nat) (expected : String) :
    input.enclosed opening (.error (input.unexpected position expected) : Except _ (α × Nat)) =
      .error (if input.tokens.length ≤ position then input.unexpected opening expected
        else input.unexpected position expected) :=
  rfl

end Input

/-! ## The same outcome -/

/-- The same value and the same tokens left, or the same failure at the same token. -/
inductive Mirrors (input : Input) : Except Failure (α × List Token) → Except ParseError (α × Nat) →
    Prop
  | ok (a : α) {next : Nat} (h : next ≤ input.tokens.length) :
    Mirrors input (.ok (a, input.drop next)) (.ok (a, next))
  | unexpected (expected : String) {position : Nat} (h : position ≤ input.tokens.length) :
    Mirrors input (.error (.unexpected (input.drop position) expected))
      (.error (input.unexpected position expected))
  | tooDeep {position : Nat} (h : position ≤ input.tokens.length) :
    Mirrors input (.error (.tooDeep (input.drop position)))
      (.error (.tooDeep input.maxDepth position))
  | value (e : ValueError) : Mirrors input (.error (.value e)) (.error (.value e))

theorem mirrors_ok_iff {a : α} {rest : List Token} {y : Except ParseError (α × Nat)} :
    Mirrors input (.ok (a, rest)) y ↔
      ∃ next, next ≤ input.tokens.length ∧ rest = input.drop next ∧ y = .ok (a, next) := by
  constructor
  · intro h
    cases h with
    | ok _ h => exact ⟨_, h, rfl, rfl⟩
  · rintro ⟨next, h, rfl, rfl⟩
    exact .ok a h

theorem mirrors_unexpected_iff {rest : List Token} {expected : String}
    {y : Except ParseError (α × Nat)} : Mirrors input (.error (.unexpected rest expected)) y ↔
      ∃ position, position ≤ input.tokens.length ∧ rest = input.drop position ∧
        y = .error (input.unexpected position expected) := by
  constructor
  · intro h
    cases h with
    | unexpected _ h => exact ⟨_, h, rfl, rfl⟩
  · rintro ⟨position, h, rfl, rfl⟩
    exact .unexpected expected h

theorem mirrors_tooDeep_iff {rest : List Token} {y : Except ParseError (α × Nat)} :
    Mirrors input (.error (.tooDeep rest)) y ↔
      ∃ position, position ≤ input.tokens.length ∧ rest = input.drop position ∧
        y = .error (.tooDeep input.maxDepth position) := by
  constructor
  · intro h
    cases h with
    | tooDeep h => exact ⟨_, h, rfl, rfl⟩
  · rintro ⟨position, h, rfl, rfl⟩
    exact .tooDeep h

/-- The index tells what is left. -/
theorem Mirrors.unique {x x' : Except Failure (α × List Token)} {y : Except ParseError (α × Nat)}
    (h : Mirrors input x y) (h' : Mirrors input x' y) : x = x' := by
  cases h <;> cases h' <;> rfl

/-- A failure is passed on by what would have come after it. -/
theorem Mirrors.error_bind {e : Failure} {y : Except ParseError (α × Nat)}
    (h : Mirrors (α := α) input (.error e) y) (k : α × Nat → Except ParseError (β × Nat)) :
    Mirrors input (.error e) (y >>= k) := by
  cases h with
  | unexpected expected h => exact .unexpected expected h
  | tooDeep h => exact .tooDeep h
  | value e => exact .value e

/-! ## Two limits -/

/-- The failure is the same with `second` levels as with `first`. -/
def Failure.Stays (first second : Nat) : Failure → Prop
  | .tooDeep _ => first = second
  | .unexpected _ _ | .value _ => first ≤ second

theorem Failure.Stays.le {e : Failure} (h : e.Stays first second) : first ≤ second := by
  cases e with
  | tooDeep _ => exact Nat.le_of_eq h
  | unexpected _ _ | value _ => exact h

/-- The outcomes of a rule with `first` levels left and of its counterpart with `second`. Besides
the value itself, `so` has been asked of what was read before it. -/
inductive AgreeAt (input : Input) (first second : Nat) (so : Prop) (fits : α → Prop) :
    Except Failure (α × List Token) → Except ParseError (α × Nat) → Prop
  | ok {a : α} {next : Nat} {p : Prop} {y : Except ParseError (α × Nat)}
    (hnext : next ≤ input.tokens.length) (hfits : fits a ↔ so ∧ p) (hok : p → y = .ok (a, next))
    (hdeep : ¬p → ∃ position, y = .error (.tooDeep input.maxDepth position))
    (hle : first ≤ second → p) : AgreeAt input first second so fits (.ok (a, input.drop next)) y
  | error {e : Failure} {y : Except ParseError (α × Nat)}
    (h : e.Stays first second → Mirrors (α := α) input (.error e) y) :
    AgreeAt input first second so fits (.error e) y

namespace AgreeAt

variable {fits fits' : α → Prop} {so' : Prop} {x : Except Failure (α × List Token)}
  {y : Except ParseError (α × Nat)}

/-- With the same number of levels there is no difference but the index. -/
theorem mirrors {n : Nat} (h : AgreeAt input n n so fits x y) : Mirrors input x y := by
  cases h with
  | ok hnext _ hok _ hle =>
    rw [hok (hle (Nat.le_refl n))]
    exact .ok _ hnext
  | @error e _ h =>
    refine h ?_
    cases e with
    | tooDeep _ => rfl
    | unexpected _ _ | value _ => exact Nat.le_refl n

/-- The limits have no part in the outcome. -/
theorem of_mirrors (h : Mirrors input x y)
    (hfits : ∀ a next, x = .ok (a, input.drop next) → (fits a ↔ so)) :
    AgreeAt input first second so fits x y := by
  cases h with
  | @ok a next h =>
    exact .ok h (by simpa using hfits a next rfl) (fun _ => rfl) (absurd trivial) fun _ => trivial
  | unexpected e h => exact .error fun _ => .unexpected e h
  | tooDeep h => exact .error fun _ => .tooDeep h
  | value e => exact .error fun _ => .value e

theorem congr (h : AgreeAt input first second so fits x y)
    (hiff : ∀ a p, (fits a ↔ so ∧ p) → (fits' a ↔ so' ∧ p)) :
    AgreeAt input first second so' fits' x y := by
  cases h with
  | ok hnext hfits hok hdeep hle => exact .ok hnext (hiff _ _ hfits) hok hdeep hle
  | error h => exact .error h

/-- What did not fit before does not fit any more, however the first run goes on. -/
theorem tooDeep (h : AgreeAt input first second so fits x y) (hso : ¬so) (hlt : ¬first ≤ second)
    (position : Nat) :
    AgreeAt input first second so' fits x (.error (.tooDeep input.maxDepth position)) := by
  cases h with
  | ok hnext hfits =>
    have hnot := fun ha => hso (hfits.mp ha).1
    exact .ok hnext (by simpa using hnot) False.elim (fun _ => ⟨position, rfl⟩) hlt
  | error h => exact .error fun he => absurd he.le hlt

/-- Both limits count one level more, and so does the nesting around what has been read. -/
theorem succ {nest : α → Nat} (h : AgreeAt input first second True (fun a => nest a ≤ second) x y) :
    AgreeAt input (first + 1) (second + 1) True (fun a => nest a < second + 1) x y := by
  cases h with
  | ok hnext hfits hok hdeep hle =>
    exact .ok hnext (Nat.lt_succ_iff.trans hfits) hok hdeep
      fun h => hle (Nat.le_of_succ_le_succ h)
  | @error e _ h =>
    refine .error fun he => h ?_
    cases e with
    | tooDeep _ => exact Nat.succ.inj he
    | unexpected _ _ | value _ => exact Nat.le_of_succ_le_succ he

end AgreeAt

namespace Rule

/-- The rule, and its counterpart at any index, agree: what the first reads the second reads if
`fits` holds of it. -/
def Agree (input : Input) (first second : Nat) (fits : α → Prop) (r : Rule α) (q : IndexRule α) :
    Prop :=
  ∀ i ≤ input.tokens.length, AgreeAt input first second True fits (r (input.drop i)) (q i)

/-- The rule and its counterpart agree, whatever the limits are. -/
abbrev Matches (input : Input) (first second : Nat) (r : Rule α) (q : IndexRule α) : Prop :=
  Agree input first second (fun _ => True) r q

/-! ## Sequences -/

theorem agreeAt_bind {r : Rule α} {k : α → Rule β} {ts : List Token} {A : α → Prop} {B : β → Prop}
    {y : Except ParseError (α × Nat)} {k' : α × Nat → Except ParseError (β × Nat)}
    (hr : AgreeAt input first second True A (r ts) y)
    (hk : ∀ a next, next ≤ input.tokens.length →
      AgreeAt input first second (so ∧ A a) B (k a (input.drop next)) (k' (a, next))) :
    AgreeAt input first second so B ((r >>= k) ts) (y >>= k') := by
  rw [bind_apply]
  generalize r ts = x at hr
  cases hr with
  | error h => exact .error fun he => (h he).error_bind k'
  | @ok a next p _ hnext hfits hok hdeep hle =>
    have hmid := hk a next hnext
    by_cases hp : p
    · rw [hok hp]
      refine hmid.congr fun b q hq => ?_
      rw [hq, and_assoc, and_congr_right_iff]
      exact fun _ => and_iff_right (hfits.mpr ⟨trivial, hp⟩)
    · obtain ⟨position, rfl⟩ := hdeep hp
      exact hmid.tooDeep (fun h => hp (hfits.mp h.2).2) (fun h => hp (hle h)) position

theorem agreeAt_pure {a : α} {fits : α → Prop} (hi : i ≤ input.tokens.length) (h : fits a ↔ so) :
    AgreeAt input first second so fits ((pure a : Rule α) (input.drop i)) (.ok (a, i)) := by
  refine .of_mirrors (.ok a hi) fun b next hb => ?_
  obtain ⟨rfl, -⟩ := pure_eq_ok.mp hb
  exact h

theorem agreeAt_map {r : Rule α} {q : IndexRule α} {f : α → β} {A : α → Prop} {B : β → Prop}
    (hi : i ≤ input.tokens.length) (hr : Agree input first second A r q)
    (hf : ∀ a, B (f a) ↔ so ∧ A a) : AgreeAt input first second so B
      ((r >>= fun a => pure (f a)) (input.drop i)) (q.map f i) :=
  agreeAt_bind (hr i hi) fun a _ hnext => agreeAt_pure hnext (hf a)

theorem Agree.map {r : Rule α} {q : IndexRule α} {f : α → β} {A : α → Prop} {B : β → Prop}
    (hr : Agree input first second A r q) (hf : ∀ a, B (f a) ↔ A a) :
    Agree input first second B (r >>= fun a => pure (f a)) (q.map f) :=
  fun _ hi => agreeAt_map hi hr fun a => (hf a).trans (and_iff_right trivial).symm

theorem agreeAt_fail {fits : α → Prop} (expected : String) (hi : i ≤ input.tokens.length) :
    AgreeAt input first second so fits ((fail expected : Rule α) (input.drop i))
      (.error (input.unexpected i expected)) :=
  .error fun _ => .unexpected expected hi

theorem agreeAt_failWith {fits : α → Prop} (e : ValueError) (ts : List Token) :
    AgreeAt input first second so fits ((failWith e : Rule α) ts) (.error (.value e)) :=
  .error fun _ => .value e

theorem agreeAt_ofExcept {x : Except ValueError α} {k : α → Rule β}
    {k' : α → Except ParseError (β × Nat)} {B : β → Prop} {ts : List Token}
    (hk : ∀ a, AgreeAt input first second so B (k a ts) (k' a)) :
    AgreeAt input first second so B ((ofExcept x >>= k) ts) (x.mapError .value >>= k') := by
  cases x with
  | ok a => exact hk a
  | error e => exact agreeAt_failWith e ts

theorem agreeAt_ite {r s : Rule α} {y z : Except ParseError (α × Nat)} {fits : α → Prop}
    {ts : List Token} {c c' : Prop} [Decidable c] [Decidable c'] (hc : c ↔ c')
    (hr : c' → AgreeAt input first second so fits (r ts) y)
    (hs : ¬c' → AgreeAt input first second so fits (s ts) z) :
    AgreeAt input first second so fits ((if c then r else s : Rule α) ts)
      (if c' then y else z) := by
  by_cases h : c'
  · rw [if_pos h, if_pos (hc.mpr h)]
    exact hr h
  · rw [if_neg h, if_neg (mt hc.mp h)]
    exact hs h

/-! ## Single tokens -/

theorem agreeAt_space {k : Unit → Rule α} {fits : α → Prop} {y : Except ParseError (α × Nat)}
    (h : AgreeAt input first second so fits (k () (input.drop (input.skipSpace i))) y) :
    AgreeAt input first second so fits ((space >>= k) (input.drop i)) y := by
  rw [bind_of_ok (space_apply _), Input.skipSpace_drop]
  exact h

theorem agreeAt_rest {k : List Token → Rule α} {fits : α → Prop} {y : Except ParseError (α × Nat)}
    {ts : List Token} (h : AgreeAt input first second so fits (k ts ts) y) :
    AgreeAt input first second so fits ((rest >>= k) ts) y :=
  h

/-- The tokens that are looked at are given a name. -/
theorem agreeAt_look {k : List Token → Rule α} {fits : α → Prop} {y : Except ParseError (α × Nat)}
    (h : ∀ ts, input.drop i = ts → AgreeAt input first second so fits (k ts ts) y) :
    AgreeAt input first second so fits ((rest >>= k) (input.drop i)) y :=
  h _ rfl

theorem agreeAt_advance {k : Unit → Rule α} {fits : α → Prop} {y : Except ParseError (α × Nat)}
    (h : AgreeAt input first second so fits (k () (input.drop (i + 1))) y) :
    AgreeAt input first second so fits ((advance >>= k) (input.drop i)) y := by
  rw [bind_of_ok (show advance (input.drop i) = .ok ((), (input.drop i).drop 1) from rfl),
    Input.drop_one_drop]
  exact h

theorem matches_one (p : Token → Bool) (expected : String) :
    Matches input first second (one p expected) (input.one p expected) := by
  intro i hi
  rw [Input.one]
  cases h : (input.get i).filter p with
  | none =>
    have hnot : ∀ t ∈ (input.drop i).head?, p t = false := by
      simpa [Input.head?_drop, Option.filter_eq_none_iff] using h
    rw [one_of_not hnot expected]
    exact agreeAt_fail expected hi
  | some t =>
    obtain ⟨hget, ht⟩ := Option.filter_eq_some_iff.mp h
    rw [one_eq_ok.mpr ⟨ht, Input.drop_of_get hget⟩]
    exact agreeAt_pure (Input.lt_of_get hget) Iff.rfl

/-- A token that may stand right here. -/
theorem agreeAt_take? {t : Token} {k : Bool → Rule α} {fits : α → Prop}
    {y z : Except ParseError (α × Nat)}
    (hy : input.get i = some t →
      AgreeAt input first second so fits (k true (input.drop (i + 1))) y)
    (hz : input.get i ≠ some t → AgreeAt input first second so fits (k false (input.drop i)) z) :
    AgreeAt input first second so fits ((take? t >>= k) (input.drop i))
      (if input.get i = some t then y else z) := by
  split
  next h =>
    rw [Input.drop_of_get h, bind_of_ok (take?_cons_self t _)]
    exact hy h
  next h =>
    rw [bind_of_ok (take?_of_ne (Input.head?_drop input i ▸ h))]
    exact hz h

/-- A token that may come next. -/
theorem agreeAt_skip? {t : Token} {k : Bool → Rule α} {fits : α → Prop}
    {y z : Except ParseError (α × Nat)}
    (hy : input.skipSpace i + 1 ≤ input.tokens.length →
      AgreeAt input first second so fits (k true (input.drop (input.skipSpace i + 1))) y)
    (hz : AgreeAt input first second so fits (k false (input.drop i)) z) :
    AgreeAt input first second so fits ((skip? t >>= k) (input.drop i))
      (if input.isNext t i then y else z) := by
  split
  next h =>
    have hget := Input.get_of_isNext h
    rw [bind_of_ok (skip?_of_skipSpace (by rw [Input.skipSpace_drop, Input.drop_of_get hget]))]
    exact hy (Input.lt_of_get hget)
  next h =>
    rw [bind_of_ok (skip?_of_not_isNext (by rw [Input.isNext_drop]; exact Bool.eq_false_iff.mpr h))]
    exact hz

theorem agreeAt_expect {t : Token} {owner : String} {k : Unit → Rule α} {fits : α → Prop}
    {k' : Nat → Except ParseError (α × Nat)} (hi : i ≤ input.tokens.length)
    (hk : ∀ next, next ≤ input.tokens.length →
      AgreeAt input first second so fits (k () (input.drop next)) (k' next)) :
    AgreeAt input first second so fits ((expect t owner >>= k) (input.drop i))
      (input.expect t owner i >>= k') := by
  rw [Input.expect]
  split
  next h =>
    rw [bind_of_ok (expect_of_skipSpace (by rw [Input.skipSpace_drop, Input.drop_of_get h]) owner)]
    exact hk _ (Input.lt_of_get h)
  next h =>
    have hne : (Token.skipSpace (input.drop i)).head? ≠ some t := by
      rwa [Input.head?_skipSpace_drop]
    rw [bind_of_error (expect_of_ne hne owner), Input.skipSpace_drop]
    exact agreeAt_fail _ (Input.skipSpace_le hi)

theorem matches_operator? (read : Token → Option ω) :
    Matches input first second (operator? read) (input.operator? read) := by
  intro i hi
  rw [Input.operator?, operator?, Input.head?_skipSpace_drop]
  cases h : (input.peek i).bind read with
  | none => exact agreeAt_pure hi Iff.rfl
  | some op =>
    obtain ⟨t, ht, -⟩ := Option.bind_eq_some_iff.mp h
    rw [Input.skipSpace_drop, Input.drop_one_drop]
    exact agreeAt_pure (Input.lt_of_get ht) Iff.rfl

/-! ## Repetition -/

theorem agree_many {next? : Rule (Option α)} {next?' : IndexRule (Option α)} {A : α → Prop}
    (h : Agree input first second (fun o => ∀ a ∈ o, A a) next? next?') :
    Agree input first second (fun as => ∀ a ∈ as, A a) (many next?) (input.many next?') := by
  have hupTo : ∀ fuel : List Token, Agree input first second (fun as => ∀ a ∈ as, A a)
      (upTo next? fuel) (Input.upTo next?' fuel.length) := by
    intro fuel
    induction fuel with
    | nil => exact fun i hi => agreeAt_pure hi (by simp)
    | cons t fuel ih =>
      refine fun i hi => agreeAt_bind (h i hi) fun a next hnext => ?_
      cases a with
      | none => exact agreeAt_pure hnext (by simp)
      | some a => exact agreeAt_map hnext ih (by simp)
  intro i hi
  rw [Input.many, ← Input.length_drop]
  exact hupTo (input.drop i) i hi

section Shapes

variable {read : Token → Option ω} {left item body : Rule α} {left' item' body' : IndexRule α}
  {right : Rule β} {right' : IndexRule β} {A : α → Prop} {B : β → Prop}

theorem agree_link (hr : Agree input first second B right right') :
    Agree input first second (fun o => ∀ x ∈ o, B x.2) (link read right)
      (input.link read right') := by
  refine fun i hi => agreeAt_bind (matches_operator? read i hi) fun op next hnext => ?_
  cases op with
  | none => exact agreeAt_pure hnext (by simp)
  | some op => exact agreeAt_map hnext hr (by simp)

theorem agree_chain (hl : Agree input first second A left left')
    (hr : Agree input first second B right right') :
    Agree input first second (fun x => A x.1 ∧ ∀ y ∈ x.2, B y.2) (chain read left right)
      (input.chain read left' right') :=
  fun i hi => agreeAt_bind (hl i hi) fun _ _ hnext =>
    agreeAt_map hnext (agree_many (agree_link hr)) (by simp)

theorem agree_commaList (h : Agree input first second A item item') :
    Agree input first second (fun as => ∀ a ∈ as, A a) (commaList item)
      (input.commaList item') :=
  (agree_chain h h).map fun x => by rw [List.forall_mem_cons, List.forall_mem_map]

theorem agreeAt_ite_isNext {t : Token} {r s : Rule α} {y z : Except ParseError (α × Nat)}
    {fits : α → Prop} {ts : List Token}
    (hr : input.skipSpace i + 1 ≤ input.tokens.length →
      AgreeAt input first second so fits (r ts) y)
    (hs : AgreeAt input first second so fits (s ts) z) :
    AgreeAt input first second so fits
      ((if isNext t (input.drop i) then r else s : Rule α) ts)
      (if input.isNext t i then y else z) :=
  agreeAt_ite (by rw [Input.isNext_drop]) (fun h => hr (Input.lt_of_get (Input.get_of_isNext h)))
    fun _ => hs

theorem agree_separated (closing : Token) (h : Agree input first second A item item') :
    Agree input first second (fun as => ∀ a ∈ as, A a) (separated closing item)
      (input.separated closing item') :=
  fun i hi => agreeAt_ite_isNext (fun _ => agreeAt_pure hi (by simp)) (agree_commaList h i hi)

theorem agreeAt_words {expected : String} {k : Unit → Rule α} {fits : α → Prop}
    {k' : Nat → Except ParseError (α × Nat)} (ws : List Token) (hi : i ≤ input.tokens.length)
    (hk : ∀ next, next ≤ input.tokens.length →
      AgreeAt input first second so fits (k () (input.drop next)) (k' next)) :
    AgreeAt input first second so fits ((words expected ws >>= k) (input.drop i))
      (input.words expected ws i >>= k') := by
  induction ws generalizing i with
  | nil => exact hk i hi
  | cons w ws ih =>
    have hwords : words expected (w :: ws) (input.drop i) = (one (· == w) expected >>= fun _ =>
        words expected ws) (input.drop (input.skipSpace i)) := by
      rw [words, bind_of_ok (space_apply _), Input.skipSpace_drop, discard_bind]
    rw [Input.words, bind_apply, hwords]
    by_cases hget : input.get (input.skipSpace i) = some w
    · have hone : one (· == w) expected (input.drop (input.skipSpace i)) = _ :=
        one_eq_ok.mpr ⟨beq_self_eq_true w, Input.drop_of_get hget⟩
      rw [if_pos hget, bind_of_ok hone]
      exact ih (Input.lt_of_get hget)
    · have hnot : ∀ t ∈ (input.drop (input.skipSpace i)).head?, (t == w) = false := by
        intro t ht
        rw [Input.head?_drop] at ht
        refine beq_false_of_ne ?_
        rintro rfl
        exact hget ht
      rw [if_neg hget, bind_of_error (one_of_not hnot expected)]
      exact agreeAt_fail expected (Input.skipSpace_le hi)

theorem agree_followedBy (ws : List Token) (hl : Agree input first second A left left')
    (hr : Agree input first second B right right') :
    Agree input first second (fun x => A x.1 ∧ ∀ b ∈ x.2, B b) (followedBy ws left right)
      (input.followedBy ws left' right') := by
  refine fun i hi => agreeAt_bind (hl i hi) fun a next hnext => ?_
  cases ws with
  | nil => exact agreeAt_pure hnext (by simp)
  | cons w ws =>
    refine agreeAt_ite_isNext (fun _ => ?_) (agreeAt_pure hnext (by simp))
    exact agreeAt_words _ hnext fun next hnext => agreeAt_map hnext hr (by simp)

theorem agree_after (op : Token) (owner : String) (h : Agree input first second A item item') :
    Agree input first second A (after op owner item) (input.after op owner item') :=
  fun _ hi => agreeAt_expect hi fun next hnext => h next hnext

theorem agree_marked (op : Token) (h : Agree input first second A item item') :
    Agree input first second (fun x => A x.1) (marked op item) (input.marked op item') :=
  fun i hi => agreeAt_bind (h i hi) fun _ _ hnext =>
    agreeAt_skip? (fun h => agreeAt_pure h (by simp)) (agreeAt_pure hnext (by simp))

/-! ## Brackets -/

/-- Nothing is left if and only if the index is the end of the tokens. -/
theorem agreeAt_enclosed {opening : Nat} {ts : List Token} {y : Except ParseError (α × Nat)}
    (hopening : opening ≤ input.tokens.length) (h : AgreeAt input first second so A (body ts) y) :
    AgreeAt input first second so A (enclosed (input.drop opening) body ts)
      (input.enclosed opening y) := by
  unfold enclosed
  generalize body ts = x at h
  cases h with
  | ok hnext hfits hok hdeep hle =>
    refine .ok hnext hfits (fun hp => ?_) (fun hp => ?_) hle
    · rw [hok hp]
      rfl
    · obtain ⟨position, rfl⟩ := hdeep hp
      exact ⟨position, rfl⟩
  | @error e _ h =>
    cases e with
    | tooDeep _ =>
      refine .error fun he => ?_
      cases h he with
      | tooDeep hle => exact .tooDeep hle
    | value _ =>
      refine .error fun he => ?_
      cases h he with
      | value => exact .value _
    | unexpected rest expected =>
      cases rest with
      | nil =>
        refine .error fun he => ?_
        obtain ⟨position, -, hend, rfl⟩ := mirrors_unexpected_iff.mp (h he)
        have hlast := Input.drop_eq_nil_iff.mp hend.symm
        rw [Input.enclosed_unexpected, if_pos hlast]
        exact .unexpected expected hopening
      | cons t us =>
        refine .error fun he => ?_
        obtain ⟨position, hle, hrest, rfl⟩ := mirrors_unexpected_iff.mp (h he)
        have hbefore : ¬ input.tokens.length ≤ position := fun hlast =>
          List.cons_ne_nil t us (hrest.trans (Input.drop_eq_nil_iff.mpr hlast))
        rw [Input.enclosed_unexpected, if_neg hbefore, hrest]
        exact .unexpected expected hle

theorem agree_bracketedAt {opening : Nat} (bracket closing : Token) (owner : String)
    (hopening : opening ≤ input.tokens.length) (h : Agree input first second A body body')
    (hi : i ≤ input.tokens.length) : AgreeAt input first second True A
      (bracketedAt (input.drop opening) bracket closing owner body (input.drop i))
      (input.expect bracket owner i >>= input.closed opening closing owner body') := by
  refine agreeAt_expect hi fun next hnext => agreeAt_enclosed hopening ?_
  exact agreeAt_bind (h next hnext) fun a next hnext => agreeAt_expect hnext fun next hnext =>
    agreeAt_pure hnext (by simp)

theorem agree_bracketed (opening closing : Token) (owner : String)
    (h : Agree input first second A body body') :
    Agree input first second A (bracketed opening closing owner body)
      (input.bracketed opening closing owner body') := by
  intro i hi
  rw [bracketed, bind_of_ok (rest_apply _), Input.skipSpace_drop]
  exact agree_bracketedAt _ _ _ (Input.skipSpace_le hi) h hi

theorem agree_group (opening closing : Token) (owner : String)
    (h : Agree input first second A body body') :
    Agree input first second A (group opening closing owner body)
      (input.group opening closing owner body') := by
  intro i hi
  have hgroup : input.group opening closing owner body' i =
      (input.expect opening owner (input.skipSpace i) >>=
        input.closed (input.skipSpace i) closing owner body') := rfl
  rw [group, bind_of_ok (space_apply _), Input.skipSpace_drop, bind_of_ok (rest_apply _)]
  exact agree_bracketedAt _ _ _ (Input.skipSpace_le hi) h (Input.skipSpace_le hi)

end Shapes

end Rule

end XPath
