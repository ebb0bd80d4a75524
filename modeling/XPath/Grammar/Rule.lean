import XPath.Grammar.Error
import XPath.Operator

/-!
# Rules

A `Rule` reads a value from the front of a token sequence and leaves the rest, or fails. A rule
knows nothing of the tokens before the ones it is given.

Tokens are taken one by one. `Rule.expect` and the shapes below (`Rule.chain`, `Rule.followedBy`,
`Rule.separated`, …) allow for one space in front of a token they take; whatever must stand right
after the token before it is taken by `Rule.one`.
-/

namespace XPath

/-- A rule reads a value from the start of the tokens and leaves the others, or fails. -/
def Rule (α : Type) : Type := List Token → Except Failure (α × List Token)

namespace Rule

variable {α β ω : Type}

instance : Monad Rule where
  pure a := fun ts => .ok (a, ts)
  bind r k := fun ts =>
    match r ts with
    | .ok (a, rest) => k a rest
    | .error e => .error e

/-- The second rule is given what the first one leaves. -/
theorem bind_apply (r : Rule α) (k : α → Rule β) (ts : List Token) :
    (r >>= k) ts = match r ts with
      | .ok (a, rest) => k a rest
      | .error e => .error e :=
  rfl

/-! ## Single tokens -/

/-- The tokens that are left. -/
def rest : Rule (List Token) := fun ts => .ok (ts, ts)

/-- The failure to find what is expected at the next token. -/
def fail (expected : String) : Rule α := fun ts => .error (.unexpected ts expected)

/-- The failure of a value that is read but cannot be had. -/
def failWith (e : ValueError) : Rule α := fun _ => .error (.value e)

/-- What the limit on nesting does to an expression below it. -/
def tooDeep : Rule α := fun ts => .error (.tooDeep ts)

/-- A value that may not be there to be had. -/
def ofExcept : Except ValueError α → Rule α
  | .ok a => pure a
  | .error e => failWith e

/-- Steps over a token that has been looked at. -/
def advance : Rule Unit := fun ts => .ok ((), ts.drop 1)

/-- Steps over a space. -/
def space : Rule Unit := fun ts => .ok ((), Token.skipSpace ts)

/-- The next token, if `p` holds of it. -/
def one (p : Token → Bool) (expected : String) : Rule Token
  | t :: ts => if p t then .ok (t, ts) else .error (.unexpected (t :: ts) expected)
  | [] => .error (.unexpected [] expected)

/-- The token `t`, if it comes right here. -/
def take? (t : Token) : Rule Bool
  | u :: ts => if u = t then .ok (true, ts) else .ok (false, u :: ts)
  | [] => .ok (false, [])

/-- Whether the next token, a space aside, is `t`. -/
def isNext (t : Token) (ts : List Token) : Bool := (Token.skipSpace ts).head? == some t

/-- The token `t` of the construct `owner`. -/
def expect (t : Token) (owner : String) : Rule Unit := do
  space
  discard <| one (· == t) ("'" ++ t ++ "' of " ++ owner)

/-- The next token, a space aside, if it is `t`. -/
def skip? (t : Token) : Rule Bool := fun ts =>
  if isNext t ts then .ok (true, (Token.skipSpace ts).drop 1) else .ok (false, ts)

/-- The next token, a space aside, if it has a meaning. -/
def operator? (read : Token → Option ω) : Rule (Option ω) := fun ts =>
  match (Token.skipSpace ts).head?.bind read with
  | some op => .ok (some op, (Token.skipSpace ts).drop 1)
  | none => .ok (none, ts)

/-! ## Repetition -/

/-- Values as long as there is one, and at most one for each token of `fuel`. -/
def upTo (next? : Rule (Option α)) : (fuel : List Token) → Rule (List α)
  | [] => pure []
  | _ :: fuel => do
    match ← next? with
    | none => pure []
    | some a => return a :: (← upTo next? fuel)

/-- Values as long as there is one. A rule that takes a token for each finds no more of them than
there are tokens. -/
def many (next? : Rule (Option α)) : Rule (List α) := fun ts => upTo next? ts ts

/-! ## Shapes -/

/-- `left (op right)*` -/
def chain (read : Token → Option ω) (left : Rule α) (right : Rule β) :
    Rule (α × List (ω × β)) := do
  let first ← left
  let others ← many do
    match ← operator? read with
    | none => return none
    | some op => return some (op, ← right)
  return (first, others)

/-- `item ("," item)*` -/
def commaList (item : Rule α) : Rule (List α) := do
  let (first, others) ← chain (Spelled.ofToken? : Token → Option Separator) item item
  return first :: others.map Prod.snd

/-- Items up to the token `closing`, which is left. -/
def separated (closing : Token) (item : Rule α) : Rule (List α) := do
  if isNext closing (← rest) then return []
  else commaList item

/-- All `words` in a row. -/
def words (expected : String) : List Token → Rule Unit
  | [] => pure ()
  | w :: ws => do
    space
    discard <| one (· == w) expected
    words expected ws

/-- `left (words right)?`. After the first word the others and `right` have to follow. -/
def followedBy (ws : List Token) (left : Rule α) (right : Rule β) : Rule (α × Option β) := do
  let a ← left
  match ws with
  | [] => return (a, none)
  | w :: _ =>
    if isNext w (← rest) then
      words (" ".intercalate (ws.map fun w => "'" ++ w ++ "'")) ws
      return (a, some (← right))
    else return (a, none)

/-- `op child` -/
def after (op : Token) (owner : String) (child : Rule α) : Rule α := do
  expect op owner
  child

/-- `child op?` -/
def marked (op : Token) (child : Rule α) : Rule (α × Bool) := do
  let a ← child
  return (a, ← skip? op)

/-! ## Brackets -/

/-- A rule for what a bracket opens. If the tokens end in it, that is reported at the bracket, the
first of the tokens `opening`. -/
def enclosed (opening : List Token) (body : Rule α) : Rule α := fun ts =>
  match body ts with
  | .error (.unexpected [] expected) => .error (.unexpected opening expected)
  | result => result

/-- `opening body closing`, with the tokens `bracket` in front of the opening one. -/
def bracketedAt (bracket : List Token) (opening closing : Token) (owner : String)
    (body : Rule α) : Rule α := do
  expect opening owner
  enclosed bracket do
    let a ← body
    expect closing owner
    return a

/-- `opening body closing` after a construct that is read already. -/
def bracketed (opening closing : Token) (owner : String) (body : Rule α) : Rule α := do
  bracketedAt (Token.skipSpace (← rest)) opening closing owner body

/-- `opening body closing` as a construct of its own. -/
def group (opening closing : Token) (owner : String) (body : Rule α) : Rule α := do
  space
  bracketedAt (← rest) opening closing owner body

end Rule

end XPath
