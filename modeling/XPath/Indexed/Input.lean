import XPath.Grammar.Error
import XPath.Operator

/-!
# Reading at an index

The grammar can be read in a second way, with the whole sequence of tokens in view: a rule is given
an index, looks at whatever tokens it likes, and tells the index after what it has read, or the
index of what it did not expect. Nothing but the rules themselves keeps it from looking at what is
in front of its index, or from asking how far that is from the start.

This module has the tokens (`Input`), what is asked of them, and the shapes that rules are made of.
Each shape allows for one space in front of a token it takes.
-/

namespace XPath

/-- A rule that is given an index. The index after what it reads comes with the value. -/
abbrev IndexRule (α : Type) : Type := Nat → Except ParseError (α × Nat)

/-- The same with another value. -/
def IndexRule.map {α β : Type} (f : α → β) (rule : IndexRule α) : IndexRule β := fun i => do
  let (a, next) ← rule i
  return (f a, next)

/-- The tokens that are read, and the largest number of nested expressions and item types. -/
structure Input where
  tokens : List Token
  maxDepth : Nat

namespace Input

variable (input : Input) {α β ω : Type}

/-! ## Single tokens -/

/-- The token at an index, spaces included. -/
def get (i : Nat) : Option Token := input.tokens[i]?

/-- The index after a space, if there is one. -/
def skipSpace (i : Nat) : Nat := if (input.get i).any Token.isSpace then i + 1 else i

/-- The next token, a space aside. -/
def peek (i : Nat) : Option Token := input.get (input.skipSpace i)

/-- Whether the next token, a space aside, is `t`. -/
def isNext (t : Token) (i : Nat) : Bool := input.peek i == some t

/-- The error of finding something else than `expected` at an index. -/
def unexpected (i : Nat) (expected : String) : ParseError := .unexpectedAt input.tokens i expected

/-- The token at an index, if `p` holds of it. -/
def one (p : Token → Bool) (expected : String) : IndexRule Token := fun i =>
  match (input.get i).filter p with
  | some t => .ok (t, i + 1)
  | none => .error (input.unexpected i expected)

/-- The index after the token `t` of the construct `owner`. -/
def expect (t : Token) (owner : String) (i : Nat) : Except ParseError Nat :=
  let here := input.skipSpace i
  if input.get here = some t then .ok (here + 1)
  else .error (input.unexpected here ("'" ++ t ++ "' of " ++ owner))

/-- The next token, a space aside, if it has a meaning. -/
def operator? (read : Token → Option ω) : IndexRule (Option ω) := fun i =>
  match (input.peek i).bind read with
  | some op => return (some op, input.skipSpace i + 1)
  | none => return (none, i)

/-! ## Shapes -/

/-- Values as long as there is one, and at most so many. -/
def upTo (next? : IndexRule (Option α)) : (rounds : Nat) → IndexRule (List α)
  | 0 => fun i => return ([], i)
  | rounds + 1 => fun i => do
    match ← next? i with
    | (none, next) => return ([], next)
    | (some a, next) => (upTo next? rounds).map (a :: ·) next

/-- Values as long as there is one. There is a token for each. -/
def many (next? : IndexRule (Option α)) : IndexRule (List α) := fun i =>
  upTo next? (input.tokens.length - i) i

/-- The next operator and its right operand, if one follows. -/
def link (read : Token → Option ω) (right : IndexRule β) : IndexRule (Option (ω × β)) :=
  fun i => do
    match ← input.operator? read i with
    | (none, next) => return (none, next)
    | (some op, next) => right.map (fun b => some (op, b)) next

/-- `left (op right)*` -/
def chain (read : Token → Option ω) (left : IndexRule α) (right : IndexRule β) :
    IndexRule (α × List (ω × β)) := fun i => do
  let (first, next) ← left i
  (input.many (input.link read right)).map (fun others => (first, others)) next

/-- `item ("," item)*` -/
def commaList (item : IndexRule α) : IndexRule (List α) :=
  (input.chain (Spelled.ofToken? : Token → Option Separator) item item).map
    fun (first, others) => first :: others.map Prod.snd

/-- Items up to the token `closing`, which is left. -/
def separated (closing : Token) (item : IndexRule α) : IndexRule (List α) := fun i =>
  if input.isNext closing i then return ([], i) else input.commaList item i

/-- The index after all `words` in a row. -/
def words (expected : String) : List Token → Nat → Except ParseError Nat
  | [], i => return i
  | w :: ws, i =>
    let here := input.skipSpace i
    if input.get here = some w then words expected ws (here + 1)
    else .error (input.unexpected here expected)

/-- `left (words right)?`. After the first word the others and `right` have to follow. -/
def followedBy (ws : List Token) (left : IndexRule α) (right : IndexRule β) :
    IndexRule (α × Option β) := fun i => do
  let (a, next) ← left i
  match ws with
  | [] => return ((a, none), next)
  | w :: _ =>
    if input.isNext w next then
      let next ← input.words (" ".intercalate (ws.map fun w => "'" ++ w ++ "'")) ws next
      right.map (fun b => (a, some b)) next
    else return ((a, none), next)

/-- `op child` -/
def after (op : Token) (owner : String) (child : IndexRule α) : IndexRule α := fun i => do
  child (← input.expect op owner i)

/-- `child op?` -/
def marked (op : Token) (child : IndexRule α) : IndexRule (α × Bool) := fun i => do
  let (a, next) ← child i
  if input.isNext op next then return ((a, true), input.skipSpace next + 1)
  else return ((a, false), next)

/-! ## Brackets -/

/-- The result of what the bracket at the index `opening` opens. If the tokens end in it, that is
reported at the bracket. -/
def enclosed (opening : Nat) (result : Except ParseError (α × Nat)) :
    Except ParseError (α × Nat) :=
  result.mapError (.atOpening input.tokens opening)

/-- What the bracket at the index `opening` opens, up to the token `closing`. -/
def closed (opening : Nat) (closing : Token) (owner : String) (body : IndexRule α) :
    IndexRule α := fun i =>
  input.enclosed opening do
    let (a, next) ← body i
    return (a, ← input.expect closing owner next)

/-- `opening body closing` after a construct that is read already. -/
def bracketed (opening closing : Token) (owner : String) (body : IndexRule α) : IndexRule α :=
  fun i => do
    let here := input.skipSpace i
    input.closed here closing owner body (← input.expect opening owner i)

/-- `opening body closing` as a construct of its own. -/
def group (opening closing : Token) (owner : String) (body : IndexRule α) : IndexRule α :=
  fun i => do
    let here := input.skipSpace i
    input.closed here closing owner body (← input.expect opening owner here)

end Input

end XPath
