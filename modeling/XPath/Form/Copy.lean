import XPath.Form

/-!
# Copies of forms

A form whose children may come back changed is copied only if one of them does. `Form.copyM` asks
`edge` about every child from left to right, and makes a copy with the changed children; a child
that has not changed is the old one in the copy, too. There is no copy (`none`) where nothing has
changed.

The same is said of every part of a form, so that a part is copied only if something in it changes.
-/

namespace XPath

variable {m : Type → Type} [Monad m] {α β P Q R : Type}

/-! ## Pairs and lists -/

/-- Two parts, put together anew if one of them has changed. -/
def both (p' : Option P) (p : P) (q' : Option Q) (q : Q) (make : P → Q → R) : Option R :=
  if p'.isSome || q'.isSome then some (make (p'.getD p) (q'.getD q)) else none

/-- Two parts in a row. -/
def copyBoth (change : m (Option P)) (p : P) (change' : m (Option Q)) (q : Q) (make : P → Q → R) :
    m (Option R) := do
  let p' ← change
  let q' ← change'
  return both p' p q' q make

/-- The items from here on, after `done`. The list is copied once one of its items changes. -/
def copyFrom (old : P → Q) (change : P → m (Option Q)) :
    (done : List P) → (copy : Option (List Q)) → List P → m (Option (List Q))
  | _, copy, [] => return copy
  | done, copy, p :: ps => do
    let changed ← change p
    let copy := match copy, changed with
      | some qs, _ => some (qs ++ [changed.getD (old p)])
      | none, some q => some (done.map old ++ [q])
      | none, none => none
    copyFrom old change (done ++ [p]) copy ps

/-- The list with every part changed that changes, if one does. -/
def copyList (old : P → Q) (change : P → m (Option Q)) (ps : List P) : m (Option (List Q)) :=
  copyFrom old change [] none ps

/-! ## Parts of forms -/

variable (old : α → β) (edge : Kind → α → m (Option β))

/-- A child that need not be there. -/
def copyOption (owner : Kind) : Option α → m (Option (Option β))
  | some e => return (← edge owner e).map some
  | none => return none

/-- Two children in a row. -/
def copyOperands (owner : Kind) (left right : α) (make : β → β → R) : m (Option R) :=
  copyBoth (edge owner left) (old left) (edge owner right) (old right) make

/-- The copy of a binding whose expression has changed. -/
def Binding.copyM (b : Binding α) : m (Option (Binding β)) :=
  return (← edge .simpleBinding b.expr).map (⟨b.name, b.op, ·⟩)

/-- The copy of an argument that has changed. A placeholder never does. -/
def Argument.copyM : Argument α → m (Option (Argument β))
  | expr e => return (← edge .argumentList e).map .expr
  | placeholder => return none

/-- The copy of a key that has changed. Only one in parentheses can. -/
def KeySpecifier.copyM (owner : Kind) : KeySpecifier α → m (Option (KeySpecifier β))
  | parenthesized e => return (← edge owner e).map .parenthesized
  | _ => return none

/-- The copy of an argument list in which an argument has changed. -/
def copyArguments (args : List (Argument α)) : m (Option (List (Argument β))) :=
  copyList (·.map old) (Argument.copyM edge) args

/-- The copy of a suffix in which something has changed. -/
def Suffix.copyM : Suffix α → m (Option (Suffix β))
  | predicate e => return (← edge .predicate e).map .predicate
  | arguments args => return (← copyArguments old edge args).map .arguments
  | lookup key => return (← key.copyM edge .lookup).map .lookup

/-- The copy of a target that has changed. Only one in parentheses can. -/
def ArrowTarget.copyM : ArrowTarget α → m (Option (ArrowTarget β))
  | parenthesized e => return (← edge .arrowFunctionExpr e).map .parenthesized
  | _ => return none

/-- The copy of a call whose target or one of whose arguments has changed. -/
def ArrowCall.copyM (c : ArrowCall α) : m (Option (ArrowCall β)) :=
  copyBoth (c.target.copyM edge) (c.target.map old) (copyArguments old edge c.args)
    (c.args.map (·.map old)) .mk

/-- The copy of an entry whose key or value has changed. -/
def MapEntry.copyM (e : MapEntry α) : m (Option (MapEntry β)) :=
  copyOperands old edge .mapConstructor e.key e.value .mk

/-- An operator and its operand. -/
def copyLink (level : ChainLevel) (x : ChainOp × α) : m (Option (ChainOp × β)) :=
  return (← edge level.kind x.2).map (x.1, ·)

/-! ## Forms -/

/-- Bindings and the body behind them. -/
def copyBound (owner : Kind) (bindings : List (Binding α)) (body : α)
    (make : List (Binding β) → β → Form β) : m (Option (Form β)) :=
  copyBoth (copyList (·.map old) (Binding.copyM edge) bindings) (bindings.map (·.map old))
    (edge owner body) (old body) make

/-- What stands first, and the parts that follow it. -/
def copyFollowed (owner : Kind) (first : α) (follow : P → Q) (change : P → m (Option Q))
    (parts : List P) (make : β → List Q → Form β) : m (Option (Form β)) :=
  copyBoth (edge owner first) (old first) (copyList follow change parts) (parts.map follow) make

/-- The form with its changed children, if one of them has changed. -/
def Form.copyM (f : Form α) : m (Option (Form β)) :=
  match f with
  | expr items => return (← copyList old (edge .expr) items).map expr
  | forExpr bindings body => copyBound old edge .forExpr bindings body forExpr
  | letExpr bindings body => copyBound old edge .letExpr bindings body letExpr
  | quantified q bindings body => copyBound old edge .quantifiedExpr bindings body (quantified q)
  | ifExpr c t e => do
    let c' ← edge .ifExpr c
    let t' ← edge .ifExpr t
    let e' ← edge .ifExpr e
    return if c'.isSome || t'.isSome || e'.isSome then
      some (ifExpr (c'.getD (old c)) (t'.getD (old t)) (e'.getD (old e)))
    else none
  | chain level first rest =>
    copyFollowed old edge level.kind first (fun x => (x.1, old x.2)) (copyLink edge level) rest
      (chain level)
  | comparison left op right =>
    copyOperands old edge .comparisonExpr left right (comparison · op ·)
  | range first last => copyOperands old edge .rangeExpr first last range
  | instanceOf e type => return (← edge .instanceOfExpr e).map (instanceOf · type)
  | treat e type => return (← edge .treatExpr e).map (treat · type)
  | castable e type => return (← edge .castableExpr e).map (castable · type)
  | cast e type => return (← edge .castExpr e).map (cast · type)
  | arrow first calls =>
    copyFollowed old edge .arrowExpr first (·.map old) (ArrowCall.copyM old edge) calls arrow
  | unary ops operand => return (← edge .unaryExpr operand).map (unary ops)
  | path leading relative => return (← copyOption edge .pathExpr relative).map (path leading)
  | axisStep axis test predicates =>
    return (← copyList old (edge .predicate) predicates).map (axisStep axis test)
  | suffixed primary suffixes =>
    copyFollowed old edge .postfixExpr primary (·.map old) (Suffix.copyM old edge) suffixes suffixed
  | parenthesized inner => return (← copyOption edge .parenthesizedExpr inner).map parenthesized
  | functionCall name args => return (← copyArguments old edge args).map (functionCall name)
  | inlineFunction params result body =>
    return (← copyOption edge .enclosedExpr body).map (inlineFunction params result)
  | mapConstructor entries =>
    return (← copyList (·.map old) (MapEntry.copyM old edge) entries).map mapConstructor
  | squareArray members =>
    return (← copyList old (edge .squareArrayConstructor) members).map squareArray
  | curlyArray body => return (← copyOption edge .enclosedExpr body).map curlyArray
  | unaryLookup key => return (← key.copyM edge .unaryLookup).map unaryLookup
  | parentStep | contextItem | varRef _ | namedFunctionRef _ _ | integer _ | decimal _ | double _
  | string _ => return none

end XPath
