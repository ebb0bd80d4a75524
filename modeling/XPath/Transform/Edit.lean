import XPath.Parse
import XPath.Render.Expr
import XPath.Transform
import XPath.Transform.Sharing

/-!
# Edits

Small changes to single nodes, which a transform makes at every node it visits (`Edit.run`). The
edits of a list are made one after another, each on what the one before it has left.

An edit that replaces a node inserts the very same node everywhere, so the places share it.
-/

namespace XPath

/-- A change to single nodes. Each says which nodes it replaces, and by what. -/
inductive Edit where
  /-- A variable reference by its unprefixed name. -/
  | substitute (name : String) (replacement : Tree Nat)
  /-- A node by its kind and, if one is given, the kind of its owner. -/
  | replace (kind : Kind) (owner : Option Kind) (replacement : Tree Nat)
  /-- A node by a copy of it. -/
  | copy (kind : Kind)
  /-- A sum of integer literals by its value. -/
  | foldSums
  /-- Parentheses around a single item by the item. -/
  | unwrap
  /-- A numeric literal by its negation. -/
  | negate
  /-- A double literal by another one. -/
  | setDoubles (value : Double)
  /-- A `let` by its body. -/
  | takeBody
  /-- A `let` by itself around its transformed body. -/
  | descend
  /-- The end of the transform at a node of the kind, after `skipped` others of that kind. -/
  | stop (kind : Kind) (skipped : Nat)

/-- Why a transform by edits gives no tree. -/
inductive EditError where
  | stopped (text : String)
  /-- Edits that call for each other without end. -/
  | endless

namespace Edit

/-- What a transform remembers: the labels given out, the visits so far, the latest first, and how
many nodes each `stop` has let pass, by its place in the list. -/
structure Log where
  labels : Nat
  visits : List (Kind × Option Kind) := []
  passed : List (Nat × Nat) := []

/-- Edits keep their log when they fail. -/
abbrev EditM := ExceptT EditError (StateM Log)

/-- A label that no node has. -/
def freshLabel : EditM Nat := do
  let log ← get
  set { log with labels := log.labels + 1 }
  return log.labels

/-- The construct as a node of its own. -/
def newNode (f : Form (Tree Nat)) : EditM (Tree Nat) :=
  return .node (← freshLabel) f

/-- The value of a chain of integers, each but the first after a sign. -/
def sum? (first : Tree Nat) (rest : List (ChainOp × Tree Nat)) : Option Int :=
  rest.foldl (fun total (op, e) =>
    match total, op, e.form with
    | some a, .plus, .integer b => some (a + b)
    | some a, .minus, .integer b => some (a - b)
    | _, _, _ => none)
    (match first.form with
    | .integer a => some a
    | _ => none)

/-- One of the edits, at the place `index` of the list, on a node with its owner. `whole` is the
transform that the edit belongs to. -/
def apply (whole : Tree Nat → Option Kind → EditM (Tree Nat)) (owner : Option Kind)
    (t : Tree Nat) : Edit × Nat → EditM (Tree Nat)
  | (substitute name replacement, _) =>
    match t.form with
    | .varRef n => return if n.unqualified? = some name then replacement else t
    | _ => return t
  | (replace kind required replacement, _) =>
    return if t.kind = kind ∧ (required = none ∨ required = owner) then replacement else t
  | (copy kind, _) => if t.kind = kind then newNode t.form else return t
  | (foldSums, _) =>
    match t.form with
    | .chain .additive first rest =>
      match sum? first rest with
      | some a => newNode (.integer a)
      | none => return t
    | _ => return t
  | (unwrap, _) =>
    match t.form with
    | .parenthesized (some inner) =>
      match inner.form with
      | .expr [item] => return item
      | _ => return t
    | _ => return t
  | (negate, _) =>
    match t.form with
    | .integer v => newNode (.integer (-v))
    | .decimal d => newNode (.decimal (Decimal.zero.sub d))
    | .double x => newNode (.double x.neg)
    | _ => return t
  | (setDoubles value, _) =>
    match t.form with
    | .double _ => newNode (.double value)
    | _ => return t
  | (takeBody, _) =>
    match t.form with
    | .letExpr _ body => return body
    | _ => return t
  | (descend, _) =>
    match t.form with
    | .letExpr bindings body => do
      let new ← whole body (some .letExpr)
      if new.label = body.label then return t
      else newNode (.letExpr bindings new)
    | _ => return t
  | (stop kind skipped, index) => do
    if t.kind ≠ kind then return t
    let log ← get
    let passed := (log.passed.lookup index).getD 0
    set { log with passed := (index, passed + 1) :: log.passed }
    if skipped ≤ passed then throw (.stopped t.text)
    else return t

/-- The transform that makes the edits at every node, with at most so many descents one inside
another. -/
def transformWith (mode : TransformMode) (edits : List Edit) :
    (descents : Nat) → Tree Nat → Option Kind → EditM (Tree Nat)
  | 0 => fun _ _ => throw .endless
  | descents + 1 =>
    Tree.transformAt freshLabel mode fun t owner => do
      modify fun log => { log with visits := (t.kind, owner) :: log.visits }
      edits.zipIdx.foldlM (apply (transformWith mode edits descents) owner) t

/-- More descents than any expression has levels. -/
def maxDescents : Nat := 1000

/-- The transformed tree, or why there is none, with what happened on the way. -/
def run (mode : TransformMode) (edits : List Edit) (labels : Nat) (t : Tree Nat) :
    Except EditError (Tree Nat) × Log :=
  (transformWith mode edits maxDescents t none).run.run { labels }

/-- What an expression stands for as a replacement: its item, if it has just one. -/
def replacementOf (t : Tree Nat) : Tree Nat :=
  match t.form with
  | .expr [item] => item
  | _ => t

end Edit

end XPath
