import XPath.Form.Copy
import XPath.Tree

/-!
# Transforming trees

A transform visits a tree from the leaves up. At every node a function `f` is given the node, with
its children already transformed, and the kind of the construct that owns it, and says what takes
its place.

Labels are identities here: nodes with one label are the same node. A node none of whose children
was replaced by another node is handed to `f` as it is; otherwise it is copied, with the new
children in the places of those that were replaced, and gets a fresh label. So whatever `f` leaves
alone is shared between the old tree and the new one. `f` may have effects in any monad, which also
provides the fresh labels.
-/

namespace XPath

/-- How far a transform goes down on its own. -/
inductive TransformMode where
  | eager
  /-- The body of a `let` is left to `f`. -/
  | lazy
  deriving DecidableEq

/-- Whether a child is visited, by the kind of its owner. A `let` expression owns its body and
nothing else. -/
def TransformMode.follows (mode : TransformMode) (owner : Kind) : Bool :=
  mode == .eager || owner != .letExpr

namespace Tree

variable {ι : Type} {m : Type → Type} [Monad m] [DecidableEq ι]

/-- A child that is visited, if it comes back as another node. -/
def edge (mode : TransformMode) (owner : Kind) (child : Tree ι)
    (visit : Option Kind → m (Tree ι)) : m (Option (Tree ι)) := do
  if mode.follows owner then
    let new ← visit (some owner)
    return if new.label = child.label then none else some new
  else return none

/-- The transformed tree, for a tree that is owned by a construct of kind `owner`. -/
def transformAt (fresh : m ι) (mode : TransformMode) (f : Tree ι → Option Kind → m (Tree ι)) :
    Tree ι → (owner : Option Kind) → m (Tree ι) :=
  para fun l form owner => do
    match ← form.copyM Prod.fst fun kind c => edge mode kind c.1 c.2 with
    | some new => f (node (← fresh) new) owner
    | none => f (node l (form.map Prod.fst)) owner

/-- The transformed tree. Its root has no owner. -/
def transform (fresh : m ι) (mode : TransformMode) (f : Tree ι → Option Kind → m (Tree ι))
    (t : Tree ι) : m (Tree ι) :=
  transformAt fresh mode f t none

end Tree

end XPath
