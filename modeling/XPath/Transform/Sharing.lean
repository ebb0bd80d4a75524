import XPath.Tree

/-!
# Shared nodes

Trees whose labels are numbers, each given out once (`Tree.numbered`). Two trees made of such nodes
share the subtrees below nodes of one number. `Tree.sharedPaths` finds the largest of them that
stand in the same place of both.
-/

namespace XPath.Tree

/-- A number that no node has yet, from a counter of those given out. -/
def nextLabel : StateM Nat Nat := modifyGet fun n => (n, n + 1)

/-- The tree with a new number at every node, children before parents. -/
def numbered {ι : Type} : Tree ι → StateM Nat (Tree Nat) :=
  fold fun _ f => do
    let form ← f.mapM fun _ child => child
    return node (← nextLabel) form

variable {ι : Type} [DecidableEq ι]

/-- The paths, by child index, to the shared subtrees of two trees below a path. What is below a
shared node is shared with it and not listed; what is below nodes of different shape is not
compared. -/
def sharedPathsBelow : Tree ι → Tree ι → (path : String) → List String :=
  para fun l f t path =>
    if l = t.label then [path]
    else if f.kind = t.kind ∧ f.children.length = t.children.length then
      ((f.children.zip t.children).zipIdx.map fun ((c, d), i) =>
        c.2 d (path ++ "/" ++ Nat.repr i)).flatten
    else []

/-- The places of a tree whose nodes another tree has at the same places. -/
def sharedPaths (s t : Tree ι) : List String := sharedPathsBelow s t ""

end XPath.Tree
