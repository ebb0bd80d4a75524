import XPath.Render.Expr

/-!
# Outlines

A tree as indented lines, one for each node, parents before children. A node without children shows
its source text beside its kind.
-/

namespace XPath.Tree

variable {ι : Type}

/-- The line of a node at a depth. -/
def outlineLine (depth : Nat) (t : Tree ι) : String :=
  String.ofList (List.replicate (2 * depth) ' ') ++ t.kind.name ++
    if t.children.isEmpty then " " ++ t.text else ""

/-- The lines of a tree, the root at a depth. -/
def outlineLines : Tree ι → (depth : Nat) → List String :=
  para fun l f depth =>
    outlineLine depth (node l (f.map Prod.fst)) ::
      f.children.flatMap fun (_, lines) => lines (depth + 1)

/-- The lines of a tree, each ended by a line feed. -/
def outline (t : Tree ι) : String :=
  String.join ((t.outlineLines 0).map (· ++ "\n"))

end XPath.Tree
