import XPath.Proofs.Copy
import XPath.Transform

/-!
# A transform at one node

A transform visits the children of a node along its edges, from left to right, and compares what has
come back with what was there (`copyEdges_eq`). The node is kept if all of it is the same, and else
built anew around it (`Tree.rebuild`); either way it is then given to the callback
(`Tree.transformAt_node`).
-/

namespace XPath

namespace Tree

variable {ι : Type} [DecidableEq ι]

/-- The child, unless another node has come back for it. -/
def keep (child result : Tree ι) : Tree ι :=
  if result.label = child.label then child else result

/-- The children to copy a node with, if another node has come back for one of them. -/
def changes (children results : List (Tree ι)) : Option (List (Tree ι)) :=
  if results.map label = children.map label then none else some (List.zipWith keep children results)

theorem zipWith_keep : ∀ {children results : List (Tree ι)},
    results.map label = children.map label → List.zipWith keep children results = children
  | [], _, _ => rfl
  | _ :: _, [], hlabels => absurd hlabels (by simp)
  | c :: cs, r :: rs, hlabels => by
    rw [List.map_cons, List.map_cons] at hlabels
    obtain ⟨hlabel, hlabels⟩ := List.cons.inj hlabels
    rw [List.zipWith_cons_cons, keep, if_pos hlabel, zipWith_keep hlabels]

theorem getD_changes (children results : List (Tree ι)) :
    (changes children results).getD children = List.zipWith keep children results := by
  unfold changes
  split
  next hlabels => exact (zipWith_keep hlabels).symm
  next => rfl

theorem changes_cons (c r : Tree ι) (cs rs : List (Tree ι)) : changes (c :: cs) (r :: rs) =
    both (if r.label = c.label then none else some r) c (changes cs rs) cs List.cons := by
  have hkeep : (if r.label = c.label then none else some r).getD c = keep c r := by
    unfold keep
    split <;> rfl
  rw [both, getD_changes, hkeep, changes, List.zipWith_cons_cons]
  by_cases hlabel : r.label = c.label <;> by_cases hlabels : rs.map label = cs.map label <;>
    simp [changes, hlabel, hlabels]

variable {m : Type → Type} [Monad m] [LawfulMonad m]

/-- What comes back for a child. One that is not visited comes back as it is. -/
def comeBack (mode : TransformMode) (owner : Kind) (child : Tree ι)
    (visit : Option Kind → m (Tree ι)) : m (Tree ι) :=
  if mode.follows owner then visit (some owner) else pure child

theorem edge_eq (mode : TransformMode) (owner : Kind) (child : Tree ι)
    (visit : Option Kind → m (Tree ι)) : edge mode owner child visit =
      (fun r => if r.label = child.label then none else some r) <$>
        comeBack mode owner child visit := by
  unfold edge comeBack
  split <;> simp

/-- To copy along the edges is to visit them, and to compare what has come back. -/
theorem copyEdges_eq (mode : TransformMode)
    (es : List (Kind × Tree ι × (Option Kind → m (Tree ι)))) :
    copyEdges Prod.fst (fun kind c => edge mode kind c.1 c.2) es =
      changes (es.map fun e => e.2.1) <$> es.mapM fun e => comeBack mode e.1 e.2.1 e.2.2 := by
  induction es with
  | nil => simp [copyEdges_nil, changes]
  | cons e es ih =>
    have hrest : copyList (fun e => e.2.1) (fun e => edge mode e.1 e.2.1 e.2.2) es = _ := ih
    rw [copyEdges, copyList_cons, hrest, edge_eq, List.mapM_cons, copyBoth]
    simp [changes_cons]

/-- The node itself, if the same nodes have come back for its children, and else a new one with
the others in their places. -/
def rebuild (fresh : m ι) (n : Tree ι) (results : List (Tree ι)) : m (Tree ι) := do
  match changes n.children results with
  | some new => return node (← fresh) (n.form.refill new)
  | none => return n

omit [LawfulMonad m] in
/-- A node whose children come back is kept. -/
theorem rebuild_children (fresh : m ι) (n : Tree ι) : rebuild fresh n n.children = pure n := by
  rw [rebuild, changes, if_pos rfl]

/-- The transform visits the edges of a node in order, and gives `f` the node that is rebuilt. -/
theorem transformAt_node (fresh : m ι) (mode : TransformMode)
    (f : Tree ι → Option Kind → m (Tree ι)) (l : ι) (form : Form (Tree ι)) (owner : Option Kind) :
    transformAt fresh mode f (node l form) owner = (do
      let results ← form.edges.mapM fun e => comeBack mode e.1 e.2 (transformAt fresh mode f e.2)
      let handed ← rebuild fresh (node l form) results
      f handed owner) := by
  have hchildren : form.edges.map (fun e => e.2) = form.children := Form.snd_edges form
  rw [transformAt, para_node, Form.copyM_eq, copyEdges_eq, Form.map_fst, Form.edges_map,
    List.map_map, List.mapM_map]
  simp only [Function.comp_def, hchildren, map_eq_pure_bind, bind_assoc, pure_bind]
  refine bind_congr fun results => ?_
  rw [rebuild, show (node l form).children = form.children from rfl]
  cases changes form.children results with
  | none => simp only [Option.map_none, pure_bind]
  | some new => simp only [Option.map_some, bind_assoc, pure_bind, Tree.form]

end Tree

end XPath
