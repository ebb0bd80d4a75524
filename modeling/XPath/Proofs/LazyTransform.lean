import Mathlib.Data.List.Perm.Basic
import XPath.Proofs.Role
import XPath.Proofs.SharedNodes

/-!
# The lazy transform

The lazy transform does not go into the bodies of `let` expressions. The edge to such a body comes
last among the edges of its construct, and it is the only one that a `let` owns (`Form.edges_eq`,
`Form.fst_outerEdges_ne`). So the edges that are followed are the outer ones, what comes back along
all of them is what comes back along these, and the body (`Tree.mapM_comeBack_lazy`); and by
induction on the tree the lazy transform is a traversal of the outer edges
(`Tree.transformAt_lazy_eq`), and the eager transform where there is no `let`
(`Tree.transformAt_lazy_eq_eager`).

What is true of the eager transform is true of it with the outer edges in place of all. It is not to
be told from the plain transform of the nodes outside (`transformAt_simulates_outer`), and the calls
of that one are in post-order (`renewOuter_records`).

In a walk of the lazy transform the nodes outside are visited (`Walk.outer`). The rest of the tree
is inside the bodies (`Tree.postorder_perm`), and none of it is handed over
(`Walk.handed_not_hidden`): a node that is handed over is the one that is visited, or has been built
on the visit. A body comes back for itself, so it is kept when its `let` is built anew
(`VisitedFrom.letBody?_eq`).
-/

namespace XPath

variable {α β : Type}

/-! ## The body of a let -/

/-- The edges of a construct, without the one to the body of a `let`. -/
def Form.outerEdges : Form α → List (Kind × α)
  | letExpr bindings _ => bindings.map (.simpleBinding, ·.expr)
  | f => f.edges

/-- The body of a `let`, which a lazy transform leaves as it is. -/
def Form.letBody? : Form α → Option α
  | letExpr _ body => some body
  | _ => none

/-- The edge to the body comes last, and a `let` owns it. -/
theorem Form.edges_eq (f : Form α) :
    f.edges = f.outerEdges ++ f.letBody?.toList.map (.letExpr, ·) := by
  cases f <;> simp [outerEdges, letBody?, edges]

theorem Form.letBody?_map (g : α → β) (f : Form α) : (f.map g).letBody? = f.letBody?.map g := by
  cases f <;> rfl

theorem Form.letBody?_eq_none {f : Form α} (h : f.kind ≠ .letExpr) : f.letBody? = none := by
  cases f with
  | letExpr bindings body => exact absurd rfl h
  | _ => rfl

/-- A `let` has a body, and the edge to it is the last one. -/
theorem Form.exists_letBody {f : Form α} (h : f.kind = .letExpr) :
    ∃ body, f.letBody? = some body ∧ f.edges = f.outerEdges ++ [(.letExpr, body)] := by
  cases f with
  | letExpr bindings body => exact ⟨body, rfl, rfl⟩
  | chain level first rest => cases level <;> cases h
  | _ => cases h

theorem Argument.fst_edges_ne (args : List (Argument α)) :
    ∀ e ∈ args.flatMap Argument.edges, e.1 ≠ .letExpr :=
  List.forall_mem_flatMap.mpr fun _ _ => List.forall_mem_map.mpr fun _ _ => nofun

theorem Suffix.fst_edges_ne (s : Suffix α) : ∀ e ∈ s.edges, e.1 ≠ .letExpr := by
  cases s with
  | predicate e => simp [edges]
  | arguments args => exact Argument.fst_edges_ne args
  | lookup key => simp [edges]

theorem ArrowCall.fst_edges_ne (c : ArrowCall α) : ∀ e ∈ c.edges, e.1 ≠ .letExpr :=
  List.forall_mem_append.mpr ⟨by simp, Argument.fst_edges_ne c.args⟩

/-- A `let` owns no other edge, and no other construct owns edges as a `let` does. -/
theorem Form.fst_outerEdges_ne (f : Form α) : ∀ e ∈ f.outerEdges, e.1 ≠ .letExpr := by
  have hbound (bindings : List (Binding α)) (kind : Kind) (body : α) (hkind : kind ≠ .letExpr) :
      ∀ e ∈ bindings.map (Kind.simpleBinding, Binding.expr ·) ++ [(kind, body)], e.1 ≠ .letExpr :=
    List.forall_mem_append.mpr ⟨by simp, by simpa using hkind⟩
  cases f with
  | forExpr bindings body => exact hbound bindings _ body (by decide)
  | quantified q bindings body => exact hbound bindings _ body (by decide)
  | chain level first rest => cases level <;> simp [outerEdges, edges, kind, ChainLevel.kind]
  | arrow first calls =>
    exact List.forall_mem_cons.mpr
      ⟨by simp, List.forall_mem_flatMap.mpr fun c _ => ArrowCall.fst_edges_ne c⟩
  | suffixed primary suffixes =>
    exact List.forall_mem_cons.mpr
      ⟨by simp, List.forall_mem_flatMap.mpr fun s _ => Suffix.fst_edges_ne s⟩
  | functionCall name args => exact Argument.fst_edges_ne args
  | _ => simp [outerEdges, edges, kind]

/-- Lazily all edges are followed but those to the body of a `let`. -/
theorem TransformMode.follows_lazy {owner : Kind} :
    lazy.follows owner = true ↔ owner ≠ .letExpr := by
  simp [follows]

/-- The edges that are followed. -/
theorem Form.filter_edges (f : Form α) :
    f.edges.filter (fun e => TransformMode.lazy.follows e.1) = f.outerEdges := by
  have houter : f.outerEdges.filter (fun e => TransformMode.lazy.follows e.1) = f.outerEdges :=
    List.filter_eq_self.mpr fun e he => TransformMode.follows_lazy.mpr (f.fst_outerEdges_ne e he)
  rw [edges_eq, List.filter_append, houter]
  cases f.letBody? <;> simp [TransformMode.follows]

theorem Form.outerEdges_map (g : α → β) (f : Form α) :
    (f.map g).outerEdges = f.outerEdges.map fun e => (e.1, g e.2) := by
  rw [← filter_edges, edges_map, List.filter_map, ← filter_edges]
  rfl

theorem Form.mem_children_of_outerEdges {f : Form α} {e : Kind × α} (he : e ∈ f.outerEdges) :
    e.2 ∈ f.children :=
  mem_children_of_edges (f.edges_eq ▸ List.mem_append_left _ he)

theorem Form.mem_children_of_letBody? {f : Form α} {body : α} (h : body ∈ f.letBody?.toList) :
    body ∈ f.children := by
  rw [← Form.snd_edges, Form.edges_eq]
  exact List.mem_map.mpr ⟨_, List.mem_append_right _ (List.mem_map_of_mem h), rfl⟩

/-! ## The traversal outside -/

section Outer

variable {m : Type → Type} [Monad m]

/-- A traversal of the nodes outside the bodies of `let` expressions: the children are visited from
left to right, each of them owned by what owns its edge, and `call` is given the node, what has come
back for its children, and its owner. A body that is not visited comes back as it is. -/
def Tree.visitOuter {ι : Type}
    (call : Tree ι → (results : List (Tree ι)) → Option Kind → m (Tree ι)) :
    Tree ι → (owner : Option Kind) → m (Tree ι) :=
  para fun l form owner => do
    let results ← form.outerEdges.mapM fun e => e.2.2 (some e.1)
    call (.node l (form.map Prod.fst)) (results ++ form.letBody?.toList.map Prod.fst) owner

/-- A node is visited after the nodes outside below it, and handed its body as it is. -/
theorem Tree.visitOuter_node [LawfulMonad m] {ι : Type}
    (call : Tree ι → List (Tree ι) → Option Kind → m (Tree ι)) (l : ι) (form : Form (Tree ι))
    (owner : Option Kind) :
    visitOuter call (node l form) owner = (do
      let results ← form.outerEdges.mapM fun e => visitOuter call e.2 (some e.1)
      call (node l form) (results ++ form.letBody?.toList) owner) := by
  rw [visitOuter, para_node, Form.map_fst, Form.outerEdges_map, List.mapM_map, Form.letBody?_map]
  cases form.letBody? <;> rfl

/-- The transform that builds every node outside anew. -/
def Node.renewOuter (f : Node → Option Kind → m Node) : Node → (owner : Option Kind) → m Node :=
  Tree.visitOuter fun n results => f (.of (n.form.refill results))

/-- A construct is renewed with the children outside renewed, and its body as it is. -/
theorem Node.renewOuter_of [LawfulMonad m] (f : Node → Option Kind → m Node) (g : Form Node)
    (owner : Option Kind) :
    renewOuter f (.of g) owner = (do
      let results ← g.outerEdges.mapM fun e => renewOuter f e.2 (some e.1)
      f (.of (g.refill (results ++ g.letBody?.toList))) owner) :=
  Tree.visitOuter_node _ () g owner

/-- The transform of the nodes outside, which keeps the nodes that it can. -/
def Tree.transformOuter {ι : Type} [DecidableEq ι] (fresh : m ι)
    (f : Tree ι → Option Kind → m (Tree ι)) : Tree ι → (owner : Option Kind) → m (Tree ι) :=
  visitOuter fun n results owner => do f (← rebuild fresh n results) owner

/-- Only what is done with the elements of the list counts. -/
theorem mapM_congr [LawfulMonad m] {κ : Type} {g g' : κ → m α} :
    ∀ {ks : List κ}, (∀ k ∈ ks, g k = g' k) → ks.mapM g = ks.mapM g'
  | [], _ => rfl
  | k :: ks, h => by
    rw [List.mapM_cons, List.mapM_cons, h k List.mem_cons_self,
      mapM_congr fun k' hk' => h k' (List.mem_cons_of_mem k hk')]

/-- Along the edges of the lazy transform come back what the visits outside give, and the body. -/
theorem Tree.mapM_comeBack_lazy [LawfulMonad m] {ι : Type} (form : Form (Tree ι))
    (visit : Tree ι → Option Kind → m (Tree ι)) :
    (form.edges.mapM fun e => comeBack .lazy e.1 e.2 (visit e.2)) = (do
      let results ← form.outerEdges.mapM fun e => visit e.2 (some e.1)
      return results ++ form.letBody?.toList) := by
  have houter : ∀ e ∈ form.outerEdges, comeBack .lazy e.1 e.2 (visit e.2) = visit e.2 (some e.1) :=
    fun e he => if_pos (TransformMode.follows_lazy.mpr (form.fst_outerEdges_ne e he))
  rw [Form.edges_eq, List.mapM_append, mapM_congr houter]
  cases form.letBody? with
  | none => simp
  | some body =>
    have hbody : comeBack .lazy .letExpr body (visit body) = pure body := if_neg nofun
    simp [hbody]

/-- The lazy transform is the one of the nodes outside, whatever the callback does. -/
theorem Tree.transformAt_lazy_eq [LawfulMonad m] {ι : Type} [DecidableEq ι] (fresh : m ι)
    (f : Tree ι → Option Kind → m (Tree ι)) (t : Tree ι) :
    ∀ owner, transformAt fresh .lazy f t owner = transformOuter fresh f t owner := by
  induction t using Tree.induct with
  | node l form ih =>
    intro owner
    have houter : ∀ e ∈ form.outerEdges, transformAt fresh .lazy f e.2 (some e.1) =
        transformOuter fresh f e.2 (some e.1) := fun e he =>
      ih e.2 (Form.mem_children_of_outerEdges he) (some e.1)
    rw [transformAt_node, mapM_comeBack_lazy, bind_assoc, mapM_congr houter, transformOuter,
      visitOuter_node]
    simp only [pure_bind]

/-- Where no construct is a `let`, the modes do not differ, whatever the callback does. -/
theorem Tree.transformAt_lazy_eq_eager [LawfulMonad m] {ι : Type} [DecidableEq ι] (fresh : m ι)
    (f : Tree ι → Option Kind → m (Tree ι)) {t : Tree ι}
    (ht : t.All fun form => form.kind ≠ .letExpr) :
    ∀ owner, transformAt fresh .lazy f t owner = transformAt fresh .eager f t owner := by
  induction t using Tree.induct with
  | node l form ih =>
    intro owner
    obtain ⟨hform, hchildren⟩ := all_node.mp ht
    have houter : form.edges = form.outerEdges := by
      rw [Form.edges_eq, Form.letBody?_eq_none hform]
      exact List.append_nil _
    have hends : ∀ e ∈ form.edges, comeBack .lazy e.1 e.2 (transformAt fresh .lazy f e.2) =
        comeBack .eager e.1 e.2 (transformAt fresh .eager f e.2) := fun e he => by
      have hfollow := TransformMode.follows_lazy.mpr (form.fst_outerEdges_ne e (houter ▸ he))
      have hmem : e.2 ∈ form.children := Form.mem_children_of_edges he
      rw [comeBack, comeBack, if_pos hfollow,
        if_pos (show TransformMode.eager.follows e.1 = true from rfl),
        ih e.2 hmem (hchildren e.2 hmem)]
    rw [transformAt_node, transformAt_node, mapM_congr hends]

end Outer

/-! ## Agreement -/

section Agreement

variable {ε τ σ : Type} {R : Heap → τ → σ → Prop}
  {f : Node → Option Kind → ExceptT ε (StateM σ) Node}
  {F : Tree Nat → Option Kind → LabelM ε τ (Tree Nat)}

theorem StandAll.append {h : Heap} {ts us : List (Tree Nat)} {ns ms : List Node}
    (hts : StandAll h ts ns) (hus : StandAll h us ms) : StandAll h (ts ++ us) (ns ++ ms) :=
  ⟨List.forall_mem_append.mpr ⟨hts.1, hus.1⟩, by rw [List.map_append, hts.2, hus.2]⟩

/-- The lazy transform agrees with the plain one that does not visit the bodies. -/
theorem transformAt_simulates_outer (hF : Realizes R f F) (t : Tree Nat) :
    ∀ {h : Heap} (owner : Option Kind), t.LivesIn h → Simulates R Tree.Stands h
      (Tree.transformAt LabelM.fresh .lazy F t owner) (Node.renewOuter f t.toNode owner) := by
  induction t using Tree.induct with
  | node l form ih =>
    intro h owner ht
    have hlive := (Tree.livesIn_node.mp ht).2.2
    have houter : Simulates R
        (fun h' ts ns => StandAll h' ts ns ∧ ts.length = form.outerEdges.length) h
        (form.outerEdges.mapM fun e => Tree.transformAt LabelM.fresh .lazy F e.2 (some e.1))
        ((form.outerEdges.map fun e => (e.1, e.2.toNode)).mapM fun e =>
          Node.renewOuter f e.2 (some e.1)) := by
      refine Simulates.mapM _ fun e he h' hext => ?_
      have hmem := Form.mem_children_of_outerEdges he
      exact ih e.2 hmem (some e.1) ((hlive e.2 hmem).mono hext)
    have hedges := houter.bind (k := fun results => pure (results ++ form.letBody?.toList))
      (l := fun results => pure (results ++ (form.map Tree.toNode).letBody?.toList))
      (Q := fun h' ts ns => StandAll h' ts ns ∧ ts.length = form.edges.length)
      fun h' ts ns hext hts => by
        have hbody : StandAll h' form.letBody?.toList (form.map Tree.toNode).letBody?.toList := by
          refine ⟨fun c hc => (hlive c (Form.mem_children_of_letBody? hc)).mono hext, ?_⟩
          rw [Form.letBody?_map]
          cases form.letBody? <;> rfl
        exact .pure ⟨hts.1.append hbody, by simp [hts.2, Form.edges_eq]⟩
    rw [← Tree.mapM_comeBack_lazy] at hedges
    have hnode := transformAt_of_edges hF owner ht hedges
    rw [Tree.toNode_node, Node.renewOuter_of, Form.outerEdges_map]
    simpa only [bind_assoc, pure_bind] using hnode

end Agreement

/-! ## The nodes outside -/

section Outside

variable {ι : Type}

/-- The nodes outside the bodies of `let` expressions and their owners, children before parents and
from left to right. -/
def Tree.outerPostorder : Tree ι → (owner : Option Kind) → List (Tree ι × Option Kind) :=
  para fun l form owner => (form.outerEdges.flatMap fun e => e.2.2 (some e.1)) ++
    [(node l (form.map Prod.fst), owner)]

/-- A node comes after the nodes outside below it. -/
theorem Tree.outerPostorder_node (l : ι) (form : Form (Tree ι)) (owner : Option Kind) :
    (node l form).outerPostorder owner =
      (form.outerEdges.flatMap fun e => e.2.outerPostorder (some e.1)) ++
        [(node l form, owner)] := by
  rw [outerPostorder, para_node, Form.map_fst, Form.outerEdges_map, List.flatMap_map]

/-- The nodes inside the bodies of `let` expressions, and their owners. -/
def Tree.hidden : Tree ι → List (Tree ι × Option Kind) :=
  para fun _ form => (form.outerEdges.flatMap fun e => e.2.2) ++
    form.letBody?.toList.flatMap fun body => body.1.postorder (some .letExpr)

/-- What is hidden is the body of a `let`, and what is hidden further below. -/
theorem Tree.hidden_node (l : ι) (form : Form (Tree ι)) :
    (node l form).hidden = (form.outerEdges.flatMap fun e => e.2.hidden) ++
      form.letBody?.toList.flatMap fun body => body.postorder (some .letExpr) := by
  rw [hidden, para_node, Form.outerEdges_map, List.flatMap_map, Form.letBody?_map]
  cases form.letBody? <;> rfl

/-- Every node is outside or inside, and not both. -/
theorem Tree.postorder_perm (t : Tree ι) :
    ∀ owner, (t.postorder owner).Perm (t.outerPostorder owner ++ t.hidden) := by
  induction t using Tree.induct with
  | node l form ih =>
    intro owner
    have hedges : (form.outerEdges.flatMap fun e => e.2.postorder (some e.1)).Perm
        ((form.outerEdges.flatMap fun e => e.2.outerPostorder (some e.1)) ++
          form.outerEdges.flatMap fun e => e.2.hidden) :=
      (List.Perm.flatMap_left _ fun e he =>
        ih e.2 (Form.mem_children_of_outerEdges he) (some e.1)).trans
        (List.flatMap_append_perm _ _ _).symm
    rw [postorder_node, outerPostorder_node, hidden_node, Form.edges_eq, List.flatMap_append,
      List.flatMap_map, List.append_assoc, List.append_assoc]
    refine (hedges.append_right _).trans ?_
    rw [List.append_assoc]
    refine List.Perm.append_left _ ?_
    rw [← List.append_assoc]
    exact List.perm_append_comm

theorem Tree.Below.postorder {next : Nat} {t : Tree Nat} (ht : t.Below next) :
    ∀ owner, ∀ p ∈ t.postorder owner, p.1.Below next := by
  induction t using Tree.induct with
  | node l form ih =>
    intro owner
    rw [Tree.postorder_node]
    refine List.forall_mem_append.mpr
      ⟨List.forall_mem_flatMap.mpr fun e he => ?_, List.forall_mem_singleton.mpr ht⟩
    exact ih e.2 (Form.mem_children_of_edges he) (ht.edge e he) (some e.1)

end Outside

/-! ## Calls -/

section Calls

variable {ε τ σ : Type}

/-- The calls go over the nodes outside, in post-order. -/
theorem renewOuter_records (f : Node → Option Kind → ExceptT ε (StateM σ) Node) (n : Node) :
    ∀ owner, Records ((n.outerPostorder owner).map Tree.place)
      (Node.renewOuter (recorded f) n owner)
      (Node.renewOuter f n owner) := by
  induction n using Tree.induct with
  | node l form ih =>
    intro owner
    have hchildren := Records.mapM (g := fun e => Node.renewOuter (recorded f) e.2 (some e.1))
      form.outerEdges fun e he => ih e.2 (Form.mem_children_of_outerEdges he) (some e.1)
    have hcalls := hchildren.bind fun results =>
      Records.refill f form owner (results ++ form.letBody?.toList)
    rw [Tree.outerPostorder_node, List.map_append, List.map_flatMap,
      show Tree.node l form = Node.of form from rfl, Node.renewOuter_of, Node.renewOuter_of]
    exact hcalls

end Calls

/-! ## Visits -/

section Visits

variable {ε τ : Type} {F : Tree Nat → Option Kind → LabelM ε τ (Tree Nat)}

/-- All have been reached, unless there was an error on the way. -/
def Reaches (all reached : List α) : Except ε β → Prop
  | .ok _ => reached = all
  | .error _ => reached <+: all

theorem Reaches.of_eq {all reached : List α} (h : reached = all) :
    ∀ result : Except ε β, Reaches all reached result
  | .ok _ => h
  | .error _ => h ▸ List.prefix_rfl

/-- What comes before may be put in front of both lists. -/
theorem Reaches.append_left {all reached : List α} {result : Except ε β} (before : List α)
    (h : Reaches all reached result) : Reaches (before ++ all) (before ++ reached) result := by
  cases result with
  | ok b => exact congrArg (before ++ ·) h
  | error e => exact (List.prefix_append_right_inj before).mpr h

theorem Reaches.map {γ : Type} {all reached : List α} {result : Except ε β} (g : β → γ)
    (h : Reaches all reached result) : Reaches all reached (result.map g) := by
  cases result <;> exact h

mutual
/-- A walk of the lazy transform is over the nodes outside, in post-order. -/
theorem Walk.outer {n : Tree Nat} {owner : Option Kind} {s s' : Nat × τ} {visits : List (Visited ε)}
    {answer : Except ε (Tree Nat)} (hwalk : Walk .lazy F n owner s visits answer s') :
    Reaches ((n.outerPostorder owner).map Prod.fst) (visits.map Visited.node) answer :=
  match n, hwalk with
  | .node l form, .call hedges _ _ => by
    have hbefore := hedges.outer
    rw [Form.filter_edges] at hbefore
    refine .of_eq ?_ _
    rw [Tree.outerPostorder_node, List.map_append, List.map_append, List.map_flatMap]
    exact congrArg (· ++ [Tree.node l form]) hbefore
  | .node l form, .stop hedges => by
    have hbefore := hedges.outer
    rw [Form.filter_edges] at hbefore
    rw [Tree.outerPostorder_node, List.map_append, List.map_flatMap]
    exact List.IsPrefix.trans hbefore (List.prefix_append _ _)

/-- So are the visits along edges. -/
theorem WalkEdges.outer {es : List (Kind × Tree Nat)} {s s' : Nat × τ} {visits : List (Visited ε)}
    {results : Except ε (List (Tree Nat))} (hwalk : WalkEdges .lazy F es s visits results s') :
    Reaches ((es.filter fun e => TransformMode.lazy.follows e.1).flatMap fun e =>
      (e.2.outerPostorder (some e.1)).map Prod.fst) (visits.map Visited.node) results :=
  match hwalk with
  | .done => rfl
  | .leave hleave hrest => by
    rw [List.filter_cons_of_neg (by simp [hleave])]
    exact hrest.outer.map _
  | .visit hfollow hvisit hrest => by
    have hfirst : _ = _ := hvisit.outer
    rw [List.filter_cons, if_pos hfollow, List.flatMap_cons, List.map_append, hfirst]
    exact (hrest.outer.append_left _).map _
  | .fail hfollow hvisit => by
    rw [List.filter_cons, if_pos hfollow, List.flatMap_cons]
    exact List.IsPrefix.trans hvisit.outer (List.prefix_append _ _)
end

/-- Nothing is reached that is not there. -/
theorem Reaches.subset {all reached : List α} {result : Except ε β}
    (h : Reaches all reached result) : reached ⊆ all := by
  cases result with
  | ok b => exact (show reached = all from h) ▸ List.Subset.refl reached
  | error e => exact List.IsPrefix.subset h

/-- If the last edge is not followed, its child comes back for it. -/
theorem WalkEdges.results_leave {mode : TransformMode} {es : List (Kind × Tree Nat)}
    {e : Kind × Tree Nat} {s s' : Nat × τ} {visits : List (Visited ε)} {rs : List (Tree Nat)}
    (hleave : mode.follows e.1 = false)
    (hwalk : WalkEdges mode F (es ++ [e]) s visits (.ok rs) s') : ∃ rs', rs = rs' ++ [e.2] := by
  generalize hok : Except.ok rs = result at hwalk
  induction es generalizing s visits rs result with
  | nil =>
    cases hwalk with
    | leave _ hrest =>
      cases hrest
      exact ⟨[], Except.ok.inj hok⟩
    | visit hfollow => exact absurd hfollow (by simp [hleave])
    | fail => cases hok
  | cons e' es ih =>
    cases hwalk with
    | leave _ hrest =>
      obtain ⟨rs', rfl, rfl⟩ := map_cons_eq_ok hok.symm
      obtain ⟨rs'', rfl⟩ := ih _ rfl hrest
      exact ⟨e'.2 :: rs'', rfl⟩
    | visit _ _ hrest =>
      obtain ⟨rs', rfl, rfl⟩ := map_cons_eq_ok hok.symm
      obtain ⟨rs'', rfl⟩ := ih _ rfl hrest
      exact ⟨_ :: rs'', rfl⟩
    | fail => cases hok

/-- A `let` is handed over with the body that it has, also where a binding has changed. -/
theorem VisitedFrom.letBody?_eq {start : Nat} {v : Visited ε}
    (hv : VisitedFrom .lazy F start v) : v.handed.form.letBody? = v.node.form.letBody? := by
  have hshares := hv.shares
  obtain ⟨_, _, _, _, -, -, -, hwalk, -⟩ := hv
  have hkind : v.handed.form.kind = v.node.form.kind := by
    have hshape := congrArg Form.kind hshares.shape_eq
    rwa [Form.shape, Form.shape, Form.kind_map, Form.kind_map] at hshape
  by_cases hlet : v.node.form.kind = .letExpr
  · obtain ⟨body, hbody, hedges⟩ := Form.exists_letBody hlet
    obtain ⟨body', hbody', hedges'⟩ := Form.exists_letBody (hkind.trans hlet)
    rw [hedges] at hwalk
    obtain ⟨rs, hrs⟩ := hwalk.results_leave rfl
    have hlength : (v.node.form.outerEdges.map Prod.snd).length = rs.length := by
      have hall := hwalk.length_eq
      rw [hrs, List.length_append, List.length_append] at hall
      rw [List.length_map]
      exact (Nat.add_right_cancel hall).symm
    have hchildren : v.handed.form.edges.map Prod.snd =
        List.zipWith Tree.keep (v.node.form.edges.map Prod.snd) v.results := by
      rw [Form.snd_edges, Form.snd_edges]
      exact hshares.children_eq
    rw [hedges, hedges', hrs, List.map_append, List.map_append, List.zipWith_append hlength]
      at hchildren
    have hlast : body' = body.keep body :=
      List.singleton_inj.mp (List.append_inj' hchildren rfl).2
    rw [hbody, hbody', hlast, Tree.keep, if_pos rfl]
  · rw [Form.letBody?_eq_none hlet, Form.letBody?_eq_none (hkind ▸ hlet)]

/-- What is handed over is the node itself or has a label of its own. -/
theorem VisitedFrom.handed_label {mode : TransformMode} {start : Nat} {v : Visited ε}
    (hv : VisitedFrom mode F start v) : v.handed = v.node ∨ start ≤ v.handed.label := by
  obtain ⟨s, _, s', _, hstart, hle, -, -, hrebuild⟩ := hv
  obtain ⟨-, hhanded, -⟩ | ⟨-, hhanded, -⟩ := Tree.rebuild_cases hrebuild
  · exact .inl hhanded
  · exact .inr (hhanded ▸ Nat.le_trans hstart hle)

/-- No node inside is handed over, unless it is outside as well. -/
theorem Walk.handed_not_hidden (hF : KeepsLabels F) {t : Tree Nat} {s s' : Nat × τ}
    {visits : List (Visited ε)} {answer : Except ε (Tree Nat)}
    (hwalk : Walk .lazy F t none s visits answer s') (hbelow : t.Below s.1)
    (hdistinct : ((t.postorder none).map fun p => p.1.label).Nodup) :
    ∀ v ∈ visits, ∀ p ∈ t.hidden, ¬ v.handed.Identical p.1 := by
  intro v hv p hp hsame
  have hperm := t.postorder_perm none
  have hlabel : p.1.label < s.1 :=
    (hbelow.postorder none p (hperm.mem_iff.mpr (List.mem_append_right _ hp))).label_lt
  obtain hnode | hfresh := ((hwalk.visitedFrom hF hbelow).2 v hv).handed_label
  · obtain ⟨q, hq, hqv⟩ := List.mem_map.mp (hwalk.outer.subset (List.mem_map_of_mem hv))
    rw [(hperm.map _).nodup_iff, List.map_append, List.nodup_append] at hdistinct
    refine hdistinct.2.2 _ (List.mem_map_of_mem hq) _ (List.mem_map_of_mem hp) ?_
    rw [hqv, ← hnode]
    exact hsame
  · exact Nat.not_le_of_gt hlabel (hsame ▸ hfresh)

end Visits

/-! ## Transforms -/

section Transforms

variable {ε τ σ : Type}

/-- Every callback on expressions is realized by one that takes no label back. -/
theorem keepsLabels_keeping (f : Node → Option Kind → ExceptT ε (StateM σ) Node) :
    KeepsLabels (Tree.keeping f) := by
  rintro t owner ⟨next, s⟩
  rcases hcall : (f t.toNode owner).run.run s with ⟨e | n, s'⟩
  · have hrun : (LabelM.ofMemory (f t.toNode owner)).run.run (next, s) = (.error e, (next, s')) :=
      congrArg (fun p : Except ε Node × σ => (p.1, (next, p.2))) hcall
    rewrite [Tree.keeping, run_bind_error hrun]
    exact Nat.le_refl next
  · have hrun : (LabelM.ofMemory (f t.toNode owner)).run.run (next, s) = (.ok n, (next, s')) :=
      congrArg (fun p : Except ε Node × σ => (p.1, (next, p.2))) hcall
    rw [Tree.keeping, run_bind_ok hrun]
    split
    next => exact Nat.le_refl next
    next =>
      have hlasting : Lasting fun _ (_ _ : σ) => True := fun _ _ _ _ _ hr => hr
      obtain ⟨h', hext, hnext, -, -⟩ :=
        numbered_stands (ε := ε) hlasting n ⟨fun _ => n, next⟩ s' s' trivial
      exact hnext ▸ hext.next_le

/-- What it is for the lazy transform to behave as the plain one of the nodes outside. -/
structure ActsOuter (R : Heap → τ → σ → Prop) (f : Node → Option Kind → ExceptT ε (StateM σ) Node)
    (F : Tree Nat → Option Kind → LabelM ε τ (Tree Nat)) (h : Heap) (t : Tree Nat) (u : τ)
    (s : σ) : Prop where
  /-- The same error, or equal expressions. -/
  result : ((t.transform LabelM.fresh .lazy F).run.run (h.next, u)).1.map Tree.toNode =
    ((Node.renewOuter f t.toNode none).run.run s).1
  memory : ∃ h', h.Extends h' ∧ R h' ((t.transform LabelM.fresh .lazy F).run.run (h.next, u)).2.2
    ((Node.renewOuter f t.toNode none).run.run s).2
  /-- If the calls are recorded, both record the same ones: in post-order a call for every node
  outside, with its owner, up to the first that fails. -/
  calls : ∃ calls,
    ((t.transform LabelM.fresh .lazy (Tree.recorded F)).run.run (h.next, (u, []))).2.2.2 = calls ∧
    (Node.renewOuter (recorded f) t.toNode none).run.run (s, []) =
      (((Node.renewOuter f t.toNode none).run.run s).1,
        (((Node.renewOuter f t.toNode none).run.run s).2, calls)) ∧
    Trace ((t.toNode.outerPostorder none).map Tree.place) calls
      ((Node.renewOuter f t.toNode none).run.run s).1

/-- If the callback does on nodes what another one does on expressions, sharing is not to be
noticed. -/
theorem transform_lazy_actsOuter {R : Heap → τ → σ → Prop}
    {f : Node → Option Kind → ExceptT ε (StateM σ) Node}
    {F : Tree Nat → Option Kind → LabelM ε τ (Tree Nat)} (hF : Realizes R f F) {h : Heap}
    {t : Tree Nat} (ht : t.LivesIn h) {u : τ} {s : σ} (hr : R h u s) : ActsOuter R f F h t u s := by
  obtain ⟨h', hext, -, hmem, hans⟩ := transformAt_simulates_outer hF t none ht u s hr
  obtain ⟨-, -, -, ⟨-, hsame⟩, -⟩ :=
    transformAt_simulates_outer hF.recorded t none ht (u, []) (s, []) ⟨hr, rfl⟩
  obtain ⟨calls, htrace, hrun⟩ := renewOuter_records f t.toNode none s []
  refine ⟨hans.map_eq fun _ _ hstands => hstands.2, ⟨h', hext, hmem⟩, calls, hsame.trans ?_, hrun,
    htrace⟩
  rw [hrun]
  rfl

/-- What it is for the lazy transform to be the eager one that does not go into the bodies of `let`
expressions. -/
structure SkipsBodies (F : Tree Nat → Option Kind → LabelM ε τ (Tree Nat)) (t : Tree Nat)
    (s : Nat × τ) : Prop where
  /-- It is the transform that goes over all edges but those to the bodies: the same calls in the
  same order, the same result or first error, and the same labels. -/
  eq_outer : t.transform LabelM.fresh .lazy F = t.transformOuter LabelM.fresh F none
  plain : ∀ {σ : Type} {R : Heap → τ → σ → Prop}
    {f : Node → Option Kind → ExceptT ε (StateM σ) Node}, Realizes R f F → ∀ {h : Heap} {m : σ},
      h.next = s.1 → t.LivesIn h → R h s.2 m → ActsOuter R f F h t s.2 m
  walks : ∃ visits, Walk .lazy F t none s visits
    ((t.transform LabelM.fresh .lazy F).run.run s).1
    ((t.transform LabelM.fresh .lazy F).run.run s).2
  /-- The nodes outside are visited, and only these: of a `let` the bindings, and then itself. -/
  visits_outer : ∀ {visits answer s'}, Walk .lazy F t none s visits answer s' →
    Reaches ((t.outerPostorder none).map Prod.fst) (visits.map Visited.node) answer
  /-- The others are the nodes inside the bodies. -/
  apart : (t.postorder none).Perm (t.outerPostorder none ++ t.hidden)
  /-- None of these is handed over, if no node stands in two places. -/
  not_hidden : ((t.postorder none).map fun p => p.1.label).Nodup →
    ∀ {visits answer s'}, Walk .lazy F t none s visits answer s' →
      ∀ v ∈ visits, ∀ p ∈ t.hidden, ¬ v.handed.Identical p.1
  /-- A `let` that is handed over has the very body that it had. -/
  letBody?_eq : ∀ {visits answer s'}, Walk .lazy F t none s visits answer s' →
    ∀ v ∈ visits, v.handed.form.letBody? = v.node.form.letBody?
  /-- Without a `let` it is the eager transform. -/
  eq_eager : (t.All fun form => form.kind ≠ .letExpr) →
    t.transform LabelM.fresh .lazy F = t.transform LabelM.fresh .eager F

/-- The lazy transform skips the bodies, whatever the tree and the callback. -/
theorem transform_lazy_skipsBodies {F : Tree Nat → Option Kind → LabelM ε τ (Tree Nat)}
    (hF : KeepsLabels F) {t : Tree Nat} {s : Nat × τ} (ht : t.Below s.1) : SkipsBodies F t s where
  eq_outer := Tree.transformAt_lazy_eq LabelM.fresh F t none
  plain hplain h _ hnext hlive hr := by
    obtain ⟨next, u⟩ := s
    subst hnext
    exact transform_lazy_actsOuter hplain hlive hr
  walks := transformAt_walks t none s
  visits_outer hwalk := hwalk.outer
  apart := t.postorder_perm none
  not_hidden hdistinct _ _ _ hwalk := hwalk.handed_not_hidden hF ht hdistinct
  letBody?_eq hwalk v hv := ((hwalk.visitedFrom hF ht).2 v hv).letBody?_eq
  eq_eager hfree := Tree.transformAt_lazy_eq_eager LabelM.fresh F hfree none

/-- `let $x := $y return $x`, with a callback that changes the variables it is given. -/
theorem transform_lazy_skipsBodies_let :
    let x : EQName := .qName none ⟨"x"⟩
    let t : Tree Nat := .node 2 (.letExpr [⟨x, .assign, .node 0 (.varRef (.qName none ⟨"y"⟩))⟩]
      (.node 1 (.varRef x)))
    t.Below 3 ∧ SkipsBodies (Tree.keeping blankVars) t (3, 0) := by
  intro x t
  have ht : t.Below 3 := by
    refine Tree.below_node.mpr ⟨by decide, ?_⟩
    simp only [Form.children, List.map_cons, List.map_nil, List.cons_append, List.nil_append,
      List.forall_mem_cons]
    exact ⟨Tree.below_node.mpr ⟨by decide, by simp [Form.children]⟩,
      Tree.below_node.mpr ⟨by decide, by simp [Form.children]⟩, by simp⟩
  exact ⟨ht, transform_lazy_skipsBodies (keepsLabels_keeping blankVars) ht⟩

example :
    let body : Tree Nat := .node 1 .contextItem
    let t (l l' : Nat) : Tree Nat :=
      .node l (.letExpr [⟨.qName none ⟨"x"⟩, .assign, .node l' .contextItem⟩] body)
    let F (n : Tree Nat) (_ : Option Kind) : LabelM Empty Unit (Tree Nat) :=
      match n.form with
      | .contextItem => return .node (← LabelM.fresh) .contextItem
      | _ => return n
    ((t 2 0).transform LabelM.fresh .lazy F).run.run (3, ()) = (.ok (t 4 3), (5, ())) :=
  rfl

end Transforms

end XPath
