import Mathlib.Data.List.Forall2
import XPath.Proofs.PlainTransform

/-!
# What a transform shares

Labels are identities, and a node that is built gets a label that no other node has. So a node that
is handed to the callback is the old one exactly if the same nodes have come back for its children,
and a child for which the same node has come back is kept, whatever has come back for the others
(`Tree.rebuild_shares`).

A run is a walk over the tree (`Walk`): a node is visited after its children, and handed to the
callback with what has come back for them. By induction on the tree, the transform is such a walk
(`transformAt_walks`). By induction on the walk, every visit is a rebuild around what visits to the
children have given, and no label is given out twice (`Walk.visitedFrom`), so every visit shares
what it can (`Walk.shares`); and where the callback gives back all that it is handed, nothing has
changed at the end (`Walk.unchanged`).
-/

namespace XPath

/-- All labels of the tree have been given out. -/
def Tree.Below (next : Nat) : Tree Nat → Prop :=
  para fun l f => l < next ∧ ∀ c ∈ f.children, c.2

theorem Tree.below_node {next l : Nat} {f : Form (Tree Nat)} :
    (node l f).Below next ↔ l < next ∧ ∀ c ∈ f.children, c.Below next := by
  rw [Below, para_node, Form.children_map, List.forall_mem_map]

theorem Tree.Below.mono {next next' : Nat} (hle : next ≤ next') {t : Tree Nat}
    (ht : t.Below next) : t.Below next' := by
  induction t using Tree.induct with
  | node l f ih =>
    obtain ⟨hl, hchildren⟩ := below_node.mp ht
    exact below_node.mpr ⟨Nat.lt_of_lt_of_le hl hle, fun c hc => ih c hc (hchildren c hc)⟩

theorem Tree.Below.label_lt {next : Nat} {t : Tree Nat} (ht : t.Below next) : t.label < next := by
  obtain ⟨l, f⟩ := t
  exact (below_node.mp ht).1

theorem Tree.Below.edge {next : Nat} {t : Tree Nat} (ht : t.Below next) :
    ∀ e ∈ t.form.edges, e.2.Below next := by
  obtain ⟨l, f⟩ := t
  exact fun e he => (below_node.mp ht).2 e.2 (Form.mem_children_of_edges he)

section Walks

variable {ε τ : Type} {mode : TransformMode} {F : Tree Nat → Option Kind → LabelM ε τ (Tree Nat)}

/-! ## Visits -/

/-- Nodes of one label are one node. -/
def Tree.Identical (t u : Tree Nat) : Prop := t.label = u.label

theorem Tree.forall₂_identical {ts us : List (Tree Nat)} :
    List.Forall₂ Identical ts us ↔ ts.map label = us.map label := by
  rw [← List.forall₂_eq_eq_eq, List.forall₂_map_left_iff, List.forall₂_map_right_iff]
  rfl

/-- A node that was visited: what came back for its children, what was handed to the callback, and
its answer. -/
structure Visited (ε : Type) where
  node : Tree Nat
  results : List (Tree Nat)
  handed : Tree Nat
  answer : Except ε (Tree Nat)

/-- Nothing is built anew that has not changed. -/
structure Visited.Shares (v : Visited ε) : Prop where
  /-- The node itself is handed over exactly if the same nodes have come back for its children. -/
  identical_iff : v.handed.Identical v.node ↔ List.Forall₂ Tree.Identical v.results v.node.children
  eq_of_identical : v.handed.Identical v.node → v.handed = v.node
  shape_eq : v.handed.form.shape = v.node.form.shape
  /-- A child is kept if the same node has come back for it, whatever has come back for others. -/
  children_eq : v.handed.children = List.zipWith Tree.keep v.node.children v.results

/-- A node is kept if the same nodes have come back for its children, and else it gets the next
label. -/
theorem Tree.rebuild_cases {n handed : Tree Nat} {results : List (Tree Nat)} {s s' : Nat × τ}
    (hrun : (rebuild LabelM.fresh n results : LabelM ε τ (Tree Nat)).run.run s = (.ok handed, s')) :
    (results.map label = n.children.map label ∧ handed = n ∧ s' = s) ∨
      (results.map label ≠ n.children.map label ∧
        handed = node s.1 (n.form.refill (List.zipWith keep n.children results)) ∧
          s' = (s.1 + 1, s.2)) := by
  rw [rebuild, changes] at hrun
  by_cases hlabels : results.map label = n.children.map label
  · rw [if_pos hlabels] at hrun
    obtain ⟨hanswer, rfl⟩ : (Except.ok n : Except ε (Tree Nat)) = .ok handed ∧ s = s' :=
      Prod.mk.inj hrun
    exact .inl ⟨hlabels, (Except.ok.inj hanswer).symm, rfl⟩
  · rw [if_neg hlabels] at hrun
    obtain ⟨hanswer, rfl⟩ :
        (Except.ok (node s.1 (n.form.refill (List.zipWith keep n.children results))) :
          Except ε (Tree Nat)) = .ok handed ∧ (s.1 + 1, s.2) = s' :=
      Prod.mk.inj hrun
    exact .inr ⟨hlabels, (Except.ok.inj hanswer).symm, rfl⟩

theorem Tree.next_le_of_rebuild {n handed : Tree Nat} {results : List (Tree Nat)} {s s' : Nat × τ}
    (hrun : (rebuild LabelM.fresh n results : LabelM ε τ (Tree Nat)).run.run s = (.ok handed, s')) :
    s.1 ≤ s'.1 := by
  obtain ⟨-, -, rfl⟩ | ⟨-, -, rfl⟩ := rebuild_cases hrun
  · exact Nat.le_refl _
  · exact Nat.le_succ _

/-- What is rebuilt shares what has not changed, if the label of the node is not given out again. -/
theorem Tree.rebuild_shares {n handed : Tree Nat} {results : List (Tree Nat)} {s s' : Nat × τ}
    (hrun : (rebuild LabelM.fresh n results : LabelM ε τ (Tree Nat)).run.run s = (.ok handed, s'))
    (hlabel : n.label < s.1) (hlength : results.length = n.children.length)
    (answer : Except ε (Tree Nat)) : Visited.Shares ⟨n, results, handed, answer⟩ := by
  obtain ⟨hlabels, rfl, -⟩ | ⟨hlabels, rfl, -⟩ := rebuild_cases hrun
  · exact ⟨iff_of_true rfl (forall₂_identical.mpr hlabels), fun _ => rfl, rfl,
      (zipWith_keep hlabels).symm⟩
  · have hzip : (List.zipWith keep n.children results).length = n.form.children.length := by
      rw [List.length_zipWith, hlength, Nat.min_self]
      rfl
    obtain ⟨hchildren, hshape⟩ := n.form.refill_spec hzip
    have hne : ¬ (node s.1 (n.form.refill (List.zipWith keep n.children results))).Identical n :=
      Nat.ne_of_gt hlabel
    exact ⟨iff_of_false hne (mt forall₂_identical.mp hlabels),
      fun hidentical => absurd hidentical hne, hshape, hchildren⟩

/-! ## Walks -/

mutual
/-- A visit to a node and to all that is visited below it: the visits in order, what comes of it,
and the next label and the memory before and after. -/
inductive Walk (mode : TransformMode) (F : Tree Nat → Option Kind → LabelM ε τ (Tree Nat)) :
    Tree Nat → (owner : Option Kind) → Nat × τ → List (Visited ε) → Except ε (Tree Nat) →
      Nat × τ → Prop
  | call {n handed : Tree Nat} {owner : Option Kind} {s s₁ s₂ s₃ : Nat × τ}
    {before : List (Visited ε)} {results : List (Tree Nat)} {answer : Except ε (Tree Nat)}
    (hedges : WalkEdges mode F n.form.edges s before (.ok results) s₁)
    (hrebuild : (Tree.rebuild LabelM.fresh n results : LabelM ε τ (Tree Nat)).run.run s₁ =
      (.ok handed, s₂))
    (hanswer : (F handed owner).run.run s₂ = (answer, s₃)) :
    Walk mode F n owner s (before ++ [⟨n, results, handed, answer⟩]) answer s₃
  | stop {n : Tree Nat} {owner : Option Kind} {s s' : Nat × τ} {before : List (Visited ε)} {e : ε}
    (hedges : WalkEdges mode F n.form.edges s before (.error e) s') :
    Walk mode F n owner s before (.error e) s'

/-- Visits along edges, one after another, up to the first that fails. What comes back for an edge
that is not followed is its child. -/
inductive WalkEdges (mode : TransformMode)
    (F : Tree Nat → Option Kind → LabelM ε τ (Tree Nat)) :
    List (Kind × Tree Nat) → Nat × τ → List (Visited ε) → Except ε (List (Tree Nat)) →
      Nat × τ → Prop
  | done {s : Nat × τ} : WalkEdges mode F [] s [] (.ok []) s
  | leave {e : Kind × Tree Nat} {es : List (Kind × Tree Nat)} {s s' : Nat × τ}
    {after : List (Visited ε)} {results : Except ε (List (Tree Nat))}
    (hleave : mode.follows e.1 = false) (hrest : WalkEdges mode F es s after results s') :
    WalkEdges mode F (e :: es) s after (results.map (e.2 :: ·)) s'
  | visit {e : Kind × Tree Nat} {r : Tree Nat} {es : List (Kind × Tree Nat)}
    {s s' s'' : Nat × τ} {first after : List (Visited ε)} {results : Except ε (List (Tree Nat))}
    (hfollow : mode.follows e.1 = true) (hvisit : Walk mode F e.2 (some e.1) s first (.ok r) s')
    (hrest : WalkEdges mode F es s' after results s'') :
    WalkEdges mode F (e :: es) s (first ++ after) (results.map (r :: ·)) s''
  | fail {e : Kind × Tree Nat} {es : List (Kind × Tree Nat)} {s s' : Nat × τ}
    {first : List (Visited ε)} {error : ε} (hfollow : mode.follows e.1 = true)
    (hvisit : Walk mode F e.2 (some e.1) s first (.error error) s') :
    WalkEdges mode F (e :: es) s first (.error error) s'
end

/-- Every run of the computation is a walk from the node. -/
def IsWalk (mode : TransformMode) (F : Tree Nat → Option Kind → LabelM ε τ (Tree Nat))
    (n : Tree Nat)
    (owner : Option Kind) (x : LabelM ε τ (Tree Nat)) : Prop :=
  ∀ s, ∃ visits, Walk mode F n owner s visits (x.run.run s).1 (x.run.run s).2

/-- What is visited along edges is a walk along them. -/
theorem IsWalk.mapM {visit : Tree Nat → Option Kind → LabelM ε τ (Tree Nat)} :
    ∀ {es : List (Kind × Tree Nat)},
      (∀ e ∈ es, IsWalk mode F e.2 (some e.1) (visit e.2 (some e.1))) → ∀ s, ∃ visits,
        WalkEdges mode F es s visits
          ((es.mapM fun e => Tree.comeBack mode e.1 e.2 (visit e.2)).run.run s).1
          ((es.mapM fun e => Tree.comeBack mode e.1 e.2 (visit e.2)).run.run s).2
  | [], _, _ => ⟨[], .done⟩
  | e :: es, hends, s => by
    have hrest := IsWalk.mapM (fun e' he' => hends e' (List.mem_cons_of_mem e he'))
    rw [List.mapM_cons]
    cases hfollow : mode.follows e.1 with
    | false =>
      obtain ⟨after, hwalk⟩ := hrest s
      rw [Tree.comeBack, if_neg (by simp [hfollow]), pure_bind, ← map_eq_pure_bind, run_map]
      exact ⟨after, .leave hfollow hwalk⟩
    | true =>
      obtain ⟨first, hvisit⟩ := hends e List.mem_cons_self s
      rw [Tree.comeBack, if_pos hfollow]
      rcases hrun : (visit e.2 (some e.1)).run.run s with ⟨error | r, s'⟩
      · rw [hrun] at hvisit
        rw [run_bind_error hrun]
        exact ⟨first, .fail hfollow hvisit⟩
      · rw [hrun] at hvisit
        obtain ⟨after, hwalk⟩ := hrest s'
        rw [run_bind_ok hrun, ← map_eq_pure_bind, run_map]
        exact ⟨first ++ after, .visit hfollow hvisit hwalk⟩

/-- The transform is a walk. -/
theorem transformAt_walks (n : Tree Nat) :
    ∀ owner, IsWalk mode F n owner (Tree.transformAt LabelM.fresh mode F n owner) := by
  induction n using Tree.induct with
  | node l f ih =>
    intro owner s
    obtain ⟨before, hedges⟩ := IsWalk.mapM
      (fun e he => ih e.2 (Form.mem_children_of_edges he) (some e.1)) s
    rw [Tree.transformAt_node]
    rcases hrun : (f.edges.mapM fun e => Tree.comeBack mode e.1 e.2
      (Tree.transformAt LabelM.fresh mode F e.2)).run.run s with ⟨e | results, s'⟩
    · rw [hrun] at hedges
      rw [run_bind_error hrun]
      exact ⟨before, .stop hedges⟩
    · rw [hrun] at hedges
      obtain ⟨handed, s'', hrebuild⟩ : ∃ handed s'',
          (Tree.rebuild LabelM.fresh (.node l f) results : LabelM ε τ (Tree Nat)).run.run s' =
            (.ok handed, s'') := by
        unfold Tree.rebuild
        split <;> exact ⟨_, _, rfl⟩
      rw [run_bind_ok hrun, run_bind_ok hrebuild]
      exact ⟨_, .call hedges hrebuild rfl⟩

theorem map_cons_eq_ok {c : Tree Nat} {result : Except ε (List (Tree Nat))} {rs : List (Tree Nat)}
    (h : result.map (c :: ·) = .ok rs) : ∃ rs', result = .ok rs' ∧ rs = c :: rs' := by
  cases result with
  | ok rs' => exact ⟨rs', rfl, (Except.ok.inj h).symm⟩
  | error e => cases h

theorem WalkEdges.length_eq {es : List (Kind × Tree Nat)} {s s' : Nat × τ}
    {visits : List (Visited ε)} {rs : List (Tree Nat)}
    (hwalk : WalkEdges mode F es s visits (.ok rs) s') : rs.length = es.length := by
  generalize hok : Except.ok rs = result at hwalk
  induction es generalizing s visits rs result with
  | nil =>
    cases hwalk
    exact congrArg List.length (Except.ok.inj hok)
  | cons e es ih =>
    cases hwalk with
    | leave _ hrest =>
      obtain ⟨rs', rfl, rfl⟩ := map_cons_eq_ok hok.symm
      exact congrArg (· + 1) (ih _ rfl hrest)
    | visit _ _ hrest =>
      obtain ⟨rs', rfl, rfl⟩ := map_cons_eq_ok hok.symm
      exact congrArg (· + 1) (ih _ rfl hrest)
    | fail => cases hok

/-- The callback takes no label back. -/
def KeepsLabels (F : Tree Nat → Option Kind → LabelM ε τ (Tree Nat)) : Prop :=
  ∀ n owner s, s.1 ≤ ((F n owner).run.run s).2.1

theorem KeepsLabels.next_le (hF : KeepsLabels F) {n : Tree Nat} {owner : Option Kind}
    {s s' : Nat × τ} {answer : Except ε (Tree Nat)}
    (hrun : (F n owner).run.run s = (answer, s')) : s.1 ≤ s'.1 := by
  have hle := hF n owner s
  rwa [hrun] at hle

/-- How a visit comes about in a walk that starts when `start` is the next label: the children are
visited, and the node is rebuilt around what has come back for them. -/
def VisitedFrom (mode : TransformMode) (F : Tree Nat → Option Kind → LabelM ε τ (Tree Nat))
    (start : Nat) (v : Visited ε) : Prop :=
  ∃ s before s' s'', start ≤ s.1 ∧ s.1 ≤ s'.1 ∧ v.node.Below s.1 ∧
    WalkEdges mode F v.node.form.edges s before (.ok v.results) s' ∧
    (Tree.rebuild LabelM.fresh v.node v.results : LabelM ε τ (Tree Nat)).run.run s' =
      (.ok v.handed, s'')

theorem VisitedFrom.mono {start start' : Nat} (hle : start ≤ start') {v : Visited ε}
    (hv : VisitedFrom mode F start' v) : VisitedFrom mode F start v := by
  obtain ⟨s, before, s', s'', hstart, hrest⟩ := hv
  exact ⟨s, before, s', s'', Nat.le_trans hle hstart, hrest⟩

mutual
/-- Every visit of a walk comes about in it, and no label is taken back. -/
theorem Walk.visitedFrom (hF : KeepsLabels F) {n : Tree Nat} {owner : Option Kind} {s s' : Nat × τ}
    {visits : List (Visited ε)} {answer : Except ε (Tree Nat)}
    (hwalk : Walk mode F n owner s visits answer s') :
    n.Below s.1 → s.1 ≤ s'.1 ∧ ∀ v ∈ visits, VisitedFrom mode F s.1 v :=
  match hwalk with
  | .call hedges hrebuild hanswer => fun hbelow => by
    obtain ⟨hle, hbefore⟩ := hedges.visitedFrom hF hbelow.edge
    refine ⟨Nat.le_trans hle (Nat.le_trans (Tree.next_le_of_rebuild hrebuild) (hF.next_le hanswer)),
      List.forall_mem_append.mpr ⟨hbefore, List.forall_mem_singleton.mpr ?_⟩⟩
    exact ⟨_, _, _, _, Nat.le_refl _, hle, hbelow, hedges, hrebuild⟩
  | .stop hedges => fun hbelow => hedges.visitedFrom hF hbelow.edge

/-- So does every visit along edges. -/
theorem WalkEdges.visitedFrom (hF : KeepsLabels F) {es : List (Kind × Tree Nat)} {s s' : Nat × τ}
    {visits : List (Visited ε)} {results : Except ε (List (Tree Nat))}
    (hwalk : WalkEdges mode F es s visits results s') :
    (∀ e ∈ es, e.2.Below s.1) → s.1 ≤ s'.1 ∧ ∀ v ∈ visits, VisitedFrom mode F s.1 v :=
  match hwalk with
  | .done => fun _ => ⟨Nat.le_refl _, by simp⟩
  | .leave _ hrest =>
    fun hbelow => hrest.visitedFrom hF fun e he => hbelow e (List.mem_cons_of_mem _ he)
  | .visit _ hvisit hrest => fun hbelow => by
    obtain ⟨hle, hfirst⟩ := hvisit.visitedFrom hF (hbelow _ List.mem_cons_self)
    obtain ⟨hle', hafter⟩ :=
      hrest.visitedFrom hF fun e he => (hbelow e (List.mem_cons_of_mem _ he)).mono hle
    exact ⟨Nat.le_trans hle hle',
      List.forall_mem_append.mpr ⟨hfirst, fun v hv => (hafter v hv).mono hle⟩⟩
  | .fail _ hvisit => fun hbelow => hvisit.visitedFrom hF (hbelow _ List.mem_cons_self)
end

theorem VisitedFrom.shares {start : Nat} {v : Visited ε} (hv : VisitedFrom mode F start v) :
    v.Shares := by
  obtain ⟨s, before, s', s'', -, hle, hbelow, hedges, hrebuild⟩ := hv
  -- The label of the node was given out before the visit, so it is not the one that comes next.
  exact Tree.rebuild_shares hrebuild (Nat.lt_of_lt_of_le hbelow.label_lt hle)
    (hedges.length_eq.trans v.node.form.length_edges) v.answer

/-- Every visit shares what has not changed, and no label is taken back. -/
theorem Walk.shares (hF : KeepsLabels F) {n : Tree Nat} {owner : Option Kind} {s s' : Nat × τ}
    {visits : List (Visited ε)} {answer : Except ε (Tree Nat)}
    (hwalk : Walk mode F n owner s visits answer s') (hbelow : n.Below s.1) :
    s.1 ≤ s'.1 ∧ ∀ v ∈ visits, v.Shares :=
  (hwalk.visitedFrom hF hbelow).imp_right fun hvisits v hv => (hvisits v hv).shares

mutual
/-- If the callback gives back all that it is handed, the node itself comes back. -/
theorem Walk.unchanged {n : Tree Nat} {owner : Option Kind} {s s' : Nat × τ}
    {visits : List (Visited ε)} {answer : Except ε (Tree Nat)}
    (hwalk : Walk mode F n owner s visits answer s') :
    (∀ v ∈ visits, v.answer = .ok v.handed) → answer = .ok n :=
  match hwalk with
  | .call hedges hrebuild hanswer => fun hreturned => by
    obtain ⟨hbefore, hlast⟩ := List.forall_mem_append.mp hreturned
    have hresults := (Except.ok.inj (hedges.unchanged hbefore)).trans n.form.snd_edges
    rw [hresults, show n.form.children = n.children from rfl, Tree.rebuild_children] at hrebuild
    obtain rfl := Except.ok.inj (congrArg Prod.fst hrebuild)
    exact hlast _ (List.mem_singleton_self _)
  | .stop hedges => fun hreturned => nomatch hedges.unchanged hreturned

/-- Then nothing changes along edges either. -/
theorem WalkEdges.unchanged {es : List (Kind × Tree Nat)} {s s' : Nat × τ}
    {visits : List (Visited ε)} {result : Except ε (List (Tree Nat))}
    (hwalk : WalkEdges mode F es s visits result s') :
    (∀ v ∈ visits, v.answer = .ok v.handed) → result = .ok (es.map Prod.snd) :=
  match hwalk with
  | .done => fun _ => rfl
  | .leave _ hrest => fun hreturned => by
    rw [hrest.unchanged hreturned]
    rfl
  | .visit _ hvisit hrest => fun hreturned => by
    obtain ⟨hfirst, hafter⟩ := List.forall_mem_append.mp hreturned
    rw [hrest.unchanged hafter, Except.ok.inj (hvisit.unchanged hfirst)]
    rfl
  | .fail _ hvisit => fun hreturned => nomatch hvisit.unchanged hreturned
end

/-! ## Transforms -/

/-- The callback that gives back every node changes nothing. -/
theorem transformAt_pure {m : Type → Type} [Monad m] [LawfulMonad m] {ι : Type} [DecidableEq ι]
    (fresh : m ι) (mode : TransformMode) (n : Tree ι) :
    ∀ owner, Tree.transformAt fresh mode (fun n _ => pure n) n owner = pure n := by
  induction n using Tree.induct with
  | node l f ih =>
    intro owner
    have hends : ∀ e ∈ f.edges, Tree.comeBack mode e.1 e.2
        (Tree.transformAt fresh mode (fun n _ => pure n) e.2) = pure e.2 := fun e he => by
      unfold Tree.comeBack
      split
      next => exact ih e.2 (Form.mem_children_of_edges he) (some e.1)
      next => rfl
    have hchildren : f.edges.map (fun e => e.2) = (Tree.node l f).children := f.snd_edges
    rw [Tree.transformAt_node, mapM_eq_pure f.edges hends, pure_bind, hchildren,
      Tree.rebuild_children, pure_bind]

/-- What it is for a transform to share exactly what has not changed. -/
structure SharesUnchanged (mode : TransformMode)
    (F : Tree Nat → Option Kind → LabelM ε τ (Tree Nat)) (t : Tree Nat) (s : Nat × τ) : Prop where
  walks : ∃ visits, Walk mode F t none s visits
    ((t.transform LabelM.fresh mode F).run.run s).1 ((t.transform LabelM.fresh mode F).run.run s).2
  /-- A node that is visited is handed over as it is exactly if nothing has changed below it, and
  keeps every child that has not changed. -/
  shares : ∀ {visits answer s'}, Walk mode F t none s visits answer s' → ∀ v ∈ visits, v.Shares
  /-- A node comes back as it is if the callback gives back all that it is handed on the visit. -/
  unchanged : ∀ {n owner s visits answer s'}, Walk mode F n owner s visits answer s' →
    (∀ v ∈ visits, v.answer = .ok v.handed) → answer = .ok n
  identity : ∀ mode, t.transform LabelM.fresh mode (fun n _ => pure n) =
    (pure t : LabelM ε τ (Tree Nat))

/-- Whatever the tree, the mode and the callback, a transform shares exactly what has not
changed. -/
theorem transform_shares (hF : KeepsLabels F) {t : Tree Nat} {s : Nat × τ} (ht : t.Below s.1) :
    SharesUnchanged mode F t s where
  walks := transformAt_walks t none s
  shares hwalk := (hwalk.shares hF ht).2
  unchanged hwalk := hwalk.unchanged
  identity mode := transformAt_pure LabelM.fresh mode t none

/-- A callback that puts a new context item for every variable. -/
def itemForVar (n : Tree Nat) (_ : Option Kind) : LabelM Empty Unit (Tree Nat) := do
  match n.form with
  | .varRef _ => return .node (← LabelM.fresh) .contextItem
  | _ => return n

theorem keepsLabels_itemForVar : KeepsLabels itemForVar := by
  intro n owner s
  unfold itemForVar
  split
  · exact Nat.le_succ s.1
  · exact Nat.le_refl s.1

/-- `1 to $x`, where one of the children is kept and the other is not. -/
def toVar : Tree Nat :=
  .node 2 (.range (.node 0 (.integer 1)) (.node 1 (.varRef (.qName none ⟨"x"⟩))))

theorem transform_shares_range :
    toVar.Below 3 ∧ SharesUnchanged .lazy itemForVar toVar (3, ()) := by
  have ht : toVar.Below 3 := by
    refine Tree.below_node.mpr ⟨by decide, ?_⟩
    simp only [Form.children, List.forall_mem_cons]
    exact ⟨Tree.below_node.mpr ⟨by decide, by simp [Form.children]⟩,
      Tree.below_node.mpr ⟨by decide, by simp [Form.children]⟩, by simp⟩
  exact ⟨ht, transform_shares keepsLabels_itemForVar ht⟩

example :
    let t : Tree Nat := .node 2 (.range (.node 0 (.integer 1)) (.node 1 .contextItem))
    let F (n : Tree Nat) (_ : Option Kind) : LabelM Empty Unit (Tree Nat) :=
      if n.label = 1 then return .node (← LabelM.fresh) (.integer 5) else return n
    (t.transform LabelM.fresh .lazy F).run.run (3, ()) =
      (.ok (.node 4 (.range (.node 0 (.integer 1)) (.node 3 (.integer 5)))), (5, ())) :=
  rfl

end Walks

end XPath
