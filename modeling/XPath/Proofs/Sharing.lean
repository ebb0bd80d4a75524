import XPath.Proofs.Edges
import XPath.Transform.Sharing
import XPath.Transform

/-!
# Shared nodes stand for expressions

A transform keeps a node whose children come back as the same nodes, and tells so by their labels
alone. Labels can be trusted as long as a heap says what every label stands for that has been given
out, and the nodes of a tree that lives in it are what their labels stand for (`Tree.LivesIn`): then
nodes of one label are equal expressions (`Tree.LivesIn.toNode_eq`). The heap only grows, so what
lives in it goes on to live there (`Tree.LivesIn.mono`).

`Simulates` compares a run on labelled nodes with one on expressions: from a heap to a larger one,
to the same error or to values that are related. Runs are compared step by step
(`Simulates.bind`, `Simulates.mapM`, `Simulates.of_visits`).
-/

namespace XPath

/-! ## Heaps -/

/-- What the labels below `next` stand for. -/
structure Heap where
  content : Nat → Node
  next : Nat

namespace Heap

/-- More labels are given out, and the old ones stand for what they stood for. -/
structure Extends (h h' : Heap) : Prop where
  next_le : h.next ≤ h'.next
  content_eq : ∀ l < h.next, h'.content l = h.content l

theorem Extends.refl (h : Heap) : h.Extends h := ⟨Nat.le_refl _, fun _ _ => rfl⟩

theorem Extends.trans {h₁ h₂ h₃ : Heap} (h : h₁.Extends h₂) (h' : h₂.Extends h₃) :
    h₁.Extends h₃ where
  next_le := Nat.le_trans h.next_le h'.next_le
  content_eq l hl := (h'.content_eq l (Nat.lt_of_lt_of_le hl h.next_le)).trans (h.content_eq l hl)

/-- The next label is given out for `n`. -/
def push (h : Heap) (n : Node) : Heap where
  content l := if l = h.next then n else h.content l
  next := h.next + 1

theorem extends_push (h : Heap) (n : Node) : h.Extends (h.push n) where
  next_le := Nat.le_succ _
  content_eq _ hl := if_neg (Nat.ne_of_lt hl)

theorem content_push (h : Heap) (n : Node) : (h.push n).content h.next = n := if_pos rfl

end Heap

namespace Tree

theorem toNode_node {ι : Type} (l : ι) (f : Form (Tree ι)) :
    (node l f).toNode = Node.of (f.map toNode) :=
  fold_node _ l f

theorem kind_toNode {ι : Type} (t : Tree ι) : t.toNode.kind = t.kind := by
  obtain ⟨l, f⟩ := t
  rw [toNode_node]
  exact f.kind_map toNode

theorem toNode_eq_self (n : Node) : n.toNode = n := by
  induction n using Tree.induct with
  | node l f ih =>
    have hid : f.map toNode = f := (Form.map_congr ih).trans (Form.map_id f)
    rw [toNode_node, hid]
    rfl

/-- The nodes of the tree are what their labels stand for. -/
def LivesIn (h : Heap) : Tree Nat → Prop :=
  para fun l f => l < h.next ∧ h.content l = Node.of (f.map fun c => c.1.toNode) ∧
    ∀ c ∈ f.children, c.2

theorem livesIn_node {h : Heap} {l : Nat} {f : Form (Tree Nat)} : (node l f).LivesIn h ↔
    l < h.next ∧ h.content l = (node l f).toNode ∧ ∀ c ∈ f.children, c.LivesIn h := by
  rw [LivesIn, para_node, Form.map_map, Form.children_map, toNode_node, List.forall_mem_map]
  rfl

theorem LivesIn.mono {h h' : Heap} (hext : h.Extends h') {t : Tree Nat} (ht : t.LivesIn h) :
    t.LivesIn h' := by
  induction t using Tree.induct with
  | node l f ih =>
    obtain ⟨hl, hcontent, hchildren⟩ := livesIn_node.mp ht
    exact livesIn_node.mpr
      ⟨Nat.lt_of_lt_of_le hl hext.next_le, (hext.content_eq l hl).trans hcontent,
      fun c hc => ih c hc (hchildren c hc)⟩

theorem LivesIn.content_label {h : Heap} {t : Tree Nat} (ht : t.LivesIn h) :
    h.content t.label = t.toNode := by
  obtain ⟨l, f⟩ := t
  exact (livesIn_node.mp ht).2.1

/-- The tree lives in the heap, and is the expression. -/
def Stands (h : Heap) (t : Tree Nat) (n : Node) : Prop := t.LivesIn h ∧ t.toNode = n

theorem Stands.mono {h h' : Heap} (hext : h.Extends h') {t : Tree Nat} {n : Node}
    (ht : t.Stands h n) : t.Stands h' n :=
  ⟨ht.1.mono hext, ht.2⟩

/-- Nodes of one label are one node. -/
theorem LivesIn.toNode_eq {h : Heap} {t u : Tree Nat} (ht : t.LivesIn h) (hu : u.LivesIn h)
    (hlabel : t.label = u.label) : t.toNode = u.toNode := by
  rw [← ht.content_label, hlabel, hu.content_label]

end Tree

/-! ## Runs -/

/-- Runs of callbacks on labelled nodes: the next label is kept beside what the callback
remembers. -/
abbrev LabelM (ε τ : Type) := ExceptT ε (StateM (Nat × τ))

section Runs

variable {ε τ σ α β γ δ : Type}

theorem run_bind_ok {x : ExceptT ε (StateM σ) α} {s s' : σ} {a : α}
    (h : x.run.run s = (.ok a, s')) (k : α → ExceptT ε (StateM σ) β) :
    (x >>= k).run.run s = (k a).run.run s' := by
  rw [ExceptT.run_bind, StateT.run_bind, h]
  rfl

theorem run_bind_error {x : ExceptT ε (StateM σ) α} {s s' : σ} {e : ε}
    (h : x.run.run s = (.error e, s')) (k : α → ExceptT ε (StateM σ) β) :
    (x >>= k).run.run s = (.error e, s') := by
  rw [ExceptT.run_bind, StateT.run_bind, h]
  rfl

theorem run_map (g : α → β) (x : ExceptT ε (StateM σ) α) (s : σ) :
    (g <$> x).run.run s = ((x.run.run s).1.map g, (x.run.run s).2) := by
  rcases hx : x.run.run s with ⟨e | a, s'⟩
  · rw [map_eq_pure_bind, run_bind_error hx]
    rfl
  · rw [map_eq_pure_bind, run_bind_ok hx]
    rfl

/-- The next label. -/
def LabelM.fresh : LabelM ε τ Nat := fun (next, x) => (.ok next, (next + 1, x))

/-- The same error, or values that are related. -/
inductive Answers (P : α → β → Prop) : Except ε α → Except ε β → Prop
  | ok {a : α} {b : β} (h : P a b) : Answers P (.ok a) (.ok b)
  | error (e : ε) : Answers P (.error e) (.error e)

theorem Answers.of_eq (a : Except ε α) : Answers (fun a b => a = b) a a := by
  cases a with
  | ok a => exact .ok rfl
  | error e => exact .error e

theorem Answers.map_eq {P : α → β → Prop} {a : Except ε α} {b : Except ε β} {g : α → β}
    (hans : Answers P a b) (hg : ∀ a b, P a b → g a = b) : a.map g = b := by
  cases hans with
  | ok hp => exact congrArg _ (hg _ _ hp)
  | error e => rfl

/-- A run from a heap ends in a larger one, in which values and memories are related. -/
structure Agrees (R : Heap → τ → σ → Prop) (P : Heap → α → β → Prop) (h h' : Heap)
    (x : Except ε α × (Nat × τ)) (y : Except ε β × σ) : Prop where
  grows : h.Extends h'
  next : h'.next = x.2.1
  memory : R h' x.2.2 y.2
  answers : Answers (P h') x.1 y.1

/-- The runs from the heap agree with plain runs, if what they remember does at the start. -/
def Simulates (R : Heap → τ → σ → Prop) (P : Heap → α → β → Prop) (h : Heap) (x : LabelM ε τ α)
    (y : ExceptT ε (StateM σ) β) : Prop :=
  ∀ u s, R h u s → ∃ h', Agrees R P h h' (x.run.run (h.next, u)) (y.run.run s)

namespace Simulates

variable {R : Heap → τ → σ → Prop} {P : Heap → α → β → Prop} {Q : Heap → γ → δ → Prop} {h : Heap}

theorem pure {a : α} {b : β} (hp : P h a b) :
    Simulates R P h (Pure.pure a : LabelM ε τ α) (Pure.pure b) :=
  fun _ _ hr => ⟨h, .refl h, rfl, hr, .ok hp⟩

theorem bind {x : LabelM ε τ α} {y : ExceptT ε (StateM σ) β} (hxy : Simulates R P h x y)
    {k : α → LabelM ε τ γ} {l : β → ExceptT ε (StateM σ) δ}
    (hkl : ∀ h' a b, h.Extends h' → P h' a b → Simulates R Q h' (k a) (l b)) :
    Simulates R Q h (x >>= k) (y >>= l) := by
  intro u s hr
  obtain ⟨h', hext, hnext, hmem, hans⟩ := hxy u s hr
  rcases hx : x.run.run (h.next, u) with ⟨a?, next, u'⟩
  rcases hy : y.run.run s with ⟨b?, s'⟩
  rw [hx] at hnext hmem hans
  rw [hy] at hmem hans
  cases hans with
  | ok hp =>
    obtain rfl : h'.next = next := hnext
    obtain ⟨h'', hrest⟩ := hkl h' _ _ hext hp u' s' hmem
    refine ⟨h'', ?_⟩
    rw [run_bind_ok hx, run_bind_ok hy]
    exact { hrest with grows := hext.trans hrest.grows }
  | error e =>
    refine ⟨h', ?_⟩
    rw [run_bind_error hx, run_bind_error hy]
    exact ⟨hext, hnext, hmem, .error e⟩

/-- A value in another form. -/
theorem map {x : LabelM ε τ α} {y : ExceptT ε (StateM σ) β} {Q : Heap → γ → β → Prop} {g : α → γ}
    (hxy : Simulates R P h x y) (hg : ∀ h' a b, P h' a b → Q h' (g a) b) :
    Simulates R Q h (g <$> x) y := by
  have hbind := hxy.bind (k := fun a => Pure.pure (g a)) (l := Pure.pure)
    fun h' a b _ hp => Simulates.pure (hg h' a b hp)
  rwa [bind_pure, bind_pure_comp] at hbind

/-- Less known of the values. -/
theorem mono {P' : Heap → α → β → Prop} {x : LabelM ε τ α} {y : ExceptT ε (StateM σ) β}
    (hxy : Simulates R P h x y) (hp : ∀ h' a b, P h' a b → P' h' a b) : Simulates R P' h x y := by
  have hmap := hxy.map (g := id) hp
  rwa [id_map] at hmap

/-- What is known of the image of a value. -/
theorem of_map {x : LabelM ε τ γ} {g : γ → α} {x' : LabelM ε τ α} (hx : g <$> x = x')
    {y : ExceptT ε (StateM σ) β} (hxy : Simulates R P h x' y) :
    Simulates R (fun h c b => P h (g c) b) h x y := by
  intro u s hr
  obtain ⟨h', hext, hnext, hmem, hans⟩ := hxy u s hr
  rcases hc : x.run.run (h.next, u) with ⟨c?, w⟩
  rcases hb : y.run.run s with ⟨b?, s'⟩
  rw [← hx, run_map, hc] at hnext hmem hans
  rw [hb] at hmem hans
  refine ⟨h', hext, hnext, hmem, ?_⟩
  cases c? with
  | ok c =>
    cases hans with
    | ok hp => exact .ok hp
  | error e =>
    cases hans
    exact .error e

end Simulates

variable {R : Heap → τ → σ → Prop} {h : Heap}

/-- Trees that stand for the expressions, in order. -/
def StandAll (h : Heap) (ts : List (Tree Nat)) (ns : List Node) : Prop :=
  (∀ t ∈ ts, t.LivesIn h) ∧ ts.map Tree.toNode = ns

/-- A construct around the trees is the construct with the expressions in the places of its
children. -/
theorem StandAll.map_eq_refill {new : Form (Tree Nat)} {results : List Node}
    (hnew : StandAll h new.children results) {f : Form Node} (hshape : new.shape = f.shape) :
    new.map Tree.toNode = f.refill results := by
  refine Form.eq_refill ?_ ?_
  · rw [Form.children_map, hnew.2]
  · rw [Form.shape_map, hshape]

/-- Runs one after another. -/
theorem Simulates.mapM {κ ι : Type} {g : κ → LabelM ε τ (Tree Nat)}
    {g' : ι → ExceptT ε (StateM σ) Node} {change : κ → ι} :
    ∀ {h : Heap} (ks : List κ),
      (∀ k ∈ ks, ∀ h', h.Extends h' → Simulates R Tree.Stands h' (g k) (g' (change k))) →
      Simulates R (fun h' ts ns => StandAll h' ts ns ∧ ts.length = ks.length) h (ks.mapM g)
        ((ks.map change).mapM g')
  | h, [], _ => .pure ⟨⟨by simp, rfl⟩, rfl⟩
  | h, k :: ks, hk => by
    rw [List.map_cons, List.mapM_cons, List.mapM_cons]
    refine (hk k List.mem_cons_self h (.refl h)).bind fun h' t n hext ht => ?_
    have hks := Simulates.mapM (h := h') ks fun k' hmem h'' hext' =>
      hk k' (List.mem_cons_of_mem k hmem) h'' (hext.trans hext')
    refine hks.bind fun h'' ts ns hext' hts => .pure ⟨⟨?_, ?_⟩, congrArg (· + 1) hts.2⟩
    · rintro u (_ | ⟨_, hu⟩)
      · exact ht.1.mono hext'
      · exact hts.1.1 u hu
    · rw [List.map_cons, ht.2, hts.1.2]

/-- A construct that is visited, if its edges are. -/
theorem Simulates.of_visits {x : LabelM ε τ (Form (Tree Nat))} {z : LabelM ε τ (List (Tree Nat))}
    {y : ExceptT ε (StateM σ) (List Node)} {shape : Form Unit} (hz : Simulates R StandAll h z y)
    (hx : (fun f => (f.children, f.shape)) <$> x = (fun ts => (ts, shape)) <$> z) :
    Simulates R (fun h' f ns => StandAll h' f.children ns ∧ f.shape = shape) h x y :=
  of_map hx (hz.map (Q := fun h' c ns => StandAll h' c.1 ns ∧ c.2 = shape) fun _ _ _ hs =>
    ⟨hs, rfl⟩)

/-- Memories that are related in a heap are related in every larger one. -/
def Lasting (R : Heap → τ → σ → Prop) : Prop :=
  ∀ h h' u s, h.Extends h' → R h u s → R h' u s

/-- A node with a label of its own. -/
theorem Simulates.new (hR : Lasting R) {f : Form (Tree Nat)} (hf : ∀ c ∈ f.children, c.LivesIn h) :
    Simulates R Tree.Stands h (do return .node (← LabelM.fresh) f : LabelM ε τ (Tree Nat))
      (Pure.pure (Node.of (f.map Tree.toNode))) := by
  intro u s hr
  have hext := h.extends_push (Node.of (f.map Tree.toNode))
  refine ⟨h.push (Node.of (f.map Tree.toNode)), hext, rfl, hR _ _ _ _ hext hr, .ok ⟨?_, ?_⟩⟩
  · refine Tree.livesIn_node.mpr ⟨Nat.lt_succ_self _, ?_, fun c hc => (hf c hc).mono hext⟩
    rw [Tree.toNode_node]
    exact h.content_push _
  · exact Tree.toNode_node _ f

/-- Computations that give out labels and remember nothing. -/
def LabelM.ofLabels (x : StateM Nat α) : LabelM ε τ α := fun (next, u) =>
  let (a, next') := x.run next
  (.ok a, (next', u))

theorem LabelM.ofLabels_mapM {κ : Type} (g : κ → StateM Nat α) : ∀ ks : List κ,
    (ofLabels (ks.mapM g) : LabelM ε τ (List α)) = ks.mapM fun k => ofLabels (g k)
  | [] => rfl
  | k :: ks => by
    rw [List.mapM_cons, List.mapM_cons, ← ofLabels_mapM g ks]
    rfl

/-- A tree whose nodes are numbered is the tree that it was. -/
theorem numbered_stands {ι : Type} (hR : Lasting R) (t : Tree ι) :
    ∀ h, Simulates R Tree.Stands h (LabelM.ofLabels t.numbered : LabelM ε τ (Tree Nat))
      (Pure.pure t.toNode) := by
  induction t using Tree.induct with
  | node l f ih =>
    intro h
    have hedges : Simulates R StandAll h
        (LabelM.ofLabels ((f.map Tree.numbered).edges.mapM fun e => e.2) :
          LabelM ε τ (List (Tree Nat)))
        (Pure.pure (f.map Tree.toNode).children) := by
      rw [← Form.snd_edges, ← List.mapM_pure, LabelM.ofLabels_mapM, Form.edges_map, Form.edges_map,
        List.mapM_map]
      refine (Simulates.mapM _ fun e he h' _ => ?_).mono fun _ _ _ hall => hall.1
      exact ih e.2 (Form.mem_children_of_edges he) h'
    have hvisits := hedges.of_visits
      (x := LabelM.ofLabels ((f.map Tree.numbered).mapM fun _ c => c))
      (congrArg LabelM.ofLabels (Form.visits (fun _ c => c) (f.map Tree.numbered)))
    have hnew := hvisits.bind (k := fun form => do return Tree.node (← LabelM.fresh) form)
      (l := fun results => Pure.pure (Node.of ((f.map Tree.toNode).refill results)))
      fun h' form ns _ hform => by
        rw [← hform.1.map_eq_refill (hform.2.trans (by rw [Form.shape_map, Form.shape_map]))]
        exact .new hR hform.1.1
    rw [pure_bind, ← Form.eq_refill (f := f.map Tree.toNode) rfl rfl] at hnew
    rw [Tree.numbered, Tree.fold_node, Tree.toNode_node]
    exact hnew

end Runs

/-- Every expression stands in a heap that is large enough. -/
theorem Heap.exists_stands (h : Heap) (n : Node) :
    ∃ h', h.Extends h' ∧ ∃ t : Tree Nat, t.Stands h' n := by
  have hlasting : Lasting fun _ (_ _ : Unit) => True := fun _ _ _ _ _ hr => hr
  obtain ⟨h', hext, -, -, hans⟩ := numbered_stands (ε := Unit) hlasting n h () () trivial
  refine ⟨h', hext, (n.numbered.run h.next).1, ?_⟩
  cases hans with
  | ok hstands => exact ⟨hstands.1, hstands.2.trans n.toNode_eq_self⟩

end XPath
