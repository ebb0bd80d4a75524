import XPath.Proofs.Rebuild
import XPath.Proofs.Sharing

/-!
# The transform without sharing

The plain transform (`Node.renew`) goes over the edges of a construct from left to right and builds
every node anew around the results. A transform that keeps nodes is not to be told from it.

A callback may keep the node that it is given, give back one that it has seen, or make new ones; it
realizes a callback on expressions if its answers stand for that one's answers (`Realizes`).
Whichever node `Tree.rebuild` hands to it, it is the expression that the plain transform builds
(`rebuild_stands`), so by induction on the tree the two transforms agree (`transformAt_simulates`).

To compare the calls as well, both callbacks are made to record them. Records change nothing but
themselves, and those of the plain transform are in post-order (`renew_records`); a callback with
records realizes the other with records (`Realizes.recorded`), so the transform that keeps nodes
makes the same calls (`transform_eq_renew`).
-/

namespace XPath

/-! ## Every node anew -/

section Renew

variable {m : Type → Type} [Monad m]

/-- The transform that builds every node anew: the children are visited from left to right, each of
them owned by what owns its edge, and `f` is given the construct with the results in the places of
its children. -/
def Node.renew (f : Node → Option Kind → m Node) : Node → (owner : Option Kind) → m Node :=
  Tree.para fun _ form owner => do
    let results ← form.edges.mapM fun e => e.2.2 (some e.1)
    f (.of ((form.map Prod.fst).refill results)) owner

/-- A construct is renewed after its children, from left to right. -/
theorem Node.renew_of [LawfulMonad m] (f : Node → Option Kind → m Node) (g : Form Node)
    (owner : Option Kind) :
    renew f (.of g) owner = (do
      let results ← g.edges.mapM fun e => renew f e.2 (some e.1)
      f (.of (g.refill results)) owner) := by
  rw [renew, Node.of, Tree.para_node, Form.map_fst, Form.edges_map, List.mapM_map]
  rfl

/-- Steps that have no effects are a map. -/
theorem mapM_eq_pure [LawfulMonad m] {κ α : Type} {g : κ → m α} {k : κ → α} :
    ∀ es : List κ, (∀ e ∈ es, g e = pure (k e)) → es.mapM g = pure (es.map k)
  | [], _ => rfl
  | e :: es, h => by
    rw [List.mapM_cons, h e List.mem_cons_self, pure_bind,
      mapM_eq_pure es fun e' he' => h e' (List.mem_cons_of_mem e he'), pure_bind]
    rfl

/-- Without effects it is a fold. -/
theorem Node.renew_pure [LawfulMonad m] (g : Form Node → Form Node) (n : Node) : ∀ owner,
    Node.renew (m := m) (fun n _ => pure (.of (g n.form))) n owner =
      pure (n.fold fun _ f => .of (g f)) := by
  induction n using Tree.induct with
  | node l f ih =>
    intro owner
    have hchildren : (f.edges.mapM fun e =>
        Node.renew (fun n _ => pure (.of (g n.form))) e.2 (some e.1) : m _) =
          pure (f.map fun c => c.fold fun _ f => .of (g f)).children := by
      rw [mapM_eq_pure f.edges fun e he => ih e.2 (Form.mem_children_of_edges he) _,
        Form.children_map, ← Form.snd_edges, List.map_map]
      rfl
    rw [Tree.fold_node, show Tree.node l f = Node.of f from rfl, Node.renew_of, hchildren,
      pure_bind, ← Form.eq_refill rfl (Form.shape_map _ f)]
    rfl

end Renew

/-! ## Agreement -/

section Agreement

variable {ε τ σ : Type} {R : Heap → τ → σ → Prop}
  {f : Node → Option Kind → ExceptT ε (StateM σ) Node}
  {F : Tree Nat → Option Kind → LabelM ε τ (Tree Nat)}

/-- The callback on labelled nodes answers as the one on expressions does, and what the two remember
stays related. Its answers may be any nodes that stand for the answers: old ones or new ones. -/
structure Realizes (R : Heap → τ → σ → Prop) (f : Node → Option Kind → ExceptT ε (StateM σ) Node)
    (F : Tree Nat → Option Kind → LabelM ε τ (Tree Nat)) : Prop where
  lasting : Lasting R
  answers {h : Heap} {t : Tree Nat} (ht : t.LivesIn h) (owner : Option Kind) :
    Simulates R Tree.Stands h (F t owner) (f t.toNode owner)

theorem Tree.Stands.keep {h : Heap} {c r : Tree Nat} {n : Node} (hc : c.LivesIn h)
    (hr : r.Stands h n) : (c.keep r).Stands h n := by
  unfold Tree.keep
  split
  next hlabel => exact ⟨hc, (hc.toNode_eq hr.1 hlabel.symm).trans hr.2⟩
  next => exact hr

/-- The children that are kept stand for what the ones that came back for them do. -/
theorem StandAll.keep {h : Heap} : ∀ {cs rs : List (Tree Nat)} {ns : List Node},
    (∀ c ∈ cs, c.LivesIn h) → StandAll h rs ns → rs.length = cs.length →
      StandAll h (List.zipWith Tree.keep cs rs) ns
  | [], [], _, _, hrs, _ => hrs
  | c :: cs, r :: rs, ns, hcs, hrs, hlength => by
    obtain ⟨hlive, rfl⟩ := hrs
    have hstand := Tree.Stands.keep (hcs c List.mem_cons_self) ⟨hlive r List.mem_cons_self, rfl⟩
    have hrest := StandAll.keep (fun c' h => hcs c' (List.mem_cons_of_mem c h))
      ⟨fun r' h => hlive r' (List.mem_cons_of_mem r h), rfl⟩ (Nat.succ.inj hlength)
    rw [List.zipWith_cons_cons, List.map_cons]
    refine ⟨?_, congrArg₂ List.cons hstand.2 hrest.2⟩
    rintro u (_ | ⟨_, hu⟩)
    · exact hstand.1
    · exact hrest.1 u hu

/-- The node that is kept, and the node that is built, are the expression with the results in the
places of the children. -/
theorem rebuild_stands (hR : Lasting R) {h : Heap} {l : Nat} {form : Form (Tree Nat)}
    {results : List (Tree Nat)} {ns : List Node} (hold : (Tree.node l form).LivesIn h)
    (hresults : StandAll h results ns) (hlength : results.length = form.children.length) :
    Simulates R Tree.Stands h
      (Tree.rebuild LabelM.fresh (.node l form) results : LabelM ε τ (Tree Nat))
      (pure (Node.of ((form.map Tree.toNode).refill ns))) := by
  have hkept := hresults.keep (Tree.livesIn_node.mp hold).2.2 hlength
  have hzip : (List.zipWith Tree.keep form.children results).length = form.children.length := by
    rw [List.length_zipWith, hlength, Nat.min_self]
  rw [← Tree.getD_changes] at hkept hzip
  rw [Tree.rebuild, show (Tree.node l form).children = form.children from rfl]
  cases hchanges : Tree.changes form.children results with
  | none =>
    rw [hchanges] at hkept
    rw [← hkept.map_eq_refill (form.shape_map _).symm]
    exact .pure ⟨hold, Tree.toNode_node l form⟩
  | some new =>
    rw [hchanges] at hkept hzip
    obtain ⟨hchildren, hshape⟩ := form.refill_spec hzip
    rw [← hchildren] at hkept
    rw [← StandAll.map_eq_refill hkept (hshape.trans (form.shape_map _).symm)]
    exact .new hR hkept.1

/-- A transform agrees at a node if it does along the edges, whichever of them its mode follows. -/
theorem transformAt_of_edges (hF : Realizes R f F) {mode : TransformMode} {h : Heap} {l : Nat}
    {form : Form (Tree Nat)} (owner : Option Kind) (ht : (Tree.node l form).LivesIn h)
    {y : ExceptT ε (StateM σ) (List Node)}
    (hedges : Simulates R (fun h' ts ns => StandAll h' ts ns ∧ ts.length = form.edges.length) h
      (form.edges.mapM fun e =>
        Tree.comeBack mode e.1 e.2 (Tree.transformAt LabelM.fresh mode F e.2)) y) :
    Simulates R Tree.Stands h (Tree.transformAt LabelM.fresh mode F (.node l form) owner) (do
      let results ← y
      f (.of ((form.map Tree.toNode).refill results)) owner) := by
  rw [Tree.transformAt_node]
  refine hedges.bind fun h' results ns hext hresults => ?_
  have hcall := (rebuild_stands hF.lasting (ht.mono hext) hresults.1
    (hresults.2.trans form.length_edges)).bind (l := fun n => f n owner)
    fun h'' t n _ hstands => hstands.2 ▸ hF.answers hstands.1 owner
  rwa [pure_bind] at hcall

/-- A transform that keeps nodes agrees with one that builds every node anew. -/
theorem transformAt_simulates (hF : Realizes R f F) (t : Tree Nat) :
    ∀ {h : Heap} (owner : Option Kind), t.LivesIn h → Simulates R Tree.Stands h
      (Tree.transformAt LabelM.fresh .eager F t owner) (Node.renew f t.toNode owner) := by
  induction t using Tree.induct with
  | node l form ih =>
    intro h owner ht
    rw [Tree.toNode_node, Node.renew_of, Form.edges_map]
    refine transformAt_of_edges hF owner ht (Simulates.mapM _ fun e he h' hext => ?_)
    have hmem : e.2 ∈ form.children := Form.mem_children_of_edges he
    exact ih e.2 hmem (some e.1) (((Tree.livesIn_node.mp ht).2.2 e.2 hmem).mono hext)

/-- A run that gives out no labels. -/
def LabelM.ofMemory {α : Type} (x : ExceptT ε (StateM σ) α) : LabelM ε σ α := fun (next, s) =>
  let (answer, s') := x.run.run s
  (answer, (next, s'))

open Classical in
/-- The callback that gives its node back where `f` leaves the expression as it is, and numbers the
answer anew elsewhere. -/
noncomputable def Tree.keeping (f : Node → Option Kind → ExceptT ε (StateM σ) Node) (t : Tree Nat)
    (owner : Option Kind) : LabelM ε σ (Tree Nat) := do
  let n ← LabelM.ofMemory (f t.toNode owner)
  if n = t.toNode then return t else LabelM.ofLabels n.numbered

/-- Every callback on expressions is realized. -/
theorem realizes_keeping (f : Node → Option Kind → ExceptT ε (StateM σ) Node) :
    Realizes (fun _ u s => u = s) f (Tree.keeping f) where
  lasting _ _ _ _ _ hr := hr
  answers {h t} ht owner := by
    have hmemory : Simulates (fun _ u s => u = s) (fun _ a b => a = b) h
        (LabelM.ofMemory (f t.toNode owner)) (f t.toNode owner) := by
      rintro u _ rfl
      exact ⟨h, .refl h, rfl, rfl, .of_eq _⟩
    rw [← bind_pure (f t.toNode owner)]
    refine hmemory.bind fun h' n _ hext hn => ?_
    subst hn
    by_cases hkeep : n = t.toNode
    · rw [if_pos hkeep]
      exact .pure ⟨ht.mono hext, hkeep.symm⟩
    · rw [if_neg hkeep]
      have hlasting : Lasting fun _ (u : σ) s => u = s := fun _ _ _ _ _ hr => hr
      have hn := numbered_stands (ε := ε) hlasting n h'
      rwa [Tree.toNode_eq_self] at hn

end Agreement

/-! ## Calls -/

section Calls

variable {ε τ σ α β : Type}

/-- A call of a callback, with its answer. -/
structure Call (ε : Type) where
  node : Node
  owner : Option Kind
  answer : Except ε Node

/-- A node of a tree, without its children, and its owner. -/
def Tree.place {ι : Type} (v : Tree ι × Option Kind) : Form Unit × Option Kind :=
  (v.1.form.shape, v.2)

/-- Of a call only the place counts here. -/
def Call.place (c : Call ε) : Form Unit × Option Kind := Tree.place (c.node, c.owner)

/-- The nodes of a tree and their owners, children before parents and from left to right. -/
def Tree.postorder {ι : Type} : Tree ι → (owner : Option Kind) → List (Tree ι × Option Kind) :=
  para fun l form owner => (form.edges.flatMap fun e => e.2.2 (some e.1)) ++
    [(node l (form.map Prod.fst), owner)]

/-- A node comes after all that is below it. -/
theorem Tree.postorder_node {ι : Type} (l : ι) (form : Form (Tree ι)) (owner : Option Kind) :
    (node l form).postorder owner =
      (form.edges.flatMap fun e => e.2.postorder (some e.1)) ++ [(node l form, owner)] := by
  rw [postorder, para_node, Form.map_fst, Form.edges_map, List.flatMap_map]

/-- The callback, with its calls recorded beside what it remembers. -/
def recorded (f : Node → Option Kind → ExceptT ε (StateM σ) Node) (n : Node)
    (owner : Option Kind) : ExceptT ε (StateM (σ × List (Call ε))) Node := fun (s, calls) =>
  let (answer, s') := (f n owner).run.run s
  (answer, (s', calls ++ [⟨n, owner, answer⟩]))

/-- The same for a callback on labelled nodes. -/
def Tree.recorded (F : Tree Nat → Option Kind → LabelM ε τ (Tree Nat)) (t : Tree Nat)
    (owner : Option Kind) : LabelM ε (τ × List (Call ε)) (Tree Nat) := fun (next, (u, calls)) =>
  let (answer, (next', u')) := (F t owner).run.run (next, u)
  (answer, (next', (u', calls ++ [⟨t.toNode, owner, answer.map toNode⟩])))

/-- Memories are related, and the same calls are recorded. -/
def SameCalls (R : Heap → τ → σ → Prop) (h : Heap) (u : τ × List (Call ε))
    (s : σ × List (Call ε)) : Prop :=
  R h u.1 s.1 ∧ u.2 = s.2

/-- A callback that is recorded still realizes the other one, which is recorded too. -/
theorem Realizes.recorded {R : Heap → τ → σ → Prop}
    {f : Node → Option Kind → ExceptT ε (StateM σ) Node}
    {F : Tree Nat → Option Kind → LabelM ε τ (Tree Nat)} (hF : Realizes R f F) :
    Realizes (SameCalls R) (recorded f) (Tree.recorded F) where
  lasting h h' u s hext hr := ⟨hF.lasting h h' u.1 s.1 hext hr.1, hr.2⟩
  answers {h t} ht owner := by
    rintro ⟨u, calls⟩ ⟨s, -⟩ ⟨hr, rfl⟩
    obtain ⟨h', hext, hnext, hmem, hans⟩ := hF.answers ht owner u s hr
    refine ⟨h', hext, hnext, ⟨hmem, ?_⟩, hans⟩
    have hanswer : ((F t owner).run.run (h.next, u)).1.map Tree.toNode =
        ((f t.toNode owner).run.run s).1 := hans.map_eq fun _ _ hstands => hstands.2
    exact congrArg (fun answer => calls ++ [Call.mk t.toNode owner answer]) hanswer

/-- The calls of a run over these places. If it has a value, there is a call for every place, in
order, and all were answered. If it fails, the last call did, and none after the first that did not
get an answer. -/
def Trace (places : List (Form Unit × Option Kind)) (calls : List (Call ε)) : Except ε α → Prop
  | .ok _ => calls.map Call.place = places ∧ ∀ c ∈ calls, ∃ n, c.answer = .ok n
  | .error e => calls.map Call.place <+: places ∧ ∃ before last, calls = before ++ [last] ∧
      (∀ c ∈ before, ∃ n, c.answer = .ok n) ∧ last.answer = .error e

/-- One list of calls after another traces one list of places after another. -/
theorem Trace.append {ps qs : List (Form Unit × Option Kind)} {calls calls' : List (Call ε)} {a : α}
    {result : Except ε β} (h : Trace ps calls (.ok a)) (h' : Trace qs calls' result) :
    Trace (ps ++ qs) (calls ++ calls') result := by
  obtain ⟨rfl, hanswered⟩ := h
  cases result with
  | ok b =>
    obtain ⟨rfl, hanswered'⟩ := h'
    exact ⟨List.map_append, List.forall_mem_append.mpr ⟨hanswered, hanswered'⟩⟩
  | error e =>
    obtain ⟨hplaces, before, last, rfl, hbefore, hlast⟩ := h'
    refine ⟨?_, calls ++ before, last, (List.append_assoc ..).symm,
      List.forall_mem_append.mpr ⟨hanswered, hbefore⟩, hlast⟩
    rw [List.map_append]
    exact List.prefix_append_right_inj _ |>.mpr hplaces

/-- A run with records is the run without them, and the calls that it adds are a trace of the
places. -/
def Records (places : List (Form Unit × Option Kind)) (x : ExceptT ε (StateM (σ × List (Call ε))) α)
    (y : ExceptT ε (StateM σ) α) : Prop :=
  ∀ s calls, ∃ new, Trace places new (y.run.run s).1 ∧
    x.run.run (s, calls) = ((y.run.run s).1, ((y.run.run s).2, calls ++ new))

namespace Records

theorem pure (a : α) : Records (σ := σ) [] (Pure.pure a : ExceptT ε (StateM (σ × List (Call ε))) α)
    (Pure.pure a) :=
  fun s calls => ⟨[], ⟨rfl, by simp⟩, by rw [List.append_nil]; rfl⟩

/-- Two computations one after another record both lists of calls. -/
theorem bind {ps qs : List (Form Unit × Option Kind)}
    {x : ExceptT ε (StateM (σ × List (Call ε))) α} {y : ExceptT ε (StateM σ) α}
    (hxy : Records ps x y) {k : α → ExceptT ε (StateM (σ × List (Call ε))) β}
    {l : α → ExceptT ε (StateM σ) β} (hkl : ∀ a, Records qs (k a) (l a)) :
    Records (ps ++ qs) (x >>= k) (y >>= l) := by
  intro s calls
  obtain ⟨new, htrace, hx⟩ := hxy s calls
  rcases hy : y.run.run s with ⟨e | a, s'⟩
  · rw [hy] at htrace hx
    rw [run_bind_error hx, run_bind_error hy]
    exact ⟨new, ⟨htrace.1.trans (List.prefix_append ps qs), htrace.2⟩, rfl⟩
  · rw [hy] at htrace hx
    obtain ⟨new', htrace', hk⟩ := hkl a s' (calls ++ new)
    rw [run_bind_ok hx, hk, run_bind_ok hy, List.append_assoc]
    exact ⟨new ++ new', htrace.append htrace', rfl⟩

/-- Runs one after another. -/
theorem mapM {κ : Type} {g : κ → ExceptT ε (StateM (σ × List (Call ε))) α}
    {g' : κ → ExceptT ε (StateM σ) α} {places : κ → List (Form Unit × Option Kind)} :
    ∀ ks : List κ, (∀ k ∈ ks, Records (places k) (g k) (g' k)) →
      Records (ks.flatMap places) (ks.mapM g) (ks.mapM g')
  | [], _ => .pure []
  | k :: ks, hk => by
    rw [List.mapM_cons, List.mapM_cons, List.flatMap_cons]
    refine (hk k List.mem_cons_self).bind fun a => ?_
    rw [← List.append_nil (ks.flatMap places)]
    exact (mapM ks fun k' hmem => hk k' (List.mem_cons_of_mem k hmem)).bind fun as =>
      .pure (a :: as)

/-- One call. -/
theorem call (f : Node → Option Kind → ExceptT ε (StateM σ) Node) (n : Node) (owner : Option Kind) :
    Records [Tree.place (n, owner)] (recorded f n owner) (f n owner) := by
  intro s calls
  refine ⟨[⟨n, owner, ((f n owner).run.run s).1⟩], ?_, rfl⟩
  rcases (f n owner).run.run s with ⟨e | m, s'⟩
  · exact ⟨List.prefix_rfl, [], _, rfl, by simp, rfl⟩
  · exact ⟨rfl, by simp⟩

end Records

/-- The call for a construct, with other children in the places of its own. -/
theorem Records.refill (f : Node → Option Kind → ExceptT ε (StateM σ) Node) (form : Form Node)
    (owner : Option Kind) (results : List Node) :
    Records [Tree.place (Node.of form, owner)] (recorded f (.of (form.refill results)) owner)
      (f (.of (form.refill results)) owner) := by
  have hplace : Tree.place (Node.of (form.refill results), owner) =
      Tree.place (Node.of form, owner) :=
    congrArg (fun shape => (shape, owner)) (form.shape_refill results)
  exact hplace ▸ Records.call f _ owner

/-- The calls go over the nodes in post-order. -/
theorem renew_records (f : Node → Option Kind → ExceptT ε (StateM σ) Node) (n : Node) :
    ∀ owner, Records ((n.postorder owner).map Tree.place) (Node.renew (recorded f) n owner)
      (Node.renew f n owner) := by
  induction n using Tree.induct with
  | node l form ih =>
    intro owner
    have hchildren := Records.mapM (g := fun e => Node.renew (recorded f) e.2 (some e.1))
      form.edges fun e he =>
        ih e.2 (Form.mem_children_of_edges he) (some e.1)
    have hcalls := hchildren.bind (Records.refill f form owner)
    rw [Tree.postorder_node, List.map_append, List.map_flatMap,
      show Tree.node l form = Node.of form from rfl,
      Node.renew_of, Node.renew_of]
    exact hcalls

/-- What it is for a transform that keeps nodes to behave as the plain one. -/
structure ActsPlain (R : Heap → τ → σ → Prop) (f : Node → Option Kind → ExceptT ε (StateM σ) Node)
    (F : Tree Nat → Option Kind → LabelM ε τ (Tree Nat)) (h : Heap) (t : Tree Nat) (u : τ)
    (s : σ) : Prop where
  /-- The same error, or equal expressions. -/
  result : ((t.transform LabelM.fresh .eager F).run.run (h.next, u)).1.map Tree.toNode =
    ((Node.renew f t.toNode none).run.run s).1
  memory : ∃ h', h.Extends h' ∧ R h' ((t.transform LabelM.fresh .eager F).run.run (h.next, u)).2.2
    ((Node.renew f t.toNode none).run.run s).2
  /-- If the calls are recorded, both record the same ones: in post-order a call for every node,
  with its owner, up to the first that fails. -/
  calls : ∃ calls,
    ((t.transform LabelM.fresh .eager (Tree.recorded F)).run.run (h.next, (u, []))).2.2.2 = calls ∧
    (Node.renew (recorded f) t.toNode none).run.run (s, []) =
      (((Node.renew f t.toNode none).run.run s).1,
        (((Node.renew f t.toNode none).run.run s).2, calls)) ∧
    Trace ((t.toNode.postorder none).map Tree.place) calls
      ((Node.renew f t.toNode none).run.run s).1

/-- A transform that keeps nodes behaves as the plain one, whatever the tree and the callback. -/
theorem transform_eq_renew {R : Heap → τ → σ → Prop}
    {f : Node → Option Kind → ExceptT ε (StateM σ) Node}
    {F : Tree Nat → Option Kind → LabelM ε τ (Tree Nat)} (hF : Realizes R f F) {h : Heap}
    {t : Tree Nat} (ht : t.LivesIn h) {u : τ} {s : σ} (hr : R h u s) : ActsPlain R f F h t u s := by
  obtain ⟨h', hext, -, hmem, hans⟩ := transformAt_simulates hF t none ht u s hr
  obtain ⟨-, -, -, ⟨-, hsame⟩, -⟩ :=
    transformAt_simulates hF.recorded t none ht (u, []) (s, []) ⟨hr, rfl⟩
  obtain ⟨calls, htrace, hrun⟩ := renew_records f t.toNode none s []
  refine ⟨hans.map_eq fun _ _ hstands => hstands.2, ⟨h', hext, hmem⟩, calls, hsame.trans ?_, hrun,
    htrace⟩
  rw [hrun]
  rfl

/-- A callback that counts its calls, puts the context item for variables and refuses strings. -/
def blankVars (n : Node) (_ : Option Kind) : ExceptT String (StateM Nat) Node := fun count =>
  match n.form with
  | .varRef _ => (.ok (.of .contextItem), count + 1)
  | .string v => (.error v, count + 1)
  | _ => (.ok n, count + 1)

/-- `$x` to a string, where the callback fails at the second of three nodes. -/
theorem transform_eq_renew_range :
    let x : Form (Tree Nat) := .varRef (.qName none ⟨"x"⟩)
    let t : Tree Nat := .node 2 (.range (.node 0 x) (.node 1 (.string "no")))
    ∃ h : Heap, t.LivesIn h ∧
      ActsPlain (fun _ u s => u = s) blankVars (Tree.keeping blankVars) h t 0 0 := by
  intro x t
  have ht : t.LivesIn ⟨fun l => if l = 0 then .of (.varRef (.qName none ⟨"x"⟩)) else if l = 1 then
      .of (.string "no") else t.toNode, 3⟩ := by
    refine Tree.livesIn_node.mpr ⟨by decide, rfl, fun c hc => ?_⟩
    obtain rfl | rfl : c = .node 0 x ∨ c = .node 1 (.string "no") := by
      simpa [Form.children] using hc
    all_goals
      exact Tree.livesIn_node.mpr
        ⟨by decide, rfl, fun c hc => absurd hc (by simp [x, Form.children])⟩
  exact ⟨_, ht, transform_eq_renew (realizes_keeping blankVars) ht rfl⟩

end Calls

end XPath
