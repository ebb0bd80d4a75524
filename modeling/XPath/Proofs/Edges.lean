import XPath.Proofs.Role

/-!
# Edges of a construct

A construct is its shape and its children: nothing else tells two constructs apart
(`Form.eq_of_children`). So it can be taken apart into its children and filled again with others
(`Form.refill`).

`Form.edges` lists the children from left to right, each with the kind of the construct that owns
it. To visit a construct is to visit its edges one after another and to put the results in the
places of the children (`Form.visits`).
-/

namespace XPath

/-! ## Owners -/

section Owners

variable {α : Type}

/-- The edge of an argument comes from its list. -/
def Argument.edges (a : Argument α) : List (Kind × α) := a.children.map (.argumentList, ·)

/-- The edges of a suffix come from the predicate, the argument list or the lookup. -/
def Suffix.edges : Suffix α → List (Kind × α)
  | predicate e => [(.predicate, e)]
  | arguments args => args.flatMap Argument.edges
  | lookup key => key.children.map (.lookup, ·)

/-- The edges of a call come from its function and from its argument list. -/
def ArrowCall.edges (c : ArrowCall α) : List (Kind × α) :=
  c.target.children.map (.arrowFunctionExpr, ·) ++ c.args.flatMap Argument.edges

/-- The children in source order, each with the kind of what owns it: a binding, a predicate, an
argument list, an enclosed expression, a lookup or an arrow call, and else the construct itself. -/
def Form.edges : Form α → List (Kind × α)
  | forExpr bindings body => bindings.map (.simpleBinding, ·.expr) ++ [(.forExpr, body)]
  | letExpr bindings body => bindings.map (.simpleBinding, ·.expr) ++ [(.letExpr, body)]
  | quantified _ bindings body =>
    bindings.map (.simpleBinding, ·.expr) ++ [(.quantifiedExpr, body)]
  | arrow first calls => (.arrowExpr, first) :: calls.flatMap ArrowCall.edges
  | axisStep _ _ predicates => predicates.map (.predicate, ·)
  | suffixed primary suffixes => (.postfixExpr, primary) :: suffixes.flatMap Suffix.edges
  | functionCall _ args => args.flatMap Argument.edges
  | inlineFunction _ _ body => body.toList.map (.enclosedExpr, ·)
  | curlyArray body => body.toList.map (.enclosedExpr, ·)
  | f => f.children.map (f.kind, ·)

theorem Argument.snd_edges (a : Argument α) : a.edges.map Prod.snd = a.children := by
  simp [edges, Function.comp_def]

/-- The edges of a suffix lead to its children. -/
theorem Suffix.snd_edges (s : Suffix α) : s.edges.map Prod.snd = s.children := by
  cases s <;> simp [edges, children, List.map_flatMap, Argument.snd_edges, Function.comp_def]

/-- The edges of a call lead to its children. -/
theorem ArrowCall.snd_edges (c : ArrowCall α) : c.edges.map Prod.snd = c.children := by
  simp [edges, children, List.map_flatMap, Argument.snd_edges, Function.comp_def]

/-- The edges lead to the children. -/
theorem Form.snd_edges (f : Form α) : f.edges.map Prod.snd = f.children := by
  cases f <;>
    simp [edges, children, List.map_flatMap, Argument.snd_edges, Suffix.snd_edges,
      ArrowCall.snd_edges, Function.comp_def]

/-- Every operand of a chain belongs to its construct. -/
theorem Form.edges_chain (level : ChainLevel) (first : α) (rest : List (ChainOp × α)) :
    (chain level first rest).edges =
      [(level.kind, first)] ++ rest.map fun x => (level.kind, x.2) := by
  simp [edges, children, kind]

/-- Every key and value of a map belongs to the map. -/
theorem Form.edges_mapConstructor (entries : List (MapEntry α)) : (mapConstructor entries).edges =
    entries.flatMap fun e => [(.mapConstructor, e.key), (.mapConstructor, e.value)] := by
  simp [edges, children, kind, List.map_flatMap]

/-- An edge leads to a child. -/
theorem Form.mem_children_of_edges {f : Form α} {e : Kind × α} (he : e ∈ f.edges) :
    e.2 ∈ f.children :=
  snd_edges f ▸ List.mem_map_of_mem he

theorem Argument.edges_map {β : Type} (g : α → β) (a : Argument α) :
    (a.map g).edges = a.edges.map fun e => (e.1, g e.2) := by
  simp [edges, Argument.children_map, Function.comp_def]

/-- The edges of a changed suffix lead to what has become of its children. -/
theorem Suffix.edges_map {β : Type} (g : α → β) (s : Suffix α) :
    (s.map g).edges = s.edges.map fun e => (e.1, g e.2) := by
  cases s <;>
    simp [map, edges, List.map_flatMap, List.flatMap_map, Argument.edges_map,
      KeySpecifier.children_map, Function.comp_def]

theorem ArrowCall.edges_map {β : Type} (g : α → β) (c : ArrowCall α) :
    (c.map g).edges = c.edges.map fun e => (e.1, g e.2) := by
  simp [map, edges, List.map_flatMap, List.flatMap_map, Argument.edges_map,
    ArrowTarget.children_map, Function.comp_def]

/-- The edges of a changed construct lead to what has become of its children. -/
theorem Form.edges_map {β : Type} (g : α → β) (f : Form α) :
    (f.map g).edges = f.edges.map fun e => (e.1, g e.2) := by
  cases f with
  | inlineFunction params result body => cases body <;> rfl
  | curlyArray body => cases body <;> rfl
  | path leading relative => cases relative <;> rfl
  | parenthesized inner => cases inner <;> rfl
  | _ =>
    simp [map, edges, children, kind, Binding.map, MapEntry.map, List.map_flatMap,
      List.flatMap_map, Argument.edges_map, Suffix.edges_map, ArrowCall.edges_map,
      KeySpecifier.children_map, Function.comp_def]

end Owners

/-! ## Visits -/

section Visits

variable {α β P Q : Type} {m : Type → Type} [Monad m] [LawfulMonad m] (visit : Kind → α → m β)

/-- The computation visits the edges in order. Its value has the results for children, and a shape
that is known beforehand. -/
def Visits (x : m P) (edges : List (Kind × α)) (children : P → List β) (shape : P → Q)
    (q : Q) : Prop :=
  (fun p => (children p, shape p)) <$> x =
    (fun bs => (bs, q)) <$> edges.mapM fun e => visit e.1 e.2

namespace Visits

variable {visit}

/-- Parts of a construct that are visited one after the other. -/
theorem pair {P₁ Q₁ P₂ Q₂ : Type} {x : m P₁} {y : m P₂} {es es' : List (Kind × α)}
    {c₁ : P₁ → List β} {c₂ : P₂ → List β} {s₁ : P₁ → Q₁} {s₂ : P₂ → Q₂} {q₁ : Q₁} {q₂ : Q₂}
    (hx : Visits visit x es c₁ s₁ q₁) (hy : Visits visit y es' c₂ s₂ q₂) {make : P₁ → P₂ → P}
    {children : P → List β} {shape : P → Q} (shapes : Q₁ → Q₂ → Q)
    (hc : ∀ a b, children (make a b) = c₁ a ++ c₂ b)
    (hs : ∀ a b, shape (make a b) = shapes (s₁ a) (s₂ b)) :
    Visits visit (do let a ← x; let b ← y; pure (make a b)) (es ++ es') children shape
      (shapes q₁ q₂) := by
  have hsplit : (fun p => (children p, shape p)) <$> (do let a ← x; let b ← y; pure (make a b)) =
      (do
        let a ← (fun p => (c₁ p, s₁ p)) <$> x
        let b ← (fun p => (c₂ p, s₂ p)) <$> y
        pure (a.1 ++ b.1, shapes a.2 b.2)) := by
    simp [hc, hs]
  rw [Visits, hsplit, hx, hy, List.mapM_append]
  simp

/-- A list of parts. -/
theorem list {P' : Type} {part : P → m P'} {es : P → List (Kind × α)} {children : P' → List β}
    {shape : P' → Q} {q : P → Q} (h : ∀ p, Visits visit (part p) (es p) children shape (q p)) :
    ∀ ps : List P, Visits visit (ps.mapM part) (ps.flatMap es) (List.flatMap children)
      (List.map shape) (ps.map q)
  | [] => by simp [Visits]
  | p :: ps => by
    rw [List.mapM_cons, List.flatMap_cons, List.map_cons]
    exact pair (h p) (list h ps) List.cons (fun _ _ => List.flatMap_cons) fun _ _ => List.map_cons

/-- A list of children. -/
theorem children (kind : Kind) (cs : List α) :
    Visits visit (cs.mapM (visit kind)) (cs.map (kind, ·)) id (List.map fun _ => ())
      (cs.map fun _ => ()) := by
  have h : Visits visit (cs.mapM (visit kind)) (cs.flatMap fun c => [(kind, c)])
      (List.flatMap fun b => [b]) (List.map fun _ => ()) (cs.map fun _ => ()) :=
    list (fun c => by simp [Visits]) cs
  rw [← List.map_eq_flatMap] at h
  simpa only [Visits, List.flatMap_singleton', id] using h

/-- A construct around a part. -/
theorem image {P₁ Q₁ : Type} {x : m P₁} {es : List (Kind × α)} {c : P₁ → List β} {s : P₁ → Q₁}
    {q : Q₁} (h : Visits visit x es c s q) {make : P₁ → P} {children : P → List β} {shape : P → Q}
    (shapes : Q₁ → Q) (hc : ∀ a, children (make a) = c a)
    (hs : ∀ a, shape (make a) = shapes (s a)) :
    Visits visit (do let a ← x; pure (make a)) es children shape (shapes q) := by
  have hsplit : (fun p => (children p, shape p)) <$> (do let a ← x; pure (make a)) =
      (fun p => (p.1, shapes p.2)) <$> (fun p => (c p, s p)) <$> x := by
    simp [hc, hs]
  rw [Visits, hsplit, h]
  simp

end Visits

/-- An argument is visited along its edges. -/
theorem Argument.visits (a : Argument α) :
    Visits visit (a.mapM visit) a.edges Argument.children (·.map fun _ => ())
      (a.map fun _ => ()) := by
  cases a <;> simp [Visits, Argument.mapM, edges, children, Argument.map]

/-- A key is visited along its edge, whatever it belongs to. -/
theorem KeySpecifier.visits (owner : Kind) (key : KeySpecifier α) :
    Visits visit (key.mapM visit owner) (key.children.map (owner, ·)) KeySpecifier.children
      (·.map fun _ => ()) (key.map fun _ => ()) := by
  cases key <;> simp [Visits, KeySpecifier.mapM, children, KeySpecifier.map]

/-- A target is visited along its edge. -/
theorem ArrowTarget.visits (t : ArrowTarget α) :
    Visits visit (t.mapM visit) (t.children.map (.arrowFunctionExpr, ·)) ArrowTarget.children
      (·.map fun _ => ()) (t.map fun _ => ()) := by
  cases t <;> simp [Visits, ArrowTarget.mapM, children, ArrowTarget.map]

/-- A suffix is visited along its edges. -/
theorem Suffix.visits (s : Suffix α) :
    Visits visit (s.mapM visit) s.edges Suffix.children (·.map fun _ => ())
      (s.map fun _ => ()) := by
  cases s with
  | predicate e => simp [Visits, Suffix.mapM, edges, children, Suffix.map]
  | arguments args =>
    exact (Visits.list (Argument.visits visit) args).image Suffix.arguments
      (fun _ => rfl) fun _ => rfl
  | lookup key =>
    exact (KeySpecifier.visits visit .lookup key).image Suffix.lookup (fun _ => rfl) fun _ => rfl

/-- A call is visited along its edges. -/
theorem ArrowCall.visits (c : ArrowCall α) :
    Visits visit (c.mapM visit) c.edges ArrowCall.children (·.map fun _ => ())
      (c.map fun _ => ()) :=
  (ArrowTarget.visits visit c.target).pair (Visits.list (Argument.visits visit) c.args) ArrowCall.mk
    (fun _ _ => rfl) fun _ _ => rfl

/-- A binding is visited along its edge. -/
theorem Binding.visits (b : Binding α) :
    Visits visit (b.mapM visit) [(.simpleBinding, b.expr)] (fun b => [b.expr]) (·.map fun _ => ())
      (b.map fun _ => ()) := by
  simp [Visits, Binding.mapM, Binding.map]

/-- Bindings are visited along their edges, one after another. -/
theorem Visits.bindings (bs : List (Binding α)) :
    Visits visit (bs.mapM (Binding.mapM visit)) (bs.map (.simpleBinding, ·.expr))
      (List.map Binding.expr) (List.map (·.map fun _ => ())) (bs.map (·.map fun _ => ())) := by
  have h := Visits.list (Binding.visits visit) bs
  rw [← List.map_eq_flatMap] at h
  simpa only [Visits, ← List.map_eq_flatMap] using h

/-- A child that is a part by itself is visited along the edge to it. -/
theorem Visits.body (kind : Kind) (c : α) :
    Visits visit (visit kind c) [(kind, c)] (fun b => [b]) (fun _ => ()) () := by
  simp [Visits]

/-- A child that need not be there is visited if it is. -/
theorem Visits.option (kind : Kind) (o : Option α) :
    Visits visit (o.mapM (visit kind)) (o.toList.map (kind, ·)) Option.toList
      (Option.map fun _ => ()) (o.map fun _ => ()) := by
  cases o <;> simp [Visits]

/-- Operands are visited along their edges, and operators are left as they are. -/
theorem Visits.links (kind : Kind) (rest : List (ChainOp × α)) :
    Visits visit (rest.mapM fun (op, e) => return (op, ← visit kind e))
      (rest.map fun x => (kind, x.2)) (List.map Prod.snd) (List.map fun (op, _) => (op, ()))
      (rest.map fun (op, _) => (op, ())) := by
  have hlink (x : ChainOp × α) : Visits visit (do let b ← visit kind x.2; pure (x.1, b))
      [(kind, x.2)] (fun y : ChainOp × β => [y.2]) (fun y => (y.1, ())) (x.1, ()) := by
    simp [Visits]
  have h := Visits.list hlink rest
  rw [← List.map_eq_flatMap] at h
  simpa only [Visits, ← List.map_eq_flatMap] using h

/-- Entries are visited along their edges, every key before its value. -/
theorem Visits.entries (entries : List (MapEntry α)) :
    Visits visit
      (entries.mapM fun e =>
        return ⟨← visit .mapConstructor e.key, ← visit .mapConstructor e.value⟩)
      (entries.flatMap fun e => [(.mapConstructor, e.key), (.mapConstructor, e.value)])
      (List.flatMap fun e : MapEntry β => [e.key, e.value]) (List.map (·.map fun _ => ()))
      (entries.map (·.map fun _ => ())) :=
  Visits.list (fun e => by simp [Visits, MapEntry.map]) entries

/-- To visit a construct is to visit its edges in order. -/
theorem Form.visits (f : Form α) :
    Visits visit (f.mapM visit) f.edges Form.children Form.shape f.shape := by
  cases f with
  | expr items =>
    exact (Visits.children .expr items).image Form.expr (fun _ => rfl) fun _ => rfl
  | forExpr bindings body =>
    exact (Visits.bindings visit bindings).pair (Visits.body visit .forExpr body) Form.forExpr
      (fun _ _ => rfl) fun _ _ => rfl
  | letExpr bindings body =>
    exact (Visits.bindings visit bindings).pair (Visits.body visit .letExpr body) Form.letExpr
      (fun _ _ => rfl) fun _ _ => rfl
  | quantified q bindings body =>
    exact (Visits.bindings visit bindings).pair (Visits.body visit .quantifiedExpr body)
      (Form.quantified q) (fun _ _ => rfl) fun _ _ => rfl
  | chain level first rest =>
    rw [edges_chain]
    exact (Visits.body visit level.kind first).pair (Visits.links visit level.kind rest)
      (fun _ => Form.chain level ()) (fun _ _ => rfl) fun _ _ => rfl
  | arrow first calls =>
    exact (Visits.body visit .arrowExpr first).pair (Visits.list (ArrowCall.visits visit) calls)
      (fun _ => Form.arrow ()) (fun _ _ => rfl) fun _ _ => rfl
  | path leading relative =>
    exact (Visits.option visit .pathExpr relative).image (Form.path leading)
      (fun _ => rfl) fun _ => rfl
  | axisStep axis test predicates =>
    exact (Visits.children .predicate predicates).image (Form.axisStep axis test) (fun _ => rfl)
      fun _ => rfl
  | suffixed primary suffixes =>
    exact (Visits.body visit .postfixExpr primary).pair (Visits.list (Suffix.visits visit) suffixes)
      (fun _ => Form.suffixed ()) (fun _ _ => rfl) fun _ _ => rfl
  | parenthesized inner =>
    exact (Visits.option visit .parenthesizedExpr inner).image Form.parenthesized (fun _ => rfl)
      fun _ => rfl
  | functionCall name args =>
    exact (Visits.list (Argument.visits visit) args).image (Form.functionCall name) (fun _ => rfl)
      fun _ => rfl
  | inlineFunction params result body =>
    exact (Visits.option visit .enclosedExpr body).image (Form.inlineFunction params result)
      (fun _ => rfl) fun _ => rfl
  | mapConstructor entries =>
    rw [edges_mapConstructor]
    exact (Visits.entries visit entries).image Form.mapConstructor (fun _ => rfl) fun _ => rfl
  | squareArray members =>
    exact (Visits.children .squareArrayConstructor members).image Form.squareArray (fun _ => rfl)
      fun _ => rfl
  | curlyArray body =>
    exact (Visits.option visit .enclosedExpr body).image Form.curlyArray (fun _ => rfl) fun _ => rfl
  | unaryLookup key =>
    exact (KeySpecifier.visits visit .unaryLookup key).image Form.unaryLookup
      (fun _ => rfl) fun _ => rfl
  | _ => simp [Visits, Form.mapM, edges, children, shape, Form.map, kind]

end Visits

/-! ## Shape and children -/

section Shapes

variable {α P Q : Type}

/-- Lists of parts that are told apart by their shapes and children. -/
theorem eq_of_flatMap {children : P → List α} {shape : P → Q}
    (hlength : ∀ {p q}, shape p = shape q → (children p).length = (children q).length)
    (hpart : ∀ {p q}, children p = children q → shape p = shape q → p = q) :
    ∀ {ps qs : List P}, ps.flatMap children = qs.flatMap children → ps.map shape = qs.map shape →
      ps = qs
  | [], [], _, _ => rfl
  | [], _ :: _, _, hs => absurd hs (by simp)
  | _ :: _, [], _, hs => absurd hs (by simp)
  | p :: ps, q :: qs, hc, hs => by
    rw [List.map_cons, List.map_cons] at hs
    obtain ⟨hshape, hshapes⟩ := List.cons.inj hs
    rw [List.flatMap_cons, List.flatMap_cons] at hc
    obtain ⟨hchild, hchildren⟩ := List.append_inj hc (hlength hshape)
    rw [hpart hchild hshape, eq_of_flatMap hlength hpart hchildren hshapes]

/-- Parts of one shape have as many children. -/
theorem length_of_shape {T : Type → Type} {children : ∀ {α : Type}, T α → List α}
    {map : ∀ {α β : Type}, (α → β) → T α → T β}
    (h : ∀ {α β : Type} (g : α → β) (t : T α), children (map g t) = (children t).map g)
    {α : Type} {p q : T α} (hs : map (fun _ => ()) p = map (fun _ => ()) q) :
    (children p).length = (children q).length := by
  rw [← List.length_map (fun _ => ()), ← h, hs, h, List.length_map]

theorem Argument.eq_of_children {a b : Argument α} (hc : a.children = b.children)
    (hs : (a.map fun _ => ()) = b.map fun _ => ()) : a = b := by
  cases a <;> cases b <;> simp_all [map, children]

/-- A key is known from its expression and its shape. -/
theorem KeySpecifier.eq_of_children {a b : KeySpecifier α} (hc : a.children = b.children)
    (hs : (a.map fun _ => ()) = b.map fun _ => ()) : a = b := by
  cases a <;> cases b <;> simp_all [map, children]

theorem ArrowTarget.eq_of_children {a b : ArrowTarget α} (hc : a.children = b.children)
    (hs : (a.map fun _ => ()) = b.map fun _ => ()) : a = b := by
  cases a <;> cases b <;> simp_all [map, children]

/-- Arguments are known from their expressions and their shapes. -/
theorem Argument.eq_of_flatMap {as bs : List (Argument α)}
    (hc : as.flatMap children = bs.flatMap children)
    (hs : as.map (·.map fun _ => ()) = bs.map (·.map fun _ => ())) : as = bs :=
  XPath.eq_of_flatMap (length_of_shape Argument.children_map) Argument.eq_of_children hc hs

/-- A suffix is known from its children and its shape. -/
theorem Suffix.eq_of_children {a b : Suffix α} (hc : a.children = b.children)
    (hs : (a.map fun _ => ()) = b.map fun _ => ()) : a = b := by
  cases a <;> cases b <;> simp only [map, reduceCtorEq, predicate.injEq, arguments.injEq,
    lookup.injEq] at hs ⊢
  case predicate.predicate => simpa [children] using hc
  case arguments.arguments => exact Argument.eq_of_flatMap hc hs
  case lookup.lookup => exact KeySpecifier.eq_of_children hc hs

/-- A call is known from its children and its shape. -/
theorem ArrowCall.eq_of_children {a b : ArrowCall α} (hc : a.children = b.children)
    (hs : (a.map fun _ => ()) = b.map fun _ => ()) : a = b := by
  obtain ⟨target, args⟩ := a
  obtain ⟨target', args'⟩ := b
  simp only [map, mk.injEq] at hs
  obtain ⟨htarget, hargs⟩ := hs
  obtain ⟨hc, hc'⟩ := List.append_inj hc (length_of_shape ArrowTarget.children_map htarget)
  obtain rfl : target = target' := ArrowTarget.eq_of_children hc htarget
  obtain rfl : args = args' := Argument.eq_of_flatMap hc' hargs
  rfl

/-- Bindings are known from their expressions and their shapes. -/
theorem Binding.eq_of_map {bs bs' : List (Binding α)} (hc : bs.map expr = bs'.map expr)
    (hs : bs.map (·.map fun _ => ()) = bs'.map (·.map fun _ => ())) : bs = bs' := by
  rw [List.map_eq_flatMap, List.map_eq_flatMap (l := bs')] at hc
  refine eq_of_flatMap (fun _ => rfl) (fun {p q} hc hs => ?_) hc hs
  obtain ⟨name, op, e⟩ := p
  obtain ⟨name', op', e'⟩ := q
  simp_all [map]

/-- Operands are known from their operators and what these stand before. -/
theorem Link.eq_of_map {rest rest' : List (ChainOp × α)}
    (hc : rest.map Prod.snd = rest'.map Prod.snd)
    (hs : (rest.map fun (op, _) => (op, ())) = rest'.map fun (op, _) => (op, ())) :
    rest = rest' := by
  rw [List.map_eq_flatMap, List.map_eq_flatMap (l := rest')] at hc
  refine eq_of_flatMap (fun _ => rfl) (fun {p q} hc hs => ?_) hc hs
  exact Prod.ext (Prod.mk.inj hs).1 (by simpa using hc)

theorem MapEntry.eq_of_children {e e' : MapEntry α} (hc : [e.key, e.value] = [e'.key, e'.value])
    (_ : (e.map fun _ => ()) = e'.map fun _ => ()) : e = e' := by
  obtain ⟨k, v⟩ := e
  obtain ⟨k', v'⟩ := e'
  simp_all

theorem Option.eq_of_toList {o o' : Option α} (h : o.toList = o'.toList) : o = o' := by
  cases o <;> cases o' <;> simp_all

/-- A construct is its shape and its children. -/
theorem Form.eq_of_children {f g : Form α} (hc : f.children = g.children)
    (hs : f.shape = g.shape) : f = g := by
  have hbody {bs bs' : List (Binding α)} {e e' : α}
      (hs : bs.map (·.map fun _ => ()) = bs'.map (·.map fun _ => ()))
      (hc : bs.map Binding.expr ++ [e] = bs'.map Binding.expr ++ [e']) : bs = bs' ∧ e = e' := by
    obtain ⟨hc, he⟩ := List.append_inj' hc rfl
    exact ⟨Binding.eq_of_map hc hs, by simpa using he⟩
  cases f <;> cases g <;> simp only [shape, map, reduceCtorEq] at hs
  case forExpr.forExpr =>
    obtain ⟨rfl, rfl⟩ := hbody (Form.forExpr.inj hs).1 hc
    rfl
  case letExpr.letExpr =>
    obtain ⟨rfl, rfl⟩ := hbody (Form.letExpr.inj hs).1 hc
    rfl
  case quantified.quantified =>
    obtain ⟨rfl, hs, -⟩ := Form.quantified.inj hs
    obtain ⟨rfl, rfl⟩ := hbody hs hc
    rfl
  case chain.chain =>
    obtain ⟨rfl, -, hrest⟩ := Form.chain.inj hs
    obtain ⟨rfl, htail⟩ := List.cons.inj hc
    exact congrArg _ (Link.eq_of_map htail hrest)
  case arrow.arrow =>
    obtain ⟨rfl, htail⟩ := List.cons.inj hc
    exact congrArg _ (eq_of_flatMap (length_of_shape ArrowCall.children_map)
      ArrowCall.eq_of_children htail (Form.arrow.inj hs).2)
  case suffixed.suffixed =>
    obtain ⟨rfl, htail⟩ := List.cons.inj hc
    exact congrArg _ (eq_of_flatMap (length_of_shape Suffix.children_map) Suffix.eq_of_children
      htail (Form.suffixed.inj hs).2)
  case functionCall.functionCall =>
    obtain ⟨rfl, hargs⟩ := Form.functionCall.inj hs
    exact congrArg _ (Argument.eq_of_flatMap hc hargs)
  case mapConstructor.mapConstructor =>
    exact congrArg _ (eq_of_flatMap (fun _ => rfl) MapEntry.eq_of_children hc
      (Form.mapConstructor.inj hs))
  case path.path =>
    obtain ⟨rfl, -⟩ := Form.path.inj hs
    exact congrArg _ (Option.eq_of_toList hc)
  case parenthesized.parenthesized => exact congrArg _ (Option.eq_of_toList hc)
  case inlineFunction.inlineFunction =>
    obtain ⟨rfl, rfl, -⟩ := Form.inlineFunction.inj hs
    exact congrArg _ (Option.eq_of_toList hc)
  case curlyArray.curlyArray => exact congrArg _ (Option.eq_of_toList hc)
  case unaryLookup.unaryLookup =>
    exact congrArg _ (KeySpecifier.eq_of_children hc (Form.unaryLookup.inj hs))
  all_goals simp_all [children]

end Shapes

/-! ## Other children -/

section Refill

variable {α β : Type}

/-- The next of the values that are left, and `c` if there is none. -/
def pop (c : α) : StateM (List α) α := fun
  | [] => (c, [])
  | b :: bs => (b, bs)

/-- The construct with other children in the places of its own, from left to right. -/
def Form.refill (f : Form α) (cs : List α) : Form α :=
  (f.mapM fun _ c => pop c : StateM (List α) (Form α)).run cs |>.1

/-- As many are taken from the list as there are edges, in order. -/
theorem pop_all (es : List (Kind × α)) (bs : List α) (h : bs.length = es.length) :
    (es.mapM fun e => pop e.2 : StateM (List α) (List α)).run bs = (bs, []) := by
  induction es generalizing bs with
  | nil =>
    obtain rfl := List.eq_nil_of_length_eq_zero h
    rfl
  | cons e es ih =>
    obtain ⟨b, bs, rfl⟩ := List.exists_cons_of_length_eq_add_one h
    rw [List.mapM_cons]
    exact congrArg (fun y : List α × List α => (b :: y.1, y.2)) (ih bs (by simpa using h))

/-- There are as many edges as children. -/
theorem Form.length_edges (f : Form α) : f.edges.length = f.children.length := by
  rw [← snd_edges, List.length_map]

/-- Other children do not change the shape. -/
theorem Form.shape_refill (f : Form α) (cs : List α) : (f.refill cs).shape = f.shape := by
  have hrun : ((fun g => (g.children, g.shape)) <$> f.mapM fun _ c => pop c
      : StateM (List α) (List α × Form Unit)).run cs = _ :=
    congrArg (fun x : StateM (List α) (List α × Form Unit) => x.run cs)
      (Form.visits (fun _ c => pop c) f)
  rw [StateT.run_map, StateT.run_map] at hrun
  exact congrArg (fun x => x.1.2) hrun

/-- The construct of the same shape that has these children. -/
theorem Form.refill_spec (f : Form α) {cs : List α} (h : cs.length = f.children.length) :
    (f.refill cs).children = cs ∧ (f.refill cs).shape = f.shape := by
  have hpop := pop_all f.edges cs (h.trans f.length_edges.symm)
  have hrun : (Form.children <$> f.mapM fun _ c => pop c : StateM (List α) (List α)).run cs =
      (cs, []) := by
    have hvisits := congrArg (fun x => Prod.fst <$> x) (Form.visits (fun _ c => pop c) f)
    rw [Functor.map_map, Functor.map_map, id_map'] at hvisits
    rw [hvisits, hpop]
  exact ⟨congrArg Prod.fst hrun, f.shape_refill cs⟩

/-- The only one. -/
theorem Form.eq_refill {f g : Form α} {cs : List α} (hc : g.children = cs)
    (hs : g.shape = f.shape) : g = f.refill cs := by
  have hlength : cs.length = f.children.length := by
    rw [← hc]
    exact length_of_shape Form.children_map hs
  obtain ⟨hc', hs'⟩ := f.refill_spec hlength
  exact eq_of_children (hc.trans hc'.symm) (hs.trans hs'.symm)

end Refill

end XPath
