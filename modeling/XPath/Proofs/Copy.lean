import Mathlib.Logic.Function.Basic
import XPath.Form.Copy
import XPath.Proofs.Edges

/-!
# Copies keep what has not changed

To copy a construct is to ask about its edges one after another. There is a copy if an edge has
changed; it has the shape of the construct, and the children of the changed edges in their places
among the old ones (`Form.copies`). So it is the construct refilled with these children
(`Form.copyM_eq`).

A list may be cut anywhere and its parts copied by themselves (`copyList_append`), so every part of
a construct can be looked at by itself (`Copies.pair`, `Copies.list`).
-/

namespace XPath

section Copies

variable {m : Type → Type} [Monad m] [LawfulMonad m] {α β P P' Q R : Type}

/-! ## Lists -/

/-- It does not matter which of three parts are put together first. -/
theorem both_cons_append (a : Option Q) (q : Q) (b : Option (List Q)) (bs : List Q)
    (c : Option (List Q)) (cs : List Q) :
    both (both a q b bs List.cons) (q :: bs) c cs (· ++ ·) =
      both a q (both b bs c cs (· ++ ·)) (bs ++ cs) List.cons := by
  cases a <;> cases b <;> cases c <;> simp [both]

/-- A part that is as before is the old one, whether it has been copied or not. -/
theorem getD_map_const (a : Option P) (q : Q) : (a.map fun _ => q).getD q = q := by
  cases a <;> rfl

variable (old : P → Q) (change : P → m (Option Q))

/-- What is copied from some item on is joined to what there is of the copy. -/
theorem copyFrom_eq (done : List P) (copy : Option (List Q)) (ps : List P) :
    copyFrom old change done copy ps =
      (both copy (done.map old) · (ps.map old) (· ++ ·)) <$> copyList old change ps := by
  induction ps generalizing done copy with
  | nil => cases copy <;> simp [copyList, copyFrom, both]
  | cons p ps ih =>
    rw [copyList, copyFrom, copyFrom, map_bind]
    refine bind_congr fun changed => ?_
    rw [ih, ih, Functor.map_map]
    congr 1
    funext rest
    cases copy <;> cases changed <;> cases rest <;> simp [both]

omit [LawfulMonad m] in
/-- Nothing changes in a list without parts. -/
theorem copyList_nil : copyList old change [] = pure none := rfl

/-- The first part is copied, and then the others. -/
theorem copyList_cons (p : P) (ps : List P) : copyList old change (p :: ps) =
    copyBoth (change p) (old p) (copyList old change ps) (ps.map old) List.cons := by
  rw [copyList, copyFrom]
  refine bind_congr fun changed => ?_
  rw [copyFrom_eq, map_eq_pure_bind]
  refine bind_congr fun rest => congrArg pure ?_
  cases changed <;> cases rest <;> rfl

/-- A list is copied by copying its two halves. -/
theorem copyList_append (ps qs : List P) : copyList old change (ps ++ qs) =
    copyBoth (copyList old change ps) (ps.map old) (copyList old change qs) (qs.map old)
      (· ++ ·) := by
  induction ps with
  | nil =>
    have hboth (second : Option (List Q)) :
        both none [] second (qs.map old) (· ++ ·) = second := by
      cases second <;> rfl
    simp [copyList_nil, copyBoth, hboth]
  | cons p ps ih =>
    rw [List.cons_append, copyList_cons, copyList_cons, ih]
    simp [copyBoth, both_cons_append]

/-! ## Parts of a construct -/

variable (old : α → β) (edge : Kind → α → m (Option β))

/-- The children behind the edges, if one of them has changed. -/
def copyEdges (edges : List (Kind × α)) : m (Option (List β)) :=
  copyList (fun e => old e.2) (fun e => edge e.1 e.2) edges

omit [LawfulMonad m] in
theorem copyEdges_nil : copyEdges old edge [] = pure none := rfl

/-- To copy along edges is to copy along some, and then along the others. -/
theorem copyEdges_append (es es' : List (Kind × α)) : copyEdges old edge (es ++ es') =
    copyBoth (copyEdges old edge es) (es.map fun e => old e.2) (copyEdges old edge es')
      (es'.map fun e => old e.2) (· ++ ·) :=
  copyList_append _ _ es es'

/-- Along one edge, what is copied is its child. -/
theorem copyEdges_singleton (e : Kind × α) :
    copyEdges old edge [e] = Option.map ([·]) <$> edge e.1 e.2 := by
  rw [copyEdges, copyList_cons, copyList_nil, map_eq_pure_bind, copyBoth]
  refine bind_congr fun changed => ?_
  cases changed <;> simp [both]

/-- The computation asks about the edges in order, and copies the part of a construct if one of them
has changed. The copy has the shape that the part has without the changes, and other children in the
places of those that have changed. -/
structure Copies (x : m (Option P)) (unchanged : P) (edges : List (Kind × α))
    (children : P → List β) (shape : P → Q) : Prop where
  children_eq : children unchanged = edges.map fun e => old e.2
  copy_eq : (Option.map fun p => (children p, shape p)) <$> x =
    (Option.map fun bs => (bs, shape unchanged)) <$> copyEdges old edge edges

namespace Copies

variable {old edge}

/-- Parts that are copied one after the other. -/
theorem pair {P₁ P₂ Q₁ Q₂ : Type} {x : m (Option P₁)} {y : m (Option P₂)} {p₁ : P₁} {p₂ : P₂}
    {es es' : List (Kind × α)} {c₁ : P₁ → List β} {c₂ : P₂ → List β} {s₁ : P₁ → Q₁} {s₂ : P₂ → Q₂}
    (hx : Copies old edge x p₁ es c₁ s₁) (hy : Copies old edge y p₂ es' c₂ s₂) {make : P₁ → P₂ → P}
    {children : P → List β} {shape : P → Q} (shapes : Q₁ → Q₂ → Q)
    (hc : ∀ a b, children (make a b) = c₁ a ++ c₂ b)
    (hs : ∀ a b, shape (make a b) = shapes (s₁ a) (s₂ b)) :
    Copies old edge (copyBoth x p₁ y p₂ make) (make p₁ p₂) (es ++ es') children shape where
  children_eq := by rw [hc, hx.children_eq, hy.children_eq, List.map_append]
  copy_eq := by
    have hparts (a : Option P₁) (b : Option P₂) :
        (both a p₁ b p₂ make).map (fun p => (children p, shape p)) =
          (both (a.map c₁) (c₁ p₁) (b.map c₂) (c₂ p₂) (· ++ ·)).map fun cs =>
            (cs, shapes ((a.map s₁).getD (s₁ p₁)) ((b.map s₂).getD (s₂ p₂))) := by
      cases a <;> cases b <;> simp [both, hc, hs]
    have hsplit : (Option.map fun p => (children p, shape p)) <$> copyBoth x p₁ y p₂ make = (do
        let a ← (Option.map fun p => (c₁ p, s₁ p)) <$> x
        let b ← (Option.map fun p => (c₂ p, s₂ p)) <$> y
        return (both (a.map Prod.fst) (c₁ p₁) (b.map Prod.fst) (c₂ p₂) (· ++ ·)).map fun cs =>
          (cs, shapes ((a.map Prod.snd).getD (s₁ p₁)) ((b.map Prod.snd).getD (s₂ p₂)))) := by
      simp only [copyBoth, map_bind, map_pure, hparts, bind_map_left, Option.map_map,
        Function.comp_def]
    rw [hsplit, hx.copy_eq, hy.copy_eq, copyEdges_append, hs]
    simp only [copyBoth, hx.children_eq, hy.children_eq, map_bind, map_pure, bind_map_left,
      Option.map_map, Function.comp_def, getD_map_const, Option.map_id_fun', id_eq]

/-- Parts that follow one another in a list. -/
theorem list {part : P → m (Option P')} {keep : P → P'} {es : P → List (Kind × α)}
    {children : P' → List β} {shape : P' → Q}
    (h : ∀ p, Copies old edge (part p) (keep p) (es p) children shape) :
    ∀ ps : List P, Copies old edge (copyList keep part ps) (ps.map keep) (ps.flatMap es)
      (List.flatMap children) (List.map shape)
  | [] => ⟨rfl, by simp [copyList_nil, copyEdges_nil]⟩
  | p :: ps => by
    rw [List.map_cons, List.flatMap_cons, copyList_cons]
    exact (h p).pair (list h ps) List.cons (fun _ _ => List.flatMap_cons) fun _ _ => List.map_cons

/-- A construct around a part. -/
theorem image {P₁ Q₁ : Type} {x : m (Option P₁)} {p₁ : P₁} {es : List (Kind × α)}
    {c : P₁ → List β} {s : P₁ → Q₁} (h : Copies old edge x p₁ es c s) {make : P₁ → P}
    {children : P → List β} {shape : P → Q} (shapes : Q₁ → Q)
    (hc : ∀ a, children (make a) = c a) (hs : ∀ a, shape (make a) = shapes (s a)) :
    Copies old edge (do return (← x).map make) (make p₁) es children shape where
  children_eq := (hc p₁).trans h.children_eq
  copy_eq := by
    have hsplit : (Option.map fun p => (children p, shape p)) <$> (do return (← x).map make) =
        (Option.map fun p => (p.1, shapes p.2)) <$> (Option.map fun p => (c p, s p)) <$> x := by
      simp [hc, hs, Function.comp_def]
    rw [hsplit, h.copy_eq, hs]
    simp [Function.comp_def]

/-- A child. -/
theorem child (kind : Kind) (c : α) :
    Copies old edge (edge kind c) (old c) [(kind, c)] (fun b => [b]) fun _ => () :=
  ⟨rfl, by simp [copyEdges_singleton, Function.comp_def]⟩

/-- A list of parts with one child each. -/
theorem singles {part : P → m (Option P')} {keep : P → P'} {e : P → Kind × α} {child : P' → β}
    {shape : P' → Q}
    (h : ∀ p, Copies old edge (part p) (keep p) [e p] (fun p' => [child p']) shape)
    (ps : List P) : Copies old edge (copyList keep part ps) (ps.map keep) (ps.map e)
      (List.map child) (List.map shape) := by
  have hchildren : (List.flatMap fun p' => [child p']) = List.map child :=
    funext fun _ => List.map_eq_flatMap.symm
  have hlist := list h ps
  rwa [← List.map_eq_flatMap, hchildren] at hlist

/-- A list of children. -/
theorem children (kind : Kind) (cs : List α) :
    Copies old edge (copyList old (edge kind) cs) (cs.map old) (cs.map (kind, ·)) id
      (List.map fun _ => ()) := by
  have hsingles : Copies old edge (copyList old (edge kind) cs) (cs.map old) (cs.map (kind, ·))
      (List.map fun b => b) (List.map fun _ => ()) := singles (child kind) cs
  rwa [List.map_id_fun'] at hsingles

/-- A child that may be missing. -/
theorem option (kind : Kind) (o : Option α) :
    Copies old edge (copyOption edge kind o) (o.map old) (o.toList.map (kind, ·)) Option.toList
      (Option.map fun _ => ()) := by
  cases o with
  | none => exact ⟨rfl, by simp [copyOption, copyEdges_nil]⟩
  | some c => exact (child kind c).image some (fun _ => rfl) fun _ => rfl

/-- A construct without children. -/
theorem leaf {p : P} {children : P → List β} {shape : P → Q} (h : children p = []) :
    Copies old edge (pure none) p [] children shape :=
  ⟨h, by simp [copyEdges_nil]⟩

end Copies

/-- A copied argument is its children copied along their edges. -/
theorem Argument.copies (a : Argument α) :
    Copies old edge (a.copyM edge) (a.map old) a.edges Argument.children (·.map fun _ => ()) := by
  cases a with
  | expr e => exact (Copies.child .argumentList e).image Argument.expr (fun _ => rfl) fun _ => rfl
  | placeholder => exact .leaf rfl

/-- Copied arguments are their children copied along their edges. -/
theorem copyArguments_copies (args : List (Argument α)) :
    Copies old edge (copyArguments old edge args) (args.map (·.map old))
      (args.flatMap Argument.edges) (List.flatMap Argument.children)
      (List.map (·.map fun _ => ())) :=
  .list (Argument.copies old edge) args

/-- A copied key is its children copied along their edges. -/
theorem KeySpecifier.copies (owner : Kind) (key : KeySpecifier α) :
    Copies old edge (key.copyM edge owner) (key.map old) (key.children.map (owner, ·))
      KeySpecifier.children (·.map fun _ => ()) := by
  cases key with
  | parenthesized e =>
    exact (Copies.child owner e).image KeySpecifier.parenthesized (fun _ => rfl) fun _ => rfl
  | _ => exact .leaf rfl

/-- A copied target is its children copied along their edges. -/
theorem ArrowTarget.copies (t : ArrowTarget α) :
    Copies old edge (t.copyM edge) (t.map old) (t.children.map (.arrowFunctionExpr, ·))
      ArrowTarget.children (·.map fun _ => ()) := by
  cases t with
  | parenthesized e =>
    exact (Copies.child .arrowFunctionExpr e).image ArrowTarget.parenthesized (fun _ => rfl)
      fun _ => rfl
  | _ => exact .leaf rfl

/-- A copied suffix is its children copied along their edges. -/
theorem Suffix.copies (s : Suffix α) :
    Copies old edge (s.copyM old edge) (s.map old) s.edges Suffix.children
      (·.map fun _ => ()) := by
  cases s with
  | predicate e =>
    exact (Copies.child .predicate e).image Suffix.predicate (fun _ => rfl) fun _ => rfl
  | arguments args =>
    exact (copyArguments_copies old edge args).image Suffix.arguments (fun _ => rfl) fun _ => rfl
  | lookup key =>
    exact (KeySpecifier.copies old edge .lookup key).image Suffix.lookup (fun _ => rfl) fun _ => rfl

/-- A copied call is its children copied along their edges. -/
theorem ArrowCall.copies (c : ArrowCall α) :
    Copies old edge (c.copyM old edge) (c.map old) c.edges ArrowCall.children
      (·.map fun _ => ()) :=
  (ArrowTarget.copies old edge c.target).pair (copyArguments_copies old edge c.args) ArrowCall.mk
    (fun _ _ => rfl) fun _ _ => rfl

/-- A copied binding is its expression copied along its edge. -/
theorem Binding.copies (b : Binding α) :
    Copies old edge (b.copyM edge) (b.map old) [(.simpleBinding, b.expr)] (fun b => [b.expr])
      (·.map fun _ => ()) :=
  (Copies.child .simpleBinding b.expr).image (fun _ => ⟨b.name, b.op, ()⟩) (fun _ => rfl)
    fun _ => rfl

/-- A copied operand is copied along its edge, with its operator. -/
theorem copyLink_copies (level : ChainLevel) (x : ChainOp × α) :
    Copies old edge (copyLink edge level x) (x.1, old x.2) [(level.kind, x.2)] (fun y => [y.2])
      fun y => (y.1, ()) :=
  (Copies.child level.kind x.2).image (fun _ => (x.1, ())) (fun _ => rfl) fun _ => rfl

/-- A copied entry is key and value copied along their edges. -/
theorem MapEntry.copies (e : MapEntry α) :
    Copies old edge (e.copyM old edge) (e.map old)
      [(.mapConstructor, e.key), (.mapConstructor, e.value)] (fun e => [e.key, e.value])
      (·.map fun _ => ()) :=
  (Copies.child .mapConstructor e.key).pair (.child .mapConstructor e.value) MapEntry.mk
    (fun _ _ => rfl) fun _ _ => rfl

/-- Bindings and a body are copied along their edges, whatever is made of them. -/
theorem copyBound_copies (owner : Kind) (bindings : List (Binding α)) (body : α)
    (make : ∀ {γ : Type}, List (Binding γ) → γ → Form γ)
    (hc : ∀ bs (b : β), (make bs b).children = bs.map Binding.expr ++ [b])
    (hs : ∀ bs (b : β), (make bs b).shape = make (bs.map (·.map fun _ => ())) ()) :
    Copies old edge (copyBound old edge owner bindings body make)
      (make (bindings.map (·.map old)) (old body))
      (bindings.map (.simpleBinding, ·.expr) ++ [(owner, body)]) Form.children Form.shape :=
  (Copies.singles (Binding.copies old edge) bindings).pair (.child owner body) make hc hs

/-- Three operands are one and two. -/
theorem Form.copyM_ifExpr (c t e : α) : (ifExpr c t e).copyM old edge =
    copyBoth (edge .ifExpr c) (old c) (copyOperands old edge .ifExpr t e Prod.mk) (old t, old e)
      fun c branches => ifExpr c branches.1 branches.2 := by
  simp only [copyM, copyBoth, copyOperands, bind_assoc, pure_bind]
  refine bind_congr fun c' => bind_congr fun t' => bind_congr fun e' => congrArg pure ?_
  cases c' <;> cases t' <;> cases e' <;> rfl

/-- There is a copy of a construct if one of its edges has changed. -/
theorem Form.copies (f : Form α) :
    Copies old edge (f.copyM old edge) (f.map old) f.edges Form.children Form.shape := by
  cases f with
  | expr items =>
    exact (Copies.children .expr items).image Form.expr (fun _ => rfl) fun _ => rfl
  | forExpr bindings body =>
    exact copyBound_copies old edge .forExpr bindings body forExpr (fun _ _ => rfl) fun _ _ => rfl
  | letExpr bindings body =>
    exact copyBound_copies old edge .letExpr bindings body letExpr (fun _ _ => rfl) fun _ _ => rfl
  | quantified q bindings body =>
    exact copyBound_copies old edge .quantifiedExpr bindings body (quantified q) (fun _ _ => rfl)
      fun _ _ => rfl
  | ifExpr c t e =>
    have hbranches : Copies old edge (copyOperands old edge .ifExpr t e Prod.mk) (old t, old e)
        [(.ifExpr, t), (.ifExpr, e)] (fun b => [b.1, b.2]) fun _ => () :=
      (Copies.child .ifExpr t).pair (.child .ifExpr e) (fun _ _ => ()) (fun _ _ => rfl)
        fun _ _ => rfl
    rw [copyM_ifExpr]
    exact (Copies.child .ifExpr c).pair hbranches (fun _ _ => ifExpr () () ()) (fun _ _ => rfl)
      fun _ _ => rfl
  | chain level first rest =>
    rw [edges_chain]
    exact (Copies.child level.kind first).pair (.singles (copyLink_copies old edge level) rest)
      (fun _ => chain level ()) (fun _ _ => rfl) fun _ _ => rfl
  | comparison left op right =>
    exact (Copies.child .comparisonExpr left).pair (.child .comparisonExpr right)
      (fun _ _ => comparison () op ()) (fun _ _ => rfl) fun _ _ => rfl
  | range first last =>
    exact (Copies.child .rangeExpr first).pair (.child .rangeExpr last) range (fun _ _ => rfl)
      fun _ _ => rfl
  | arrow first calls =>
    exact (Copies.child .arrowExpr first).pair (.list (ArrowCall.copies old edge) calls)
      (fun _ => arrow ()) (fun _ _ => rfl) fun _ _ => rfl
  | instanceOf e type =>
    exact (Copies.child .instanceOfExpr e).image (Form.instanceOf · type)
      (fun _ => rfl) fun _ => rfl
  | treat e type =>
    exact (Copies.child .treatExpr e).image (Form.treat · type) (fun _ => rfl) fun _ => rfl
  | castable e type =>
    exact (Copies.child .castableExpr e).image (Form.castable · type) (fun _ => rfl) fun _ => rfl
  | cast e type =>
    exact (Copies.child .castExpr e).image (Form.cast · type) (fun _ => rfl) fun _ => rfl
  | unary ops operand =>
    exact (Copies.child .unaryExpr operand).image (Form.unary ops) (fun _ => rfl) fun _ => rfl
  | path leading relative =>
    exact (Copies.option .pathExpr relative).image (Form.path leading) (fun _ => rfl) fun _ => rfl
  | axisStep axis test predicates =>
    exact (Copies.children .predicate predicates).image (Form.axisStep axis test) (fun _ => rfl)
      fun _ => rfl
  | suffixed primary suffixes =>
    exact (Copies.child .postfixExpr primary).pair (.list (Suffix.copies old edge) suffixes)
      (fun _ => suffixed ()) (fun _ _ => rfl) fun _ _ => rfl
  | parenthesized inner =>
    exact (Copies.option .parenthesizedExpr inner).image Form.parenthesized (fun _ => rfl)
      fun _ => rfl
  | functionCall name args =>
    exact (copyArguments_copies old edge args).image (Form.functionCall name) (fun _ => rfl)
      fun _ => rfl
  | inlineFunction params result body =>
    exact (Copies.option .enclosedExpr body).image (Form.inlineFunction params result)
      (fun _ => rfl) fun _ => rfl
  | mapConstructor entries =>
    rw [edges_mapConstructor]
    exact (Copies.list (MapEntry.copies old edge) entries).image Form.mapConstructor
      (fun _ => rfl) fun _ => rfl
  | squareArray members =>
    exact (Copies.children .squareArrayConstructor members).image Form.squareArray (fun _ => rfl)
      fun _ => rfl
  | curlyArray body =>
    exact (Copies.option .enclosedExpr body).image Form.curlyArray (fun _ => rfl) fun _ => rfl
  | unaryLookup key =>
    exact (KeySpecifier.copies old edge .unaryLookup key).image Form.unaryLookup (fun _ => rfl)
      fun _ => rfl
  | _ => exact .leaf rfl

/-- What tells constructs apart. -/
def Form.parts (f : Form α) : List α × Form Unit := (f.children, f.shape)

/-- A construct is known from its children and its shape. -/
theorem Form.parts_injective : Function.Injective (parts : Form α → List α × Form Unit) :=
  fun _ _ h => eq_of_children (congrArg Prod.fst h) (congrArg Prod.snd h)

/-- The construct with these parts. Where there is none, the children take the places of those
of `f`. -/
noncomputable def Form.assemble (f : Form α) : List α × Form Unit → Form α :=
  Function.extend parts id fun p => f.refill p.1

/-- A construct is made again of its children and its shape. -/
theorem Form.assemble_parts (f g : Form α) : f.assemble (g.children, g.shape) = g :=
  parts_injective.extend_apply id _ g

/-- Other children may be put in the places of the old ones. -/
theorem Form.assemble_shape (f : Form α) (cs : List α) :
    f.assemble (cs, f.shape) = f.refill cs := by
  by_cases hparts : ∃ g : Form α, g.parts = (cs, f.shape)
  · obtain ⟨g, hg⟩ := hparts
    rw [← hg, parts, assemble_parts]
    exact eq_refill (congrArg Prod.fst hg) (congrArg Prod.snd hg)
  · exact Function.extend_apply' _ _ _ hparts

/-- A copy of a construct is the construct with the copied children in the places of its own. -/
theorem Form.copyM_eq (f : Form α) :
    f.copyM old edge = Option.map (f.map old).refill <$> copyEdges old edge f.edges := by
  have hcopy := congrArg (fun x => Option.map (f.map old).assemble <$> x)
    (copies old edge f).copy_eq
  simp only [Functor.map_map, Option.map_map, Function.comp_def, assemble_parts, assemble_shape,
    Option.map_id_fun', id_eq, id_map'] at hcopy
  exact hcopy

end Copies

end XPath
