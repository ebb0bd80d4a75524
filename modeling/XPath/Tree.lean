import XPath.Form.Lemmas

/-!
# Expression trees

A tree is a form with trees for its children and a label at every node. Parsed expressions carry no
labels (`Node`); where it matters which nodes of two trees are the same ones, the labels tell.

There is one recursion over trees, `Tree.para`: the value at a node is computed from its form, in
which every child stands beside its own value (`Tree.para_node`). All else is a choice of what to
compute. To prove something of every tree it is enough to prove it of a node whose children have it
(`Tree.induct`).
-/

namespace XPath

-- Sums as core has them, also where Mathlib is imported.
attribute [local instance (5000)] Zero.ofOfNat0

/-- An expression whose constructs carry labels. -/
inductive Tree (ι : Type) where
  | node (label : ι) (form : Form (Tree ι))

namespace Tree

variable {ι β : Type}

/-- The label of the root. -/
def label : Tree ι → ι
  | node l _ => l

/-- The construct at the root, with its sub-expressions as children. -/
def form : Tree ι → Form (Tree ι)
  | node _ f => f

/-- The kind of the construct at the root. -/
def kind (t : Tree ι) : Kind := t.form.kind

/-- The sub-expressions, in source order. -/
def children (t : Tree ι) : List (Tree ι) := t.form.children

/-! ## Recursion -/

variable (alg : ι → Form (Tree ι × β) → β)

mutual
/-- The value at the root, where `alg` gives the value at a node from its label and its form, with
every child beside its value. -/
def para : Tree ι → β
  | node l f => alg l (paraForm f)

/-- Every child with its value. -/
def paraForm : Form (Tree ι) → Form (Tree ι × β)
  | .expr items => .expr (paraList items)
  | .forExpr bindings body => .forExpr (paraBindings bindings) (body, para body)
  | .letExpr bindings body => .letExpr (paraBindings bindings) (body, para body)
  | .quantified q bindings body => .quantified q (paraBindings bindings) (body, para body)
  | .ifExpr c t e => .ifExpr (c, para c) (t, para t) (e, para e)
  | .chain level first rest => .chain level (first, para first) (paraChain rest)
  | .comparison left op right => .comparison (left, para left) op (right, para right)
  | .range first last => .range (first, para first) (last, para last)
  | .instanceOf e type => .instanceOf (e, para e) type
  | .treat e type => .treat (e, para e) type
  | .castable e type => .castable (e, para e) type
  | .cast e type => .cast (e, para e) type
  | .arrow first calls => .arrow (first, para first) (paraCalls calls)
  | .unary ops operand => .unary ops (operand, para operand)
  | .path leading relative => .path leading (paraOption relative)
  | .axisStep axis test predicates => .axisStep axis test (paraList predicates)
  | .parentStep => .parentStep
  | .suffixed primary suffixes => .suffixed (primary, para primary) (paraSuffixes suffixes)
  | .parenthesized inner => .parenthesized (paraOption inner)
  | .contextItem => .contextItem
  | .varRef name => .varRef name
  | .functionCall name args => .functionCall name (paraArguments args)
  | .namedFunctionRef name arity => .namedFunctionRef name arity
  | .inlineFunction params result body => .inlineFunction params result (paraOption body)
  | .mapConstructor entries => .mapConstructor (paraEntries entries)
  | .squareArray members => .squareArray (paraList members)
  | .curlyArray body => .curlyArray (paraOption body)
  | .unaryLookup key => .unaryLookup (paraKey key)
  | .integer v => .integer v
  | .decimal v => .decimal v
  | .double v => .double v
  | .string v => .string v

/-- Every tree of a list with its value. -/
def paraList : List (Tree ι) → List (Tree ι × β)
  | [] => []
  | t :: ts => (t, para t) :: paraList ts

/-- A tree that may be there with its value. -/
def paraOption : Option (Tree ι) → Option (Tree ι × β)
  | none => none
  | some t => some (t, para t)

/-- Every bound expression with its value. -/
def paraBindings : List (Binding (Tree ι)) → List (Binding (Tree ι × β))
  | [] => []
  | ⟨name, op, e⟩ :: bs => ⟨name, op, (e, para e)⟩ :: paraBindings bs

/-- Every operand with its value. -/
def paraChain : List (ChainOp × Tree ι) → List (ChainOp × (Tree ι × β))
  | [] => []
  | (op, e) :: es => (op, (e, para e)) :: paraChain es

/-- Every argument with its value. -/
def paraArguments : List (Argument (Tree ι)) → List (Argument (Tree ι × β))
  | [] => []
  | .expr e :: args => .expr (e, para e) :: paraArguments args
  | .placeholder :: args => .placeholder :: paraArguments args

/-- A key with its value. -/
def paraKey : KeySpecifier (Tree ι) → KeySpecifier (Tree ι × β)
  | .name n => .name n
  | .integer v => .integer v
  | .parenthesized e => .parenthesized (e, para e)
  | .wildcard => .wildcard

/-- Every expression of the suffixes with its value. -/
def paraSuffixes : List (Suffix (Tree ι)) → List (Suffix (Tree ι × β))
  | [] => []
  | .predicate e :: ss => .predicate (e, para e) :: paraSuffixes ss
  | .arguments args :: ss => .arguments (paraArguments args) :: paraSuffixes ss
  | .lookup key :: ss => .lookup (paraKey key) :: paraSuffixes ss

/-- A target with its value. -/
def paraTarget : ArrowTarget (Tree ι) → ArrowTarget (Tree ι × β)
  | .name n => .name n
  | .var n => .var n
  | .parenthesized e => .parenthesized (e, para e)

/-- Every expression of the calls with its value. -/
def paraCalls : List (ArrowCall (Tree ι)) → List (ArrowCall (Tree ι × β))
  | [] => []
  | ⟨target, args⟩ :: calls => ⟨paraTarget target, paraArguments args⟩ :: paraCalls calls

/-- Every key and every value of the entries with its value. -/
def paraEntries : List (MapEntry (Tree ι)) → List (MapEntry (Tree ι × β))
  | [] => []
  | ⟨k, v⟩ :: es => ⟨(k, para k), (v, para v)⟩ :: paraEntries es
end

/-- A child beside its value. -/
def withValue (t : Tree ι) : Tree ι × β := (t, para alg t)

theorem paraList_eq (ts : List (Tree ι)) : paraList alg ts = ts.map (withValue alg) := by
  induction ts with
  | nil => rfl
  | cons t ts ih => simp [paraList, withValue, ih]

theorem paraOption_eq (t : Option (Tree ι)) : paraOption alg t = t.map (withValue alg) := by
  cases t <;> rfl

theorem paraBindings_eq (bs : List (Binding (Tree ι))) :
    paraBindings alg bs = bs.map (·.map (withValue alg)) := by
  induction bs with
  | nil => rfl
  | cons b bs ih => simp [paraBindings, Binding.map, withValue, ih]

theorem paraChain_eq (es : List (ChainOp × Tree ι)) :
    paraChain alg es = es.map fun (op, e) => (op, withValue alg e) := by
  induction es with
  | nil => rfl
  | cons e es ih => simp [paraChain, withValue, ih]

theorem paraArguments_eq (args : List (Argument (Tree ι))) :
    paraArguments alg args = args.map (·.map (withValue alg)) := by
  induction args with
  | nil => rfl
  | cons a args ih => cases a <;> simp [paraArguments, Argument.map, withValue, ih]

theorem paraKey_eq (key : KeySpecifier (Tree ι)) : paraKey alg key = key.map (withValue alg) := by
  cases key <;> rfl

theorem paraSuffixes_eq (ss : List (Suffix (Tree ι))) :
    paraSuffixes alg ss = ss.map (·.map (withValue alg)) := by
  induction ss with
  | nil => rfl
  | cons s ss ih =>
    cases s <;> simp [paraSuffixes, Suffix.map, withValue, paraArguments_eq, paraKey_eq, ih]

theorem paraCalls_eq (calls : List (ArrowCall (Tree ι))) :
    paraCalls alg calls = calls.map (·.map (withValue alg)) := by
  induction calls with
  | nil => rfl
  | cons c calls ih =>
    obtain ⟨target, args⟩ := c
    cases target <;>
      simp [paraCalls, ArrowCall.map, paraTarget, ArrowTarget.map, withValue, paraArguments_eq, ih]

theorem paraEntries_eq (es : List (MapEntry (Tree ι))) :
    paraEntries alg es = es.map (·.map (withValue alg)) := by
  induction es with
  | nil => rfl
  | cons e es ih => simp [paraEntries, MapEntry.map, withValue, ih]

/-- The recursion puts its value beside every child, whatever the construct. -/
theorem paraForm_eq (f : Form (Tree ι)) : paraForm alg f = f.map (withValue alg) := by
  cases f <;>
    simp [paraForm, Form.map, withValue, paraList_eq, paraOption_eq, paraBindings_eq, paraChain_eq,
      paraArguments_eq, paraKey_eq, paraSuffixes_eq, paraCalls_eq, paraEntries_eq]

/-- The equation of the recursion, for all constructs at once. -/
theorem para_node (l : ι) (f : Form (Tree ι)) :
    para alg (node l f) = alg l (f.map fun t => (t, para alg t)) := by
  rw [para, paraForm_eq]
  rfl

/-- The value at the root, from the values at the children alone. -/
def fold (alg : ι → Form β → β) : Tree ι → β :=
  para fun l f => alg l (f.map Prod.snd)

/-- The equation of the fold, for all constructs at once. -/
theorem fold_node (alg : ι → Form β → β) (l : ι) (f : Form (Tree ι)) :
    fold alg (node l f) = alg l (f.map (fold alg)) := by
  rw [fold, para_node, Form.map_map]
  rfl

/-! ## Induction -/

/-- The number of nodes. -/
def size : Tree ι → Nat :=
  fold fun _ f => 1 + f.children.sum

theorem le_sum_of_mem {n : Nat} : ∀ {ns : List Nat}, n ∈ ns → n ≤ ns.sum
  | m :: ns, h => by
    rw [List.sum_cons]
    rcases List.mem_cons.mp h with rfl | h
    · exact Nat.le_add_right n _
    · exact Nat.le_trans (le_sum_of_mem h) (Nat.le_add_left _ m)

/-- A child is smaller than the tree, so recursion over children ends. -/
theorem size_lt_of_mem {l : ι} {f : Form (Tree ι)} {t : Tree ι} (h : t ∈ f.children) :
    t.size < (node l f).size := by
  rw [size, fold_node, Form.children_map, Nat.add_comm, Nat.lt_succ_iff]
  exact le_sum_of_mem (List.mem_map_of_mem h)

/-- What holds of a node as soon as it holds of all its children holds of every tree. -/
theorem induct {P : Tree ι → Prop}
    (node : ∀ l f, (∀ t ∈ f.children, P t) → P (node l f)) (t : Tree ι) : P t := by
  generalize h : t.size = n
  induction n using Nat.strongRecOn generalizing t with
  | ind n ih =>
    obtain ⟨l, f⟩ := t
    exact node l f fun c hc => ih c.size (h ▸ size_lt_of_mem hc) c rfl

end Tree

/-! ## Trees without labels -/

/-- An expression without labels. -/
abbrev Node := Tree Unit

/-- An expression as it is parsed. -/
def Node.of (f : Form Node) : Node := .node () f

/-- The same expression without its labels. -/
def Tree.toNode {ι : Type} : Tree ι → Node :=
  Tree.fold fun _ => Node.of

/-- Equal expressions, whatever their labels. Decimals and doubles are compared by value. -/
def Tree.same {ι κ : Type} : Tree ι → Tree κ → Bool :=
  Tree.fold fun _ f t => f.agree (fun sameAs child => sameAs child) t.form

end XPath
