import XPath.Proofs.Role

/-!
# Nesting

How deep the single expressions and the item types of a tree are nested (`Tree.nest`): the largest
number of them that lie around one another. An operand or what stands in a bracket is not nested any
deeper for that; only the single expressions in it are (`Node.nest_le`).
-/

namespace XPath

variable {α β ι : Type}

/-! ## Types -/

mutual
/-- The largest number of item types around one another. -/
def SequenceType.nest : SequenceType → Nat
  | .empty => 0
  | .items type _ => type.nest + 1

/-- The same inside of an item type. -/
def ItemType.nest : ItemType → Nat
  | .function params result => max (SequenceType.nestAll params) result.nest
  | .map _ value => value.nest
  | .array member => member.nest
  | .parenthesized inner => inner.nest + 1
  | _ => 0

/-- The greatest number of levels in one of the types. -/
def SequenceType.nestAll : List SequenceType → Nat
  | [] => 0
  | t :: ts => max t.nest (SequenceType.nestAll ts)
end

/-- The greatest number is small enough if all are. -/
theorem SequenceType.nestAll_le {ts : List SequenceType} {d : Nat} :
    SequenceType.nestAll ts ≤ d ↔ ∀ t ∈ ts, t.nest ≤ d := by
  induction ts with
  | nil => simp [SequenceType.nestAll]
  | cons t ts ih => rw [SequenceType.nestAll, Nat.max_le, ih, List.forall_mem_cons]

/-- The types that are written in a construct. -/
def Form.types : Form α → List SequenceType
  | instanceOf _ type | treat _ type => [type]
  | inlineFunction params result _ => params.flatMap (·.type.toList) ++ result.toList
  | _ => []

theorem Form.types_map (g : α → β) (f : Form α) : (f.map g).types = f.types := by
  cases f <;> rfl

/-! ## Trees -/

/-- The greatest of the numbers, 0 if there are none. -/
def greatest (ns : List Nat) : Nat := ns.foldr max 0

/-- The greatest number is small enough if all are. -/
theorem greatest_le {ns : List Nat} {d : Nat} : greatest ns ≤ d ↔ ∀ n ∈ ns, n ≤ d := by
  induction ns with
  | nil => simp [greatest]
  | cons n ns ih =>
    rw [greatest, List.foldr_cons, Nat.max_le, List.forall_mem_cons]
    exact and_congr_right' ih

/-- The nesting in a construct, from the nesting in its children. -/
def Form.nest (f : Form Nat) : Nat :=
  greatest (f.operands ++ f.contents ++ f.groups ++ f.singles.map (· + 1) ++
    f.types.map SequenceType.nest)

/-- The largest number of single expressions and item types around one another. -/
def Tree.nest : Tree ι → Nat := Tree.fold fun _ => Form.nest

/-- The nesting of a construct, by the roles of its children: a single expression is one level
deeper. -/
theorem Node.nest_le {f : Form Node} {d : Nat} : (Node.of f).nest ≤ d ↔
    (∀ e ∈ f.operands, e.nest ≤ d) ∧ (∀ e ∈ f.contents, e.nest ≤ d) ∧
      (∀ e ∈ f.groups, e.nest ≤ d) ∧ (∀ e ∈ f.singles, e.nest < d) ∧
      ∀ t ∈ f.types, t.nest ≤ d := by
  rw [Node.of, Tree.nest, Tree.fold_node, Form.nest, greatest_le]
  simp only [Form.operands_map, Form.contents_map, Form.groups_map, Form.singles_map,
    Form.types_map, List.forall_mem_append, List.forall_mem_map, and_assoc]
  rfl

/-! ## Constructs with lists of parts -/

section Parts

variable {d : Nat}

/-- Arguments are one level deeper. -/
theorem nest_functionCall_le {name : EQName} {args : List (Argument Node)} :
    (Node.of (.functionCall name args)).nest ≤ d ↔ ∀ a ∈ args, ∀ e ∈ a.children, e.nest < d := by
  rw [Node.nest_le]
  simp only [Form.operands, Form.contents, Form.groups, Form.singles, Form.types,
    List.forall_mem_flatMap]
  simp

/-- Keys and values are one level deeper. -/
theorem nest_mapConstructor_le {entries : List (MapEntry Node)} :
    (Node.of (.mapConstructor entries)).nest ≤ d ↔
      ∀ e ∈ entries, e.key.nest < d ∧ e.value.nest < d := by
  rw [Node.nest_le]
  simp only [Form.operands, Form.contents, Form.groups, Form.singles, Form.types,
    List.forall_mem_flatMap]
  simp

/-- Types and the body of a function are not deeper than itself. -/
theorem nest_inlineFunction_le {params : List Param} {result : Option SequenceType}
    {body : Option Node} : (Node.of (.inlineFunction params result body)).nest ≤ d ↔
      (∀ p ∈ params, ∀ t ∈ p.type, t.nest ≤ d) ∧ (∀ t ∈ result, t.nest ≤ d) ∧
        ∀ n ∈ body, n.nest ≤ d := by
  rw [Node.nest_le]
  simp only [Form.operands, Form.contents, Form.groups, Form.singles, Form.types,
    List.forall_mem_append, List.forall_mem_flatMap, Option.mem_toList]
  simp [and_assoc, and_comm, and_left_comm]

theorem nest_suffixed_le {primary : Node} {suffixes : List (Suffix Node)} :
    (Node.of (.suffixed primary suffixes)).nest ≤ d ↔ primary.nest ≤ d ∧ ∀ s ∈ suffixes,
      (∀ e ∈ s.contents, e.nest ≤ d) ∧ (∀ e ∈ s.groups, e.nest ≤ d) ∧
        ∀ e ∈ s.singles, e.nest < d := by
  rw [Node.nest_le]
  simp only [Form.operands, Form.contents, Form.groups, Form.singles, Form.types,
    List.forall_mem_flatMap, forall_and]
  simp

theorem nest_arrow_le {first : Node} {calls : List (ArrowCall Node)} :
    (Node.of (.arrow first calls)).nest ≤ d ↔ first.nest ≤ d ∧ ∀ c ∈ calls,
      (∀ e ∈ c.target.children, e.nest ≤ d) ∧ ∀ a ∈ c.args, ∀ e ∈ a.children, e.nest < d := by
  rw [Node.nest_le]
  simp only [Form.operands, Form.contents, Form.groups, Form.singles, Form.types,
    List.forall_mem_flatMap, forall_and]
  simp

end Parts

end XPath
