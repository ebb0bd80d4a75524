import XPath.Form

/-!
# Laws of forms

`Form.map` changes the children and nothing else: they are the images of the old children in the old
order (`Form.children_map`), kind and shape stay (`Form.kind_map`, `Form.shape_map`), and two
changes in a row are one (`Form.map_map`). Only what it does to the children matters
(`Form.map_congr`).
-/

namespace XPath

variable {α β γ : Type}

/-- The children of a changed argument are the changed ones, and so for every part of a form. -/
theorem Argument.children_map (g : α → β) (a : Argument α) :
    (a.map g).children = a.children.map g := by
  cases a <;> rfl

theorem KeySpecifier.children_map (g : α → β) (k : KeySpecifier α) :
    (k.map g).children = k.children.map g := by
  cases k <;> rfl

theorem Suffix.children_map (g : α → β) (s : Suffix α) :
    (s.map g).children = s.children.map g := by
  cases s <;>
    simp [Suffix.map, Suffix.children, List.map_flatMap, List.flatMap_map, Argument.children_map,
      KeySpecifier.children_map]

theorem ArrowCall.children_map (g : α → β) (c : ArrowCall α) :
    (c.map g).children = c.children.map g := by
  obtain ⟨target, args⟩ := c
  cases target <;>
    simp [ArrowCall.map, ArrowTarget.map, ArrowCall.children, ArrowTarget.children,
      List.map_flatMap, List.flatMap_map, Argument.children_map]

/-- The children of a changed form are the changed ones, in the same order. -/
theorem Form.children_map (g : α → β) (f : Form α) : (f.map g).children = f.children.map g := by
  cases f <;>
    simp [Form.map, Form.children, Binding.map, MapEntry.map, List.map_flatMap, List.flatMap_map,
      Argument.children_map, KeySpecifier.children_map, Suffix.children_map,
      ArrowCall.children_map, Function.comp_def] <;>
    rename_i o <;> cases o <;> rfl

/-- Change of the children leaves the construct as it is. -/
theorem Form.kind_map (g : α → β) (f : Form α) : (f.map g).kind = f.kind := by
  cases f <;> rfl

/-! ## Functor laws -/

/-- Two changes one after another are one. -/
theorem Argument.map_map (g : α → β) (h : β → γ) (a : Argument α) :
    (a.map g).map h = a.map (h ∘ g) := by
  cases a <;> rfl

theorem KeySpecifier.map_map (g : α → β) (h : β → γ) (k : KeySpecifier α) :
    (k.map g).map h = k.map (h ∘ g) := by
  cases k <;> rfl

theorem Suffix.map_map (g : α → β) (h : β → γ) (s : Suffix α) :
    (s.map g).map h = s.map (h ∘ g) := by
  cases s <;> simp [Suffix.map, Argument.map_map, KeySpecifier.map_map]

theorem ArrowCall.map_map (g : α → β) (h : β → γ) (c : ArrowCall α) :
    (c.map g).map h = c.map (h ∘ g) := by
  obtain ⟨target, args⟩ := c
  cases target <;> simp [ArrowCall.map, ArrowTarget.map, Argument.map_map]

/-- Two changes of all children one after another are one. -/
theorem Form.map_map (g : α → β) (h : β → γ) (f : Form α) : (f.map g).map h = f.map (h ∘ g) := by
  cases f <;>
    simp [Form.map, Binding.map, MapEntry.map, Argument.map_map, KeySpecifier.map_map,
      Suffix.map_map, ArrowCall.map_map]

/-- Nothing changes where no expression does. -/
theorem Argument.map_id (a : Argument α) : a.map id = a := by
  cases a <;> rfl

theorem KeySpecifier.map_id (k : KeySpecifier α) : k.map id = k := by
  cases k <;> rfl

theorem Suffix.map_id (s : Suffix α) : s.map id = s := by
  cases s <;> simp [Suffix.map, Argument.map_id, KeySpecifier.map_id]

theorem ArrowCall.map_id (c : ArrowCall α) : c.map id = c := by
  obtain ⟨target, args⟩ := c
  cases target <;> simp [ArrowCall.map, ArrowTarget.map, Argument.map_id]

/-- Nothing changes where no child does. -/
theorem Form.map_id (f : Form α) : f.map id = f := by
  cases f <;>
    simp [Form.map, Binding.map, MapEntry.map, Argument.map_id, KeySpecifier.map_id,
      Suffix.map_id, ArrowCall.map_id]

/-- What is put beside the children can be taken away again. -/
theorem Form.map_fst (g : α → β) (f : Form α) : (f.map fun a => (a, g a)).map Prod.fst = f := by
  rw [Form.map_map]
  exact f.map_id

/-- The shape does not depend on the children. -/
theorem Form.shape_map (g : α → β) (f : Form α) : (f.map g).shape = f.shape :=
  f.map_map g fun _ => ()

/-- Only what happens to the children of a part counts. -/
theorem Argument.map_congr {g h : α → β} {a : Argument α} (w : ∀ c ∈ a.children, g c = h c) :
    a.map g = a.map h := by
  cases a <;> simp_all [Argument.map, Argument.children]

theorem KeySpecifier.map_congr {g h : α → β} {k : KeySpecifier α}
    (w : ∀ c ∈ k.children, g c = h c) : k.map g = k.map h := by
  cases k <;> simp_all [KeySpecifier.map, KeySpecifier.children]

/-- Only what happens to the children of all arguments counts. -/
theorem Argument.map_congr_all {g h : α → β} {args : List (Argument α)}
    (w : ∀ c ∈ args.flatMap Argument.children, g c = h c) :
    args.map (·.map g) = args.map (·.map h) :=
  List.map_congr_left fun a ha =>
    Argument.map_congr fun c hc => w c (List.mem_flatMap.mpr ⟨a, ha, hc⟩)

theorem Suffix.map_congr {g h : α → β} {s : Suffix α} (w : ∀ c ∈ s.children, g c = h c) :
    s.map g = s.map h := by
  cases s with
  | predicate e => simp_all [Suffix.map, Suffix.children]
  | arguments args => exact congrArg Suffix.arguments (Argument.map_congr_all w)
  | lookup key => exact congrArg Suffix.lookup (KeySpecifier.map_congr w)

theorem ArrowCall.map_congr {g h : α → β} {c : ArrowCall α} (w : ∀ e ∈ c.children, g e = h e) :
    c.map g = c.map h := by
  obtain ⟨target, args⟩ := c
  have hargs := Argument.map_congr_all fun e he => w e (List.mem_append_right _ he)
  cases target <;>
    simp_all [ArrowCall.map, ArrowTarget.map, ArrowCall.children, ArrowTarget.children]

/-- Only what happens to the children counts. -/
theorem Form.map_congr {g h : α → β} {f : Form α} (w : ∀ c ∈ f.children, g c = h c) :
    f.map g = f.map h := by
  have hb {bs : List (Binding α)} (w : ∀ c ∈ bs.map Binding.expr, g c = h c) :
      bs.map (·.map g) = bs.map (·.map h) :=
    List.map_congr_left fun b hb => by simp [Binding.map, w b.expr (List.mem_map_of_mem hb)]
  have ho {o : Option α} (w : ∀ c ∈ o.toList, g c = h c) : o.map g = o.map h := by
    cases o with
    | none => rfl
    | some e => simp [w e (by simp)]
  cases f with
  | expr items => exact congrArg Form.expr (List.map_congr_left w)
  | forExpr bindings body =>
    simp [Form.map, hb fun c hc => w c (List.mem_append_left _ hc), w body (by simp [children])]
  | letExpr bindings body =>
    simp [Form.map, hb fun c hc => w c (List.mem_append_left _ hc), w body (by simp [children])]
  | quantified q bindings body =>
    simp [Form.map, hb fun c hc => w c (List.mem_append_left _ hc), w body (by simp [children])]
  | chain level first rest =>
    simp only [Form.map, w first (by simp [children]), chain.injEq, true_and]
    refine List.map_congr_left fun e he => ?_
    rw [w e.2 (List.mem_cons_of_mem _ (List.mem_map_of_mem he))]
  | arrow first calls =>
    have : calls.map (·.map g) = calls.map (·.map h) :=
      List.map_congr_left fun c hc => ArrowCall.map_congr fun e he =>
        w e (List.mem_cons_of_mem _ (List.mem_flatMap.mpr ⟨c, hc, he⟩))
    simp [Form.map, w first (by simp [children]), this]
  | suffixed primary suffixes =>
    have : suffixes.map (·.map g) = suffixes.map (·.map h) :=
      List.map_congr_left fun s hs => Suffix.map_congr fun e he =>
        w e (List.mem_cons_of_mem _ (List.mem_flatMap.mpr ⟨s, hs, he⟩))
    simp [Form.map, w primary (by simp [children]), this]
  | functionCall name args => simp [Form.map, Argument.map_congr_all w]
  | mapConstructor entries =>
    refine congrArg Form.mapConstructor (List.map_congr_left fun e he => ?_)
    have hw := fun c hc => w c (List.mem_flatMap.mpr ⟨e, he, hc⟩)
    simp only [MapEntry.map, hw e.key (by simp), hw e.value (by simp)]
  | path leading relative => simp [Form.map, ho w]
  | parenthesized inner => simp [Form.map, ho w]
  | inlineFunction params result body => simp [Form.map, ho w]
  | curlyArray body => simp [Form.map, ho w]
  | axisStep axis test predicates => exact congrArg _ (List.map_congr_left w)
  | squareArray members => exact congrArg _ (List.map_congr_left w)
  | unaryLookup key => exact congrArg _ (KeySpecifier.map_congr w)
  | ifExpr c t e =>
    simp [Form.map, w c (by simp [children]), w t (by simp [children]), w e (by simp [children])]
  | comparison left op right =>
    simp [Form.map, w left (by simp [children]), w right (by simp [children])]
  | range first last => simp [Form.map, w first (by simp [children]), w last (by simp [children])]
  | instanceOf e type => simp [Form.map, w e (by simp [children])]
  | treat e type => simp [Form.map, w e (by simp [children])]
  | castable e type => simp [Form.map, w e (by simp [children])]
  | cast e type => simp [Form.map, w e (by simp [children])]
  | unary ops operand => simp [Form.map, w operand (by simp [children])]
  | _ => rfl

end XPath
