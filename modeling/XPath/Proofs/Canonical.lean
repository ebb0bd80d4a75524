import XPath.Proofs.Layout
import XPath.Proofs.Nearest

/-!
# Canonical trees

Rendering a decimal shows a digit after its point, so that a decimal without one is read back as
another form of the same number. The canonical tree has the decimals that its own text shows
(`Tree.canon`). It is the same expression (`Tree.same_canon`) with the same pieces
(`Tree.pieces_canon`).
-/

namespace XPath

variable {α β : Type}

/-- The construct with a decimal as it is shown. -/
def Form.canon : Form α → Form α
  | decimal d => .decimal d.shown
  | f => f

/-- The expression with all decimals as they are shown. -/
def Tree.canon : Node → Node := Tree.fold fun _ f => .of f.canon

/-- To change the children and to show decimals do not touch each other. -/
theorem Form.map_canon (g : α → β) (f : Form α) : f.canon.map g = (f.map g).canon := by
  cases f <;> rfl

/-- The construct stays the same. -/
theorem Form.kind_canon (f : Form α) : f.canon.kind = f.kind := by
  cases f <;> rfl

theorem Tree.canon_of (f : Form Node) : (Node.of f).canon = .of (f.map Tree.canon).canon :=
  fold_node _ () f

/-- The construct at the root stays the same. -/
theorem Tree.kind_canon (n : Node) : n.canon.kind = n.kind := by
  obtain ⟨⟨⟩, f⟩ := n
  rw [show Tree.node () f = Node.of f from rfl, canon_of]
  exact (Form.kind_canon _).trans (Form.kind_map _ f)

/-! ## Pieces -/

/-- Only the pieces of the children matter, and whether they bring parentheses of their own. -/
theorem Form.pieces_map {ι κ : Type} (g : Tree ι × List Piece → Tree κ × List Piece)
    (hpieces : ∀ c, (g c).2 = c.2)
    (hparens : ∀ c, parenthesizedPieces (g c) = parenthesizedPieces c)
    (f : Form (Tree ι × List Piece)) : (f.map g).pieces = f.pieces := by
  have hargument (a : Argument (Tree ι × List Piece)) : (a.map g).pieces = a.pieces := by
    cases a <;> simp [Argument.map, Argument.pieces, hpieces]
  have harguments (args : List (Argument (Tree ι × List Piece))) :
      argumentPieces (args.map (·.map g)) = argumentPieces args := by
    simp [argumentPieces, Function.comp_def, hargument]
  have hkey (key : KeySpecifier (Tree ι × List Piece)) : (key.map g).pieces = key.pieces := by
    cases key <;> simp [KeySpecifier.map, KeySpecifier.pieces, hparens]
  have henclosed (o : Option (Tree ι × List Piece)) :
      enclosedPieces (o.map g) = enclosedPieces o := by
    cases o <;> simp [enclosedPieces, hpieces]
  have hbinding (b : Binding (Tree ι × List Piece)) : (b.map g).pieces = b.pieces := by
    simp [Binding.map, Binding.pieces, hpieces]
  have hentry (e : MapEntry (Tree ι × List Piece)) : (e.map g).pieces = e.pieces := by
    simp [MapEntry.map, MapEntry.pieces, hpieces]
  have hpredicate (c : Tree ι × List Piece) : predicatePieces (g c) = predicatePieces c := by
    simp [predicatePieces, hpieces]
  cases f with
  | arrow first calls =>
    have hcall (c : ArrowCall (Tree ι × List Piece)) : (c.map g).pieces = c.pieces := by
      obtain ⟨target, args⟩ := c
      cases target <;>
        simp [ArrowCall.map, ArrowTarget.map, ArrowCall.pieces, ArrowTarget.pieces, harguments,
          hparens]
    simp [map, Form.pieces, List.flatMap_map, hpieces, hcall]
  | suffixed primary suffixes =>
    have hsuffix (s : Suffix (Tree ι × List Piece)) : (s.map g).pieces = s.pieces := by
      cases s <;> simp [Suffix.map, Suffix.pieces, hpredicate, harguments, hkey]
    simp [map, Form.pieces, List.flatMap_map, hpieces, hsuffix]
  | path leading relative => cases relative <;> simp [map, Form.pieces, hpieces]
  | parenthesized inner => cases inner <;> simp [map, Form.pieces, hpieces]
  | _ =>
    simp [map, Form.pieces, bindingsPieces, List.flatMap_map, Function.comp_def, hpieces,
      harguments, hkey, henclosed, hbinding, hentry, hpredicate]

/-- A zero at the end of an integer is a zero at the end of its digits. -/
theorem Decimal.padded_mul_ten (n : Nat) :
    padded 2 (n * 10) = (Nat.repr n).toList ++ ['0'] := by
  rcases Nat.eq_zero_or_pos n with rfl | hn
  · rfl
  · have hsnoc := Nat.toDigits_append_toDigits (b := 10) (d := 0) (by decide) hn (by decide)
    have hpos := List.length_pos_iff.mpr (Nat.toDigits_ne_nil (b := 10) (n := n))
    rw [Nat.mul_comm] at hsnoc
    rw [padded, Nat.toList_repr, Nat.toList_repr, ← Nat.add_zero (n * 10), ← hsnoc]
    simp
    omega

/-- The text shows the digits of the number it is read back as. -/
theorem Decimal.text_shown {d : Decimal} (h : 0 ≤ d.unscaled) : d.shown.text = d.text := by
  by_cases hs : d.scale = 0
  · have htext : d.text = String.ofList ((Nat.repr d.unscaled.natAbs).toList ++ ['.', '0']) := by
      have hpos := List.length_pos_iff.mpr
        (Token.isDigits_iff.mp (Token.isDigits_repr d.unscaled.natAbs)).1
      rw [text_of_nonneg h, wholeDigits, fractionDigits, if_pos hs, hs, Nat.sub_zero,
        List.take_length, padded, Nat.zero_add, show 1 - _ = 0 by omega]
      rfl
    have hdigits : padded 2 (d.unscaled * 10).natAbs =
        (Nat.repr d.unscaled.natAbs).toList ++ ['0'] := by
      rw [Int.natAbs_mul]
      exact padded_mul_ten _
    have hshown : d.shown = ⟨d.unscaled * 10, 1⟩ := by rw [shown, if_pos hs]
    have hwhole : d.shown.wholeDigits = (Nat.repr d.unscaled.natAbs).toList := by
      simp [wholeDigits, hshown, hdigits]
    have hfraction : d.shown.fractionDigits = ['0'] := by
      simp [fractionDigits, hshown, hdigits]
    rw [text_of_nonneg (by rw [hshown]; simpa using h), hwhole, hfraction, htext]
  · rw [shown, if_neg hs]

/-- Some node of no other kind than to bring parentheses or not. -/
def stub (n : Node) : Node :=
  if n.kind = .parenthesizedExpr then .of (.parenthesized none) else .of .contextItem

/-- A stub is in parentheses if the expression is. -/
theorem kind_stub (n : Node) :
    (stub n).kind = .parenthesizedExpr ↔ n.kind = .parenthesizedExpr := by
  unfold stub
  split
  next h => exact iff_of_true rfl h
  next h => exact iff_of_false (by decide) h

/-- The pieces of a node from those of its children and the parentheses they bring. -/
theorem Form.pieces_stub (f : Form (Node × List Piece)) :
    (f.map fun c => (stub c.1, c.2)).pieces = f.pieces :=
  pieces_map (fun c => (stub c.1, c.2)) (fun _ => rfl)
    (fun c => by simp only [parenthesizedPieces, kind_stub]) f

/-- A decimal is rendered as it is shown, unless it is negative. -/
theorem Form.pieces_canon {ι : Type} (f : Form (Tree ι × List Piece))
    (h : ∀ d, f = .decimal d → 0 ≤ d.unscaled) : f.canon.pieces = f.pieces := by
  cases f with
  | decimal d => simp only [canon, Form.pieces, Decimal.text_shown (h d rfl)]
  | _ => rfl

/-- The stub does not show how decimals are written. -/
theorem stub_canon (n : Node) : stub n.canon = stub n := by
  simp only [stub, Tree.kind_canon]

/-- An expression is rendered as the one that is shown. -/
theorem Tree.pieces_canon (n : Node) :
    ∀ {levels : Nat}, n.Fits levels → n.canon.pieces = n.pieces := by
  induction n using Tree.induct with
  | node l f ih =>
    intro levels h
    have hf := fits_node.mp h
    have hchild : ∀ c ∈ f.children, c.canon.pieces = c.pieces := fun c hc => by
      obtain ⟨k, hk⟩ := hf.exists_fits c hc
      exact ih c hc hk
    have hmap : ((f.map Tree.canon).map withPieces).map (fun c => (stub c.1, c.2)) =
        (f.map withPieces).map fun c => (stub c.1, c.2) := by
      simp only [Form.map_map]
      refine Form.map_congr fun c hc => ?_
      simp only [Function.comp_apply, withPieces, stub_canon, hchild c hc]
    rw [show node l f = Node.of f from rfl, canon_of, Node.of, pieces_node, Form.map_canon,
      Form.pieces_canon, ← Form.pieces_stub, hmap, Form.pieces_stub, Node.of, pieces_node]
    intro d hd
    cases f with
    | decimal e =>
      cases hd
      exact hf.parts.1
    | _ => cases hd

/-! ## Values -/

/-- What is shown of a decimal has its value. -/
theorem Decimal.sameValue_shown (d : Decimal) : d.shown.sameValue d := by
  have heq : d.shown.atScale (commonScale d.shown d) = d.atScale (commonScale d.shown d) := by
    by_cases hs : d.scale = 0
    · simp [shown, hs, atScale, commonScale]
    · rw [shown, if_neg hs]
  rw [sameValue, Decimal.compare, heq]
  simp [compareOfLessAndEq]

/-- A finite double has its own value. -/
theorem Double.sameValue_self {x : Double} (h : x.isFinite) : x.sameValue x := by
  have hnan : x.isNaN = false := by
    have : x.magnitude < infinityMagnitude := by simpa [isFinite] using h
    simpa [isNaN] using Nat.le_of_lt this
  simp [sameValue, hnan]

/-- A list agrees with the changed one if each element does with what becomes of it. -/
theorem agreeAll_map {r : α → β → Bool} {g : β → α} {bs : List β} (h : ∀ b ∈ bs, r (g b) b) :
    agreeAll r (bs.map g) bs := by
  induction bs with
  | nil => rfl
  | cons b bs ih =>
    rw [List.map_cons, agreeAll, h b (by simp), ih fun c hc => h c (by simp [hc])]
    rfl

/-- Constructs of one shape agree if their children and their numbers do. -/
theorem Form.agree_of_shape {r : α → β → Bool} {f : Form α} {g : Form β} (h : f.shape = g.shape)
    (hchildren : agreeAll r f.children g.children)
    (hdecimal : ∀ a b, f = .decimal a → g = .decimal b → a.sameValue b)
    (hdouble : ∀ a b, f = .double a → g = .double b → a.sameValue b) : f.agree r g := by
  unfold agree
  split
  · exact hdecimal _ _ rfl rfl
  · exact hdouble _ _ rfl rfl
  · rw [h, hchildren, beq_self_eq_true]
    rfl

/-- Expressions are the same if their roots agree, with sameness of the children. -/
theorem Tree.same_of (f : Form Node) {κ : Type} (t : Tree κ) :
    (Node.of f).same t = (f.map Tree.same).agree (fun sameAs child => sameAs child) t.form := by
  rw [same, Node.of, fold_node]

/-- The canonical tree is the same expression. -/
theorem Tree.same_canon (n : Node) : ∀ {levels : Nat}, n.Fits levels → n.canon.same n := by
  induction n using Tree.induct with
  | node l f ih =>
    intro levels h
    have hf := fits_node.mp h
    have hchildren : agreeAll (fun sameAs child => sameAs child)
        ((f.map Tree.canon).map Tree.same).children f.children := by
      rw [Form.map_map, Form.children_map]
      refine agreeAll_map fun c hc => ?_
      obtain ⟨k, hk⟩ := hf.exists_fits c hc
      exact ih c hc hk
    have hshape : ((f.map Tree.canon).map (Tree.same : Node → Node → Bool)).shape = f.shape := by
      rw [Form.shape_map, Form.shape_map]
    rw [show node l f = Node.of f from rfl, canon_of, same_of, Form.map_canon]
    cases f with
    | decimal d => exact Decimal.sameValue_shown d
    | double x => exact Double.sameValue_self hf.parts.1
    | _ =>
      refine Form.agree_of_shape hshape hchildren (fun a b ha => ?_) (fun a b ha => ?_) <;> cases ha

end XPath
