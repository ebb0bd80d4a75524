import XPath.Outline
import XPath.Proofs.LineFeeds
import XPath.Proofs.Words

/-!
# Lines of outlines

An outline has the line of every node, in the order of the nodes, parents before children
(`Tree.outlineLines_eq`). But a line shows the source text of a node without children, and a text
can contain line feeds. In a parsed expression they all come from strings and URIs, as its words
are lexemes and contain no blank (`lineFeeds_of_parseAll`).

So the outline of a parsed expression has a line for each node, and one more for each line feed in a
string or a URI that is shown (`outline_lines`). `lines_outline_literal` is the shortest expression
with more lines than nodes.
-/

namespace XPath

open Text

theorem Kind.lineFeeds_name (k : Kind) : lineFeeds k.name = 0 := by
  have hall : ∀ k ∈ all, lineFeeds k.name = 0 := by decide +kernel
  exact hall k k.mem_all

/-! ## Pieces of children -/

theorem Piece.mem_commaSeparated {p : Piece} {ps : List Piece} {pss : List (List Piece)}
    (hps : ps ∈ pss) (hp : p ∈ ps) : p ∈ commaSeparated pss := by
  cases pss with
  | nil => cases hps
  | cons qs pss =>
    rw [Rule.commaSeparated_cons]
    rcases List.mem_cons.mp hps with rfl | hps
    · exact List.mem_append_left _ hp
    · exact List.mem_append_right _ (List.mem_flatMap.mpr ⟨ps, hps, List.mem_append_right _ hp⟩)

section Children

variable {ι : Type} {c : Tree ι × List Piece} {p : Piece}

theorem mem_parenthesizedPieces (hp : p ∈ c.2) : p ∈ parenthesizedPieces c := by
  rw [parenthesizedPieces]
  split <;> simp [hp]

theorem mem_argumentPieces {args : List (Argument (Tree ι × List Piece))}
    (hc : c ∈ args.flatMap Argument.children) (hp : p ∈ c.2) : p ∈ argumentPieces args := by
  obtain ⟨a, ha, hca⟩ := List.mem_flatMap.mp hc
  have hpieces : p ∈ a.pieces := by
    cases a with
    | expr e =>
      obtain rfl := List.mem_singleton.mp hca
      exact hp
    | placeholder => cases hca
  simp [argumentPieces, Piece.mem_commaSeparated (List.mem_map_of_mem ha) hpieces]

theorem mem_bindingsPieces {word : Token} {bindings : List (Binding (Tree ι × List Piece))}
    (hc : c ∈ bindings.map Binding.expr) (hp : p ∈ c.2) : p ∈ bindingsPieces word bindings := by
  obtain ⟨b, hb, rfl⟩ := List.mem_map.mp hc
  have hpieces : p ∈ b.pieces := by simp [Binding.pieces, hp]
  simp [bindingsPieces, Piece.mem_commaSeparated (List.mem_map_of_mem hb) hpieces]

theorem mem_enclosedPieces (hp : p ∈ c.2) : p ∈ enclosedPieces (some c) := by
  simp [enclosedPieces, hp]

theorem KeySpecifier.mem_pieces {key : KeySpecifier (Tree ι × List Piece)} (hc : c ∈ key.children)
    (hp : p ∈ c.2) : p ∈ key.pieces := by
  cases key with
  | parenthesized e =>
    obtain rfl := List.mem_singleton.mp hc
    exact mem_parenthesizedPieces hp
  | _ => cases hc

theorem Suffix.mem_pieces {s : Suffix (Tree ι × List Piece)} (hc : c ∈ s.children) (hp : p ∈ c.2) :
    p ∈ s.pieces := by
  cases s with
  | predicate e =>
    obtain rfl := List.mem_singleton.mp hc
    simp [pieces, predicatePieces, hp]
  | arguments args => exact mem_argumentPieces hc hp
  | lookup key => exact List.mem_append_right _ (KeySpecifier.mem_pieces hc hp)

theorem ArrowCall.mem_pieces {call : ArrowCall (Tree ι × List Piece)} (hc : c ∈ call.children)
    (hp : p ∈ c.2) : p ∈ call.pieces := by
  rcases List.mem_append.mp hc with hc | hc
  · cases htarget : call.target with
    | parenthesized e =>
      rw [htarget] at hc
      obtain rfl := List.mem_singleton.mp hc
      rw [pieces, htarget]
      exact List.mem_append_left _ (mem_parenthesizedPieces hp)
    | _ =>
      rw [htarget] at hc
      cases hc
  · exact List.mem_append_right _ (mem_argumentPieces hc hp)

/-- What a child is rendered with, its parent is. -/
theorem Form.mem_pieces {f : Form (Tree ι × List Piece)} (hc : c ∈ f.children) (hp : p ∈ c.2) :
    p ∈ f.pieces := by
  cases f with
  | expr items | squareArray items =>
    have hitems : p ∈ Piece.commaSeparated (items.map Prod.snd) :=
      Piece.mem_commaSeparated (List.mem_map_of_mem hc) hp
    simp [pieces, hitems]
  | forExpr bindings body | letExpr bindings body | quantified _ bindings body =>
    rcases List.mem_append.mp hc with hc | hc
    · simp [pieces, mem_bindingsPieces hc hp]
    · obtain rfl := List.mem_singleton.mp hc
      simp [pieces, hp]
  | chain level first others =>
    rcases List.mem_cons.mp hc with rfl | hc
    · simp [pieces, hp]
    · obtain ⟨x, hx, rfl⟩ := List.mem_map.mp hc
      exact List.mem_append_right _ (List.mem_flatMap.mpr ⟨x, hx, List.mem_append_right _ hp⟩)
  | arrow first calls =>
    rcases List.mem_cons.mp hc with rfl | hc
    · simp [pieces, hp]
    · obtain ⟨call, hcall, hc⟩ := List.mem_flatMap.mp hc
      have hcallp := ArrowCall.mem_pieces hc hp
      exact List.mem_append_right _
        (List.mem_flatMap.mpr ⟨call, hcall, List.mem_append_right _ hcallp⟩)
  | suffixed primary suffixes =>
    rcases List.mem_cons.mp hc with rfl | hc
    · simp [pieces, hp]
    · obtain ⟨s, hs, hc⟩ := List.mem_flatMap.mp hc
      exact List.mem_append_right _ (List.mem_flatMap.mpr ⟨s, hs, Suffix.mem_pieces hc hp⟩)
  | axisStep axis test predicates =>
    have hpredicate : p ∈ predicatePieces c := by simp [predicatePieces, hp]
    exact List.mem_append_right _ (List.mem_flatMap.mpr ⟨c, hc, hpredicate⟩)
  | functionCall name args => exact List.mem_append_right _ (mem_argumentPieces hc hp)
  | path leading relative | parenthesized relative =>
    cases relative with
    | none => cases hc
    | some e =>
      obtain rfl := List.mem_singleton.mp hc
      simp [pieces, hp]
  | inlineFunction _ _ body | curlyArray body =>
    cases body with
    | none => cases hc
    | some e =>
      obtain rfl := List.mem_singleton.mp hc
      exact List.mem_append_right _ (mem_enclosedPieces hp)
  | mapConstructor entries =>
    obtain ⟨e, he, hc⟩ := List.mem_flatMap.mp hc
    have hentry : p ∈ e.pieces := by
      obtain rfl | rfl : c = e.key ∨ c = e.value := by simpa using hc
      · simp [MapEntry.pieces, hp]
      · simp [MapEntry.pieces, hp]
    simp [pieces, Piece.mem_commaSeparated (List.mem_map_of_mem he) hentry]
  | unaryLookup key => exact List.mem_append_right _ (KeySpecifier.mem_pieces hc hp)
  | ifExpr first second third =>
    obtain rfl | rfl | rfl : c = first ∨ c = second ∨ c = third := by simpa [children] using hc
    all_goals simp [pieces, hp]
  | comparison first _ second | range first second =>
    obtain rfl | rfl : c = first ∨ c = second := by simpa [children] using hc
    all_goals simp [pieces, hp]
  | instanceOf e _ | treat e _ | castable e _ | cast e _ | unary _ e =>
    obtain rfl := List.mem_singleton.mp hc
    simp [pieces, hp]
  | _ => cases hc

end Children

/-! ## Nodes in order -/

namespace Tree

variable {ι : Type} {t m : Tree ι}

/-- The nodes of a tree with their depths, parents before children, the root at a depth. -/
def preorder : Tree ι → (depth : Nat) → List (Nat × Tree ι) :=
  para fun l f depth =>
    (depth, node l (f.map Prod.fst)) :: f.children.flatMap fun (_, nodes) => nodes (depth + 1)

theorem preorder_node (l : ι) (f : Form (Tree ι)) (depth : Nat) :
    (node l f).preorder depth =
      (depth, node l f) :: f.children.flatMap (·.preorder (depth + 1)) := by
  rw [preorder, para_node, Form.map_fst, Form.children_map, List.flatMap_map]

theorem length_preorder (t : Tree ι) (depth : Nat) : (t.preorder depth).length = t.size := by
  induction t using Tree.induct generalizing depth with
  | node l f ih =>
    rw [preorder_node, size, fold_node, Form.children_map, List.length_cons, List.length_flatMap,
      Nat.add_comm]
    exact congrArg (1 + ·) (congrArg List.sum (List.map_congr_left fun c hc => ih c hc _))

theorem mem_pieces_of_mem_preorder {depth k : Nat} (hm : (k, m) ∈ t.preorder depth) {p : Piece}
    (hp : p ∈ m.pieces) : p ∈ t.pieces := by
  induction t using Tree.induct generalizing depth with
  | node l f ih =>
    rw [preorder_node] at hm
    rcases List.mem_cons.mp hm with hm | hm
    · cases hm
      exact hp
    · obtain ⟨c, hc, hm⟩ := List.mem_flatMap.mp hm
      have hchild : c.withPieces ∈ (f.map withPieces).children := by
        rw [Form.children_map]
        exact List.mem_map_of_mem hc
      rw [pieces_node]
      exact Form.mem_pieces hchild (ih c hc hm)

theorem outlineLines_eq (t : Tree ι) (depth : Nat) :
    t.outlineLines depth = (t.preorder depth).map fun (k, m) => outlineLine k m := by
  induction t using Tree.induct generalizing depth with
  | node l f ih =>
    rw [outlineLines, para_node, Form.map_fst, Form.children_map, List.flatMap_map, preorder_node,
      List.map_cons, List.map_flatMap]
    exact congrArg (_ :: ·) (List.flatMap_congr fun c hc => ih c hc _)

/-- The strings and URIs in the line of a node. -/
def shown (t : Tree ι) : List String :=
  if t.children.isEmpty then Piece.contents t.pieces else []

/-- The strings and URIs in the lines of all nodes. -/
def allShown (t : Tree ι) : List String := (t.preorder 0).flatMap fun (_, m) => m.shown

theorem lineFeeds_outlineLine (h : ∀ u, .text u ∈ t.pieces → lineFeeds u = 0) (depth : Nat) :
    lineFeeds (outlineLine depth t) = totalLineFeeds t.shown := by
  have hindent : lineFeeds (String.ofList (List.replicate (2 * depth) ' ')) = 0 := by
    rw [lineFeeds_eq_zero, String.toList_ofList]
    simp
  rw [outlineLine, lineFeeds_append, lineFeeds_append, hindent, t.kind.lineFeeds_name, shown]
  split
  · rw [lineFeeds_append, lineFeeds_text h, Nat.zero_add]
    exact Nat.zero_add _
  · rfl

/-- The line feeds in the lines of a tree. -/
theorem totalLineFeeds_outlineLines (h : ∀ u, .text u ∈ t.pieces → lineFeeds u = 0) :
    totalLineFeeds (t.outlineLines 0) = totalLineFeeds t.allShown := by
  have hline : ∀ p ∈ t.preorder 0, lineFeeds (outlineLine p.1 p.2) = totalLineFeeds p.2.shown :=
    fun p hp => lineFeeds_outlineLine (fun u hu => h u (mem_pieces_of_mem_preorder hp hu)) p.1
  rw [allShown, totalLineFeeds_flatMap, outlineLines_eq, totalLineFeeds, List.map_map]
  exact congrArg List.sum (List.map_congr_left hline)

theorem lines_outline (t : Tree ι) : lines t.outline = (t.outlineLines 0).flatMap splitLines := by
  refine lines_join fun hnil => ?_
  obtain ⟨l, f⟩ := t
  rw [outlineLines_eq, preorder_node] at hnil
  cases hnil

theorem length_lines_outline (h : ∀ u, .text u ∈ t.pieces → lineFeeds u = 0) :
    (lines t.outline).length = t.size + totalLineFeeds t.allShown := by
  rw [lines_outline, length_flatMap_splitLines, totalLineFeeds_outlineLines h, outlineLines_eq,
    List.length_map, length_preorder]

theorem lines_outline_eq_iff (h : ∀ u, .text u ∈ t.pieces → lineFeeds u = 0) :
    lines t.outline = t.outlineLines 0 ↔ ∀ s ∈ t.allShown, '\n' ∉ s.toList := by
  rw [← totalLineFeeds_eq_zero, ← totalLineFeeds_outlineLines h]
  constructor
  · intro hlines
    have hlength := length_flatMap_splitLines (t.outlineLines 0)
    rw [← lines_outline, hlines] at hlength
    omega
  · intro hzero
    have hone : ∀ l ∈ t.outlineLines 0, splitLines l = [l] := fun l hl =>
      splitLines_of_lineFeeds_eq_zero (lineFeeds_eq_zero.mpr (totalLineFeeds_eq_zero.mp hzero l hl))
    rw [lines_outline, List.flatMap_congr hone, List.flatMap_singleton']

end Tree

/-! ## Parsed expressions -/

theorem lineFeeds_of_parseAll {maxDepth : Nat} {source : String} {n : Node}
    (h : parseAll maxDepth source = .ok n) (t : Token) (ht : .text t ∈ n.pieces) :
    lineFeeds t = 0 := by
  refine lineFeeds_eq_zero.mpr fun hfeed => ?_
  have hblank := (Lexeme.isWhole_plain (isWhole_of_parseAll h t ht) '\n' hfeed).1
  exact absurd hblank (by decide)

/-- The outline of a parsed expression has a line for each node, and one more for each line feed in
a string or URI that it shows. It has the line of each node, in the order of the nodes, just if
there are no such line feeds. -/
theorem outline_lines {maxDepth : Nat} {source : String} {n : Node}
    (h : parseAll maxDepth source = .ok n) :
    (lines n.outline).length = n.size + totalLineFeeds n.allShown ∧
      (lines n.outline = ((n.preorder 0).map fun (depth, m) =>
          String.ofList (List.replicate (2 * depth) ' ') ++ m.kind.name ++
            if m.children.isEmpty then " " ++ m.text else "") ↔
        ∀ s ∈ n.allShown, '\n' ∉ s.toList) := by
  have hwords := lineFeeds_of_parseAll h
  refine ⟨Tree.length_lines_outline hwords, ?_⟩
  rw [← Tree.lines_outline_eq_iff hwords, Tree.outlineLines_eq]
  rfl

/-- Two line feeds in what is shown, in a string and in a URI. -/
theorem outline_lines_concat : ∃ n : Node, parseAll 1 "'a\nb' || $Q\x7b'\n'\x7dc" = .ok n ∧
    n.allShown = ["a\nb", "'\n'"] ∧
    (lines n.outline).length = n.size + totalLineFeeds n.allShown ∧
      (lines n.outline = ((n.preorder 0).map fun (depth, m) =>
          String.ofList (List.replicate (2 * depth) ' ') ++ m.kind.name ++
            if m.children.isEmpty then " " ++ m.text else "") ↔
        ∀ s ∈ n.allShown, '\n' ∉ s.toList) := by
  let n : Node := .of (.expr [.of (.chain .stringConcat (.of (.string "a\nb"))
    [(.concat, .of (.varRef (.uriQualified "'\n'" ⟨"c"⟩)))])])
  have h : parseAll 1 "'a\nb' || $Q\x7b'\n'\x7dc" = .ok n :=
    parseAll_eq_ok.mpr ⟨["'", "a\nb", "'", " ", "||", " ", "$", "Q", "\x7b", "'", "\n", "'",
      "\x7d", "c"], by decide +kernel, rfl⟩
  exact ⟨n, h, by decide +kernel, outline_lines h⟩

/-- A literal with a line feed makes two lines. -/
theorem lines_outline_literal : ∃ n : Node, parseAll defaultMaxDepth "'a\nb'" = .ok n ∧
    n.size = 2 ∧ lines n.outline = ["Expr", "  StringLiteral \"a", "b\""] := by
  have h : parseAll defaultMaxDepth "'a\nb'" = .ok (Node.of (.expr [.of (.string "a\nb")])) :=
    parseAll_eq_ok.mpr ⟨["'", "a\nb", "'"], by decide +kernel, rfl⟩
  exact ⟨_, h, by decide +kernel, by decide +kernel⟩

end XPath
