import XPath.Proofs.PlainTransform
import XPath.Proofs.RoundTrip

/-!
# Parenthesized expressions for variables

A tree that no parser made can still be read from its own tokens, if it fits some number of levels
(`parseAllTokens_write`). Substitution makes such trees. A parenthesized expression binds as tightly
as a variable and ends with a bracket, so it stands wherever the variable did (`Tree.StandIn`), and
a construct fits as it did before when others stand in for its children (`Form.FitsIn.map`). The
levels it needs are those of the tree and those of the expression that is put in
(`Node.standIn_substitute`).

The transform whose callback puts the expression in is substitution (`replaceVars_stands`), so what
it gives is parsed again (`parseAllTokens_replaceVars`).
-/

namespace XPath

open Grammar

/-! ## More levels -/

section Levels

variable {α β ι κ : Type}

theorem SequenceType.FitsIn.mono {inner inner' : ItemType → Prop} (hinner : ∀ t, inner t → inner' t)
    {type : SequenceType} (h : type.FitsIn inner) : type.FitsIn inner' := by
  cases type with
  | empty => trivial
  | items t occurrence => exact ⟨hinner t h.1, h.2⟩

theorem ItemType.FitsIn.mono {inner inner' : ItemType → Prop} (hinner : ∀ t, inner t → inner' t)
    {type : ItemType} (h : type.FitsIn inner) : type.FitsIn inner' := by
  cases type with
  | function params result =>
    exact ⟨fun p hp => SequenceType.FitsIn.mono hinner (h.1 p hp),
      SequenceType.FitsIn.mono hinner h.2⟩
  | map key value => exact ⟨h.1, SequenceType.FitsIn.mono hinner h.2⟩
  | array member => exact SequenceType.FitsIn.mono hinner h
  | parenthesized type => exact hinner type h
  | _ => exact h

theorem ItemType.Fits.add {levels : Nat} (extra : Nat) :
    ∀ {type : ItemType}, type.Fits levels → type.Fits (levels + extra) := by
  induction levels with
  | zero => exact fun h => h.elim
  | succ levels ih =>
    intro type h
    rw [Nat.add_right_comm]
    exact ItemType.FitsIn.mono (fun _ => ih) h

theorem Form.PartsFit.mono {inner inner' : ItemType → Prop} (hinner : ∀ t, inner t → inner' t)
    {f : Form α} (h : f.PartsFit inner) : f.PartsFit inner' := by
  cases f with
  | instanceOf e type => exact SequenceType.FitsIn.mono hinner h
  | treat e type => exact SequenceType.FitsIn.mono hinner h
  | inlineFunction params result body =>
    exact ⟨fun p hp => ⟨(h.1 p hp).name, fun t ht =>
      SequenceType.FitsIn.mono hinner ((h.1 p hp).type t ht)⟩,
      fun t ht => SequenceType.FitsIn.mono hinner (h.2 t ht)⟩
  | _ => exact h

theorem Form.proper_map (g : α → β) (f : Form α) : (f.map g).Proper ↔ f.Proper := by
  cases f with
  | path leading relative => cases relative <;> simp [map, Proper]
  | chain level first rest =>
    simp only [map, Proper, ne_eq, List.map_eq_nil_iff, List.forall_mem_map]
  | _ => simp [map, Proper, Binding.map]

theorem KeySpecifier.wellFormed_map (g : α → β) (key : KeySpecifier α) :
    (key.map g).WellFormed ↔ key.WellFormed := by
  cases key <;> exact Iff.rfl

theorem Suffix.wellFormed_map (g : α → β) (s : Suffix α) : (s.map g).WellFormed ↔ s.WellFormed := by
  cases s with
  | lookup key => exact key.wellFormed_map g
  | _ => exact Iff.rfl

theorem ArrowTarget.wellFormed_map (g : α → β) (target : ArrowTarget α) :
    (target.map g).WellFormed ↔ target.WellFormed := by
  cases target <;> exact Iff.rfl

theorem Form.partsFit_map (g : α → β) {inner : ItemType → Prop} (f : Form α) :
    (f.map g).PartsFit inner ↔ f.PartsFit inner := by
  cases f with
  | unaryLookup key => exact key.wellFormed_map g
  | _ =>
    simp [map, PartsFit, Binding.map, ArrowCall.map, ArrowTarget.wellFormed_map,
      Suffix.wellFormed_map]

theorem Form.followers_map (g : α → β) (f : Form α) :
    (f.map g).followers = f.followers.map fun p => (g p.1, p.2) := by
  have hbindings (bs : List (Binding α)) (word : Token) :
      ((bs.map (·.map g)).getLast?.map fun b => (b.expr, word)).toList =
        (bs.getLast?.map fun b => (b.expr, word)).toList.map fun p => (g p.1, p.2) := by
    cases h : bs.getLast? <;> simp [h, Binding.map]
  cases f with
  | forExpr bindings body => exact hbindings bindings "return"
  | letExpr bindings body => exact hbindings bindings "return"
  | quantified q bindings body => exact hbindings bindings "satisfies"
  | chain level first rest =>
    have hchildren : g first :: (rest.map fun x => (x.1, g x.2)).map Prod.snd =
        (first :: rest.map Prod.snd).map g := by simp
    have hops : (rest.map fun x => (x.1, g x.2)).map (fun x => Spelled.spelling x.1) =
        rest.map fun x => Spelled.spelling x.1 := by simp
    exact (congrArg₂ List.zip hchildren hops).trans List.zip_map_left
  | _ => rfl

theorem Form.mem_children_of_mem_followers {f : Form α} {p : α × Token} (hp : p ∈ f.followers) :
    p.1 ∈ f.children := by
  have hbindings {bs : List (Binding α)} {word : Token}
      (hp : p ∈ (bs.getLast?.map fun b => (b.expr, word)).toList) : p.1 ∈ bs.map Binding.expr := by
    obtain ⟨b, hb, rfl⟩ : ∃ b, bs.getLast? = some b ∧ (b.expr, word) = p := by simpa using hp
    exact List.mem_map_of_mem (List.mem_of_getLast? hb)
  cases f with
  | forExpr bindings body => exact List.mem_append_left _ (hbindings hp)
  | letExpr bindings body => exact List.mem_append_left _ (hbindings hp)
  | quantified q bindings body => exact List.mem_append_left _ (hbindings hp)
  | chain level first rest => exact (List.of_mem_zip hp).1
  | _ => simp_all [followers, children]

/-! ## Other children -/

/-- What stands in for `n` wherever `n` may stand, if there are `extra` levels more. -/
structure Tree.StandIn (extra : Nat) (n : Tree ι) (n' : Tree κ) : Prop where
  rank_eq : n'.rank = n.rank
  expr : n.kind = .expr → n'.kind = .expr
  group : n.kind = .parenthesizedExpr → n'.kind = .parenthesizedExpr
  admits_eq : ∀ t, n'.admits t = n.admits t
  fits : ∀ {levels}, n.Fits levels → n'.Fits (levels + extra)

theorem Form.FitsIn.map {extra levels : Nat} {f : Form (Tree ι)} (h : f.FitsIn levels)
    {g : Tree ι → Tree κ} (hg : ∀ c ∈ f.children, c.StandIn extra (g c)) :
    (f.map g).FitsIn (levels + extra) where
  operand := by
    rw [operands_map, rank_map, List.forall_mem_map]
    intro c hc
    have hstand := hg c (mem_children.mpr (.inl hc))
    obtain ⟨hrank, hfits⟩ := h.operand c hc
    exact ⟨hstand.rank_eq ▸ hrank, hstand.fits hfits⟩
  single := by
    rw [singles_map, List.forall_mem_map]
    intro c hc
    have hstand := hg c (mem_children.mpr (.inr (.inl hc)))
    obtain ⟨hrank, k, rfl, hfits⟩ := h.single c hc
    exact ⟨hstand.rank_eq ▸ hrank, k + extra, Nat.add_right_comm k 1 extra, hstand.fits hfits⟩
  content := by
    rw [contents_map, List.forall_mem_map]
    intro c hc
    have hstand := hg c (mem_children.mpr (.inr (.inr (.inl hc))))
    obtain ⟨hkind, hfits⟩ := h.content c hc
    exact ⟨hstand.expr hkind, hstand.fits hfits⟩
  group := by
    rw [groups_map, List.forall_mem_map]
    intro c hc
    have hstand := hg c (mem_children.mpr (.inr (.inr (.inr hc))))
    obtain ⟨hkind, hfits⟩ := h.group c hc
    exact ⟨hstand.group hkind, hstand.fits hfits⟩
  proper := (f.proper_map g).mpr h.proper
  parts := (f.partsFit_map g).mpr (h.parts.mono fun _ => ItemType.Fits.add extra)
  followed := by
    rw [followers_map, List.forall_mem_map]
    intro p hp
    have hstand := hg p.1 (mem_children_of_mem_followers hp)
    exact (hstand.admits_eq p.2).trans (h.followed p hp)

theorem Tree.Fits.add {levels extra : Nat} {n : Tree ι} (h : n.Fits levels) :
    n.Fits (levels + extra) := by
  induction n using Tree.induct generalizing levels with
  | node l f ih =>
    have hmap := (fits_node.mp h).map (g := id) fun c hc =>
      ⟨rfl, id, id, fun _ => rfl, ih c hc⟩
    rw [Form.map_id] at hmap
    exact fits_node.mpr hmap

end Levels

/-! ## Parentheses for variables -/

section Substitute

variable {names : EQName → Bool} {e : Node}

/-- Parentheses around `e` for a variable of one of the names. -/
def Form.substitute {α : Type} (names : EQName → Bool) (e : α) : Form α → Form α
  | varRef name => if names name then .parenthesized (some e) else .varRef name
  | f => f

/-- Parentheses around `e` for every variable of one of the names. -/
def Node.substitute (names : EQName → Bool) (e : Node) : Node → Node :=
  Tree.fold fun _ f => .of (f.substitute names e)

theorem Node.substitute_of (f : Form Node) : Node.substitute names e (.of f) =
    .of ((f.map (Node.substitute names e)).substitute names e) :=
  Tree.fold_node _ () f

/-- One primary expression for another, or no change. -/
theorem Form.substitute_cases {α : Type} (names : EQName → Bool) (e : α) (f : Form α) :
    f.substitute names e = f ∨
      ∃ name, f = .varRef name ∧ f.substitute names e = .parenthesized (some e) := by
  cases f with
  | varRef name =>
    by_cases hname : names name
    · exact .inr ⟨name, rfl, if_pos hname⟩
    · exact .inl (if_neg hname)
  | _ => exact .inl rfl

theorem Form.FitsIn.substitute {levels : Nat} {f : Form Node} (h : f.FitsIn levels)
    (hkind : e.kind = .expr) (he : e.Fits levels) : (f.substitute names e).FitsIn levels := by
  rcases f.substitute_cases names e with hsame | ⟨name, -, hparens⟩
  · rwa [hsame]
  · rw [hparens]
    refine .of_contents rfl rfl (fun c hc => ?_) trivial trivial
    obtain rfl : c = e := by simpa [contents] using hc
    exact ⟨hkind, he⟩

/-- What stands in the tree may stand there after the substitution. -/
theorem Node.standIn_substitute {extra : Nat} (hkind : e.kind = .expr) (he : e.Fits extra)
    (n : Node) : n.StandIn extra (Node.substitute names e n) := by
  induction n using Tree.induct with
  | node l f ih =>
    rw [show Tree.node l f = Node.of f from rfl, Node.substitute_of]
    have hfits {levels : Nat} (h : (Node.of f).Fits levels) :
        (Node.of ((f.map (Node.substitute names e)).substitute names e)).Fits (levels + extra) :=
      Tree.fits_node.mpr <| ((Tree.fits_node.mp h).map ih).substitute hkind
        (Nat.add_comm extra levels ▸ he.add)
    rcases (f.map (Node.substitute names e)).substitute_cases names e with hsame |
      ⟨name, hvar, hparens⟩
    · rw [hsame] at hfits ⊢
      refine ⟨f.rank_map _, fun h => (f.kind_map _).trans h, fun h => (f.kind_map _).trans h,
        fun t => ?_, hfits⟩
      rw [Node.of, Tree.admits_node, Node.of, Tree.admits_node, Form.map_map]
      exact congrArg (Form.admits t) (Form.map_congr fun c hc => (ih c hc).admits_eq t)
    · obtain rfl : f = .varRef name := by
        cases f <;> cases hvar
        rfl
      rw [hparens] at hfits ⊢
      exact ⟨rfl, fun h => (by cases h), fun h => (by cases h), fun _ => rfl, hfits⟩

end Substitute

/-! ## The transform -/

section Transform

variable {ε τ σ ι : Type} {names : EQName → Bool} {h : Heap}

/-- A node in parentheses for a variable of one of the names. -/
def Tree.replaceVar (names : EQName → Bool) (e t : Tree Nat) (_ : Option Kind) :
    LabelM ε τ (Tree Nat) :=
  match t.form with
  | .varRef name =>
    if names name then return .node (← LabelM.fresh) (.parenthesized (some e)) else return t
  | _ => return t

theorem realizes_replaceVar (names : EQName → Bool) (e : Tree Nat) (m : Node) :
    Realizes (fun h (_ : τ) (_ : σ) => e.Stands h m)
      (fun n _ => (pure (.of (n.form.substitute names m)) : ExceptT ε (StateM σ) Node))
      (Tree.replaceVar names e) where
  lasting h h' _ _ hext he := he.mono hext
  answers {h t} ht owner := by
    intro u s he
    obtain ⟨l, f⟩ := t
    have hsimulates : Simulates (fun h (_ : τ) (_ : σ) => e.Stands h m) Tree.Stands h
        (Tree.replaceVar names e (.node l f) owner : LabelM ε τ (Tree Nat))
        (pure (.of ((f.map Tree.toNode).substitute names m))) := by
      have hkeep : (Tree.node l f).Stands h (Node.of (f.map Tree.toNode)) :=
        ⟨ht, Tree.toNode_node l f⟩
      cases f with
      | varRef name =>
        by_cases hname : names name
        · have hparens : (Form.varRef name).substitute names m =
              (Form.parenthesized (some e)).map Tree.toNode := by
            rw [Form.substitute, if_pos hname, ← he.2]
            rfl
          have hnew : Simulates (fun h (_ : τ) (_ : σ) => e.Stands h m) Tree.Stands h
              (do return .node (← LabelM.fresh) (.parenthesized (some e)) :
                LabelM ε τ (Tree Nat)) _ :=
            .new (fun _ _ _ _ hext he => he.mono hext) (f := .parenthesized (some e))
              (by simpa [Form.children] using he.1)
          rw [Form.map, hparens]
          simpa only [Tree.replaceVar, Tree.form, if_pos hname] using hnew
        · have hsame : (Form.varRef name).substitute names m = .varRef name := if_neg hname
          rw [Form.map, hsame]
          simpa only [Tree.replaceVar, Tree.form, if_neg hname] using .pure hkeep
      | _ => exact .pure hkeep
    have hform : (Tree.node l f).toNode.form = f.map Tree.toNode :=
      congrArg Tree.form (Tree.toNode_node l f)
    rw [hform]
    exact hsimulates u s he

theorem Tree.pieces_toNode (t : Tree ι) : t.toNode.pieces = t.pieces := by
  induction t using Tree.induct with
  | node l f ih =>
    have hchildren : (f.map toNode).map withPieces = (f.map withPieces).map fun c =>
        (c.1.toNode, c.2) := by
      rw [Form.map_map, Form.map_map]
      exact Form.map_congr fun c hc => congrArg (toNode c, ·) (ih c hc)
    rw [toNode_node, Node.of, pieces_node, pieces_node, hchildren]
    exact Form.pieces_map (fun c => (c.1.toNode, c.2)) (fun _ => rfl)
      (fun c => by simp only [parenthesizedPieces, kind_toNode]) _

/-- Whether two numbers agree, where the constructs are decimals or doubles. -/
def Form.sameNumber? : Form Unit → Form Unit → Option Bool
  | decimal a, decimal b => some (a.sameValue b)
  | double a, double b => some (a.sameValue b)
  | _, _ => none

theorem Form.agree_eq {α β : Type} (r : α → β → Bool) (f : Form α) (g : Form β) :
    f.agree r g = (sameNumber? f.shape g.shape).getD
      (f.shape == g.shape && agreeAll r f.children g.children) := by
  cases f with
  | decimal a => cases g <;> rfl
  | double a => cases g <;> rfl
  | _ => rfl

theorem agreeAll_map_map {α α' β β' : Type} {r : α → β → Bool} {r' : α' → β' → Bool} {g : α' → α}
    {g' : β' → β} : ∀ {as : List α'} {bs : List β'}, (∀ a ∈ as, ∀ b, r (g a) (g' b) = r' a b) →
      agreeAll r (as.map g) (bs.map g') = agreeAll r' as bs
  | [], [], _ => rfl
  | [], _ :: _, _ => rfl
  | _ :: _, [], _ => rfl
  | a :: as, b :: bs, h => by
    rw [List.map_cons, List.map_cons, agreeAll, agreeAll, h a List.mem_cons_self b,
      agreeAll_map_map fun a' ha' => h a' (List.mem_cons_of_mem a ha')]

theorem Form.agree_map_map {α α' β β' : Type} {r : α → β → Bool} {r' : α' → β' → Bool} {g : α' → α}
    {g' : β' → β} {f : Form α'} {f' : Form β'}
    (h : ∀ a ∈ f.children, ∀ b, r (g a) (g' b) = r' a b) :
    (f.map g).agree r (f'.map g') = f.agree r' f' := by
  rw [agree_eq, agree_eq, shape_map, shape_map, children_map, children_map, agreeAll_map_map h]

/-- Equality of expressions does not ask for labels. -/
theorem Tree.same_toNode (n : Node) : ∀ t : Tree ι, n.same t.toNode = n.same t := by
  induction n using Tree.induct with
  | node l f ih =>
    rintro ⟨l', f'⟩
    have hnode : (f.map same).agree (fun sameAs child => sameAs child) (f'.map toNode) =
        f.agree (fun c b => c.same b) f' := Form.agree_map_map ih
    have htree : (f.map same).agree (fun sameAs child => sameAs child) (f'.map id) =
        f.agree (fun c b => c.same b) f' := Form.agree_map_map fun _ _ _ => rfl
    rw [Form.map_id] at htree
    rw [toNode_node, show Tree.node l f = Node.of f from rfl, same_of, same_of]
    exact hnode.trans htree.symm

/-- The transform that puts a node in parentheses for the variables is substitution. -/
theorem replaceVars_stands {t e : Tree Nat} {n m : Node} (ht : t.Stands h n) (he : e.Stands h m)
    (names : EQName → Bool) (u : τ) : ∃ t' w,
      (t.transform LabelM.fresh .eager (Tree.replaceVar names e) : LabelM ε τ (Tree Nat)).run.run
        (h.next, u) = (.ok t', w) ∧ t'.toNode = Node.substitute names m n := by
  obtain ⟨h', -, -, -, hans⟩ := transformAt_simulates
    (realizes_replaceVar (ε := ε) (τ := τ) (σ := Unit) names e m) t none ht.1 u () he
  rw [Node.renew_pure, ht.2] at hans
  rcases hrun : (t.transform LabelM.fresh .eager (Tree.replaceVar names e) :
    LabelM ε τ (Tree Nat)).run.run
    (h.next, u) with ⟨t?, w⟩
  rw [Tree.transform] at hrun
  rw [hrun] at hans
  cases hans with
  | ok hstands => exact ⟨_, w, rfl, hstands.2⟩

/-- An expression in parentheses can stand wherever a variable does. For parsed expressions, the
transform that replaces variables so gives a tree whose tokens are parsed as the same expression. -/
theorem parseAllTokens_replaceVars {s s' : String} {d d' : Nat} {n m : Node}
    (hn : parseAll d s = .ok n) (hm : parseAll d' s' = .ok m) (names : EQName → Bool) {h : Heap}
    {t e : Tree Nat} (ht : t.Stands h n) (he : e.Stands h m) (u : τ) : ∃ t' w,
      (t.transform LabelM.fresh .eager (Tree.replaceVar names e) : LabelM ε τ (Tree Nat)).run.run
        (h.next, u) = (.ok t', w) ∧
      ∃ least, ∀ maxDepth ≥ least, ∃ n',
        parseAllTokens maxDepth t'.tokens = .ok n' ∧ n'.same t' := by
  obtain ⟨t', w, hrun, ht'⟩ := replaceVars_stands (ε := ε) ht he names u
  obtain ⟨ts, -, hts⟩ := parseAll_eq_ok.mp hn
  obtain ⟨hkind, hfits⟩ := fits_of_parseAllTokens hts
  obtain ⟨ts', -, hts'⟩ := parseAll_eq_ok.mp hm
  obtain ⟨hkind', hfits'⟩ := fits_of_parseAllTokens hts'
  have hstand : n.StandIn d' (Node.substitute names m n) := Node.standIn_substitute hkind' hfits' n
  refine ⟨t', w, hrun, d + d', fun maxDepth hmax => ?_⟩
  obtain ⟨extra, rfl⟩ := Nat.exists_eq_add_of_le hmax
  have hfitsMore : (Node.substitute names m n).Fits (d + d' + extra) := (hstand.fits hfits).add
  refine ⟨(Node.substitute names m n).canon, ?_, ?_⟩
  · rw [Tree.tokens, ← Tree.pieces_toNode, ht', ← Tree.tokens, Tree.tokens_eq_write hfitsMore]
    exact parseAllTokens_write .whole (hstand.expr hkind) hfitsMore
  · rw [← Tree.same_toNode, ht']
    exact Tree.same_canon _ hfitsMore

/-- A list in place of the operand of a sign. -/
theorem parseAllTokens_replaceVars_negation : ∃ (n m : Node) (h : Heap) (t e : Tree Nat),
    parseAll 1 "-$x" = .ok n ∧ parseAll 1 "1, 2" = .ok m ∧ t.Stands h n ∧ e.Stands h m ∧ ∃ t' w,
      (t.transform LabelM.fresh .eager (Tree.replaceVar (fun _ => true) e) :
        LabelM Unit Unit (Tree Nat)).run.run
        (h.next, ()) = (.ok t', w) ∧
      ∃ least, ∀ maxDepth ≥ least, ∃ n',
        parseAllTokens maxDepth t'.tokens = .ok n' ∧ n'.same t' := by
  have hn : parseAll 1 "-$x" =
      .ok (.of (.expr [.of (.unary [.minus] (.of (.varRef (.qName none ⟨"x"⟩))))])) :=
    parseAll_eq_ok.mpr ⟨["-", "$", "x"], by decide +kernel, rfl⟩
  have hm : parseAll 1 "1, 2" = .ok (.of (.expr [.of (.integer 1), .of (.integer 2)])) :=
    parseAll_eq_ok.mpr ⟨["1", ",", " ", "2"], by decide +kernel, rfl⟩
  obtain ⟨h, -, t, ht⟩ := Heap.exists_stands ⟨fun _ => .of .contextItem, 0⟩
    (.of (.expr [.of (.unary [.minus] (.of (.varRef (.qName none ⟨"x"⟩))))]))
  obtain ⟨h', hext, e, he⟩ := h.exists_stands (.of (.expr [.of (.integer 1), .of (.integer 2)]))
  have ht' := ht.mono hext
  exact ⟨_, _, h', t, e, hn, hm, ht', he, parseAllTokens_replaceVars hn hm _ ht' he ()⟩

end Transform

end XPath
