import XPath.Proofs.Complete.Path
import XPath.Proofs.Sound.Expr

/-!
# Completeness of the rules for operators

Each level of operators reads its own construct and whatever binds tighter, if the next level does.
The operand of a construct ends in front of the operator, whose rank is that of the construct; so no
tighter level takes the operator for its own.
-/

namespace XPath.Grammar

open Rule

variable {σ : UriTokens} {inner : Nested} {levels : Nat}

/-! ## Signs -/

theorem simpleMapExpr_complete (hi : inner.Complete σ levels) :
    Completes σ levels 17 (simpleMapExpr inner) :=
  show Completes σ levels ChainLevel.simpleMap.rank (chainOf .simpleMap (pathExpr inner)) from
    chainOf_complete (pathExpr_complete hi)

/-- The signs in front of an operand. -/
def signs : Rule (List UnaryOp) := many (operator? Spelled.ofToken?)

theorem unaryExpr_apply (ts : List Token) : unaryExpr inner ts =
    (signs >>= fun ops => simpleMapExpr inner >>= fun operand =>
      if ops.isEmpty then pure operand else pure (.of (.unary ops operand)) : Rule Node) ts :=
  rfl

/-- Signs are read up to a token that is none. -/
theorem signs_reads (ops : List UnaryOp) {rest us : List Token}
    (hrest : ∀ t ∈ (Token.skipSpace rest).head?, (Spelled.ofToken? t : Option UnaryOp) = none)
    (hus : Token.skipSpace us = ops.map Spelled.spelling ++ rest) (hne : ops ≠ []) :
    signs us = .ok (ops, rest) := by
  have hsteps : ∀ ops : List UnaryOp, Steps (operator? (Spelled.ofToken? : Token → Option UnaryOp))
      (ops.map Spelled.spelling ++ rest) ops rest := by
    intro ops
    induction ops with
    | nil => exact .nil rest
    | cons op ops ih =>
      exact .cons (operator?_of_some (skipSpace_of_isWord (isWord_unaryOp op))
        (Spelled.ofToken?_spelling op)) (Nat.lt_succ_self _) ih
  obtain ⟨op, ops, rfl⟩ := List.exists_cons_of_ne_nil hne
  refine many_of_steps
    (.cons (operator?_of_some hus (Spelled.ofToken?_spelling op)) ?_ (hsteps ops))
    (operator?_of_none hrest)
  exact length_lt_of_skipSpace hus

/-- Where no sign comes next, there are none. -/
theorem signs_nil {us : List Token}
    (h : ∀ t ∈ (Token.skipSpace us).head?, (Spelled.ofToken? t : Option UnaryOp) = none) :
    signs us = .ok ([], us) :=
  many_of_steps (.nil us) (operator?_of_none h)

/-- What binds tighter than a sign does not begin with one. -/
theorem no_sign {n : Node} (hrank : 17 ≤ n.rank) (h : n.Fits levels) (rest : List Token) :
    ∀ t ∈ (Piece.write σ n.pieces ++ rest).head?,
      (Spelled.ofToken? t : Option UnaryOp) = none := by
  intro t ht
  obtain ⟨u, hu, hb⟩ := Tree.beginsWith (σ := σ) h (Nat.lt_of_lt_of_le (by decide) hrank)
  obtain rfl : u = t := by
    rw [Piece.head?_write_append (n.solid h).starts, hu] at ht
    exact Option.some.inj ht
  cases hop : (Spelled.ofToken? u : Option UnaryOp) with
  | none => rfl
  | some op =>
    obtain rfl := Spelled.spelling_of_ofToken? hop
    cases hb with
    | step hstep => cases op <;> exact absurd hstep (by decide)
    | slash other hspelling _ => cases op <;> cases other <;> exact absurd hspelling (by decide)
    | sign _ _ hle => omega

/-- Signs are written one after another. -/
theorem write_signs (ops : List UnaryOp) {ps : List Piece} (h : Starts ps) (rest : List Token) :
    Piece.write σ (ops.map (fun op => .text (Spelled.spelling op)) ++ ps) ++ rest =
      ops.map Spelled.spelling ++ (Piece.write σ ps ++ rest) := by
  have hlay (ops : List UnaryOp) (spaced : Bool) :
      Piece.lay σ spaced (ops.map (fun op => .text (Spelled.spelling op)) ++ ps) ++ rest =
        ops.map Spelled.spelling ++ (Piece.write σ ps ++ rest) := by
    induction ops generalizing spaced with
    | nil =>
      rw [List.map_nil, List.map_nil, List.nil_append, List.nil_append, Piece.lay_of_starts h]
    | cons op ops ih =>
      rw [List.map_cons, List.cons_append, Piece.lay_text (isWord_unaryOp op), List.cons_append, ih]
      rfl
  exact hlay ops true

/-- An operand is read with the signs in front of it. -/
theorem unaryExpr_complete (hi : inner.Complete σ levels) :
    Completes σ levels 16 (unaryExpr inner) := by
  refine .of_rank (fun n rest h hrest us hus => ?_) fun f rest hrank hf hadmits hrest => ?_
  · have hnone := no_sign (σ := σ) h.rank_le h.fits rest
    rw [← hus] at hnone
    rw [unaryExpr_apply, bind_of_ok (signs_nil hnone),
      bind_of_ok (simpleMapExpr_complete hi h (hrest.mono (by decide)) us hus)]
    rfl
  · cases f with
    | unary ops operand =>
      obtain ⟨hoperand, hfits⟩ := hf.operand operand (by simp [Form.operands])
      have hs := (operand.solid hfits).starts
      have hbefore : operand.ReadBefore 17 levels rest := ⟨hoperand, hfits, fun t ht => by
        rw [← Tree.admits_of_last (l := ()) (f := .unary ops operand) rfl]
        exact hadmits t ht⟩
      have hread := (simpleMapExpr_complete hi hbefore (hrest.mono (by decide))).write (σ := σ) hs
      have hnone := no_sign (σ := σ) hoperand hfits rest
      rw [← Piece.skipSpace_write hs rest] at hnone
      intro us hus
      have hpieces : (Node.of (.unary ops operand)).pieces =
          ops.map (fun op => .text (Spelled.spelling op)) ++ operand.pieces := by
        rw [Node.of, Tree.pieces_node]
        rfl
      rw [hpieces, write_signs ops hs] at hus
      rw [unaryExpr_apply, bind_of_ok (signs_reads ops hnone hus hf.proper), bind_of_ok hread,
        if_neg (mt List.isEmpty_iff.mp hf.proper), Tree.canon_of]
      rfl
    | chain level => cases level <;> cases hrank
    | _ => cases hrank

/-! ## Arrows -/

theorem arrowTarget_apply (ts : List Token) : arrowTarget inner ts =
    (match (Token.skipSpace ts).head? with
    | some "$" => advance >>= fun _ => eqName >>= fun name => pure (.var name)
    | some "(" => parenthesizedExpr inner >>= fun e => pure (.parenthesized e)
    | _ => eqName >>= fun name => pure (.name name) : Rule (ArrowTarget Node))
      (Token.skipSpace ts) :=
  rfl

/-- A target is read as what it is. -/
theorem arrowTarget_complete (hi : inner.Complete σ levels) {target : ArrowTarget Node}
    (hw : target.WellFormed)
    (hc : ∀ e ∈ target.children, e.kind = .parenthesizedExpr ∧ e.Fits levels) {rest : List Token}
    (hrest : EndsName rest) :
    (arrowTarget inner).Reads (Piece.write σ (target.map Tree.withPieces).pieces)
      (target.map Tree.canon) rest := by
  intro us hus
  rw [arrowTarget_apply, hus]
  cases target with
  | name name =>
    have hs := EQName.solid hw
    obtain ⟨t, ht, hname⟩ := EQName.head?_write (σ := σ) hw
    have hread := (eqName_complete hw hrest).write (σ := σ) hs.starts
    rw [show (ArrowTarget.map Tree.withPieces (.name name)).pieces = name.pieces from rfl,
      Piece.head?_write_append hs.starts]
    generalize (Piece.write σ name.pieces).head? = t? at ht ⊢
    split
    next =>
      obtain rfl := Option.some.inj ht
      exact absurd hname (by decide)
    next =>
      obtain rfl := Option.some.inj ht
      exact absurd hname (by decide)
    · exact bind_of_ok hread _
  | var name =>
    have hs := EQName.solid hw
    have hread := (eqName_complete hw hrest).write (σ := σ) hs.starts
    rw [show (ArrowTarget.map Tree.withPieces (.var name)).pieces =
      .text "$" :: name.pieces from rfl,
      Piece.write_text rfl, Piece.lay_of_starts hs.starts, List.cons_append]
    exact (bind_of_ok (advance_cons _ _) _).trans (bind_of_ok hread _)
  | parenthesized e =>
    have he := hc e (by simp [ArrowTarget.children])
    have hpieces : (ArrowTarget.map Tree.withPieces (.parenthesized e)).pieces = e.pieces := by
      simp [ArrowTarget.map, ArrowTarget.pieces, parenthesizedPieces, Tree.withPieces, he.1]
    have hs := (e.solid he.2).starts
    have hread := (group_complete hi he rest).write (σ := σ) hs
    have hhead : (Piece.write σ e.pieces).head? = some "(" := by
      obtain ⟨⟨⟩, f⟩ := e
      obtain ⟨o, rfl⟩ := kind_eq_parenthesized he.1
      rw [Tree.pieces_node]
      rfl
    rw [hpieces, Piece.head?_write_append hs, hhead]
    exact bind_of_ok hread _

theorem arrowCall_complete (hi : inner.Complete σ levels) {c : ArrowCall Node}
    (hw : c.target.WellFormed)
    (hgroup : ∀ e ∈ c.target.children, e.kind = .parenthesizedExpr ∧ e.Fits levels)
    (hsingle : ∀ e ∈ c.args.flatMap Argument.children, IsSingle levels e) (rest : List Token) :
    (arrowCall inner).Reads (Piece.write σ (c.map Tree.withPieces).pieces) (c.map Tree.canon)
      rest := by
  obtain ⟨target, args⟩ := c
  have hs : Solid (target.map Tree.withPieces).pieces :=
    ArrowTarget.solid hw fun e he => ⟨(hgroup e he).1, e.solid (hgroup e he).2⟩
  have hargs := (argumentList_complete hi hsingle rest).write (σ := σ) (solid_arguments _).starts
  have hends : EndsName (Piece.write σ (argumentPieces (args.map (·.map Tree.withPieces))) ++
      rest) := by
    rw [write_arguments]
    exact .of_follows (.inl rfl) (by decide) (by decide)
  intro us hus
  have hpieces : (ArrowCall.map Tree.withPieces ⟨target, args⟩).pieces =
      (target.map Tree.withPieces).pieces ++ argumentPieces (args.map (·.map Tree.withPieces)) :=
    rfl
  rw [hpieces, Piece.write_append hs (solid_arguments _).starts, List.append_assoc] at hus
  exact (bind_of_ok (arrowTarget_complete hi hw hgroup hends us hus) _).trans (bind_of_ok hargs _)

theorem arrowExpr_apply (ts : List Token) : arrowExpr inner ts =
    (chain (Spelled.ofToken? : Token → Option ArrowOp) (unaryExpr inner) (arrowCall inner) >>=
      fun x => match x with
      | (first, []) => pure first
      | (first, calls) => pure (.of (.arrow first (calls.map Prod.snd))) : Rule Node) ts :=
  rfl

/-- The arrows of an arrow expression, with their calls. -/
def callTokens (σ : UriTokens) (calls : List (ArrowCall Node)) (rest : List Token) : List Token :=
  linkTokens σ (fun op : ArrowOp => Piece.keyword (Spelled.spelling op))
    (fun c => (c.map Tree.withPieces).pieces) (calls.map (ArrowOp.arrow, ·)) rest

theorem write_arrow {first : Node} {calls : List (ArrowCall Node)}
    (hf : (Form.arrow first calls).FitsIn levels) (rest : List Token) :
    Piece.write σ (Node.of (.arrow first calls)).pieces ++ rest =
      Piece.write σ first.pieces ++ callTokens σ calls rest := by
  have hpieces : (Node.of (.arrow first calls)).pieces = first.pieces ++
      (calls.map (ArrowOp.arrow, ·)).flatMap fun x =>
        Piece.keyword (Spelled.spelling x.1) ++ (x.2.map Tree.withPieces).pieces := by
    rw [Node.of, Tree.pieces_node]
    simp only [Form.map, Form.pieces, List.flatMap_map]
    rfl
  have hs := first.solid (hf.operand first (by simp [Form.operands])).2
  rw [hpieces, Piece.write_solid_append hs, List.append_assoc]
  rfl

section Calls

variable {first : Node} {calls : List (ArrowCall Node)}
  (hf : (Form.arrow first calls).FitsIn levels)
include hf

theorem arrow_groups {c : ArrowCall Node} (hc : c ∈ calls) :
    ∀ e ∈ c.target.children, e.kind = .parenthesizedExpr ∧ e.Fits levels :=
  fun e he => hf.group e (List.mem_flatMap.mpr ⟨c, hc, he⟩)

theorem solid_arrowCall {c : ArrowCall Node} (hc : c ∈ calls) :
    Solid (c.map Tree.withPieces).pieces :=
  (ArrowTarget.solid (hf.parts c hc) fun e he =>
    ⟨(arrow_groups hf hc e he).1, e.solid (arrow_groups hf hc e he).2⟩).append (solid_arguments _)

/-- Calls are read behind their arrows, one after another. -/
theorem arrowCalls_complete (hi : inner.Complete σ levels) {rest : List Token}
    (hend : ∀ t ∈ (Token.skipSpace rest).head?, (Spelled.ofToken? t : Option ArrowOp) = none) :
    Links (Spelled.ofToken? : Token → Option ArrowOp) (arrowCall inner) (callTokens σ calls rest)
      ((calls.map (ArrowOp.arrow, ·)).map fun x => (x.1, x.2.map Tree.canon)) rest := by
  refine links_of_lay _ (fun c : ArrowCall Node => (c.map Tree.withPieces).pieces)
    (ArrowCall.map Tree.canon) rest
    (fun x hx => ?_) (fun x hx => ?_) (fun l₁ x l₂ hl => ?_) hend
  · obtain ⟨c, hc, rfl⟩ := List.mem_map.mp hx
    exact solid_arrowCall hf hc
  · exact ⟨_, rfl, Spelled.ofToken?_spelling x.1, separates_keyword σ rfl⟩
  · obtain ⟨c, hc, rfl⟩ := List.mem_map.mp (show x ∈ calls.map (ArrowOp.arrow, ·) by rw [hl]; simp)
    exact arrowCall_complete hi (hf.parts c hc) (arrow_groups hf hc)
      (fun e he => hf.single e (List.mem_flatMap.mpr ⟨c, hc, he⟩)) _

/-- The operand of the arrows is read in front of them. -/
theorem arrow_before (rest : List Token) :
    first.ReadBefore 16 levels (callTokens σ calls rest) ∧ Ends 16 (callTokens σ calls rest) := by
  obtain ⟨hfirst, hfits⟩ := hf.operand first (by simp [Form.operands])
  obtain ⟨call, calls', rfl⟩ := List.exists_cons_of_ne_nil hf.proper
  obtain ⟨mid, hmid⟩ : ∃ mid, Follows "=>" (callTokens σ (call :: calls') rest) mid := by
    obtain ⟨mid, hmid, -⟩ := linkTokens_cons (σ := σ)
      (fun op : ArrowOp => Piece.keyword (Spelled.spelling op))
      (fun c : ArrowCall Node => (c.map Tree.withPieces).pieces) rest
      (x := (ArrowOp.arrow, call)) (solid_arrowCall hf List.mem_cons_self)
      (separates_keyword σ (show Token.isWord "=>" from rfl))
    exact ⟨mid, hmid⟩
  refine ⟨⟨hfirst, hfits, fun t ht => ?_⟩, .of_follows hmid rfl (by decide) (by decide)⟩
  rw [hmid.skipSpace_eq rfl] at ht
  obtain rfl : "=>" = t := by simpa using ht
  exact hf.followed (first, "=>") (by simp [Form.followers])

end Calls

/-- A call is read with what it is made on. -/
theorem arrowExpr_complete (hi : inner.Complete σ levels) :
    Completes σ levels 15 (arrowExpr inner) := by
  have hend {rest : List Token} (hrest : Ends 15 rest) :
      ∀ t ∈ (Token.skipSpace rest).head?, (Spelled.ofToken? t : Option ArrowOp) = none :=
    hrest.read_eq_none fun t op ht => by
      rw [arrow_eq ht]
      decide
  refine .of_rank (fun n rest h hrest us hus => ?_) fun f rest hrank hf _ hrest us hus => ?_
  · have hfirst := unaryExpr_complete hi h (hrest.mono (by decide)) us hus
    rw [arrowExpr_apply, bind_of_ok (chain_of_links hfirst (.nil (hend hrest)))]
    rfl
  · cases f with
    | arrow first calls =>
      obtain ⟨hbefore, hends⟩ := arrow_before (σ := σ) hf rest
      rw [write_arrow hf] at hus
      have hchain := chain_of_links (unaryExpr_complete hi hbefore hends us hus)
        (arrowCalls_complete hf hi (hend hrest))
      obtain ⟨call, calls, rfl⟩ := List.exists_cons_of_ne_nil hf.proper
      rw [arrowExpr_apply, bind_of_ok hchain, Tree.canon_of]
      simp only [List.map_map, List.map_cons, pure_apply, Form.map, Form.canon]
      rfl
    | chain level => cases level <;> cases hrank
    | _ => cases hrank

/-! ## Types of operands -/

/-- Words stand between an operand and its type, with one space on each side. -/
theorem words_reads {ps : List Piece} (h : Starts ps) (rest : List Token) :
    ∀ ws : List Token, (∀ w ∈ ws, w.isWord) → ∀ us,
      Token.skipSpace us = Piece.write σ (ws.flatMap Piece.keyword ++ ps) ++ rest →
        ∃ mid, (∀ expected, words expected ws us = .ok ((), mid)) ∧
          Token.skipSpace mid = Piece.write σ ps ++ rest
  | [], _, us, hus => ⟨us, fun _ => rfl, hus⟩
  | w :: ws, hws, us, hus => by
    have hwrite : Piece.write σ ((w :: ws).flatMap Piece.keyword ++ ps) ++ rest =
        w :: Token.space :: (Piece.write σ (ws.flatMap Piece.keyword ++ ps) ++ rest) := by
      rw [List.flatMap_cons, List.append_assoc, Piece.keyword, List.cons_append, Piece.write,
        Piece.lay_gap_true, List.cons_append, List.singleton_append,
        Piece.lay_text (hws w List.mem_cons_self), Piece.lay_gap_false]
      rfl
    obtain ⟨mid, hmid, hskip⟩ :=
      words_reads h rest ws (fun v hv => hws v (List.mem_cons_of_mem w hv))
      (Token.space :: (Piece.write σ (ws.flatMap Piece.keyword ++ ps) ++ rest)) rfl
    exact ⟨mid, fun expected => words_cons_eq_ok.mpr ⟨_, hus.trans hwrite, hmid expected⟩, hskip⟩

/-- Words are laid out with spaces between them. -/
theorem lay_words (w : Token) (ws : List Token) (ps : List Piece) :
    Piece.lay σ false ((w :: ws).flatMap Piece.keyword ++ ps) =
      Token.space :: Piece.write σ ((w :: ws).flatMap Piece.keyword ++ ps) := by
  rw [List.flatMap_cons, List.append_assoc, Piece.keyword, List.cons_append, Piece.lay_gap_false,
    Piece.write, Piece.lay_gap_true, List.cons_append]

theorem typed_apply {τ : Type} (form : Node → τ → Form Node) (ws : List Token) (operand : Rule Node)
    (type : Rule τ) (ts : List Token) : typed form ws operand type ts =
      (followedBy ws operand type >>= fun x => match x with
        | (e, none) => pure e
        | (e, some t) => pure (.of (form e t)) : Rule Node) ts :=
  rfl

/-- A level of types reads its construct if it reads the type in front of what ends it. -/
theorem typed_complete {τ : Type} {form : Node → τ → Form Node} {w : Token} {ws : List Token}
    {operand : Rule Node} {type : Rule τ} (pieces : τ → List Piece) (value : τ → τ) {k : Nat}
    (hws : ∀ v ∈ w :: ws, v.isWord) (hw : w.rank = k)
    (hop : Completes σ levels (k + 1) operand)
    (hform : ∀ f : Form Node, f.rank = k → ∃ e t, f = form e t)
    (hoperand : ∀ {e t}, (form e t).FitsIn levels →
      k + 1 ≤ e.rank ∧ e.Fits levels ∧ e.admits w ∧ Solid (pieces t))
    (htype : ∀ {e t rest}, (form e t).FitsIn levels →
      (∀ u ∈ (Token.skipSpace rest).head?, (Node.of (form e t)).admits u) → Ends k rest →
        type.Reads (Piece.write σ (pieces t)) (value t) rest)
    (hpieces : ∀ e t, (Node.of (form e t)).pieces =
      e.pieces ++ (w :: ws).flatMap Piece.keyword ++ pieces t)
    (hcanon : ∀ e t, (Node.of (form e t)).canon = .of (form e.canon (value t))) :
    Completes σ levels k (typed form (w :: ws) operand type) := by
  refine .of_rank (fun n rest h hrest us hus => ?_) fun f rest hrank hf hadmits hrest us hus => ?_
  · have hread := hop h (hrest.mono (Nat.le_succ k)) us hus
    have hnext : isNext w rest = false := hrest.not_isNext (Nat.le_of_eq hw.symm)
    rw [typed_apply, bind_of_ok (followedBy_of_not_isNext hread hnext)]
    rfl
  · obtain ⟨e, t, rfl⟩ := hform f hrank
    obtain ⟨hle, hfits, hfollowed, hs⟩ := hoperand hf
    have hends : Ends (k + 1)
        (Piece.lay σ false ((w :: ws).flatMap Piece.keyword ++ pieces t) ++ rest) := by
      rw [List.flatMap_cons, List.append_assoc]
      exact .of_keyword (hws w List.mem_cons_self) (hw ▸ Nat.lt_succ_self _) _ _
    rw [hpieces, List.append_assoc, Piece.write_solid_append (e.solid hfits),
      List.append_assoc] at hus
    rw [lay_words, List.cons_append] at hus hends
    obtain ⟨mid, hmid, hskip⟩ := words_reads (σ := σ) hs.starts rest (w :: ws) hws
      (Token.space :: (Piece.write σ ((w :: ws).flatMap Piece.keyword ++ pieces t) ++ rest)) rfl
    obtain ⟨vs, hvs, -⟩ := words_cons_eq_ok.mp (hmid "")
    have hread := hop ⟨hle, hfits, fun u hu => ?_⟩ hends us hus
    · rw [typed_apply, bind_of_ok
        (followedBy_of_isNext hread hmid (htype hf hadmits hrest mid hskip)),
        hcanon]
      rfl
    · rw [hvs] at hu
      obtain rfl : w = u := by simpa using hu
      exact hfollowed

/-- An operand is read with the type it is cast to. -/
theorem castExpr_complete (hi : inner.Complete σ levels) :
    Completes σ levels 14 (castExpr inner) := by
  refine typed_complete SingleType.pieces id (by decide) (by decide)
    (arrowExpr_complete hi) (fun f hf => ?_) (fun {e t} hf => ?_) (fun {e t rest} hf _ hrest => ?_)
    (fun e t => ?_) fun e t => ?_
  · cases f with
    | cast e t => exact ⟨e, t, rfl⟩
    | chain level => cases level <;> cases hf
    | _ => cases hf
  · obtain ⟨hrank, hfits⟩ := hf.operand e (by simp [Form.operands])
    exact ⟨hrank, hfits, hf.followed (e, "cast") (by simp [Form.followers]),
      SingleType.solid hf.parts⟩
  · exact singleType_complete hf.parts (hrest.endsName (by decide)) (hrest.not_isNext (by decide))
  · rw [Node.of, Tree.pieces_node]
    simp [Form.map, Form.pieces, Tree.withPieces]
  · exact Tree.canon_of _

theorem castableExpr_complete (hi : inner.Complete σ levels) :
    Completes σ levels 13 (castableExpr inner) := by
  refine typed_complete SingleType.pieces id (by decide) (by decide)
    (castExpr_complete hi) (fun f hf => ?_) (fun {e t} hf => ?_) (fun {e t rest} hf _ hrest => ?_)
    (fun e t => ?_) fun e t => ?_
  · cases f with
    | castable e t => exact ⟨e, t, rfl⟩
    | chain level => cases level <;> cases hf
    | _ => cases hf
  · obtain ⟨hrank, hfits⟩ := hf.operand e (by simp [Form.operands])
    exact ⟨hrank, hfits, hf.followed (e, "castable") (by simp [Form.followers]),
      SingleType.solid hf.parts⟩
  · exact singleType_complete hf.parts (hrest.endsName (by decide)) (hrest.not_isNext (by decide))
  · rw [Node.of, Tree.pieces_node]
    simp [Form.map, Form.pieces, Tree.withPieces]
  · exact Tree.canon_of _

/-- A type is followed by no mark that it could take, if only what it admits follows. -/
theorem unmarked_of_admits {type : SequenceType} {rest : List Token}
    (h : ∀ t ∈ (Token.skipSpace rest).head?, (!(type.endsUnmarked && isOccurrence t)) = true) :
    UnmarkedBefore type.endsUnmarked rest := by
  intro hends t ht
  simpa [hends] using h t ht

/-- An operand is read with the type it is treated as. -/
theorem treatExpr_complete (hi : inner.Complete σ levels) :
    Completes σ levels 12 (treatExpr inner) := by
  refine typed_complete SequenceType.pieces id (by decide) (by decide)
    (castableExpr_complete hi) (fun f hf => ?_) (fun {e t} hf => ?_)
    (fun {e t rest} hf hadmits hrest => ?_) (fun e t => ?_) fun e t => ?_
  · cases f with
    | treat e t => exact ⟨e, t, rfl⟩
    | chain level => cases level <;> cases hf
    | _ => cases hf
  · obtain ⟨hrank, hfits⟩ := hf.operand e (by simp [Form.operands])
    exact ⟨hrank, hfits, hf.followed (e, "treat") (by simp [Form.followers]),
      SequenceType.solid (fun _ => ItemType.solid) hf.parts⟩
  · exact sequenceType_complete hi.itemType hf.parts (unmarked_of_admits hadmits)
      (hrest.endsType (by decide))
  · rw [Node.of, Tree.pieces_node]
    simp [Form.map, Form.pieces, Tree.withPieces]
  · exact Tree.canon_of _

theorem instanceOfExpr_complete (hi : inner.Complete σ levels) :
    Completes σ levels 11 (instanceOfExpr inner) := by
  refine typed_complete SequenceType.pieces id (by decide) (by decide)
    (treatExpr_complete hi) (fun f hf => ?_) (fun {e t} hf => ?_)
    (fun {e t rest} hf hadmits hrest => ?_) (fun e t => ?_) fun e t => ?_
  · cases f with
    | instanceOf e t => exact ⟨e, t, rfl⟩
    | chain level => cases level <;> cases hf
    | _ => cases hf
  · obtain ⟨hrank, hfits⟩ := hf.operand e (by simp [Form.operands])
    exact ⟨hrank, hfits, hf.followed (e, "instance") (by simp [Form.followers]),
      SequenceType.solid (fun _ => ItemType.solid) hf.parts⟩
  · exact sequenceType_complete hi.itemType hf.parts (unmarked_of_admits hadmits)
      (hrest.endsType (by decide))
  · rw [Node.of, Tree.pieces_node]
    simp [Form.map, Form.pieces, Tree.withPieces]
  · exact Tree.canon_of _

/-! ## Operators -/

theorem additiveExpr_complete (hi : inner.Complete σ levels) :
    Completes σ levels 7 (additiveExpr inner) :=
  have intersectExcept : Completes σ levels 10 (intersectExceptExpr inner) :=
    chainOf_complete (show Completes σ levels (ChainLevel.intersectExcept.rank + 1) _ from
      instanceOfExpr_complete hi)
  have union : Completes σ levels 9 (unionExpr inner) :=
    chainOf_complete (show Completes σ levels (ChainLevel.union.rank + 1) _ from intersectExcept)
  have multiplicative : Completes σ levels 8 (multiplicativeExpr inner) :=
    chainOf_complete (show Completes σ levels (ChainLevel.multiplicative.rank + 1) _ from union)
  chainOf_complete (show Completes σ levels (ChainLevel.additive.rank + 1) _ from multiplicative)

/-- Both bounds of a range are read. -/
theorem rangeExpr_complete (hi : inner.Complete σ levels) :
    Completes σ levels 6 (rangeExpr inner) := by
  refine typed_complete Tree.pieces Tree.canon (by decide) (by decide)
    (additiveExpr_complete hi) (fun f hf => ?_) (fun {e t} hf => ?_)
    (fun {e t rest} hf hadmits hrest => ?_) (fun e t => ?_) fun e t => ?_
  · cases f with
    | range e t => exact ⟨e, t, rfl⟩
    | chain level => cases level <;> cases hf
    | _ => cases hf
  · obtain ⟨hrank, hfits⟩ := hf.operand e (by simp [Form.operands])
    exact ⟨hrank, hfits, hf.followed (e, "to") (by simp [Form.followers]),
      t.solid (hf.operand t (by simp [Form.operands])).2⟩
  · obtain ⟨hrank, hfits⟩ := hf.operand t (by simp [Form.operands])
    refine additiveExpr_complete hi ⟨hrank, hfits, fun u hu => ?_⟩ (hrest.mono (by decide))
    rw [← Tree.admits_of_last (l := ()) (f := .range e t) rfl]
    exact hadmits u hu
  · rw [Node.of, Tree.pieces_node]
    simp [Form.map, Form.pieces, Tree.withPieces]
  · exact Tree.canon_of _

theorem stringConcatExpr_complete (hi : inner.Complete σ levels) :
    Completes σ levels 5 (stringConcatExpr inner) :=
  chainOf_complete (show Completes σ levels (ChainLevel.stringConcat.rank + 1) _ from
    rangeExpr_complete hi)

/-- Both sides of a comparison are read. -/
theorem comparisonExpr_complete (hi : inner.Complete σ levels) :
    Completes σ levels 4 (comparisonExpr inner) := by
  refine .of_rank (fun n rest h hrest us hus => ?_) fun f rest hrank hf hadmits hrest us hus => ?_
  · have hread := stringConcatExpr_complete hi h (hrest.mono (by decide)) us hus
    have hnone : ∀ t ∈ (Token.skipSpace rest).head?,
        (Spelled.ofToken? t : Option ComparisonOp) = none :=
      hrest.read_eq_none fun t op ht => by
        rw [← Spelled.spelling_of_ofToken? ht, Token.rank_comparisonOp]
    exact (bind_of_ok hread _).trans (bind_of_ok (operator?_of_none hnone) _)
  · cases f with
    | comparison left op right =>
      obtain ⟨hl, hlfits⟩ := hf.operand left (by simp [Form.operands])
      obtain ⟨hr, hrfits⟩ := hf.operand right (by simp [Form.operands])
      have hword := isWord_comparisonOp op
      have hs := right.solid hrfits
      have hpieces : (Node.of (.comparison left op right)).pieces =
          left.pieces ++ (Piece.keyword (Spelled.spelling op) ++ right.pieces) := by
        rw [Node.of, Tree.pieces_node, ← List.append_assoc]
        rfl
      have hends : Ends 5 (Piece.lay σ false
          (Piece.keyword (Spelled.spelling op) ++ right.pieces) ++ rest) :=
        .of_keyword hword (by rw [Token.rank_comparisonOp]; decide) _ _
      rw [hpieces, Piece.write_solid_append (left.solid hlfits), List.append_assoc] at hus
      rw [Piece.lay_keyword hword] at hus hends
      have hleft := stringConcatExpr_complete hi ⟨hl, hlfits, fun t ht => ?_⟩ hends us hus
      · have hright := stringConcatExpr_complete hi ⟨hr, hrfits, fun t ht => ?_⟩
          (hrest.mono (by decide)) (Token.space :: (Piece.write σ right.pieces ++ rest)) rfl
        · rw [Tree.canon_of]
          refine (bind_of_ok hleft _).trans ?_
          refine (bind_of_ok (operator?_of_some rfl (Spelled.ofToken?_spelling op)) _).trans ?_
          exact bind_of_ok hright _
        · rw [← Tree.admits_of_last (l := ()) (f := .comparison left op right) rfl]
          exact hadmits t ht
      · obtain rfl : Spelled.spelling op = t := by simpa [Token.skipSpace, Token.isSpace] using ht
        exact hf.followed (left, Spelled.spelling op) (by simp [Form.followers])
    | chain level => cases level <;> cases hrank
    | _ => cases hrank

theorem orExpr_complete (hi : inner.Complete σ levels) : Completes σ levels 2 (orExpr inner) :=
  have and : Completes σ levels 3 (andExpr inner) :=
    chainOf_complete (show Completes σ levels (ChainLevel.and.rank + 1) _ from
      comparisonExpr_complete hi)
  chainOf_complete (show Completes σ levels (ChainLevel.or.rank + 1) _ from and)

end XPath.Grammar
