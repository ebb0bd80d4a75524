import XPath.Proofs.Alike.Expr
import XPath.Proofs.Parse
import Mathlib.Data.List.InsertIdx

/-!
# What a tree does not depend on

Two instances of sequences that read alike. A sequence reads like one that is cut off behind what is
read (`Alike.before`), so the tokens behind an expression have no influence on it
(`parseAllTokens_take`). And a sequence reads like another one that has other spaces next to
punctuation (`Alike.spacing`), so one more space there changes no tree
(`parseAllTokens_insertIdx_space`).
-/

namespace XPath

open Grammar

/-! ## Tokens behind an expression -/

theorem Token.skipSpace_append {us more : List Token} (h : more <:+ skipSpace (us ++ more)) :
    skipSpace (us ++ more) = skipSpace us ++ more := by
  cases us with
  | nil => exact ((Token.skipSpace_suffix more).eq_of_length_le h.length_le)
  | cons t us =>
    rw [List.cons_append, skipSpace, skipSpace]
    split <;> rfl

theorem exists_of_append_eq_cons {t : Token} {us more rest : List Token}
    (h : us ++ more = t :: rest) (hmore : more <:+ rest) :
    ∃ us', us = t :: us' ∧ rest = us' ++ more := by
  obtain ⟨-, rfl⟩ | h := List.append_eq_cons_iff.mp h
  · exact absurd hmore.length_le (by simp)
  · exact h

/-- A sequence that goes on with the tokens `more`, and one that ends before them. -/
def Alike.before (more : List Token) : Alike where
  rel ts us := ts = us ++ more
  kept rest := more <:+ rest
  touching _ := True
  kept_suffix h hrest := hrest.trans h
  skip := by
    rintro _ us rfl h
    exact Token.skipSpace_append h
  next := by
    rintro t _ us rest rfl hts hkept
    have h := Token.skipSpace_append (hts ▸ hkept.trans (List.suffix_cons t rest))
    exact exists_of_append_eq_cons (h.symm.trans hts) hkept
  back := by
    rintro t _ us rest rfl hus
    refine ⟨rest ++ more, ?_, rfl, rfl⟩
    cases us with
    | nil => cases hus
    | cons u us =>
      rw [Token.skipSpace] at hus
      rw [List.cons_append, Token.skipSpace]
      split at hus
      next hu => rw [if_pos hu, hus, List.cons_append]
      next hu => rw [if_neg hu, ← List.cons_append, hus, List.cons_append]
  touch := by
    rintro t u rest us h - - hkept
    obtain ⟨-, h⟩ := List.cons_eq_cons.mp h
    obtain ⟨us', rfl, rfl⟩ := exists_of_append_eq_cons h.symm hkept
    exact ⟨us', rfl, rfl⟩
  touch_back := by
    rintro t u ts rest h - -
    obtain ⟨-, rfl⟩ := List.cons_eq_cons.mp h
    exact ⟨rest ++ more, rfl, rfl⟩
  touching_of _ := trivial
  literal := .inl fun _ => trivial

/-- An expression at the start is read again when the tokens behind it are left out. -/
theorem parseAllTokens_take {maxDepth next : Nat} {ts : List Token} {n : Node}
    (h : parseTokens maxDepth ts = .ok (n, next)) :
    parseAllTokens maxDepth (ts.take next) = .ok n := by
  obtain ⟨rest, hrest, rfl⟩ := parseTokens_eq_ok.mp h
  have hread := transfers_expr (A := .before rest) (transfers_exprSingle maxDepth)
  have hcut : ts = ts.take (ts.length - rest.length) ++ rest := by
    conv_lhs => rw [← List.take_append_drop (ts.length - rest.length) ts, drop_of_expr_eq_ok hrest]
  obtain ⟨rest', h', hrel⟩ := hread.again hcut hrest List.suffix_rfl
  obtain rfl : rest' = [] := List.append_left_eq_self.mp (show rest = rest' ++ rest from hrel).symm
  exact parseAllTokens_eq_ok.mpr ⟨[], h', rfl⟩

/-- A slash alone, in front of a parenthesis that nothing opens. -/
theorem parseAllTokens_take_slash : ∃ n, parseTokens 1 ["/", ")"] = .ok (n, 1) ∧
    parseAllTokens 1 ["/"] = .ok n :=
  have h : parseTokens 1 ["/", ")"] = .ok (.of (.expr [.of (.path .slash none)]), 1) := rfl
  ⟨_, h, parseAllTokens_take h⟩

/-! ## Spaces next to punctuation -/

theorem head?_insertIdx_succ {α : Type} (l : List α) (j : Nat) (a : α) :
    (l.insertIdx (j + 1) a).head? = l.head? := by
  cases l <;> simp

theorem isChain_insertIdx {α : Type} {R : α → α → Prop} {l : List α} {a : α} (h : l.IsChain R)
    {j : Nat} (hbefore : ∀ i x, j = i + 1 → l[i]? = some x → R x a)
    (hafter : ∀ y, l[j]? = some y → R a y) : (l.insertIdx j a).IsChain R := by
  induction l generalizing j with
  | nil => cases j <;> simp
  | cons x l ih =>
    cases j with
    | zero => exact List.isChain_cons.mpr ⟨by simpa using hafter, h⟩
    | succ j =>
      obtain ⟨hl, hrest⟩ := List.isChain_cons.mp h
      have hinsert := ih hrest
        (fun i y hi hy => hbefore (i + 1) y (congrArg (· + 1) hi) (by simpa using hy))
        fun y hy => hafter y (by simpa using hy)
      refine List.isChain_cons.mpr ⟨fun y hy => ?_, hinsert⟩
      cases j with
      | zero =>
        obtain rfl : a = y := Option.some.inj hy
        exact hbefore 0 x rfl rfl
      | succ j => exact hl y (head?_insertIdx_succ l j a ▸ hy)

/-- No token of the sequence is part of a literal, and no two spaces are in a row. -/
structure Token.Loose (ts : List Token) : Prop where
  no_quote : ∀ t ∈ ts, t.isQuote = false
  no_bracedUri : ts.IsChain fun t u => ¬ (t = "Q" ∧ u = "\x7b")
  single_spaces : ts.IsChain fun t u => ¬ (t = Token.space ∧ u = Token.space)

namespace Token.Loose

variable {t : Token} {ts : List Token}

theorem tail (h : Loose (t :: ts)) : Loose ts :=
  ⟨fun u hu => h.no_quote u (List.mem_cons_of_mem t hu), (List.isChain_cons.mp h.no_bracedUri).2,
    (List.isChain_cons.mp h.single_spaces).2⟩

theorem skipSpace_of_space (h : Loose (Token.space :: ts)) : Token.skipSpace ts = ts :=
  Rule.skipSpace_eq_self fun ht => (List.isChain_cons.mp h.single_spaces).1 _ ht ⟨rfl, rfl⟩

theorem head?_ne_brace (h : Loose ("Q" :: ts)) : ts.head? ≠ some "\x7b" :=
  fun ht => (List.isChain_cons.mp h.no_bracedUri).1 _ ht ⟨rfl, rfl⟩

theorem insertIdx {ts : List Token} (h : Loose ts) {j : Nat}
    (hbefore : ∀ i, j = i + 1 → ts[i]? ≠ some Token.space) (hafter : ts[j]? ≠ some Token.space) :
    Loose (ts.insertIdx j Token.space) where
  no_quote t ht := by
    obtain rfl | ht := List.eq_or_mem_of_mem_insertIdx ht
    · rfl
    · exact h.no_quote t ht
  no_bracedUri := isChain_insertIdx h.no_bracedUri (fun _ _ _ _ ⟨_, h⟩ => nomatch h)
    fun _ _ ⟨h, _⟩ => nomatch h
  single_spaces := isChain_insertIdx h.single_spaces
    (fun i t hj ht ⟨h, _⟩ => hbefore i hj (h ▸ ht)) fun t ht ⟨_, h⟩ => hafter (h ▸ ht)

end Token.Loose

theorem Token.skipSpace_of_touching {t : Token} (ht : t ∉ Token.space :: Token.punctuation)
    (ts : List Token) : Token.skipSpace (t :: ts) = t :: ts :=
  Rule.skipSpace_eq_self fun h => ht (Option.some.inj h ▸ List.mem_cons_self)

/-- Sequences without literals that begin with the same token, no space, and go on in the same way,
but for spaces next to punctuation. -/
inductive Aligned : List Token → List Token → Prop
  | nil : Aligned [] []
  | cons {t : Token} {ts us : List Token} (solid : t.isSpace = false) (no_quote : t.isQuote = false)
    (no_bracedUri : t = "Q" → ts.head? ≠ some "\x7b" ∧ us.head? ≠ some "\x7b")
    (gap : t ∈ Token.punctuation ∨ (∃ u ∈ (Token.skipSpace ts).head?, u ∈ Token.punctuation) ∨
      (ts.head? = some Token.space ↔ us.head? = some Token.space))
    (tail : Aligned (Token.skipSpace ts) (Token.skipSpace us)) : Aligned (t :: ts) (t :: us)

namespace Aligned

variable {ts us : List Token}

theorem head?_eq (h : Aligned ts us) : ts.head? = us.head? := by
  cases h <;> rfl

theorem symm (h : Aligned ts us) : Aligned us ts := by
  induction h with
  | nil => exact .nil
  | @cons t ts us hsolid hquote huri hgap htail ih =>
    refine .cons hsolid hquote (fun ht => (huri ht).symm) ?_ ih
    rw [htail.head?_eq] at hgap
    exact hgap.imp id (Or.imp id Iff.symm)

theorem skipSpace_left (h : Aligned ts us) : Token.skipSpace ts = ts := by
  cases h with
  | nil => rfl
  | cons hsolid => simp [Token.skipSpace, hsolid]

theorem skipSpace_right (h : Aligned ts us) : Token.skipSpace us = us :=
  h.symm.skipSpace_left

theorem eq_nil (h : Aligned [] us) : us = [] := by
  cases h
  rfl

theorem exists_cons {t : Token} (h : Aligned (t :: ts) us) :
    ∃ us', us = t :: us' ∧ Aligned (Token.skipSpace ts) (Token.skipSpace us') := by
  cases h with
  | cons _ _ _ _ htail => exact ⟨_, rfl, htail⟩

/-- Tokens that are no punctuation stand side by side in both sequences or in none. -/
theorem touch {t u : Token} {more : List Token} (h : Aligned (t :: u :: more) (t :: us))
    (ht : t ∉ Token.space :: Token.punctuation) (hu : u ∉ Token.space :: Token.punctuation) :
    ∃ more', us = u :: more' ∧ Aligned (u :: more) (u :: more') := by
  cases h with
  | cons _ _ _ hgap htail =>
    rw [Token.skipSpace_of_touching hu] at hgap htail
    simp only [List.mem_cons, not_or] at ht hu
    have hus : us.head? ≠ some Token.space := by simpa [ht, hu] using hgap
    rw [Rule.skipSpace_eq_self hus] at htail
    cases htail with
    | cons hs hq hQ hg htail => exact ⟨_, rfl, .cons hs hq hQ hg htail⟩

theorem startsNoLiteral (h : Aligned ts us) : StartsNoLiteral ts := by
  cases h with
  | nil => exact ⟨rfl, nofun⟩
  | @cons t ts us _ hquote huri =>
    refine ⟨Bool.eq_false_iff.mpr fun hstart => ?_, fun u hu => ?_⟩
    · obtain ⟨vs, hvs⟩ := startsBracedUri_iff.mp hstart
      obtain ⟨rfl, rfl⟩ := List.cons_eq_cons.mp hvs
      exact (huri rfl).1 rfl
    · obtain rfl : t = u := by simpa using hu
      exact hquote

end Aligned

/-- Sequences that differ in spaces next to punctuation. -/
def Alike.spacing : Alike where
  rel ts us := Aligned (Token.skipSpace ts) (Token.skipSpace us)
  kept _ := True
  touching t := t ∉ Token.space :: Token.punctuation
  kept_suffix _ _ := trivial
  skip h _ := by
    rw [h.skipSpace_left, h.skipSpace_right]
    exact h
  next h hts _ := (hts ▸ h).exists_cons
  back h hus := by
    obtain ⟨more, hts, hmore⟩ := (hus ▸ h.symm).exists_cons
    rw [hts, hus] at h
    exact ⟨more, hts, hmore.symm, by rwa [h.skipSpace_left, h.skipSpace_right]⟩
  touch := by
    rintro t u more us h ht hu -
    rw [Token.skipSpace_of_touching ht, Token.skipSpace_of_touching ht] at h
    obtain ⟨more', rfl, h⟩ := h.touch ht hu
    refine ⟨more', rfl, ?_⟩
    rwa [Token.skipSpace_of_touching hu, Token.skipSpace_of_touching hu]
  touch_back := by
    rintro t u ts more' h ht hu
    rw [Token.skipSpace_of_touching ht, Token.skipSpace_of_touching ht] at h
    obtain ⟨more, rfl, hmore⟩ := h.symm.touch ht hu
    refine ⟨more, rfl, ?_⟩
    rw [Token.skipSpace_of_touching hu, Token.skipSpace_of_touching hu]
    exact hmore.symm
  touching_of h := h
  literal := .inr fun h => ⟨h.startsNoLiteral, h.symm.startsNoLiteral⟩

theorem Token.Loose.aligned {ts : List Token} (h : Token.Loose ts) :
    Aligned (Token.skipSpace ts) (Token.skipSpace ts) := by
  induction ts with
  | nil => exact .nil
  | cons t ts ih =>
    rw [Token.skipSpace]
    split
    next hs =>
      obtain rfl : t = Token.space := by simpa [Token.isSpace] using hs
      exact h.skipSpace_of_space ▸ ih h.tail
    next hs =>
      refine .cons (by simpa using hs) (h.no_quote t List.mem_cons_self) ?_ (.inr (.inr .rfl))
        (ih h.tail)
      rintro rfl
      exact ⟨h.head?_ne_brace, h.head?_ne_brace⟩

/-- One more space next to a punctuation token. -/
theorem Token.Loose.aligned_insertIdx {ts : List Token} {j : Nat} (h : Token.Loose ts)
    (hinsert : Token.Loose (ts.insertIdx j Token.space))
    (hj : ∀ i, j = i + 1 → (∃ p ∈ ts[i]?, p ∈ Token.punctuation) ∨ ∃ p ∈ ts[j]?,
      p ∈ Token.punctuation) :
    Aligned (Token.skipSpace ts) (Token.skipSpace (ts.insertIdx j Token.space)) := by
  induction ts generalizing j with
  | nil => cases j <;> exact .nil
  | cons t ts ih =>
    cases j with
    | zero =>
      rw [List.insertIdx_zero] at hinsert ⊢
      have hskip : Token.skipSpace (Token.space :: t :: ts) = Token.skipSpace (t :: ts) :=
        hinsert.skipSpace_of_space.symm
      rw [hskip]
      exact h.aligned
    | succ j =>
      rw [List.insertIdx_succ_cons] at hinsert ⊢
      have htail := ih h.tail hinsert.tail fun i hi => by simpa [hi] using hj (i + 1) (by omega)
      cases hs : t.isSpace with
      | true =>
        obtain rfl : t = Token.space := by simpa [Token.isSpace] using hs
        rwa [h.skipSpace_of_space, hinsert.skipSpace_of_space] at htail
      | false =>
        have hskip (us : List Token) : Token.skipSpace (t :: us) = t :: us := by
          simp [Token.skipSpace, hs]
        rw [hskip, hskip]
        refine .cons hs (h.no_quote t List.mem_cons_self) ?_ ?_ htail
        · rintro rfl
          exact ⟨h.head?_ne_brace, hinsert.head?_ne_brace⟩
        cases j with
        | zero =>
          rw [List.insertIdx_zero] at hinsert
          rw [hinsert.tail.skipSpace_of_space]
          rw [List.head?_eq_getElem?]
          exact (hj 0 rfl).imp (by simp) fun h => .inl (by simpa using h)
        | succ j =>
          rw [head?_insertIdx_succ]
          exact .inr (.inr .rfl)

theorem parseAllTokens_of_aligned {maxDepth : Nat} {ts us : List Token} {n : Node}
    (h : Aligned (Token.skipSpace ts) (Token.skipSpace us))
    (hts : parseAllTokens maxDepth ts = .ok n) :
    parseAllTokens maxDepth us = .ok n := by
  obtain ⟨rest, hread, hrest⟩ := parseAllTokens_eq_ok.mp hts
  obtain ⟨rest', hread', hrel⟩ := (transfers_expr (A := .spacing)
    (transfers_exprSingle maxDepth)).again h hread trivial
  refine parseAllTokens_eq_ok.mpr ⟨rest', hread', ?_⟩
  exact (hrest ▸ hrel : Aligned [] (Token.skipSpace rest')).eq_nil

/-- A space in front of a punctuation token, or behind it, changes no tree. None may stand there
yet: of two spaces in a row the second one is no longer skipped. -/
theorem parseAllTokens_insertIdx_space {ts : List Token} (hts : Token.Loose ts) {i j : Nat}
    (hi : ∃ t ∈ ts[i]?, t ∈ Token.punctuation)
    (hj : j = i ∧ (i = 0 ∨ ts[i - 1]? ≠ some Token.space) ∨
      j = i + 1 ∧ ts[i + 1]? ≠ some Token.space) (maxDepth : Nat) (n : Node) :
    parseAllTokens maxDepth ts = .ok n ↔
      parseAllTokens maxDepth (ts.insertIdx j Token.space) = .ok n := by
  obtain ⟨t, ht, hpunct⟩ := hi
  have hsolid : t ≠ Token.space := fun h => absurd (h ▸ hpunct) (by decide)
  suffices h : Aligned (Token.skipSpace ts) (Token.skipSpace (ts.insertIdx j Token.space)) from
    ⟨parseAllTokens_of_aligned h, parseAllTokens_of_aligned h.symm⟩
  have hits : ts[i]? ≠ some Token.space := fun h => hsolid (Option.some.inj (ht.symm.trans h))
  obtain ⟨rfl, hbefore⟩ | ⟨rfl, hafter⟩ := hj
  · refine hts.aligned_insertIdx (hts.insertIdx (fun k hk => ?_) hits) fun _ _ =>
      .inr ⟨t, ht, hpunct⟩
    obtain rfl : k = j - 1 := by omega
    exact hbefore.resolve_left (by omega)
  · refine hts.aligned_insertIdx (hts.insertIdx (fun k hk => ?_) hafter) fun k hk => ?_
    · obtain rfl : k = i := by omega
      exact hits
    · obtain rfl : k = i := by omega
      exact .inl ⟨t, ht, hpunct⟩

/-- Spaces around a closing parenthesis. -/
theorem parseAllTokens_insertIdx_space_parenthesis :
    ∃ n, parseAllTokens 2 ["(", "1", ")"] = .ok n ∧ parseAllTokens 2 ["(", "1", " ", ")"] = .ok n ∧
      parseAllTokens 2 ["(", "1", ")", " "] = .ok n := by
  have h : parseAllTokens 2 ["(", "1", ")"] = .ok (.of (.expr [.of (.parenthesized
      (some (.of (.expr [.of (.integer 1)]))))])) := rfl
  have hloose : Token.Loose ["(", "1", ")"] := ⟨by decide, by decide, by decide⟩
  exact ⟨_, h,
    (parseAllTokens_insertIdx_space hloose (i := 2) (j := 2) ⟨")", rfl, by decide⟩
      (.inl ⟨rfl, .inr (by decide)⟩) 2 _).mp h,
    (parseAllTokens_insertIdx_space hloose (i := 2) (j := 3) ⟨")", rfl, by decide⟩
      (.inr ⟨rfl, by decide⟩) 2 _).mp h⟩

end XPath
