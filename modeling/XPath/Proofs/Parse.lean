import XPath.Parse
import XPath.Proofs.Sound.Expr

/-!
# Success of parsing

What it means that an entry point of the parser succeeds (`parseTokens_eq_ok`,
`parseAllTokens_eq_ok`), and what every tree is like that it returns: an `Expr` at the root, and at
every node a well-formed construct (`parseTokens_wellFormed`).
-/

namespace XPath

open Grammar

variable {maxDepth : Nat} {ts : List Token} {n : Node}

/-! ## Entry points -/

theorem Spells.suffix {ps : List Piece} {rest : List Token} (h : Spells ts ps rest) :
    rest <:+ ts := by
  induction h with
  | nil => exact List.suffix_rfl
  | gap _ ih => exact ih
  | space _ ih | text _ _ ih | digits _ _ ih => exact ih.trans (List.suffix_cons _ _)
  | @fraction a b w _ _ _ _ _ _ _ _ ih => exact ih.trans (List.suffix_append (a :: b :: w) _)
  | @string q s _ _ _ _ _ ih => exact ih.trans (List.suffix_append [q, s, q] _)
  | @bracedUri w ts _ _ _ _ ih =>
    have hw : "Q" :: "\x7b" :: (w ++ "\x7d" :: ts) =
        ("Q" :: "\x7b" :: w ++ ["\x7d"]) ++ ts := by simp
    rw [hw]
    exact ih.trans (List.suffix_append _ _)

theorem Rule.run_eq_ok {α : Type} {r : Rule α} {a : α} {start next : Nat} :
    r.run maxDepth ts start = .ok (a, next) ↔ ∃ rest,
      r (ts.drop start) = .ok (a, rest) ∧ next =
        start + ((ts.drop start).length - rest.length) := by
  rw [Rule.run]
  cases r (ts.drop start) with
  | error e => simp
  | ok x =>
    obtain ⟨b, rest⟩ := x
    simp only [Except.ok.injEq, Prod.mk.injEq]
    constructor
    · rintro ⟨rfl, rfl⟩
      exact ⟨rest, ⟨rfl, rfl⟩, rfl⟩
    · rintro ⟨_, ⟨rfl, rfl⟩, rfl⟩
      exact ⟨rfl, rfl⟩

theorem Rule.run_eq_error {α : Type} {r : Rule α} {start : Nat} {e : ParseError} :
    r.run maxDepth ts start = .error e ↔
      ∃ f, r (ts.drop start) = .error f ∧ e = f.toError maxDepth start (ts.drop start) := by
  rw [Rule.run]
  cases r (ts.drop start) with
  | error f => simp [eq_comm]
  | ok x => simp

theorem parseTokens_eq_ok {next : Nat} : parseTokens maxDepth ts = .ok (n, next) ↔
    ∃ rest, expr (nested maxDepth) ts = .ok (n, rest) ∧ next = ts.length - rest.length := by
  have h : parseTokens maxDepth ts = (expr (nested maxDepth)).run maxDepth ts 0 := rfl
  rw [h, Rule.run_eq_ok]
  simp

/-- The rest is found again by its length. -/
theorem drop_of_expr_eq_ok {rest : List Token} (h : expr (nested maxDepth) ts = .ok (n, rest)) :
    ts.drop (ts.length - rest.length) = rest :=
  (List.suffix_iff_eq_drop.mp (expr_sound (nested_sound maxDepth) h).1.suffix).symm

theorem parseAllTokens_eq_ok : parseAllTokens maxDepth ts = .ok n ↔
    ∃ rest, expr (nested maxDepth) ts = .ok (n, rest) ∧ Token.skipSpace rest = [] := by
  unfold parseAllTokens
  constructor
  · intro h
    cases hp : parseTokens maxDepth ts with
    | error e => simp [hp, bind, Except.bind] at h
    | ok x =>
      obtain ⟨m, next⟩ := x
      obtain ⟨rest, hrest, rfl⟩ := parseTokens_eq_ok.mp hp
      rw [hp] at h
      simp only [bind, Except.bind, drop_of_expr_eq_ok hrest] at h
      cases hs : Token.skipSpace rest with
      | nil =>
        simp only [hs, pure, Except.pure, Except.ok.injEq] at h
        exact ⟨rest, h ▸ hrest, hs⟩
      | cons t ts => simp [hs, throw, throwThe, MonadExceptOf.throw] at h
  · rintro ⟨rest, hrest, hs⟩
    rw [parseTokens_eq_ok.mpr ⟨rest, hrest, rfl⟩]
    simp [bind, Except.bind, drop_of_expr_eq_ok hrest, hs, pure, Except.pure]

theorem parseTokens_of_error {e : Failure} (h : expr (nested maxDepth) ts = .error e) :
    parseTokens maxDepth ts = .error (e.toError maxDepth 0 ts) :=
  Rule.run_eq_error.mpr ⟨e, h, rfl⟩

theorem parseAllTokens_of_error {e : Failure} (h : expr (nested maxDepth) ts = .error e) :
    parseAllTokens maxDepth ts = .error (e.toError maxDepth 0 ts) := by
  rw [parseAllTokens, parseTokens_of_error h]
  rfl

theorem parseAllTokens_of_ok {n : Node} {rest : List Token}
    (h : expr (nested maxDepth) ts = .ok (n, rest)) : parseAllTokens maxDepth ts =
      match Token.skipSpace rest with
      | [] => .ok n
      | more => .error (.trailingTokens (ts.length - more.length)) := by
  rw [parseAllTokens, parseTokens_eq_ok.mpr ⟨rest, h, rfl⟩]
  simp only [bind, Except.bind, drop_of_expr_eq_ok h]
  cases Token.skipSpace rest <;> rfl

theorem parseAll_eq_ok {source : String} : parseAll maxDepth source = .ok n ↔
    ∃ ts, tokenize source = .ok ts ∧ parseAllTokens maxDepth ts = .ok n := by
  rw [parseAll, tokensOf]
  cases tokenize source with
  | ok ts => exact ⟨fun h => ⟨ts, rfl, h⟩, fun ⟨_, rfl, h⟩ => h⟩
  | error e => exact ⟨nofun, nofun⟩

/-! ## Shape -/

/-- No `Expr` stands outside of brackets. -/
theorem Form.WellFormed.kind_ne_expr {f : Form Node} (h : f.WellFormed) :
    ∀ e ∈ f.operands ++ f.singles ++ f.groups, e.kind ≠ .expr := by
  have hrank : ∀ e : Node, 0 < e.rank → e.kind ≠ .expr := by
    rintro ⟨_, g⟩ hpos hkind
    cases g with
    | expr items => exact absurd hpos (Nat.lt_irrefl 0)
    | chain level first rest => cases level <;> cases hkind
    | _ => cases hkind
  intro e he
  rcases List.mem_append.mp he with he | he
  · rcases List.mem_append.mp he with he | he
    · exact hrank e (Nat.lt_of_le_of_lt (Nat.zero_le _) (h.operand_rank e he))
    · exact hrank e (h.single_rank e he)
  · rw [h.group_kind e he]
    decide

theorem Tree.All.imp {ι : Type} {p q : Form (Tree ι) → Prop} (hpq : ∀ f, p f → q f) {n : Tree ι}
    (h : n.All p) : n.All q := by
  induction n using Tree.induct with
  | node l f ih =>
    obtain ⟨hf, hc⟩ := all_node.mp h
    exact all_node.mpr ⟨hpq f hf, fun c hmem => ih c hmem (hc c hmem)⟩

/-- Whatever is parsed is an `Expr`, with a well-formed construct at every node. Any other `Expr`
in it is the content of a bracket. -/
theorem parseTokens_wellFormed {next : Nat} (h : parseTokens maxDepth ts = .ok (n, next)) :
    n.kind = .expr ∧ n.All fun f =>
      f.WellFormed ∧ ∀ e ∈ f.operands ++ f.singles ++ f.groups, e.kind ≠ .expr := by
  obtain ⟨rest, hrest, -⟩ := parseTokens_eq_ok.mp h
  obtain ⟨-, hkind, hfits⟩ := expr_sound (nested_sound maxDepth) hrest
  have hw := Tree.all_wellFormed_of_fits n hfits
  exact ⟨hkind, hw.imp fun f hf => ⟨hf, hf.kind_ne_expr⟩⟩

theorem parseTokens_wellFormed_sum : ∃ n next,
    parseTokens 1 ["1", " ", "+", " ", "2"] = .ok (n, next) ∧ n.kind = .expr ∧ n.All fun f =>
      f.WellFormed ∧ ∀ e ∈ f.operands ++ f.singles ++ f.groups, e.kind ≠ .expr :=
  have h : parseTokens 1 ["1", " ", "+", " ", "2"] = .ok (.of (.expr [.of (.chain .additive
      (.of (.integer 1)) [(.plus, .of (.integer 2))])]), 5) := rfl
  ⟨_, _, h, parseTokens_wellFormed h⟩

end XPath
