import XPath.Proofs.Indexed.Expr
import XPath.Proofs.Parse

/-!
# The limit on nesting

The limit decides nothing but whether an expression is too deep: with one limit as with another the
same expressions are read and the same errors are found, as long as no more is nested than the limit
allows (`parseAllTokens_limit`).
-/

namespace XPath

open Grammar

/-- What is parsed with one limit is parsed with another, if it is nested no deeper than that, and
is too deep otherwise. An error that is not about the limit is the same with a larger one. -/
theorem parseAllTokens_limit (ts : List Token) (first second : Nat) :
    (∀ n, parseAllTokens first ts = .ok n →
      (n.nest ≤ second → parseAllTokens second ts = .ok n) ∧
      (second < n.nest → ∃ position,
        parseAllTokens second ts = .error (.tooDeep second position))) ∧
    ∀ e, parseAllTokens first ts = .error e → (∀ limit position, e ≠ .tooDeep limit position) →
      first ≤ second → parseAllTokens second ts = .error e := by
  -- The second run is followed at its indices, and read back from there.
  let input : Input := ⟨ts, second⟩
  have hnested : Nested.AgreePaths input first second (nested first) (input.nested second) :=
    agree_nested first second
  have hself : Nested.Agree input second second (nested second) (input.nested second) :=
    agree_nested_self second
  have hagree := agree_expr hnested.toAgree 0 (Nat.zero_le _)
  have hsecond := (agree_expr hself 0 (Nat.zero_le _)).mirrors
  change AgreeAt input _ _ _ _ (expr (nested first) ts) _ at hagree
  change Mirrors input (expr (nested second) ts) _ at hsecond
  refine ⟨fun n hn => ?_, fun e he hdeep hle => ?_⟩
  · obtain ⟨rest, hr, hrest⟩ := parseAllTokens_eq_ok.mp hn
    rw [hr] at hagree
    cases hagree with
    | ok hnext hp hok htoo _ =>
      rw [true_and] at hp
      refine ⟨fun h => parseAllTokens_eq_ok.mpr ⟨_, ?_, hrest⟩, fun h => ?_⟩
      · rw [hok (hp.mp h)] at hsecond
        exact hsecond.unique (.ok n hnext)
      · obtain ⟨position, hposition⟩ := htoo fun hpp => Nat.not_le_of_lt h (hp.mpr hpp)
        obtain ⟨at', hat⟩ : ∃ at', expr (nested second) ts = .error (.tooDeep at') := by
          rw [hposition] at hsecond
          generalize expr (nested second) ts = x at hsecond
          cases hsecond with
          | tooDeep _ => exact ⟨_, rfl⟩
        exact ⟨_, parseAllTokens_of_error hat⟩
  · cases hr : expr (nested first) ts with
    | ok x =>
      obtain ⟨n, rest⟩ := x
      rw [parseAllTokens_of_ok hr] at he
      rw [hr] at hagree
      cases hagree with
      | ok hnext _ hok _ hall =>
        rw [hok (hall hle)] at hsecond
        rw [parseAllTokens_of_ok (hsecond.unique (.ok n hnext))]
        exact he
    | error f =>
      rw [parseAllTokens_of_error hr] at he
      rw [hr] at hagree
      cases hagree with
      | error h =>
        cases f with
        | tooDeep at' => exact absurd (Except.error.inj he).symm (hdeep _ _)
        | unexpected _ _ | value _ =>
          rw [parseAllTokens_of_error (hsecond.unique (h hle))]
          exact he

/-- One expression in another needs two levels. -/
theorem parseAllTokens_limit_parenthesized : ∃ n, parseAllTokens 5 ["(", "1", ")"] = .ok n ∧
    n.nest = 2 ∧ parseAllTokens 2 ["(", "1", ")"] = .ok n ∧
    (∃ position, parseAllTokens 1 ["(", "1", ")"] = .error (.tooDeep 1 position)) ∧
    ∃ e, parseAllTokens 2 ["("] = .error e ∧ parseAllTokens 3 ["("] = .error e := by
  have h : parseAllTokens 5 ["(", "1", ")"] = .ok (.of (.expr [.of (.parenthesized
      (some (.of (.expr [.of (.integer 1)]))))])) := rfl
  refine ⟨_, h, rfl, ((parseAllTokens_limit _ 5 2).1 _ h).1 (by decide),
    ((parseAllTokens_limit _ 5 1).1 _ h).2 (by decide), ?_⟩
  have he : parseAllTokens 2 ["("] =
      .error (.unexpectedToken 0 (some "(") "ExprSingle") := rfl
  exact ⟨_, he, (parseAllTokens_limit _ 2 3).2 _ he nofun (by decide)⟩

end XPath
