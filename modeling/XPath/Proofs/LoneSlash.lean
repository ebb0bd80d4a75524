import XPath.Proofs.Position

/-!
# The slash that stands alone

Whether a slash stands alone is found out by reading on: a path is read after it, and if that fails
at the next token, a space aside, and no step begins there, the slash was all. The next token
decides this before anything is read. Where no step begins, no path can be read, and the attempt
fails at this very token (`Grammar.relativePath_error`); where one begins, or after two slashes,
nothing is made up for an error. So the outcome of the attempt is that of looking ahead
(`Grammar.SlashAlone`), and in all other cases the path after the slash is read or fails as it would
without one (`Grammar.pathExpr_afterSlash`).

Two spaces in a row are left out. A step may have two of them in front of it, and behind the second
one a path would be found that the slash does not look for.
-/

namespace XPath

open Rule

/-! ## The next token -/

/-- The index after a space, if there is one. -/
def Token.skipIndex (ts : List Token) (i : Nat) : Nat := if ts[i]?.any isSpace then i + 1 else i

/-- Some step begins with the token. -/
def Token.beginsStep (t : Token) : Prop :=
  Text.startsName t ∨ t.isDigits ∨ t ∈ ["*", "@", ".", "..", "(", "$", "?", "[", "'", "\""]

theorem Token.beginsStep_iff {t : Token} : t.beginsStep ↔ Grammar.canStartStep [t] := by
  simp [beginsStep, Grammar.canStartStep, or_assoc]

/-- Behind a space, or where none is, stands a token that is no space. -/
theorem Token.isSpace_skipIndex {ts : List Token} {t : Token} {i : Nat}
    (hspaces : ts.IsChain fun t u => ¬ (t = Token.space ∧ u = Token.space))
    (ht : ts[skipIndex ts i]? = some t) : t.isSpace = false := by
  refine Bool.eq_false_iff.mpr fun hspace => ?_
  obtain rfl : t = Token.space := by simpa [isSpace] using hspace
  rw [skipIndex] at ht
  split at ht
  next hi =>
    obtain ⟨u, hu, huspace⟩ := (Option.any_eq_true _ _).mp hi
    obtain rfl : u = Token.space := by simpa [isSpace] using huspace
    obtain ⟨hlt, ht⟩ := List.getElem?_eq_some_iff.mp ht
    obtain ⟨hlt', hu⟩ := List.getElem?_eq_some_iff.mp hu
    exact List.isChain_iff_getElem.mp hspaces i hlt ⟨hu, ht⟩
  next hi => simp [ht, isSpace] at hi

namespace Grammar

/-- There is one slash at the index, and no step begins after it. -/
structure SlashAlone (ts : List Token) (i : Nat) : Prop where
  slash : ts[i]? = some "/"
  no_step : ∀ t ∈ ts[Token.skipIndex ts (i + 1)]?, ¬ t.beginsStep

variable {maxDepth i : Nat} {ts : List Token} {leading : PathOp}

theorem slashAlone_iff (maxDepth : Nat)
    (hspaces : ts.IsChain fun t u => ¬ (t = Token.space ∧ u = Token.space))
    (hi : ts[i]? = some (Spelled.spelling leading)) :
    SlashAlone ts i ↔ leading = .slash ∧
      ∀ t ∈ Input.peek ⟨ts, maxDepth⟩ (i + 1), BeginsNoStep t := by
  have hslash : ts[i]? = some "/" ↔ leading = .slash := by
    rw [hi]
    cases leading <;> decide
  have hstep : ∀ t ∈ ts[Token.skipIndex ts (i + 1)]?, (¬ t.beginsStep ↔ BeginsNoStep t) := by
    intro t ht
    have hspace := Token.isSpace_skipIndex hspaces ht
    rw [Token.beginsStep_iff, Bool.not_eq_true]
    exact ⟨fun h => ⟨h, hspace⟩, BeginsNoStep.no_step⟩
  change _ ↔ _ ∧ ∀ t ∈ ts[Token.skipIndex ts (i + 1)]?, BeginsNoStep t
  rw [← hslash]
  constructor
  · exact fun h => ⟨h.slash, fun t ht => (hstep t ht).mp (h.no_step t ht)⟩
  · exact fun ⟨h, hno⟩ => ⟨h, fun t ht => (hstep t ht).mpr (hno t ht)⟩

/-! ## The path -/

/-- A path that begins with a slash goes on behind it. -/
theorem pathExpr_slash {input : Input} {inner' : Input.Nested}
    (hi : input.get i = some (Spelled.spelling leading)) :
    input.pathExpr inner' i = input.pathAfter inner' leading (i + 1) := by
  have hskip : input.skipSpace i = i := by
    rw [Input.skipSpace, hi]
    cases leading <;> rfl
  rw [Input.pathExpr, hskip, hi, Option.bind_some, Spelled.ofToken?_spelling]

theorem run_pathExpr (levels maxDepth : Nat) (hi : i ≤ ts.length) :
    (pathExpr (nested levels)).run maxDepth ts i =
      Input.pathExpr ⟨ts, maxDepth⟩ (Input.nested ⟨ts, maxDepth⟩ levels) i :=
  run_eq_of_mirrors hi (agree_pathExpr (agree_nested levels levels) i hi).mirrors
    (agree_pathExpr (agree_nested levels levels) 0 (Nat.zero_le _)).mirrors

theorem run_relativePath (levels maxDepth : Nat) (hi : i ≤ ts.length) :
    (relativePath (nested levels)).run maxDepth ts i =
      Input.relativePath ⟨ts, maxDepth⟩ (Input.nested ⟨ts, maxDepth⟩ levels) i :=
  run_eq_of_mirrors hi (agree_relativePath (agree_nested_self levels) i hi).mirrors
    (agree_relativePath (agree_nested_self levels) 0 (Nat.zero_le _)).mirrors

/-- What is read where a path begins with a slash. The slash alone is read if there is no second one
and no step begins after it. Otherwise a path has to follow, and what is wrong with it is told as it
is. -/
theorem pathExpr_afterSlash (levels maxDepth : Nat)
    (hspaces : ts.IsChain fun t u => ¬ (t = Token.space ∧ u = Token.space))
    (hi : ts[i]? = some (Spelled.spelling leading)) :
    ((pathExpr (nested levels)).run maxDepth ts i = .ok (.of (.path .slash none), i + 1) ↔
      SlashAlone ts i) ∧
    (¬ SlashAlone ts i → (pathExpr (nested levels)).run maxDepth ts i =
      ((relativePath (nested levels)).run maxDepth ts (i + 1)).map
        fun (relative, next) => (.of (.path leading (some relative)), next)) := by
  have hlt : i + 1 ≤ ts.length := (List.getElem?_eq_some_iff.mp hi).1
  have hget : Input.get ⟨ts, maxDepth⟩ i = some (Spelled.spelling leading) := hi
  have hslashes : Slashes ⟨ts, maxDepth⟩ (Input.nested ⟨ts, maxDepth⟩ levels) :=
    slashes_of_agree (agree_nested_self levels) (nested_stops levels)
  rw [run_pathExpr levels maxDepth (Nat.le_of_succ_le hlt), run_relativePath levels maxDepth hlt,
    pathExpr_slash hget, slashAlone_iff maxDepth hspaces hi]
  generalize hpath : Input.relativePath ⟨ts, maxDepth⟩ _ (i + 1) = path
  have hmap (hlone : ¬ (leading = .slash ∧
      ∀ t ∈ Input.peek ⟨ts, maxDepth⟩ (i + 1), BeginsNoStep t)) :
      Input.pathAfter ⟨ts, maxDepth⟩ (Input.nested ⟨ts, maxDepth⟩ levels) leading (i + 1) =
        path.map fun (relative, next) => (.of (.path leading (some relative)), next) := by
    rw [hslashes.path hlt hlone, IndexRule.map, hpath]
    cases path <;> rfl
  refine ⟨⟨fun h => ?_, fun h => ?_⟩, hmap⟩
  · by_contra hlone
    rw [hmap hlone] at h
    cases path with
    | error e => simp [Except.map] at h
    | ok x => simp [Except.map, Node.of] at h
  · obtain ⟨rfl, hno⟩ := h
    exact hslashes.alone hlt hno

/-- A slash in front of a closing bracket stands alone; behind another one a bracket that is not
closed is an error of its own. -/
theorem pathExpr_afterSlash_bracket :
    ((pathExpr (nested 2)).run 2 ["[", "/", " ", "]"] 1 = .ok (.of (.path .slash none), 2) ∧
      SlashAlone ["[", "/", " ", "]"] 1) ∧
    ¬ SlashAlone ["/", "["] 0 ∧
    (pathExpr (nested 2)).run 2 ["/", "["] 0 =
      .error (.unexpectedToken 1 (some "[") "ExprSingle") := by
  have hsecond : ["[", "/", " ", "]"][1]? = some (Spelled.spelling PathOp.slash) := rfl
  have hfirst : ["/", "["][0]? = some (Spelled.spelling PathOp.slash) := rfl
  have halone : (pathExpr (nested 2)).run 2 ["[", "/", " ", "]"] 1 =
      .ok (.of (.path .slash none), 2) := rfl
  have hopen : (relativePath (nested 2)).run 2 ["/", "["] 1 =
      .error (.unexpectedToken 1 (some "[") "ExprSingle") := rfl
  have hnot : ¬ SlashAlone ["/", "["] 0 := fun h => h.no_step "[" rfl (.inr (.inr (by decide)))
  refine ⟨⟨halone, ?_⟩, hnot, ?_⟩
  · exact (pathExpr_afterSlash 2 2 (by decide) hsecond).1.mp halone
  · rw [(pathExpr_afterSlash 2 2 (by decide) hfirst).2 hnot, hopen]
    rfl

end Grammar

end XPath
