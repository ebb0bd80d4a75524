import XPath.Render.Expr

/-!
# Line feeds of texts

A text has one line more than line feeds (`Text.length_splitLines`). Texts that are written one
after another, each ended by a line feed, have together the lines of each (`Text.lines_join`).

Rendering adds no line feed: those of a rendered text are those of its pieces, and if there is none
in a word, those of its strings and URIs (`Tree.lineFeeds_text`).
-/

namespace XPath

/-! ## Lines -/

namespace Text

/-- How many line feeds a text has. -/
def lineFeeds (s : String) : Nat := s.toList.count '\n'

/-- The parts of a text between its line feeds. -/
def splitLines (s : String) : List String := (s.toList.splitOn '\n').map String.ofList

/-- The lines of a text, of which a line feed ends the last one too. -/
def lines (s : String) : List String := splitLines (String.ofList s.toList.dropLast)

theorem lineFeeds_append (s t : String) : lineFeeds (s ++ t) = lineFeeds s + lineFeeds t := by
  rw [lineFeeds, String.toList_append, List.count_append]
  rfl

theorem lineFeeds_eq_zero {s : String} : lineFeeds s = 0 ↔ '\n' ∉ s.toList := List.count_eq_zero

/-- A text is split at each of its line feeds. -/
theorem length_splitLines (s : String) : (splitLines s).length = lineFeeds s + 1 := by
  rw [splitLines, List.length_map, lineFeeds]
  induction s.toList with
  | nil => rfl
  | cons c cs ih =>
    rw [List.splitOn, List.splitOnP_cons_eq_if_modifyHead, List.count_cons]
    split
    · rw [List.length_cons]
      exact congrArg (· + 1) ih
    · rw [List.length_modifyHead]
      exact ih

theorem splitLines_of_lineFeeds_eq_zero {s : String} (h : lineFeeds s = 0) :
    splitLines s = [s] := by
  have hnot := lineFeeds_eq_zero.mp h
  have hsplit : s.toList.splitOn '\n' = [s.toList] :=
    List.splitOnP_eq_singleton fun c hc => beq_false_of_ne fun he => hnot (he ▸ hc)
  rw [splitLines, hsplit, List.map_singleton, String.ofList_toList]

/-- Each text on a line of its own, and more if there are line feeds in it. -/
theorem lines_join {ss : List String} (h : ss ≠ []) :
    lines (String.join (ss.map (· ++ "\n"))) = ss.flatMap splitLines := by
  induction ss with
  | nil => exact absurd rfl h
  | cons s ss ih =>
    rw [lines, String.toList_join, List.map_cons, List.flatMap_cons, String.toList_append]
    have hfeed : "\n".toList = ['\n'] := rfl
    cases ss with
    | nil => simp [hfeed]
    | cons s' ss =>
      have ih := ih (by simp)
      rw [lines, String.toList_join] at ih
      rw [hfeed, List.append_assoc, List.singleton_append, List.flatMap_cons, ← ih,
        List.dropLast_append_cons]
      simp only [splitLines, String.toList_ofList, List.splitOn]
      rw [List.dropLast_cons_of_ne_nil (by simp [hfeed]), List.splitOnP_append_cons _ _ (by simp),
        List.map_append]

/-! ## Several texts -/

-- Sums as core has them, also where Mathlib is imported.
attribute [local instance (5000)] Zero.ofOfNat0

/-- The line feeds of several texts. -/
def totalLineFeeds (ss : List String) : Nat := (ss.map lineFeeds).sum

@[simp] theorem totalLineFeeds_nil : totalLineFeeds [] = 0 := rfl

@[simp] theorem totalLineFeeds_cons (s : String) (ss : List String) :
    totalLineFeeds (s :: ss) = lineFeeds s + totalLineFeeds ss :=
  List.sum_cons

theorem totalLineFeeds_flatMap {α : Type} (g : α → List String) (xs : List α) :
    totalLineFeeds (xs.flatMap g) = (xs.map fun x => totalLineFeeds (g x)).sum := by
  induction xs with
  | nil => rfl
  | cons x xs ih =>
    rw [List.map_cons, List.sum_cons, ← ih, totalLineFeeds, List.flatMap_cons, List.map_append,
      List.sum_append]
    rfl

theorem totalLineFeeds_eq_zero {ss : List String} :
    totalLineFeeds ss = 0 ↔ ∀ s ∈ ss, '\n' ∉ s.toList := by
  simp only [totalLineFeeds, List.sum_eq_zero_iff_forall_eq_nat, List.forall_mem_map,
    lineFeeds_eq_zero]

/-- Each text gives one line, and one more for each of its line feeds. -/
theorem length_flatMap_splitLines (ss : List String) :
    (ss.flatMap splitLines).length = ss.length + totalLineFeeds ss := by
  induction ss with
  | nil => rfl
  | cons s ss ih =>
    rw [List.flatMap_cons, List.length_append, ih, length_splitLines, List.length_cons,
      totalLineFeeds_cons]
    omega

end Text

open Text

/-! ## Rendered text -/

/-- Doubling does not concern line feeds. -/
theorem Token.count_doubled {q : Token} (hq : q.isQuote) (content : Token) :
    (doubled q content).count '\n' = lineFeeds content := by
  rw [doubled, lineFeeds]
  induction content.toList with
  | nil => rfl
  | cons c cs ih =>
    rw [List.flatMap_cons, List.count_append, ih, List.count_cons, Nat.add_comm]
    congr 1
    split
    next hc =>
      have hne : c ≠ '\n' := by
        rintro rfl
        exact absurd (hc ▸ hq) (by decide)
      simp [hne]
    next => simp [List.count_cons]

/-- Only quotes are doubled, so no line feed comes or goes where tokens are joined. -/
theorem Token.lineFeeds_join (ts : List Token) : lineFeeds (join ts) = totalLineFeeds ts := by
  rw [join, lineFeeds, String.toList_ofList]
  fun_induction joinChars ts with
  | case1 => rfl
  | case2 opening content closing ts h ih =>
    simp only [List.count_append, count_doubled h.1, ih, totalLineFeeds_cons]
    simp only [lineFeeds, Nat.add_assoc]
  | case3 opening content closing ts h ih =>
    rw [List.count_append, ih]
    rfl
  | case4 t ts h ih =>
    rw [List.count_append, ih]
    rfl

namespace Piece

/-- The strings and URIs among pieces. -/
def contents (ps : List Piece) : List String :=
  ps.filterMap fun
    | string s => some s
    | bracedUri u => some u
    | _ => none

variable {ps : List Piece}

/-- If no word has line feeds, those of the tokens are those of the contents. -/
theorem totalLineFeeds_tokensAfter (h : ∀ t, .text t ∈ ps → lineFeeds t = 0)
    (last : Option Token) :
    totalLineFeeds (tokensAfter last ps) = totalLineFeeds (contents ps) := by
  induction ps generalizing last with
  | nil => rfl
  | cons p ps ih =>
    have ih := ih fun t ht => h t (List.mem_cons_of_mem _ ht)
    cases p with
    | text t =>
      rw [tokensAfter, totalLineFeeds_cons, ih, h t List.mem_cons_self, Nat.zero_add]
      rfl
    | string s =>
      have hquote : lineFeeds "\"" = 0 := by decide
      simp [tokensAfter, ih, hquote, contents]
    | bracedUri u =>
      have hmarks : lineFeeds "Q" = 0 ∧ lineFeeds "\x7b" = 0 ∧ lineFeeds "\x7d" = 0 := by decide
      simp [tokensAfter, ih, hmarks, contents]
    | gap =>
      have hspace : lineFeeds Token.space = 0 := by decide
      rw [tokensAfter]
      split
      · exact ih last
      · rw [totalLineFeeds_cons, ih, hspace, Nat.zero_add]
        rfl

theorem totalLineFeeds_dropFinalSpace (ts : List Token) :
    totalLineFeeds (dropFinalSpace ts) = totalLineFeeds ts := by
  induction ts with
  | nil => rfl
  | cons t ts ih =>
    cases ts with
    | nil =>
      rw [dropFinalSpace]
      split
      next ht =>
        obtain rfl : t = Token.space := by simpa [Token.isSpace] using ht
        rfl
      next => rfl
    | cons u ts =>
      rw [dropFinalSpace, totalLineFeeds_cons, totalLineFeeds_cons, ih]
      simp

end Piece

/-- The line feeds of a text are those of its strings and URIs, if there is none in a word. -/
theorem Tree.lineFeeds_text {ι : Type} {t : Tree ι}
    (h : ∀ u, .text u ∈ t.pieces → lineFeeds u = 0) :
    lineFeeds t.text = totalLineFeeds (Piece.contents t.pieces) := by
  rw [text, Token.lineFeeds_join, tokens, Piece.tokens, Piece.totalLineFeeds_dropFinalSpace,
    Piece.totalLineFeeds_tokensAfter h]

end XPath
