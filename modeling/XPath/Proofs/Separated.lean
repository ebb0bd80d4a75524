import XPath.Proofs.LexFailure

/-!
# Texts with blanks between them

A text that is lexemes is read as these lexemes in front of any other text at whose first character
the last one of them stops, and the other text is read as if it stood alone
(`Lexeme.Splits.scan_append`). Blanks end whatever stands in front of them, a string literal too:
its quote is not doubled there. A run of blanks goes on with more blanks only, and whether the first
text ends with such a run is seen from its characters (`Lexeme.Splits.after_iff`).

So blanks between two texts are one space between their tokens if no other blanks are next to them,
and only then (`tokenize_append_blanks`).
-/

namespace XPath

namespace Place

/-- Where a character that follows these would stand. -/
def after (p : Place) (cs : List Char) : Place := cs.foldl next p

theorem after_cons (p : Place) (c : Char) (cs : List Char) :
    p.after (c :: cs) = (p.next c).after cs :=
  rfl

theorem after_append (p : Place) (cs ds : List Char) : p.after (cs ++ ds) = (p.after cs).after ds :=
  List.foldl_append

theorem after_eq_self {p : Place} {cs : List Char} (h : ∀ c ∈ cs, p.next c = p) :
    p.after cs = p := by
  induction cs with
  | nil => rfl
  | cons c cs ih =>
    obtain ⟨hc, hcs⟩ := List.forall_mem_cons.mp h
    rw [after_cons, hc, ih hcs]

end Place

namespace Lexeme

variable {c q : Char} {cs ds w : List Char} {l : Lexeme} {ls ms : List Lexeme}

/-! ## Where a text ends -/

/-- Where a character that follows the lexeme stands. -/
def placeAfter : Lexeme → Place
  | space => .afterBlank
  | _ => .outside

theorem Doubled.after {content : List Char} (hq : isQuote q) (h : Doubled q content w) :
    Place.after (.inside q) w = .inside q := by
  have hb := isBlank_of_isQuote hq
  induction h with
  | nil => rfl
  | other hc _ ih => rwa [Place.after_cons, Place.next, if_neg hc]
  -- Between its two halves a doubled quote is outside of the literal, and then begins it again.
  | quote _ ih => simpa [Place.after_cons, Place.next, hq, hb] using ih

theorem Written.after (h : Written l w) : Place.after .outside w = l.placeAfter := by
  cases h with
  | space hne hw =>
    obtain ⟨c, cs, rfl⟩ := List.exists_cons_of_ne_nil hne
    obtain ⟨hc, hcs⟩ : isBlank c ∧ ∀ d ∈ cs, isBlank d := by simpa using hw
    have hfirst : Place.next .outside c = .afterBlank := by simp [Place.next, hc]
    rw [Place.after_cons, hfirst]
    exact Place.after_eq_self fun d hd => by simp [Place.next, hcs d hd]
  | plain hw =>
    refine Place.after_eq_self fun c hc => ?_
    obtain ⟨hb, hq⟩ := isWhole_plain (isWhole_plain_iff.mpr hw) c hc
    simp [Place.next, hb, hq]
  | @literal q hq content w hw =>
    have hfirst : Place.next .outside q = .inside q := by
      simp [Place.next, isBlank_of_isQuote hq, hq]
    rw [Place.after_cons, hfirst, Place.after_append, hw.after hq]
    exact if_pos rfl

/-- A text ends with a blank outside of literals exactly if its last lexeme is a space. -/
theorem Splits.after_iff (h : Splits cs ls) :
    Place.after .outside cs = .afterBlank ↔ ls.getLast? = some space := by
  induction h with
  | nil => simp [Place.after]
  | @cons l c w rest ls hl _ hrest ih =>
    have hafter : Place.after .outside (c :: (w ++ rest)) = Place.after l.placeAfter rest := by
      rw [← List.cons_append, Place.after_append, hl.after]
    rw [hafter]
    cases hrest with
    | nil => cases l <;> simp [Place.after, placeAfter]
    | cons =>
      -- What follows a lexeme is read as at the beginning of a text.
      have hnext (d : Char) : l.placeAfter.next d = Place.next .outside d := by cases l <;> rfl
      rw [List.getLast?_cons_cons, ← ih, Place.after_cons, Place.after_cons, hnext]

/-! ## One text after another -/

theorem Splits.scan_append (h : Splits cs ls)
    (hstop : ∀ l ∈ ls.getLast?, ∀ d ∈ ds.head?, l.stopsAt d) :
    scan (cs ++ ds) = (scan ds).map (ls ++ ·) := by
  induction h with
  | nil => cases hds : scan ds <;> simp [hds, Except.map]
  | @cons l c w rest ls hl hnext hrest ih =>
    have hread : read c (w ++ (rest ++ ds)) = some (l, rest ++ ds) := by
      refine read_eq_some_iff.mpr ⟨w, hl, rfl, fun d hd => ?_⟩
      cases hrest with
      | nil => exact hstop l rfl d hd
      | cons => exact hnext d hd
    have hlast : ∀ l' ∈ ls.getLast?, ∀ d ∈ ds.head?, l'.stopsAt d := fun l' hl' =>
      hstop l' (by simp [List.getLast?_cons, Option.mem_def.mp hl'])
    rw [List.cons_append, List.append_assoc, scan_cons hread, ih hlast]
    cases scan ds <;> rfl

theorem splits_blanks (hne : w ≠ []) (hw : ∀ c ∈ w, isBlank c) : Splits w [space] := by
  obtain ⟨c, cs, rfl⟩ := List.exists_cons_of_ne_nil hne
  have h : Splits (c :: (cs ++ [])) [space] :=
    .cons (.space hne (List.all_eq_true.mpr hw)) (by simp) .nil
  rwa [List.append_nil] at h

/-- Behind blanks a text is read as if it stood alone, and so are the lexemes in front of them. -/
theorem Splits.scan_append_blanks (h : Splits cs ls) (hlast : ls.getLast? ≠ some space)
    (hne : w ≠ [])
    (hw : ∀ c ∈ w, isBlank c) (hds : ∀ d ∈ ds.head?, isBlank d = false) :
    scan (cs ++ (w ++ ds)) = (scan ds).map (ls ++ space :: ·) := by
  have hblanks : scan (w ++ ds) = (scan ds).map ([space] ++ ·) := by
    refine (splits_blanks hne hw).scan_append fun l hl d hd => ?_
    obtain rfl : space = l := by simpa using hl
    simp [stopsAt, hds d hd]
  have hstop : ∀ l ∈ ls.getLast?, ∀ d ∈ (w ++ ds).head?, l.stopsAt d := by
    intro l hl d hd
    obtain ⟨c, w, rfl⟩ := List.exists_cons_of_ne_nil hne
    obtain rfl : c = d := by simpa using hd
    have hspace : l ≠ space := by
      rintro rfl
      exact hlast hl
    have hwhole : l.isWhole :=
      (joined_of_scan (scan_eq_ok_iff.mpr h)).whole l (List.mem_of_getLast? hl)
    exact stopsAt_blank hspace hwhole (hw c List.mem_cons_self)
  rw [h.scan_append hstop, hblanks]
  cases scan ds <;> rfl

/-! ## Spaces in a row -/

/-- Lexemes whose tokens are those of a text have no two spaces next to each other. -/
theorem marks_chain_of_tokenize {source : String} (h : tokenize source = .ok (ls.flatMap tokens))
    (hls : ∀ l ∈ ls, l.isWhole) : (ls.flatMap marks).IsChain fun t u =>
      ¬(t.isSpace ∧ u.isSpace) := by
  obtain ⟨ms, hscan, he⟩ := tokenize_eq_ok h
  have hj := joined_of_scan hscan
  rw [← withoutContents_tokens hls, he, withoutContents_tokens hj.whole]
  exact marks_chain hj

theorem ne_space_of_chain
    (h : ((ls ++ space :: ms).flatMap marks).IsChain fun t u => ¬(t.isSpace ∧ u.isSpace)) :
    ls.getLast? ≠ some space ∧ ms.head? ≠ some space := by
  rw [List.flatMap_append, List.isChain_append] at h
  obtain ⟨-, hright, hcut⟩ := h
  constructor
  · intro hlast
    obtain ⟨ls, rfl⟩ := List.getLast?_eq_some_iff.mp hlast
    exact hcut Token.space (by simp [marks, tokens]) Token.space rfl ⟨rfl, rfl⟩
  · intro hhead
    obtain ⟨ms, rfl⟩ := List.head?_eq_some_iff.mp hhead
    exact (List.isChain_cons_cons.mp hright).1 ⟨rfl, rfl⟩

theorem head?_of_isBlank (h : scan (c :: cs) = .ok ls) (hc : isBlank c) :
    ls.head? = some space := by
  obtain ⟨l, rest, ls, hread, -, rfl⟩ := scan_eq_ok h
  unfold read at hread
  rw [if_pos hc] at hread
  cases hread
  rfl

end Lexeme

/-- Blanks between two texts are one space between the tokens of the one and those of the other,
unless one of the texts has more blanks next to them. -/
theorem tokenize_append_blanks {a w b : String} {ta tb : List Token} (ha : tokenize a = .ok ta)
    (hb : tokenize b = .ok tb) (hne : w ≠ "") (hw : ∀ c ∈ w.toList, Lexeme.isBlank c) :
    tokenize (a ++ w ++ b) = .ok (ta ++ [Token.space] ++ tb) ↔
      Place.after .outside a.toList ≠ .afterBlank ∧ ∀ c ∈ b.toList.head?,
        Lexeme.isBlank c = false := by
  obtain ⟨la, hla, rfl⟩ := tokenize_eq_ok ha
  obtain ⟨lb, hlb, rfl⟩ := tokenize_eq_ok hb
  have hsplits := Lexeme.scan_eq_ok_iff.mp hla
  have htokens : la.flatMap Lexeme.tokens ++ [Token.space] ++ lb.flatMap Lexeme.tokens =
      (la ++ Lexeme.space :: lb).flatMap Lexeme.tokens := by
    simp [Lexeme.tokens]
  rw [htokens, Ne, hsplits.after_iff]
  constructor
  · intro h
    have hwhole : ∀ l ∈ la ++ Lexeme.space :: lb, l.isWhole := by
      simp only [List.forall_mem_append, List.forall_mem_cons]
      exact ⟨(Lexeme.joined_of_scan hla).whole, rfl, (Lexeme.joined_of_scan hlb).whole⟩
    obtain ⟨hlast, hhead⟩ := Lexeme.ne_space_of_chain (Lexeme.marks_chain_of_tokenize h hwhole)
    refine ⟨hlast, fun c hc => Bool.eq_false_iff.mpr fun hblank => hhead ?_⟩
    obtain ⟨cs, hcs⟩ := List.head?_eq_some_iff.mp hc
    rw [hcs] at hlb
    exact Lexeme.head?_of_isBlank hlb hblank
  · rintro ⟨hend, hbegin⟩
    have hscan := hsplits.scan_append_blanks hend (mt String.toList_eq_nil_iff.mp hne) hw hbegin
    rw [tokenize, String.append_assoc, String.toList_append, String.toList_append, hscan, hlb]
    rfl

/-- A literal that ends with a blank, and one that begins with the quote that the first one ends
with. -/
theorem tokenize_append_blanks_literals :
    tokenize "a'b ''\n'" = .ok ["a", "'", "b '\n", "'"] ∧ tokenize "''c" = .ok ["'", "", "'", "c"] ∧
      "\n\t" ≠ "" ∧ (∀ c ∈ "\n\t".toList, Lexeme.isBlank c) ∧
      Place.after .outside "a'b ''\n'".toList ≠ .afterBlank ∧
      (∀ c ∈ "''c".toList.head?, Lexeme.isBlank c = false) ∧
      tokenize ("a'b ''\n'" ++ "\n\t" ++ "''c") =
        .ok ["a", "'", "b '\n", "'", " ", "'", "", "'", "c"] := by
  have ha : tokenize "a'b ''\n'" = .ok ["a", "'", "b '\n", "'"] := by decide +kernel
  have hb : tokenize "''c" = .ok ["'", "", "'", "c"] := by decide +kernel
  have hne : "\n\t" ≠ "" := by decide
  have hw : ∀ c ∈ "\n\t".toList, Lexeme.isBlank c := by simp [Lexeme.isBlank]
  have hend : Place.after .outside "a'b ''\n'".toList ≠ .afterBlank := by decide
  have hbegin : ∀ c ∈ "''c".toList.head?, Lexeme.isBlank c = false := by simp [Lexeme.isBlank]
  exact ⟨ha, hb, hne, hw, hend, hbegin, (tokenize_append_blanks ha hb hne hw).mpr ⟨hend, hbegin⟩⟩

end XPath
