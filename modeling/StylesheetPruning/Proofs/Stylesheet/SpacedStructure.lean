import StylesheetPruning.Proofs.Stylesheet.CalmSpacing
import StylesheetPruning.Proofs.Stylesheet.Comments

/-!
# Spacing keeps the structure of a stylesheet

The passes that follow normal spacing look for braces, semicolons, commas,
colons and quotes in a text that is masked anew. A change of spacing may take
away the second character of an escape or a part of a string. In a text that
is read calmly it opens and closes nothing all the same.

**Results.** `structure_normalSpacing`: in normal spacing a text has the same
structural characters in its masked text, in the same order, and no comment.
-/

namespace StylesheetPruning

/-- The characters by which rules, lists, declarations and strings are found. -/
def isStructural (c : Char) : Bool :=
  c = '\x7b' || c = '\x7d' || c = ';' || c = ',' || c = ':' || Lexing.isQuote c

/-- The structural characters of a stylesheet, in order. -/
def structureOf (css : Text) : Text :=
  (Masking.ofText css).masked.filter isStructural

/-- What is masked at a gap has no structure. -/
theorem filter_masked_of_isGap {cell : Cell} (h : isGap cell.char = true) :
    cell.masked.filter isStructural = [] := by
  have hfiller : isStructural 'X' = false := rfl
  have hspace : isStructural ' ' = false := rfl
  cases hrole : cell.role with
  | code =>
      simp only [isGap, isLineBreak, Bool.or_eq_true, decide_eq_true_eq] at h
      rcases h with hc | hc | hc <;>
        simp [Cell.masked, hrole, hc, isStructural, Lexing.isQuote]
  | quoted =>
      simp [Cell.masked, hrole, hfiller]
  | commentStart =>
      simp [Cell.masked, hrole, spaces, hspace]
  | commentBody =>
      simp [Cell.masked, hrole, spaces, hspace]

/-- Gaps can be left out before structural characters are looked for. -/
theorem filter_masked_gist (cells : List Cell) :
    ((gist cells).flatMap Cell.masked).filter isStructural =
      (cells.flatMap Cell.masked).filter isStructural := by
  induction cells with
  | nil =>
      rfl
  | cons cell rest ih =>
      rw [gist_cons, List.flatMap_cons, List.filter_append]
      split
      · next hgap =>
          rw [filter_masked_of_isGap hgap, List.nil_append, ih]
      · rw [List.flatMap_cons, List.filter_append, ih]

/-- Changes of spacing keep structure, where no string is broken by a line. -/
theorem structureOf_respaced
    {text text' : Text} (hrespaced : Respaced text text')
    {cells : List Cell} {state : Lexing} (hcells : chars cells = text)
    (hread : Reads calmly .plain cells none state) :
    (Masking.ofText text').comments = [] ∧
      structureOf text' = structureOf text := by
  obtain ⟨cells', rfl, hgist, hread'⟩ :=
    exists_reads_respaced hrespaced hcells hread
  subst hcells
  refine ⟨comments_eq_nil_of_reads hread', ?_⟩
  rw [structureOf, structureOf, masked_of_reads hread, masked_of_reads hread',
    ← filter_masked_gist, hgist, filter_masked_gist]

/--
Normal spacing keeps the structure of every text without comments in which no
line break ends a string, and makes no comment.
-/
theorem structure_normalSpacing {text : Text}
    (hcomments : (Masking.ofText text).comments = [])
    (hstrings : UnbrokenStrings text) :
    (Masking.ofText (normalSpacing text)).comments = [] ∧
      structureOf (normalSpacing text) = structureOf text := by
  obtain ⟨cells, state, hcells, hread⟩ :=
    exists_reads_calmly hcomments hstrings
  exact structureOf_respaced (respaced_normalSpacing text) hcells hread

/-- Escapes in front of dropped spaces, outside and inside of a string. -/
theorem structure_normalSpacing_escapes :
    let text := ".a\\ \x7b\\\n(: '\\ \x7b, \\' + /*' + \"".toList
    (Masking.ofText text).comments = [] ∧ UnbrokenStrings text ∧
      normalSpacing text = ".a\\\x7b\\(:'\\\x7b,\\'+/*'+\"".toList ∧
      (Masking.ofText (normalSpacing text)).comments = [] ∧
      structureOf (normalSpacing text) = structureOf text := by
  have hcomments : (Masking.ofText
      ".a\\ \x7b\\\n(: '\\ \x7b, \\' + /*' + \"".toList).comments = [] := by
    decide
  have hstrings : UnbrokenStrings
      ".a\\ \x7b\\\n(: '\\ \x7b, \\' + /*' + \"".toList := by
    decide
  exact ⟨hcomments, hstrings, by decide,
    structure_normalSpacing hcomments hstrings⟩

end StylesheetPruning
