import StylesheetPruning.Edit.Basic
import StylesheetPruning.Stylesheet.Masking

/-!
# Empty rules

A rule is empty when nothing but whitespace stands between the braces of its
block.

**Scan.** The spans of empty rules are found in one pass over the masked text.
Behind an opening brace a rule is a candidate, and it stays one as long as
whitespace follows.

**Sweep.** A pass deletes all empty rules at once. A group that loses its last
rule is empty in the next pass. The text is masked anew in every pass, and
there are at most sixteen.
-/

namespace StylesheetPruning

namespace EmptyRules

/-- What is known between two characters of the scan. -/
structure Scan where
  /-- Offset of the next character. -/
  offset : Nat
  /-- One past the last brace or semicolon. -/
  boundary : Nat
  /-- Start of the rule in whose block only whitespace was seen so far. -/
  candidate : Option Nat
  /-- The spans found, last first. -/
  found : List Span
deriving Repr

namespace Scan

/-- Nothing was read. -/
def start : Scan :=
  { offset := 0, boundary := 0, candidate := none, found := [] }

/-- Read one character. -/
def step (scan : Scan) (c : Char) : Scan :=
  let next := scan.offset + c.utf8Size
  let scan' :=
    if c = '{' then
      { scan with boundary := next, candidate := some scan.boundary }
    else if c = '}' then
      { scan with
        boundary := next
        candidate := none
        found :=
          match scan.candidate with
          | some first => ⟨first, next⟩ :: scan.found
          | none => scan.found }
    else if c = ';' then
      { scan with boundary := next, candidate := none }
    else if isSpace c then scan
    else { scan with candidate := none }
  { scan' with offset := next }

end Scan

/-- Spans of the empty rules of a masked text, in source order. -/
def spans (masked : Text) : List Span :=
  (masked.foldl Scan.step Scan.start).found.reverse

/-- Greatest number of passes. -/
def passLimit : Nat :=
  16

/-- A text, and the number of rules removed from it so far. -/
structure Sweep where
  text : Text
  removed : Nat
deriving Repr, DecidableEq

/-- At most `n` more passes. -/
def Sweep.run : Nat → Sweep → Sweep
  | 0, state => state
  | n + 1, state =>
      let found := spans (Masking.ofText state.text).masked
      if found.isEmpty then state
      else
        run n
          { text := Edit.applyAll state.text (found.map Edit.delete)
            removed := state.removed + found.length }

/-- A text without its empty rules, and how many there were. -/
def sweep (text : Text) : Sweep :=
  Sweep.run passLimit ⟨text, 0⟩

end EmptyRules

end StylesheetPruning
