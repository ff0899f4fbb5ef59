import StylesheetPruning.Edit.Basic
import StylesheetPruning.Selector.Judgement
import StylesheetPruning.Stylesheet.Rule

/-!
# Edits that remove rules and selectors

Both kinds of edit keep the length of what they replace, so that no offset
into the stylesheet moves.

**Rules.** An empty block stands in the place of a removed rule, and spaces
behind it.

**Selectors.** Dead selectors and the commas in front of them become padding.
No list begins or ends with a comma or has two commas in a row afterwards,
unless a live selector was blank.
-/

namespace StylesheetPruning

/-- The edit that leaves an empty block in the place of a rule. -/
def Rule.emptied (r : Rule) : Edit :=
  { span := r.span
    replacement := '{' :: '}' :: spaces (r.span.length - 2) }

namespace Judgement

/-- The members of a list behind its first live one, after some padding. -/
def keptBehind : Nat → List Judgement → Text
  | padding, [] => spaces padding
  | padding, judgement :: rest =>
      if judgement.live then
        ',' :: spaces padding ++ judgement.selector.source ++ keptBehind 0 rest
      else
        keptBehind (padding + 1 + byteLength judgement.selector.source) rest

/-- The members of a list whose earlier members are dead, after padding. -/
def keptFrom : Nat → List Judgement → Text
  | padding, [] => spaces padding
  | padding, judgement :: rest =>
      if judgement.live then
        spaces padding ++ judgement.selector.source ++ keptBehind 0 rest
      else
        let next := padding + byteLength judgement.selector.source
        keptFrom (if rest.isEmpty then next else next + 1) rest

/-- The text of a list in which dead members have become padding. -/
def keptText (judgements : List Judgement) : Text :=
  keptFrom 0 judgements

/-- The edit that keeps the live members of a list, if it has members. -/
def keptEdit? (judgements : List Judgement) : Option Edit := do
  let first ← judgements.head?
  let last ← judgements.getLast?
  return { span := ⟨first.selector.span.start, last.selector.span.stop⟩
           replacement := keptText judgements }

end Judgement

end StylesheetPruning
