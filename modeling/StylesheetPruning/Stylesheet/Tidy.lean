import StylesheetPruning.Edit.Spacing
import StylesheetPruning.Stylesheet.EmptyRules

/-!
# Tidying an edited stylesheet

**Steps.** The edits are applied to the uncommented stylesheet. The result is
brought into normal spacing, its empty rules are swept out, and spaces at its
two ends are taken away.
-/

namespace StylesheetPruning

/-- A text without the spaces at its two ends. -/
def trimSpaces (text : Text) : Text :=
  let rest := text.dropWhile (fun c => c = ' ')
  (rest.reverse.dropWhile (fun c => c = ' ')).reverse

/-- Apply edits to an uncommented stylesheet and tidy up the result. -/
def tidy (uncommented : Text) (edits : List Edit) : EmptyRules.Sweep :=
  let swept :=
    EmptyRules.sweep (normalSpacing (Edit.applyAll uncommented edits))
  { swept with text := trimSpaces swept.text }

end StylesheetPruning
