import StylesheetPruning.Edit.Removal
import StylesheetPruning.Stylesheet.Tidy

/-!
# Deciding about a stylesheet

A stylesheet is masked and scanned for rules once, and can then be judged by
the inventories of any number of pages.

**Decisions.** Every leaf gets the judgements of its selectors. A leaf whose
selectors are all dead is emptied. A leaf of which some are dead keeps the
rest of its list.

**Report.** The report counts leaves, verdicts, dead selectors, comments, and
the rules that tidying removed.
-/

namespace StylesheetPruning

/-- A stylesheet, masked and scanned for rules. -/
structure Sheet where
  masking : Masking
  rules : List Rule
deriving Repr

/-- A leaf with the judgements of its selectors. -/
structure Decision where
  leaf : Rule
  judgements : List Judgement
deriving Repr

/-- What one run did. -/
structure Report where
  /-- Leaves whose selectors were judged. -/
  analyzed : Nat
  /-- Leaves of which no selector is live. -/
  dropped : Nat
  /-- Leaves that kept some of their selectors. -/
  reduced : Nat
  /-- Selectors that are dead. -/
  selectors : Nat
  /-- Comments of the stylesheet. -/
  comments : Nat
  /-- Empty rules that were removed in the end. -/
  emptied : Nat
deriving Repr, DecidableEq

/-- A pruned stylesheet with its report. -/
structure Outcome where
  text : Text
  report : Report
deriving Repr, DecidableEq

namespace Decision

/-- What the judgements mean for the leaf. -/
def verdict (decision : Decision) : Verdict :=
  Judgement.verdict decision.judgements

/-- The change that the verdict asks for. -/
def edit? (decision : Decision) : Option Edit :=
  match decision.verdict with
  | .keep => none
  | .reduce _ => Judgement.keptEdit? decision.judgements
  | .drop => some decision.leaf.emptied

/-- Whether the leaf is dropped. -/
def drops (decision : Decision) : Bool :=
  decision.verdict = .drop

/-- Whether the leaf keeps some of its selectors. -/
def reduces (decision : Decision) : Bool :=
  match decision.verdict with
  | .reduce _ => true
  | _ => false

/-- Number of dead selectors. -/
def deadCount (decision : Decision) : Nat :=
  (Judgement.deadPositions decision.judgements).length

end Decision

namespace Sheet

/-- Mask a stylesheet and find its rules. -/
def ofText (css : Text) : Sheet :=
  let masking := Masking.ofText css
  { masking := masking, rules := Rule.ofMasked masking.masked }

/-- The selectors of a rule of the stylesheet. -/
def selectorsOf (sheet : Sheet) (r : Rule) : List Selector :=
  Selector.readList (slice sheet.masking.masked r.selectorList)
    (slice sheet.masking.uncommented r.selectorList) r.start

/-- Judge every leaf by the inventory of a page. -/
def decisions (sheet : Sheet) (inventory : Inventory) : List Decision :=
  (Rule.leavesOf sheet.rules).map
    (fun leaf => ⟨leaf, Judgement.judge inventory (sheet.selectorsOf leaf)⟩)

/-- The edits that a page asks for. -/
def plan (sheet : Sheet) (inventory : Inventory) : List Edit :=
  (sheet.decisions inventory).filterMap Decision.edit?

/-- Prune a stylesheet by the inventory of a page. -/
def pruneBy (sheet : Sheet) (inventory : Inventory) : Outcome :=
  let decisions := sheet.decisions inventory
  let sweep := tidy sheet.masking.uncommented (decisions.filterMap Decision.edit?)
  { text := sweep.text
    report :=
      { analyzed := decisions.length
        dropped := decisions.countP Decision.drops
        reduced := decisions.countP Decision.reduces
        selectors :=
          decisions.foldr (fun decision n => decision.deadCount + n) 0
        comments := sheet.masking.comments.length
        emptied := sweep.removed } }

end Sheet

end StylesheetPruning
