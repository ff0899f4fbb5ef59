import StylesheetPruning.Inventory
import StylesheetPruning.Selector.List

/-!
# Which selectors can match a page

A simple selector is live when the page contains what it asks for, or when a
page cannot decide it. A selector is live when all its parts are, since every
compound of it has to match some element.

**Verdicts.** A selector list is kept as it is when none of its members is
dead, dropped when all of them are, and kept in part otherwise. An empty list
has no dead member, so it is kept.
-/

namespace StylesheetPruning

/-- Whether a page can satisfy a simple selector. -/
def SimpleSelector.canMatch (part : SimpleSelector) (inventory : Inventory) : Bool :=
  match part.kind with
  | .element => inventory.containsElement part.value
  | .className => inventory.containsClass part.value
  | .identifier => inventory.containsId part.value
  | .universal | .attributeName | .unknown => true

/-- Whether a page can satisfy every part of a selector. -/
def Selector.canMatch (selector : Selector) (inventory : Inventory) : Bool :=
  selector.parts.all (fun part => part.canMatch inventory)

/-- A selector, and whether it is to be kept. -/
structure Judgement where
  selector : Selector
  live : Bool
deriving Repr, DecidableEq

/-- What happens to a rule. -/
inductive Verdict where
  /-- No selector is dead. -/
  | keep
  /-- The selectors at these positions are dead, and others are live. -/
  | reduce (dead : List Nat)
  /-- All selectors are dead. -/
  | drop
deriving Repr, DecidableEq

namespace Judgement

/-- Judge a selector by the inventory of a page. -/
def ofInventory (inventory : Inventory) (selector : Selector) : Judgement :=
  ⟨selector, selector.canMatch inventory⟩

/-- Judge every member of a selector list by the inventory of a page. -/
def judge (inventory : Inventory) (selectors : List Selector) : List Judgement :=
  selectors.map (ofInventory inventory)

/-- Positions of the dead members of a list whose first position is given. -/
def deadFrom : Nat → List Judgement → List Nat
  | _, [] => []
  | i, judgement :: rest =>
      if judgement.live then deadFrom (i + 1) rest
      else i :: deadFrom (i + 1) rest

/-- Positions of the dead members of a list. -/
def deadPositions (judgements : List Judgement) : List Nat :=
  deadFrom 0 judgements

/-- What the judgements of its selectors mean for a rule. -/
def verdict (judgements : List Judgement) : Verdict :=
  match deadPositions judgements with
  | [] => .keep
  | i :: rest =>
      if rest.length + 1 = judgements.length then .drop
      else .reduce (i :: rest)

theorem length_deadFrom_le (i : Nat) (judgements : List Judgement) :
    (deadFrom i judgements).length ≤ judgements.length := by
  induction judgements generalizing i with
  | nil => simp [deadFrom]
  | cons j rest ih =>
      have h := ih (i + 1)
      by_cases hj : j.live = true
      · simp only [deadFrom, if_pos hj, List.length_cons]
        omega
      · simp only [deadFrom, if_neg hj, List.length_cons]
        omega

theorem deadFrom_eq_nil_iff (i : Nat) (judgements : List Judgement) :
    deadFrom i judgements = [] ↔ ∀ j ∈ judgements, j.live = true := by
  induction judgements generalizing i with
  | nil => simp [deadFrom]
  | cons j rest ih =>
      by_cases h : j.live = true
      · simp [deadFrom, h, ih]
      · simp [deadFrom, h]

/-- A rule is kept as it is exactly when no selector of it is dead. -/
theorem verdict_eq_keep_iff (judgements : List Judgement) :
    verdict judgements = .keep ↔ ∀ j ∈ judgements, j.live = true := by
  rw [← deadFrom_eq_nil_iff 0]
  simp only [verdict, deadPositions]
  cases deadFrom 0 judgements with
  | nil => simp
  | cons i rest =>
      by_cases h : rest.length + 1 = judgements.length <;> simp [h]

end Judgement

end StylesheetPruning
