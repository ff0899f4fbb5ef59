import Mathlib.Algebra.Order.BigOperators.Group.List
import Mathlib.Algebra.Order.Group.Nat
import StylesheetPruning.Proofs.Markup.LongerPages
import StylesheetPruning.Pruning.Checked

/-!
# More on the page, less that is pruned

A selector that is live stays live when the inventory grows. So the dead
members of a list are among those that were dead before, and no verdict and no
counter of verdicts gets worse.

**Results.**
* `deadFrom_sublist`: positions that are dead were dead before.
* `prunesNoMore_pruneBy`: a larger inventory prunes no more.
* `outcomeOf_longerPage`: neither does a page that goes on.
-/

namespace StylesheetPruning

section Judgements

variable {inventory inventory' : Inventory}

/-- What a page can satisfy, a page with more on it can satisfy. -/
theorem SimpleSelector.canMatch_of_subset
    (h : inventory ⊆ inventory') {part : SimpleSelector}
    (hpart : part.canMatch inventory = true) :
    part.canMatch inventory' = true := by
  obtain ⟨helements, hids, hclasses⟩ := h
  rw [canMatch] at hpart ⊢
  cases hkind : part.kind with
  | element =>
      rw [hkind] at hpart
      exact helements _ hpart
  | className =>
      rw [hkind] at hpart
      exact hclasses _ hpart
  | identifier =>
      rw [hkind] at hpart
      exact hids _ hpart
  | universal | attributeName | unknown =>
      rfl

theorem Selector.canMatch_of_subset
    (h : inventory ⊆ inventory') {selector : Selector}
    (hselector : selector.canMatch inventory = true) :
    selector.canMatch inventory' = true := by
  rw [canMatch, List.all_eq_true] at hselector ⊢
  exact fun part hpart =>
    SimpleSelector.canMatch_of_subset h (hselector part hpart)

namespace Judgement

/-- Positions that are dead were dead before the inventory grew. -/
theorem deadFrom_sublist
    (h : inventory ⊆ inventory') (i : Nat) (selectors : List Selector) :
    (deadFrom i (judge inventory' selectors)).Sublist
      (deadFrom i (judge inventory selectors)) := by
  induction selectors generalizing i with
  | nil =>
      exact List.Sublist.slnil
  | cons selector rest ih =>
      have hrest := ih (i + 1)
      simp only [judge, List.map_cons, ofInventory, deadFrom] at hrest ⊢
      by_cases hlive : selector.canMatch inventory = true
      · have hlive' := Selector.canMatch_of_subset h hlive
        rw [if_pos hlive, if_pos hlive']
        exact hrest
      · rw [if_neg hlive]
        split
        · exact hrest.cons i
        · exact hrest.cons_cons i

/-- A rule is dropped exactly when it has selectors and all of them are dead. -/
theorem verdict_eq_drop_iff (judgements : List Judgement) :
    verdict judgements = .drop ↔
      judgements ≠ [] ∧ judgements.length ≤ (deadPositions judgements).length := by
  have hle : (deadPositions judgements).length ≤ judgements.length :=
    length_deadFrom_le 0 judgements
  rw [verdict]
  cases hdead : deadPositions judgements with
  | nil =>
      simp
  | cons i rest =>
      rw [hdead, List.length_cons] at hle
      have hne : judgements ≠ [] := by
        rintro rfl
        cases hdead
      by_cases hlength : rest.length + 1 = judgements.length
      · simp [hne, hlength]
      · have hless : ¬ judgements.length ≤ rest.length + 1 := by omega
        simp [hlength, hless]

end Judgement

namespace Decision

/-- A leaf that is dropped was dropped before the inventory grew. -/
theorem drops_of_subset
    (h : inventory ⊆ inventory') {leaf : Rule} {selectors : List Selector}
    (hdrops : drops ⟨leaf, Judgement.judge inventory' selectors⟩ = true) :
    drops ⟨leaf, Judgement.judge inventory selectors⟩ = true := by
  have hsublist := (Judgement.deadFrom_sublist h 0 selectors).length_le
  rw [drops, decide_eq_true_eq, verdict, Judgement.verdict_eq_drop_iff] at hdrops ⊢
  obtain ⟨hne, hlength⟩ := hdrops
  rw [Judgement.judge, List.length_map] at hlength
  constructor
  · simpa [Judgement.judge] using hne
  · rw [Judgement.judge, List.length_map]
    exact Nat.le_trans hlength hsublist

theorem deadCount_le_of_subset
    (h : inventory ⊆ inventory') (leaf : Rule) (selectors : List Selector) :
    deadCount ⟨leaf, Judgement.judge inventory' selectors⟩ ≤
      deadCount ⟨leaf, Judgement.judge inventory selectors⟩ :=
  (Judgement.deadFrom_sublist h 0 selectors).length_le

end Decision

end Judgements

section Reports

/-- A report that tells of no more pruning than another one does. -/
structure Report.PrunesNoMore (report report' : Report) : Prop where
  /-- The same leaves were judged. -/
  analyzed_eq : report.analyzed = report'.analyzed
  /-- The same comments were found. -/
  comments_eq : report.comments = report'.comments
  /-- No more leaves are dropped. -/
  dropped_le : report.dropped ≤ report'.dropped
  /-- No more selectors are dead. -/
  selectors_le : report.selectors ≤ report'.selectors

/-- A larger inventory prunes no more. -/
theorem Sheet.prunesNoMore_pruneBy
    (sheet : Sheet) {inventory inventory' : Inventory}
    (h : inventory ⊆ inventory') :
    (sheet.pruneBy inventory').report.PrunesNoMore
      (sheet.pruneBy inventory).report := by
  constructor
  case analyzed_eq =>
    simp only [pruneBy, decisions, List.length_map]
  case comments_eq =>
    rfl
  case dropped_le =>
    simp only [pruneBy, decisions, List.countP_map]
    exact List.countP_mono_left (fun _ _ => Decision.drops_of_subset h)
  case selectors_le =>
    have hsum := List.sum_le_sum (l := Rule.leavesOf sheet.rules)
      (fun leaf _ => Decision.deadCount_le_of_subset h leaf
        (sheet.selectorsOf leaf))
    simpa only [pruneBy, decisions, List.sum, List.foldr_map] using hsum

end Reports

/--
A page that goes on contains what the page contains. By a larger inventory
only such positions of a leaf are dead as were dead before, so against the
longer page the same leaves and comments are counted, and neither more leaves
nor more selectors are pruned.
-/
theorem outcomeOf_longerPage (css page page' : Text) :
    Inventory.ofPage page ⊆ Inventory.ofPage (page ++ page') ∧
      (∀ inventory inventory' : Inventory, inventory ⊆ inventory' →
        ∀ leaf ∈ Rule.leavesOf (Sheet.ofText css).rules,
          Judgement.deadPositions
              (Judgement.judge inventory' ((Sheet.ofText css).selectorsOf leaf)) ⊆
            Judgement.deadPositions
              (Judgement.judge inventory ((Sheet.ofText css).selectorsOf leaf))) ∧
      (outcomeOf css (page ++ page')).report.PrunesNoMore
        (outcomeOf css page).report := by
  have hpage := Inventory.ofPage_subset_append page page'
  constructor
  · exact hpage
  · constructor
    · intro inventory inventory' h leaf _
      exact (Judgement.deadFrom_sublist h 0 _).subset
    · exact (Sheet.ofText css).prunesNoMore_pruneBy hpage

/--
The cut goes through the tag that keeps `.b`: up to the cut the second leaf is
dropped, and with the whole page only its second selector is dead.
-/
theorem outcomeOf_longerPage_cut :
    (outcomeOf ".a\x7bx:1\x7d.b,.c\x7by:2\x7d".toList
        "<p class=a><i class='b".toList).report = ⟨2, 1, 0, 2, 0, 1⟩ ∧
      (outcomeOf ".a\x7bx:1\x7d.b,.c\x7by:2\x7d".toList
        ("<p class=a><i class='b".toList ++ "'>".toList)).report =
          ⟨2, 0, 1, 1, 0, 0⟩ ∧
      Inventory.ofPage "<p class=a><i class='b".toList ⊆
        Inventory.ofPage ("<p class=a><i class='b".toList ++ "'>".toList) ∧
      (∀ leaf ∈ Rule.leavesOf
            (Sheet.ofText ".a\x7bx:1\x7d.b,.c\x7by:2\x7d".toList).rules,
        Judgement.deadPositions
            (Judgement.judge
              (Inventory.ofPage
                ("<p class=a><i class='b".toList ++ "'>".toList))
              ((Sheet.ofText
                ".a\x7bx:1\x7d.b,.c\x7by:2\x7d".toList).selectorsOf leaf)) ⊆
          Judgement.deadPositions
            (Judgement.judge
              (Inventory.ofPage "<p class=a><i class='b".toList)
              ((Sheet.ofText
                ".a\x7bx:1\x7d.b,.c\x7by:2\x7d".toList).selectorsOf leaf))) ∧
      (outcomeOf ".a\x7bx:1\x7d.b,.c\x7by:2\x7d".toList
        ("<p class=a><i class='b".toList ++ "'>".toList)).report.PrunesNoMore
          (outcomeOf ".a\x7bx:1\x7d.b,.c\x7by:2\x7d".toList
            "<p class=a><i class='b".toList).report := by
  obtain ⟨hpage, hdead, hreport⟩ :=
    outcomeOf_longerPage ".a\x7bx:1\x7d.b,.c\x7by:2\x7d".toList
      "<p class=a><i class='b".toList "'>".toList
  exact ⟨by decide +kernel, by decide +kernel, hpage, hdead _ _ hpage, hreport⟩

end StylesheetPruning
