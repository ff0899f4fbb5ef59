import StylesheetPruning.Proofs.Pruning.FixedPoint
import StylesheetPruning.Proofs.Pruning.Planning

/-!
# What the report says about the pruned stylesheet

The counters of a report are gathered at different stages: verdicts from the
stylesheet as it came in, removed rules from texts that are masked anew. For a
stylesheet whose strings are unbroken they fit together.

**Argument.** Edits leave one pair of braces of every leaf, and an empty pair
of a dropped one. Spacing and trimming keep the gist, and so the braces. Every
pass takes out one pair of braces for each empty rule that it counts.

**Results.**
* `keepsBraces_run`: passes count the pairs of braces that they take out.
* `outcome_accounts`: a report accounts for the pruned stylesheet.
-/

namespace StylesheetPruning

section Counting

theorem countP_le_sum
    {α : Type} {p : α → Bool} {f : α → Nat} {items : List α}
    (h : ∀ item ∈ items, p item = true → 0 < f item) :
    items.countP p ≤ (items.map f).sum := by
  induction items with
  | nil =>
      exact Nat.le_refl 0
  | cons item rest ih =>
      obtain ⟨hitem, hrest⟩ := List.forall_mem_cons.mp h
      have hle := ih hrest
      rw [List.countP_cons, List.map_cons, List.sum_cons]
      split
      · next hp =>
          have hpos := hitem hp
          omega
      · omega

namespace Decision

/-- Whether the leaf is dropped or loses some of its selectors. -/
def changes (decision : Decision) : Bool :=
  decision.drops || decision.reduces

theorem countP_changes (decisions : List Decision) :
    decisions.countP changes =
      decisions.countP drops + decisions.countP reduces := by
  induction decisions with
  | nil =>
      rfl
  | cons decision rest ih =>
      rw [List.countP_cons, List.countP_cons, List.countP_cons, ih]
      cases hverdict : decision.verdict with
      | keep =>
          simp [changes, drops, reduces, hverdict]
      | reduce dead =>
          simp [changes, drops, reduces, hverdict]
          omega
      | drop =>
          simp [changes, drops, reduces, hverdict]
          omega

/-- A leaf that is changed has a dead selector. -/
theorem deadCount_pos {decision : Decision} (h : decision.changes = true) :
    0 < decision.deadCount := by
  rw [deadCount, List.length_pos_iff]
  intro hnil
  have hkeep : decision.verdict = .keep := by
    rw [verdict, Judgement.verdict, hnil]
  simp [changes, drops, reduces, hkeep] at h

end Decision

end Counting

section Stages

/-- A text that is read calmly and has lost some pairs of the braces given. -/
def KeepsBraces (source : Text) (lost : Nat) (text : Text) : Prop :=
  ∃ cells state, chars cells = text ∧ Reads calmly .plain cells none state ∧
    LosesPairs lost source (braces (visible cells))

variable {source text : Text} {lost : Nat}

/-- A pass takes out the pairs of braces that it counts. -/
theorem KeepsBraces.pass (h : KeepsBraces source lost text) :
    KeepsBraces source (lost + EmptyRules.emptied text)
      (EmptyRules.pass text) := by
  obtain ⟨cells, state, rfl, hread, hbraces⟩ := h
  have hmasked := masked_of_reads hread
  exact ⟨Outline.rewritten Leaf.swept (Outline.ofCells cells), state,
    (EmptyRules.pass_eq_rewritten hmasked).symm,
    EmptyRules.reads_swept hread, hbraces.trans (losesPairs_pass hmasked)⟩

/-- Passes take out the pairs of braces that they count. -/
theorem keepsBraces_run
    (n : Nat) {sweep : EmptyRules.Sweep}
    (h : KeepsBraces source sweep.removed sweep.text) :
    KeepsBraces source (EmptyRules.Sweep.run n sweep).removed
      (EmptyRules.Sweep.run n sweep).text := by
  induction n generalizing sweep with
  | zero =>
      exact h
  | succ n ih =>
      rw [EmptyRules.run_succ]
      exact ih h.pass

/-- Trimming keeps the braces. -/
theorem KeepsBraces.trimSpaces (h : KeepsBraces source lost text) :
    KeepsBraces source lost (trimSpaces text) := by
  obtain ⟨cells, state, rfl, hread, hbraces⟩ := h
  obtain ⟨cells', state', hcells', hgist, hread'⟩ :=
    exists_reads_trimSpaces hread
  refine ⟨cells', state', hcells', hread', ?_⟩
  rw [← visible_gist, hgist, visible_gist]
  exact hbraces

/-- What a text has lost of its braces shows in its masked text. -/
theorem KeepsBraces.losesPairs (h : KeepsBraces source lost text) :
    LosesPairs lost source (braces (Masking.ofText text).masked) := by
  obtain ⟨cells, state, rfl, hread, hbraces⟩ := h
  rw [masked_of_reads hread, braces_masked]
  exact hbraces

/-- What is read calmly has no comments. -/
theorem KeepsBraces.comments_eq_nil (h : KeepsBraces source lost text) :
    (Masking.ofText text).comments = [] := by
  obtain ⟨cells, state, rfl, hread, -⟩ := h
  exact comments_eq_nil_of_reads hread

/-- Edits keep the braces. -/
theorem losesPairs_edited
    {css : Text} {inventory : Inventory} {image : Leaf → List Cell}
    {found : Leaf → List (List Cell × List Cell)}
    (h : ∀ leaf ∈ (Outline.ofCells (settledCells css)).leaves,
      Edited inventory leaf (image leaf) (found leaf)) :
    LosesPairs 0 (braces (Masking.ofText css).masked)
      (braces (visible
        (Outline.rewritten image (Outline.ofCells (settledCells css))))) := by
  have hlost := @Outline.losesPairs_rewritten image (fun _ => 0)
    (settledCells css) ?_
  · have hsum : ((Outline.ofCells (settledCells css)).leaves.map
        (fun _ => 0)).sum = 0 := by
      simp
    rw [hsum, ← braces_masked, flatMap_masked_settledCells] at hlost
    exact hlost
  · intro leaf hleaf
    obtain ⟨hlist, hinner⟩ := Outline.parts_of_mem_leaves hleaf
    rw [Leaf.cells, braces_visible_leaf hlist hinner, (h leaf hleaf).braces]
    exact .none _

/--
In normal spacing, an edited stylesheet without broken strings has the braces
of the stylesheet, and an empty rule for every leaf that is dropped.
-/
theorem keepsBraces_normalSpacing
    {css : Text} (h : UnbrokenStrings css) (inventory : Inventory) :
    KeepsBraces (braces (Masking.ofText css).masked) 0
        (normalSpacing (Edit.applyAll (Masking.ofText css).uncommented
          ((Sheet.ofText css).plan inventory))) ∧
      ((Sheet.ofText css).decisions inventory).countP Decision.drops ≤
        EmptyRules.emptied
          (normalSpacing (Edit.applyAll (Masking.ofText css).uncommented
            ((Sheet.ofText css).plan inventory))) := by
  obtain ⟨image, found, state, hedited, hread⟩ := exists_images h inventory
  obtain ⟨cells', hcells', hgist, hread'⟩ :=
    exists_reads_respaced (respaced_normalSpacing _) rfl hread
  have hvisible : visible cells' =
      visible (Outline.rewritten image (Outline.ofCells (settledCells css))) := by
    rw [← visible_gist, hgist, visible_gist]
  rw [applyAll_plan hedited]
  constructor
  · refine ⟨cells', state, hcells', hread', ?_⟩
    rw [hvisible]
    exact losesPairs_edited hedited
  · have hsum := Outline.sum_emptyPairs_le image
      (Outline.ofCells (settledCells css)).passages 0
    have hrest := emptyPairs_append_le
      (visible (Outline.rewrite image 0
        (Outline.ofCells (settledCells css)).passages))
      (visible (Outline.ofCells (settledCells css)).rest)
    rw [EmptyRules.emptied, ← hcells', masked_of_reads hread',
      length_spans_masked hread', hvisible, Outline.rewritten, visible_append,
      decisions_eq_map, List.countP_map]
    refine Nat.le_trans ?_ (Nat.le_trans hsum (by omega))
    exact countP_le_sum (fun leaf hleaf => (hedited leaf hleaf).emptied)

end Stages

/-- A report that accounts for the text that a stylesheet was pruned to. -/
structure Accounts (css : Text) (outcome : Outcome) : Prop where
  /-- Opening braces that are gone were those of removed rules. -/
  opened :
    (Masking.ofText outcome.text).masked.count '{' + outcome.report.emptied =
      (Masking.ofText css).masked.count '{'
  /-- So were closing braces. -/
  closed :
    (Masking.ofText outcome.text).masked.count '}' + outcome.report.emptied =
      (Masking.ofText css).masked.count '}'
  /-- Balanced braces stay balanced. -/
  balanced : Balanced (Masking.ofText css).masked →
    Balanced (Masking.ofText outcome.text).masked
  /-- No comment is left. -/
  comments : (Masking.ofText outcome.text).comments = []
  /-- Every dropped leaf was removed. -/
  dropped_le : outcome.report.dropped ≤ outcome.report.emptied
  /-- No leaf is changed that was not judged. -/
  changed_le_analyzed :
    outcome.report.dropped + outcome.report.reduced ≤ outcome.report.analyzed
  /-- Every leaf that is changed has a dead selector. -/
  changed_le_selectors :
    outcome.report.dropped + outcome.report.reduced ≤ outcome.report.selectors

/--
Without a limit, a stylesheet whose strings are unbroken is pruned, and the
report accounts for the pruned stylesheet.
-/
theorem outcome_accounts
    {css : Text} (h : UnbrokenStrings css) (page : Text) :
    ∃ outcome, ({} : Limits).outcome css page = .ok outcome ∧
      Accounts css outcome := by
  have hresult : ({} : Limits).outcome css page = .ok (outcomeOf css page) := by
    simp only [Limits.outcome, Limits.checkLength]
    rfl
  refine ⟨outcomeOf css page, hresult, ?_⟩
  have htext := usedRules_eq css page
  have hemptied : (outcomeOf css page).report.emptied =
      (EmptyRules.sweep
        (normalSpacing
          (Edit.applyAll (Masking.ofText css).uncommented
            ((Sheet.ofText css).plan (Inventory.ofPage page))))).removed := by
    simp only [report_outcomeOf, Sheet.edited, Sheet.ofText]
  obtain ⟨hkeeps, hdropped⟩ :=
    keepsBraces_normalSpacing h (Inventory.ofPage page)
  generalize normalSpacing (Edit.applyAll (Masking.ofText css).uncommented
    ((Sheet.ofText css).plan (Inventory.ofPage page))) = spaced
    at htext hemptied hkeeps hdropped
  have hswept : KeepsBraces (braces (Masking.ofText css).masked)
      (EmptyRules.sweep spaced).removed (EmptyRules.sweep spaced).text :=
    keepsBraces_run EmptyRules.passLimit hkeeps
  have hfinal := hswept.trimSpaces
  rw [← htext, ← hemptied, usedRules] at hfinal
  have hlost := hfinal.losesPairs
  have hchanges := Decision.countP_changes
    ((Sheet.ofText css).decisions (Inventory.ofPage page))
  constructor
  case opened =>
    have hcount := hlost.count_open
    rwa [count_braces rfl, count_braces rfl] at hcount
  case closed =>
    have hcount := hlost.count_close
    rwa [count_braces rfl, count_braces rfl] at hcount
  case balanced =>
    have hdepth := hlost.depthAfter? 0
    rw [depthAfter?_braces, depthAfter?_braces] at hdepth
    exact fun hbalanced => hdepth.trans hbalanced
  case comments =>
    exact hfinal.comments_eq_nil
  case dropped_le =>
    have hfirst := emptied_le_removed 15 ⟨spaced, 0⟩
    rw [hemptied]
    exact Nat.le_trans hdropped (Nat.le_trans (Nat.le_add_left _ _) hfirst)
  case changed_le_analyzed =>
    refine Nat.le_trans (Nat.le_of_eq hchanges.symm) ?_
    exact List.countP_le_length
  case changed_le_selectors =>
    have hselectors : (outcomeOf css page).report.selectors =
        (((Sheet.ofText css).decisions (Inventory.ofPage page)).map
          Decision.deadCount).sum := by
      simp only [report_outcomeOf]
    rw [hselectors]
    refine Nat.le_trans (Nat.le_of_eq hchanges.symm) ?_
    exact countP_le_sum (fun decision _ => decision.deadCount_pos)

/-- A group is emptied with its leaf; another leaf loses one of its members. -/
theorem outcome_accounts_group :
    UnbrokenStrings
      "@media x\x7b/* c */.a\x7bb:c\x7d\x7d.d,.a\x7bb:'\x7d'\x7d".toList ∧
    (outcomeOf
      "@media x\x7b/* c */.a\x7bb:c\x7d\x7d.d,.a\x7bb:'\x7d'\x7d".toList
      "<p class=d>".toList).report = ⟨2, 1, 1, 2, 1, 2⟩ ∧
    ∃ outcome, ({} : Limits).outcome
        "@media x\x7b/* c */.a\x7bb:c\x7d\x7d.d,.a\x7bb:'\x7d'\x7d".toList
        "<p class=d>".toList = .ok outcome ∧
      Accounts
        "@media x\x7b/* c */.a\x7bb:c\x7d\x7d.d,.a\x7bb:'\x7d'\x7d".toList
        outcome :=
  ⟨by decide, by decide +kernel, outcome_accounts (by decide) _⟩

end StylesheetPruning
