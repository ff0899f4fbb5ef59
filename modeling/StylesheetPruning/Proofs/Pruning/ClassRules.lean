import StylesheetPruning.Proofs.Markup.ClassPage
import StylesheetPruning.Proofs.Pruning.Retention
import StylesheetPruning.Proofs.Selector.Compounds

/-!
# Rules for classes of a page

A rule for a class, whose name is serialized, against a page that has the name
as a token of a class value.

**Selector.** The rule has one selector with one part. It is universal when
the name has a star, and asks for the name otherwise.

**Results.**
* `forall_verdict_classRule_iff`: the rule is kept when its name has a star
  or is a class of the page.
* `unspaced_usedRules_classRule_iff`: for tokens without braces and semicolons
  that is when the name has a star or no blank.
-/

namespace StylesheetPruning

section Selectors

/-- A selector that asks for a class. -/
def classSelector (name : Text) : Text :=
  '.' :: serialize name

variable {name : Text} {p : Char → Bool}

/-- The selector without the space that ends an escape. -/
theorem trimmed_classSelector (name : Text) :
    trimmed (classSelector name) = '.' :: trimEnd (serialize name) :=
  trimmed_cons rfl (serialize name)

theorem coded_classSelector (h : Spells (serialize name) name) :
    Coded (classSelector name) :=
  (coded_singleton rfl).append h.coded

theorem hides_classSelector
    (h : Spells (serialize name) name)
    (hp : Grammar.Foreign p) (hdot : p '.' = false) :
    Hides p (classSelector name) :=
  hides_cons rfl hdot (h.hides hp)

/-- The selector is cut in front of its mark only. -/
theorem textsOf_trimmed_classSelector (h : Spells (serialize name) name) :
    Selector.textsOf (trimmed (classSelector name)) =
      [[], trimmed (classSelector name)] := by
  rw [trimmed_classSelector]
  have hbegins : Begins SimpleSelector.isMark
      ('.' :: trimEnd (serialize name)) :=
    begins_cons rfl rfl (h.hides Grammar.foreign_isMark).trimEnd
  have hhides : Hides SimpleSelector.isCombinator
      ('.' :: trimEnd (serialize name)) :=
    hides_cons rfl rfl
      (h.hides Grammar.foreign_isCombinator).trimEnd
  have hcut := @cutExposed_append SimpleSelector.isMark [] _ [] closed_nil
    hides_nil (by simp) hbegins
  rw [Selector.textsOf, splitExposed_of_hides hhides, List.flatMap_singleton]
  exact hcut

/-- The selector is read as one part. -/
theorem partsOf_classSelector (h : Spells (serialize name) name) :
    Selector.partsOf (trimmed (classSelector name)) =
      [{ position := 0
         source := trimmed (classSelector name)
         value := SimpleSelector.valueOf
           (Kind.ofText (trimmed (classSelector name)))
           (trimmed (classSelector name))
         suffix := none
         kind := Kind.ofText (trimmed (classSelector name)) }] := by
  have hhides : Hides (fun c => c = ':') (trimmed (classSelector name)) := by
    rw [trimmed_classSelector]
    exact hides_cons rfl rfl (h.hides (Grammar.foreign_eq rfl)).trimEnd
  have htrim : trimmed (trimmed (classSelector name)) =
      trimmed (classSelector name) := by
    rw [trimmed_classSelector, trimmed_cons rfl, trimEnd_trimEnd]
  have hne : (trimmed (classSelector name)).isEmpty = false := by
    rw [trimmed_classSelector]
    rfl
  have hnil : SimpleSelector.ofText? 0 [] = none := rfl
  rw [Selector.partsOf, textsOf_trimmed_classSelector h,
    Grammar.ofTexts_cons_of_eq_none hnil]
  refine Grammar.ofTexts_cons_of_eq_some ?_ []
  rw [SimpleSelector.ofText?, htrim, breakExposed_of_hides hhides]
  simp only [hne]
  rfl

theorem star_mem_trimEnd_iff (h : Spells (serialize name) name) :
    '*' ∈ trimEnd (serialize name) ↔ '*' ∈ name := by
  rw [← h.mem_iff rfl rfl (by decide) (by decide)]
  obtain ⟨back, hback, hspace⟩ := exists_eq_trimEnd_append (serialize name)
  constructor
  · exact mem_of_mem_trimEnd
  · intro hstar
    rw [hback] at hstar
    rcases List.mem_append.mp hstar with hstar | hstar
    · exact hstar
    · exact absurd (hspace '*' hstar) (by decide)

/-- A page can match the selector by a star or by the class. -/
theorem all_canMatch_classSelector
    (h : Spells (serialize name) name) (inventory : Inventory) :
    (Selector.partsOf (trimmed (classSelector name))).all
        (fun part => part.canMatch inventory) = true ↔
      '*' ∈ name ∨ name ∈ inventory.classes := by
  rw [partsOf_classSelector h, List.all_cons, List.all_nil, Bool.and_true,
    trimmed_classSelector, ← star_mem_trimEnd_iff h]
  by_cases hstar : '*' ∈ trimEnd (serialize name)
  · have hkind : Kind.ofText ('.' :: trimEnd (serialize name)) =
        .universal := by
      rw [Kind.ofText, if_pos (by simp [hstar])]
    rw [SimpleSelector.canMatch, hkind]
    simp [hstar]
  · have hkind := Grammar.ofText_dot hstar
    have hvalue : SimpleSelector.valueOf .className
        ('.' :: trimEnd (serialize name)) = name :=
      (congrArg resolveEscapes (Grammar.behindMark_cons rfl _)).trans
        h.resolveEscapes_trimEnd
    rw [SimpleSelector.canMatch, hkind, hvalue]
    simp [hstar, Inventory.containsClass]

/-- A list of the selector alone has one member. -/
theorem readList_classSelector (h : Spells (serialize name) name) (offset : Nat) :
    Selector.readList (classSelector name) (classSelector name) offset =
      [Selector.ofText offset ⟨0, classSelector name⟩] := by
  have hvisible : (classSelector name).all isSpace = false := rfl
  have hhides : Hides (fun c => c = ',') (classSelector name) :=
    hides_classSelector h (Grammar.foreign_eq rfl) rfl
  rw [Selector.readList_self hvisible, Selector.piecesOf, Piece.split,
    splitExposed_of_hides hhides]
  rfl

end Selectors

section Rules

/-- A rule for a class with one declaration. -/
def classRule (name : Text) : Text :=
  classSelector name ++ "{x:1}".toList

variable {name : Text}

theorem not_hollow_declaration : ¬ Hollow ("x:1".toList.map codeCell) := by
  intro h
  have hspace := h (codeCell 'x') (by decide) rfl
  exact absurd hspace (by decide)

theorem coded_classRule (h : Spells (serialize name) name) :
    Coded (classRule name) :=
  (coded_classSelector h).append
    (coded_of_forall (List.all_iff_forall_prop.mp rfl))

/-- An escaped fence would be taken for a fence, so the name may have none. -/
theorem fenceless_classSelector
    (h : Spells (serialize name) name)
    (hfence : ∀ c ∈ name, isFence c = false) :
    Fenceless ((classSelector name).map codeCell) := by
  have hserialize : ∀ c ∈ serialize name, isFence c = false := by
    intro c hc
    rw [Bool.eq_false_iff]
    intro hstop
    have hname : c ∈ name := by
      rcases isFence_cases hstop with rfl | rfl | rfl <;>
        exact (h.mem_iff rfl rfl (by decide) (by decide)).mp hc
    simp [hfence c hname] at hstop
  intro cell hcell
  obtain ⟨c, hc, rfl⟩ := List.mem_map.mp hcell
  rcases List.mem_cons.mp hc with rfl | hc
  · rfl
  · simpa [Cell.isFence, codeCell] using hserialize c hc

/-- The rule is one leaf. -/
theorem leaves_classRule
    (h : Spells (serialize name) name)
    (hfence : ∀ c ∈ name, isFence c = false) :
    (Outline.ofCells ((classRule name).map codeCell)).leaves =
      [⟨0, (classSelector name).map codeCell,
        "x:1".toList.map codeCell⟩] := by
  have hdeclaration : ∀ cell ∈ "x:1".toList.map codeCell,
      cell.isFence = false := by
    decide
  have hpassages := Outline.passages_leaf_append
    (fenceless_classSelector h hfence)
    (Fenceless.braceless hdeclaration) []
  have hcells : (classRule name).map codeCell =
      (classSelector name).map codeCell ++
        blockCells ("x:1".toList.map codeCell) ++ [] := by
    rw [classRule, List.map_append, List.append_nil]
    rfl
  rw [hcells, Outline.leaves, hpassages]
  rfl

/-- The rule is kept when its name has a star or is on the page. -/
theorem forall_verdict_classRule_iff
    (h : Spells (serialize name) name)
    (hfence : ∀ c ∈ name, isFence c = false) (inventory : Inventory) :
    (∀ decision ∈ (Sheet.ofText (classRule name)).decisions inventory,
        decision.verdict = .keep) ↔
      '*' ∈ name ∨ name ∈ inventory.classes := by
  rw [decisions_eq_map, (coded_classRule h).settledCells_eq,
    leaves_classRule h hfence, List.map_singleton,
    List.forall_mem_singleton, Decision.verdict, Leaf.decision,
    flatMap_masked_map_codeCell, chars_map_codeCell,
    readList_classSelector h, Judgement.verdict_eq_keep_iff,
    Judgement.judge, List.map_singleton, List.forall_mem_singleton]
  exact all_canMatch_classSelector h inventory

theorem unspaced_eq_ungapped
    {text : Text} (h : ∀ c ∈ text, isLineBreak c = false) :
    unspaced text = ungapped text := by
  refine List.filter_congr ?_
  intro c hc
  simp [isGap, h c hc]

theorem unbroken_classRule (h : Spells (serialize name) name) :
    ∀ c ∈ classRule name, isLineBreak c = false := by
  have hbody : ∀ c ∈ "{x:1}".toList, isLineBreak c = false :=
    List.all_iff_forall_prop.mp rfl
  intro c hc
  rcases List.mem_append.mp hc with hc | hc
  · rcases List.mem_cons.mp hc with rfl | hc
    · rfl
    · exact h.isLineBreak_eq_false c hc
  · exact hbody c hc

/-- The rule comes out as it went in exactly when it is kept. -/
theorem unspaced_usedRules_classRule
    (h : Spells (serialize name) name)
    (hfence : ∀ c ∈ name, isFence c = false) (page : Text) :
    unspaced (usedRules (classRule name) page) = unspaced (classRule name) ↔
      '*' ∈ name ∨ name ∈ (Inventory.ofPage page).classes := by
  have hunbroken := unbroken_classRule h
  have hread := coded_classRule h none
  have hsolid : Solid ((classRule name).map codeCell) := by
    rw [Solid, leaves_classRule h hfence, List.forall_mem_singleton]
    exact not_hollow_declaration
  have hkept := ungapped_usedRules_eq_iff hread hsolid
    (by
      rw [chars_map_codeCell]
      exact unbrokenStrings_of_unbroken hunbroken) page
  rw [chars_map_codeCell] at hkept
  rw [unspaced_eq_ungapped (normalSpaced_usedRules _ page).unbroken,
    unspaced_eq_ungapped hunbroken, hkept,
    forall_verdict_classRule_iff h hfence]

/--
A rule for a token of a class value that has no brace and no semicolon is kept
exactly when the token has a star or is not cut further at a blank.
-/
theorem unspaced_usedRules_classRule_iff
    {value token : Text} (hvalue : ∀ c ∈ value, c ≠ '\x00' ∧ c ≠ '\r')
    (htoken : token ∈ classTokens value)
    (hfence : ∀ c ∈ token, isFence c = false) :
    unspaced (usedRules (classRule token) (classPage value)) =
        unspaced (classRule token) ↔
      '*' ∈ token ∨ ∀ c ∈ token, isBlank c = false := by
  have hspelled : ∀ c ∈ token, isSpelled c = true := by
    intro c hc
    obtain ⟨hmem, hspace⟩ := mem_of_mem_classTokens htoken hc
    have hne : c ≠ ' ' := by
      rintro rfl
      cases hspace
    simpa [isSpelled] using ⟨(hvalue c hmem).1, hne⟩
  have hsemicolon : ';' ∉ token := by
    intro hmem
    exact absurd (hfence ';' hmem) (by decide)
  rw [unspaced_usedRules_classRule (spells_serialize hspelled) hfence,
    mem_classes_classPage_iff hvalue htoken hsemicolon]

theorem unspaced_usedRules_classRule_flex :
    unspaced (usedRules (classRule "md:flex".toList)
        (classPage "w-1/2 md:flex".toList)) =
      ".md\\:flex\x7bx:1\x7d".toList :=
  (@unspaced_usedRules_classRule_iff "w-1/2 md:flex".toList "md:flex".toList
    (List.all_iff_forall_prop.mp rfl) (by decide)
    (List.all_iff_forall_prop.mp rfl)).mpr
      (.inr (List.all_iff_forall_prop.mp rfl))

/-- A no-break space is no whitespace of HTML, but it cuts a class value. -/
theorem unspaced_usedRules_classRule_ne :
    (∀ c ∈ "a\u00A0b".toList, c ≠ '\x00' ∧ c ≠ '\r') ∧
      "a\u00A0b".toList ∈ classTokens "a\u00A0b".toList ∧
      unspaced (usedRules (classRule "a\u00A0b".toList)
          (classPage "a\u00A0b".toList)) ≠
        unspaced (classRule "a\u00A0b".toList) := by
  refine ⟨List.all_iff_forall_prop.mp rfl, by decide, ?_⟩
  decide +kernel

-- An escaped brace opens a block.
example :
    unspaced (usedRules (classRule "a\x7bb".toList)
        (classPage "a\x7bb".toList)) ≠
      unspaced (classRule "a\x7bb".toList) := by
  decide +kernel

end Rules

end StylesheetPruning
