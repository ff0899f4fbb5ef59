import StylesheetPruning.Markup.PageInventory

/-!
# What the inventory of a page contains

A name is in the inventory of a page exactly when some start tag of the page
puts it there. Tags are recorded one at a time, and none takes anything out.

**Results.**
* `mem_elements_ofPage`, `mem_ids_ofPage`, `mem_classes_ofPage`: the three sets
  of an inventory, by the start tags of its page.
-/

namespace StylesheetPruning

namespace Inventory

section Tags

variable (inventory : Inventory) (tag : StartTag)

@[simp] theorem ids_insertElement (name : Text) :
    (inventory.insertElement name).ids = inventory.ids := by
  rw [insertElement]
  split
  · rfl
  · rfl

@[simp] theorem classes_insertElement (name : Text) :
    (inventory.insertElement name).classes = inventory.classes := by
  rw [insertElement]
  split
  · rfl
  · rfl

@[simp] theorem elements_insertId (id : Text) :
    (inventory.insertId id).elements = inventory.elements := by
  rw [insertId]
  split
  · rfl
  · rfl

@[simp] theorem classes_insertId (id : Text) :
    (inventory.insertId id).classes = inventory.classes := by
  rw [insertId]
  split
  · rfl
  · rfl

@[simp] theorem elements_insertClasses (value : Text) :
    (inventory.insertClasses value).elements = inventory.elements := rfl

@[simp] theorem ids_insertClasses (value : Text) :
    (inventory.insertClasses value).ids = inventory.ids := rfl

/-- A tag adds its name. -/
theorem mem_elements_insertStartTag {name : Text} :
    name ∈ (inventory.insertStartTag tag).elements ↔
      (tag.name ≠ [] ∧ name = lowered tag.name) ∨
        name ∈ inventory.elements := by
  have helements : (inventory.insertStartTag tag).elements =
      (inventory.insertElement tag.name).elements := by
    rw [insertStartTag]
    cases tag.value? "class".toList with
    | none => cases tag.value? "id".toList <;> simp
    | some value => cases tag.value? "id".toList <;> simp
  rw [helements]
  by_cases hname : tag.name = []
  · simp [insertElement, hname]
  · rw [mem_elements_insertElement hname, and_iff_right hname]

/-- A tag adds its identifier, if that is not empty. -/
theorem mem_ids_insertStartTag {id : Text} :
    id ∈ (inventory.insertStartTag tag).ids ↔
      (id ≠ [] ∧ tag.value? "id".toList = some id) ∨ id ∈ inventory.ids := by
  rw [insertStartTag]
  cases hid : tag.value? "id".toList with
  | none =>
      cases tag.value? "class".toList <;> simp
  | some id' =>
      have hinsert : id ∈ (inventory.insertId id').ids ↔
          (id ≠ [] ∧ some id' = some id) ∨ id ∈ inventory.ids := by
        by_cases hempty : id' = []
        · rw [insertId, hempty]
          simp only [List.isEmpty_nil, if_true, Option.some.injEq]
          constructor
          · exact .inr
          · rintro (⟨hne, heq⟩ | hmem)
            · exact absurd heq.symm hne
            · exact hmem
        · rw [mem_ids_insertId hempty]
          constructor
          · rintro (rfl | hmem)
            · exact .inl ⟨hempty, rfl⟩
            · exact .inr hmem
          · rintro (⟨-, heq⟩ | hmem)
            · exact .inl (Option.some.inj heq).symm
            · exact .inr hmem
      have helement : id ∈
          ((inventory.insertElement tag.name).insertId id').ids ↔
            id ∈ (inventory.insertId id').ids := by
        simp only [insertId]
        split
        · simp
        · simp
      cases tag.value? "class".toList with
      | none => exact helement.trans hinsert
      | some value => exact helement.trans hinsert

/-- A tag adds the names in its class value. -/
theorem mem_classes_insertStartTag {name : Text} :
    name ∈ (inventory.insertStartTag tag).classes ↔
      (∃ value, tag.value? "class".toList = some value ∧
          name ∈ classNames value) ∨
        name ∈ inventory.classes := by
  rw [insertStartTag]
  cases tag.value? "class".toList with
  | none =>
      cases tag.value? "id".toList <;> simp
  | some value =>
      cases tag.value? "id".toList <;> simp [mem_classes_insertClasses]

end Tags

section Pages

/-- What steps only add holds in the end if some step adds it. -/
theorem foldl_iff
    {α β : Type} {p : β → Prop} {q : α → Prop} {f : β → α → β}
    (h : ∀ state item, p (f state item) ↔ q item ∨ p state)
    (items : List α) (state : β) :
    p (items.foldl f state) ↔ (∃ item ∈ items, q item) ∨ p state := by
  induction items generalizing state with
  | nil =>
      simp
  | cons item rest ih =>
      rw [List.foldl_cons, ih, h, ← or_assoc]
      simp only [List.mem_cons, exists_eq_or_imp]
      rw [or_comm (a := q item)]

variable {page : Text}

/-- The elements of a page are the lowered names of its start tags. -/
theorem mem_elements_ofPage {name : Text} :
    name ∈ (ofPage page).elements ↔
      ∃ tag ∈ StartTag.ofPage page,
        tag.name ≠ [] ∧ name = lowered tag.name := by
  have hempty : name ∉ empty.elements := Std.TreeSet.not_mem_emptyc
  have hfold := foldl_iff (p := fun inventory => name ∈ inventory.elements)
    (fun inventory tag => mem_elements_insertStartTag inventory tag)
    (StartTag.ofPage page) empty
  exact hfold.trans (or_iff_left hempty)

/-- The identifiers of a page are those of its start tags. -/
theorem mem_ids_ofPage {id : Text} :
    id ∈ (ofPage page).ids ↔
      ∃ tag ∈ StartTag.ofPage page,
        id ≠ [] ∧ tag.value? "id".toList = some id := by
  have hempty : id ∉ empty.ids := Std.TreeSet.not_mem_emptyc
  have hfold := foldl_iff (p := fun inventory => id ∈ inventory.ids)
    (fun inventory tag => mem_ids_insertStartTag inventory tag)
    (StartTag.ofPage page) empty
  exact hfold.trans (or_iff_left hempty)

/-- The classes of a page are the names in the class values of its tags. -/
theorem mem_classes_ofPage {name : Text} :
    name ∈ (ofPage page).classes ↔
      ∃ tag ∈ StartTag.ofPage page,
        ∃ value, tag.value? "class".toList = some value ∧
          name ∈ classNames value := by
  have hempty : name ∉ empty.classes := Std.TreeSet.not_mem_emptyc
  have hfold := foldl_iff (p := fun inventory => name ∈ inventory.classes)
    (fun inventory tag => mem_classes_insertStartTag inventory tag)
    (StartTag.ofPage page) empty
  exact hfold.trans (or_iff_left hempty)

end Pages

end Inventory

end StylesheetPruning
