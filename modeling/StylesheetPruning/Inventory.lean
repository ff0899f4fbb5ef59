import StylesheetPruning.Text.Split
import StylesheetPruning.Text.Substitution
import Std.Data.TreeSet

/-!
# What a page contains

The inventory of a page holds the element names, the identifiers and the class
names that occur anywhere in it. They are collected one at a time, and an
inventory only ever grows.

**Case.** Element names are kept with ASCII capitals lowered; identifiers and
class names are kept as they are.

**Class values.** A class value is cut into names at its blanks. A space that
is still written as the reference `&#32;` cuts as well.

**Order.** Sets list their members by code points.
-/

namespace StylesheetPruning

/-- A set of names, listed in the order of their code points. -/
abbrev Names := Std.TreeSet Text

/-- What a page contains. -/
structure Inventory where
  /-- Element names, with ASCII capitals lowered. -/
  elements : Names
  /-- Values of `id` attributes. -/
  ids : Names
  /-- Names in `class` attributes. -/
  classes : Names

namespace Inventory

/-- No page at all. -/
def empty : Inventory :=
  { elements := ∅, ids := ∅, classes := ∅ }

instance : EmptyCollection Inventory :=
  ⟨empty⟩

instance : Inhabited Inventory :=
  ⟨empty⟩

/-- The reference to a space is read as a space. -/
def spaceReference : Substitution :=
  { pattern := "&#32;".toList, replacement := [' '], shrinks := by decide }

/-- The names in the value of a `class` attribute. -/
def classNames (value : Text) : List Text :=
  words (spaceReference.apply value)

/-- Record an element. -/
def insertElement (inventory : Inventory) (name : Text) : Inventory :=
  if name.isEmpty then inventory
  else { inventory with elements := inventory.elements.insert (lowered name) }

/-- Record an identifier. -/
def insertId (inventory : Inventory) (id : Text) : Inventory :=
  if id.isEmpty then inventory
  else { inventory with ids := inventory.ids.insert id }

/-- Record the names in the value of a `class` attribute. -/
def insertClasses (inventory : Inventory) (value : Text) : Inventory :=
  { inventory with
    classes :=
      (classNames value).foldl (fun names n => names.insert n) inventory.classes }

/-- Whether an element occurs, by its name in any case. -/
def containsElement (inventory : Inventory) (name : Text) : Bool :=
  inventory.elements.contains (lowered name)

/-- Whether an identifier occurs. -/
def containsId (inventory : Inventory) (id : Text) : Bool :=
  inventory.ids.contains id

/-- Whether a class name occurs. -/
def containsClass (inventory : Inventory) (name : Text) : Bool :=
  inventory.classes.contains name

/-- Whether nothing was recorded. -/
def isEmpty (inventory : Inventory) : Bool :=
  inventory.elements.isEmpty && inventory.ids.isEmpty && inventory.classes.isEmpty

/-- Everything in the first inventory is in the second. -/
def Subset (inventory inventory' : Inventory) : Prop :=
  (∀ name, name ∈ inventory.elements → name ∈ inventory'.elements) ∧
  (∀ id, id ∈ inventory.ids → id ∈ inventory'.ids) ∧
  (∀ name, name ∈ inventory.classes → name ∈ inventory'.classes)

instance : HasSubset Inventory :=
  ⟨Subset⟩

/-- The element names after one more element. -/
theorem mem_elements_insertElement {inventory : Inventory} {name x : Text}
    (h : name ≠ []) :
    x ∈ (inventory.insertElement name).elements ↔
      x = lowered name ∨ x ∈ inventory.elements := by
  have he : name.isEmpty = false := by simpa using h
  rw [insertElement, he]
  simp only [Bool.false_eq_true, if_false, Std.TreeSet.mem_insert,
    Std.LawfulEqCmp.compare_eq_iff_eq]
  rw [eq_comm]

/-- The identifiers after one more identifier. -/
theorem mem_ids_insertId {inventory : Inventory} {id x : Text}
    (h : id ≠ []) :
    x ∈ (inventory.insertId id).ids ↔ x = id ∨ x ∈ inventory.ids := by
  have he : id.isEmpty = false := by simpa using h
  rw [insertId, he]
  simp only [Bool.false_eq_true, if_false, Std.TreeSet.mem_insert,
    Std.LawfulEqCmp.compare_eq_iff_eq]
  rw [eq_comm]

theorem mem_foldl_insert (names : Names) (news : List Text) (x : Text) :
    x ∈ news.foldl (fun names n => names.insert n) names ↔
      x ∈ news ∨ x ∈ names := by
  induction news generalizing names with
  | nil => simp
  | cons n rest ih =>
      rw [List.foldl_cons, ih]
      simp only [Std.TreeSet.mem_insert, Std.LawfulEqCmp.compare_eq_iff_eq,
        List.mem_cons]
      constructor
      · rintro (h | rfl | h)
        · exact .inl (.inr h)
        · exact .inl (.inl rfl)
        · exact .inr h
      · rintro ((rfl | h) | h)
        · exact .inr (.inl rfl)
        · exact .inl h
        · exact .inr (.inr h)

/-- The class names after one more class value. -/
theorem mem_classes_insertClasses {inventory : Inventory} {value x : Text} :
    x ∈ (inventory.insertClasses value).classes ↔
      x ∈ classNames value ∨ x ∈ inventory.classes :=
  mem_foldl_insert inventory.classes (classNames value) x

end Inventory

end StylesheetPruning
