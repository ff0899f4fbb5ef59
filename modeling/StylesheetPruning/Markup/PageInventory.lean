import StylesheetPruning.Inventory
import StylesheetPruning.Markup.StartTag

/-!
# The inventory of a page

Every start tag of a page adds its name, the value of its `id` attribute and
the names in its `class` attribute. Nothing else counts, so a page that is not
well formed has an inventory too.
-/

namespace StylesheetPruning

namespace Inventory

/-- Record a start tag. -/
def insertStartTag (inventory : Inventory) (tag : StartTag) : Inventory :=
  let inventory := inventory.insertElement tag.name
  let inventory :=
    match tag.value? "id".toList with
    | some id => inventory.insertId id
    | none => inventory
  match tag.value? "class".toList with
  | some value => inventory.insertClasses value
  | none => inventory

/-- The inventory of a page. -/
def ofPage (page : Text) : Inventory :=
  (StartTag.ofPage page).foldl insertStartTag empty

end Inventory

end StylesheetPruning
