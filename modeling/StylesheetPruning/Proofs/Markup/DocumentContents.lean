import StylesheetPruning.Proofs.Markup.Contents
import StylesheetPruning.Proofs.Markup.Document
import StylesheetPruning.Proofs.Text.Parting
import StylesheetPruning.Proofs.Text.Substituting

/-!
# What is in the inventory of a document

An element is written from what a stylesheet can ask of it: its name, perhaps
an identifier, perhaps class names. The inventory of a document gives back
exactly this of all its elements. End tags, comments and texts add nothing.

**Class names.** Names are written with one space between them. A name holds no
blank, and no reference to a space either, which would cut it.

**Results.**
* `classNames_classValue`: the names of a class value are those it was written
  from.
* `mem_ofPage_printElements`: the inventory of a document is that of its
  elements.
-/

namespace StylesheetPruning
namespace Document

section Syntax

/-- The value of an identifier. -/
structure IdValue where
  text : Text
  plain : ∀ c ∈ text, c ≠ '\x00' ∧ c ≠ '\r'

/-- A name in a class value. -/
structure ClassToken where
  text : Text
  ne_nil : text ≠ []
  plain : ∀ c ∈ text, c ≠ '\x00' ∧ isBlank c = false
  no_reference : ¬ "&#32;".toList <:+: text

/-- An element, by what can be asked of it. -/
structure Element where
  name : TagName
  id : Option IdValue
  classes : Option (List ClassToken)

/-- Class names with spaces between them. -/
def classValue (tokens : List ClassToken) : Text :=
  List.intercalate [' '] (tokens.map ClassToken.text)

theorem classValue_cons_cons
    (token token' : ClassToken) (rest : List ClassToken) :
    classValue (token :: token' :: rest) =
      token.text ++ ' ' :: classValue (token' :: rest) := by
  rw [classValue, List.map_cons, List.map_cons, List.intercalate_cons_cons,
    List.append_assoc, ← List.map_cons]
  rfl

theorem classValue_plain (tokens : List ClassToken) :
    ∀ c ∈ classValue tokens, c ≠ '\x00' ∧ c ≠ '\r' := by
  have htoken : ∀ token : ClassToken, ∀ c ∈ token.text,
      c ≠ '\x00' ∧ c ≠ '\r' := by
    intro token c hc
    obtain ⟨hnul, hblank⟩ := token.plain c hc
    refine ⟨hnul, ?_⟩
    rintro rfl
    cases hblank
  induction tokens with
  | nil =>
      intro c hc
      cases hc
  | cons token rest ih =>
      cases rest with
      | nil =>
          simpa [classValue] using htoken token
      | cons token' rest =>
          intro c hc
          rw [classValue_cons_cons, List.mem_append, List.mem_cons] at hc
          rcases hc with hc | rfl | hc
          · exact htoken token c hc
          · decide
          · exact ih c hc

/-- The identifier of an element as an attribute. -/
def IdValue.written (id : IdValue) : WrittenAttribute :=
  { name := "id".toList
    value := id.text
    name_ne_nil := by decide
    name_plain := List.all_eq_true.mp (by decide)
    value_plain := id.plain }

/-- The class names of an element as an attribute. -/
def writtenClasses (tokens : List ClassToken) : WrittenAttribute :=
  { name := "class".toList
    value := classValue tokens
    name_ne_nil := class_ne_nil
    name_plain := class_isLower
    value_plain := classValue_plain tokens }

/-- The start tag of an element. -/
def Element.tag (element : Element) : WrittenTag :=
  { name := element.name
    attributes :=
      (element.id.map IdValue.written).toList ++
        (element.classes.map writtenClasses).toList }

/-- Write a document of elements. -/
def printElements (fragments : List (Fragment Element)) : Text :=
  print (fragments.map (Fragment.map Element.tag))

end Syntax

section Values

theorem value?_id (element : Element) :
    element.tag.toStartTag.value? "id".toList =
      element.id.map IdValue.text := by
  obtain ⟨name, id, classes⟩ := element
  cases id with
  | some id => rfl
  | none =>
      cases classes with
      | some tokens => rfl
      | none => rfl

theorem value?_class (element : Element) :
    element.tag.toStartTag.value? "class".toList =
      element.classes.map classValue := by
  obtain ⟨name, id, classes⟩ := element
  cases id with
  | some id =>
      cases classes with
      | some tokens => rfl
      | none => rfl
  | none =>
      cases classes with
      | some tokens => rfl
      | none => rfl

theorem classNames_token (token : ClassToken) :
    Inventory.classNames token.text = [token.text] := by
  rw [Inventory.classNames, Substitution.apply_eq_self token.no_reference,
    words_of_forall token.ne_nil (fun c hc => (token.plain c hc).2)]

/-- The names of a class value are those it was written from. -/
theorem classNames_classValue (tokens : List ClassToken) :
    Inventory.classNames (classValue tokens) = tokens.map ClassToken.text := by
  induction tokens with
  | nil =>
      rfl
  | cons token rest ih =>
      cases rest with
      | nil =>
          simpa [classValue] using classNames_token token
      | cons token' rest =>
          have hspace : ' ' ∉ Inventory.spaceReference.pattern := by decide
          have hblank : isBlank ' ' = true := rfl
          have htoken := classNames_token token
          rw [Inventory.classNames] at htoken ih
          rw [classValue_cons_cons, Inventory.classNames,
            Substitution.apply_append _ hspace, words_append hblank, htoken,
            ih]
          rfl

theorem ofPage_printElements (fragments : List (Fragment Element)) :
    StartTag.ofPage (printElements fragments) =
      (startTags fragments).map (fun element => element.tag.toStartTag) := by
  have htags : startTags (fragments.map (Fragment.map Element.tag)) =
      (startTags fragments).map Element.tag := by
    simp only [startTags, List.filterMap_map, List.map_filterMap]
    congr 1
    funext fragment
    exact Fragment.startTag?_map Element.tag fragment
  rw [printElements, ofPage_print, htags, List.map_map]
  rfl

end Values

section Contents

variable {fragments : List (Fragment Element)}

/-- What holds of a tag of the page holds of a tag of an element. -/
theorem exists_mem_ofPage_iff {p : StartTag → Prop} :
    (∃ tag ∈ StartTag.ofPage (printElements fragments), p tag) ↔
      ∃ element ∈ startTags fragments, p element.tag.toStartTag := by
  rw [ofPage_printElements]
  constructor
  · rintro ⟨tag, htag, hp⟩
    obtain ⟨element, helement, rfl⟩ := List.mem_map.mp htag
    exact ⟨element, helement, hp⟩
  · rintro ⟨element, helement, hp⟩
    exact ⟨_, List.mem_map_of_mem helement, hp⟩

theorem mem_elements_printElements {name : Text} :
    name ∈ (Inventory.ofPage (printElements fragments)).elements ↔
      ∃ element ∈ startTags fragments, name = lowered element.name.text := by
  rw [Inventory.mem_elements_ofPage, exists_mem_ofPage_iff]
  refine exists_congr (fun element => and_congr_right (fun _ => ?_))
  have hname : element.tag.toStartTag.name = lowered element.name.text := rfl
  have hne : lowered element.name.text ≠ [] := List.cons_ne_nil _ _
  rw [hname, lowered_lowered, and_iff_right hne]

theorem mem_ids_printElements {id : Text} :
    id ∈ (Inventory.ofPage (printElements fragments)).ids ↔
      id ≠ [] ∧ ∃ element ∈ startTags fragments,
        ∃ value ∈ element.id, id = value.text := by
  rw [Inventory.mem_ids_ofPage, exists_mem_ofPage_iff]
  constructor
  · rintro ⟨element, helement, hne, hvalue⟩
    rw [value?_id, Option.map_eq_some_iff] at hvalue
    obtain ⟨value, hid, rfl⟩ := hvalue
    exact ⟨hne, element, helement, value, hid, rfl⟩
  · rintro ⟨hne, element, helement, value, hid, rfl⟩
    refine ⟨element, helement, hne, ?_⟩
    rw [value?_id, Option.map_eq_some_iff]
    exact ⟨value, hid, rfl⟩

theorem mem_classes_printElements {name : Text} :
    name ∈ (Inventory.ofPage (printElements fragments)).classes ↔
      ∃ element ∈ startTags fragments,
        ∃ tokens ∈ element.classes, ∃ token ∈ tokens, name = token.text := by
  rw [Inventory.mem_classes_ofPage, exists_mem_ofPage_iff]
  constructor
  · rintro ⟨element, helement, value, hvalue, hname⟩
    rw [value?_class, Option.map_eq_some_iff] at hvalue
    obtain ⟨tokens, hclasses, rfl⟩ := hvalue
    rw [classNames_classValue, List.mem_map] at hname
    obtain ⟨token, htoken, rfl⟩ := hname
    exact ⟨element, helement, tokens, hclasses, token, htoken, rfl⟩
  · rintro ⟨element, helement, tokens, hclasses, token, htoken, rfl⟩
    refine ⟨element, helement, classValue tokens, ?_, ?_⟩
    · rw [value?_class, Option.map_eq_some_iff]
      exact ⟨tokens, hclasses, rfl⟩
    · rw [classNames_classValue]
      exact List.mem_map_of_mem htoken

/--
The inventory of a document holds exactly the lowered names, the identifiers
that are not empty, and the class names of its elements.
-/
theorem mem_ofPage_printElements (fragments : List (Fragment Element)) :
    (∀ name,
      name ∈ (Inventory.ofPage (printElements fragments)).elements ↔
        ∃ element ∈ startTags fragments, name = lowered element.name.text) ∧
    (∀ id,
      id ∈ (Inventory.ofPage (printElements fragments)).ids ↔
        id ≠ [] ∧ ∃ element ∈ startTags fragments,
          ∃ value ∈ element.id, id = value.text) ∧
    (∀ name,
      name ∈ (Inventory.ofPage (printElements fragments)).classes ↔
        ∃ element ∈ startTags fragments,
          ∃ tokens ∈ element.classes, ∃ token ∈ tokens,
            name = token.text) := by
  constructor
  · exact fun _ => mem_elements_printElements
  · constructor
    · exact fun _ => mem_ids_printElements
    · exact fun _ => mem_classes_printElements

end Contents

end Document
end StylesheetPruning
