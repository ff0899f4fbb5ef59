import StylesheetPruning.Proofs.Markup.Contents
import StylesheetPruning.Proofs.Markup.Document
import StylesheetPruning.Proofs.Text.Parting
import StylesheetPruning.Proofs.Text.Substituting

/-!
# Pages with one class value

`classPage` is a page with a single element whose only attribute is a class
value, in which ampersands and quotes are written as references.

**Tokens.** A class value has the tokens between its ASCII whitespace. Its
names are cut at every blank instead, and at spaces that are still written as
references. So a token is a name unless it is cut further.

**Results.**
* `ofPage_classPage`: the page is read as the one tag that it was meant to be.
* `mem_classes_classPage_iff`: a token without semicolons is among the classes
  of the page exactly when it has no blank.
-/

namespace StylesheetPruning

/-- A page with one element of a class value. -/
def classPage (value : Text) : Text :=
  "<p class=\"".toList ++ (encodeValue value ++ "\"></p>".toList)

/-- The class value as an attribute. -/
def classAttribute
    (value : Text) (h : ∀ c ∈ value, c ≠ '\x00' ∧ c ≠ '\r') :
    Document.WrittenAttribute :=
  { name := "class".toList
    value := value
    name_ne_nil := Document.class_ne_nil
    name_plain := Document.class_isLower
    value_plain := h }

/-- The name of the element of the page. -/
def paragraphName : Document.TagName :=
  { first := 'p', rest := [], isAlpha_first := rfl, rest_plain := by simp }

theorem print_classPage
    {value : Text} (h : ∀ c ∈ value, c ≠ '\x00' ∧ c ≠ '\r') :
    Document.print
        [.startTag ⟨paragraphName, [classAttribute value h]⟩,
          .endTag paragraphName] =
      classPage value := by
  simp only [Document.print_cons, Document.Fragment.print,
    Document.WrittenTag.print, Document.WrittenAttribute.print,
    List.flatMap_cons, List.flatMap_nil, List.cons_append, List.append_assoc,
    List.append_nil, List.nil_append]
  rfl

/-- The page is read as one tag with one attribute. -/
theorem StartTag.ofPage_classPage
    {value : Text} (h : ∀ c ∈ value, c ≠ '\x00' ∧ c ≠ '\r') :
    ofPage (classPage value) =
      [⟨"p".toList, [⟨"class".toList, value⟩]⟩] := by
  rw [← print_classPage h, Document.ofPage_print]
  rfl

section Tokens

/-- The parts of a class value between its ASCII whitespace. -/
def classTokens (value : Text) : List Text :=
  (splitWhere isSpace value).filter (fun token => !token.isEmpty)

theorem mem_of_mem_classTokens
    {value token : Text} (h : token ∈ classTokens value)
    {c : Char} (hc : c ∈ token) : c ∈ value ∧ isSpace c = false := by
  obtain ⟨hpart, -⟩ := List.mem_filter.mp h
  have hflat : c ∈ (splitWhere isSpace value).flatten :=
    List.mem_flatten.mpr ⟨token, hpart, hc⟩
  rw [flatten_splitWhere, List.mem_filter] at hflat
  simpa using hflat

/-- The classes of the page are the names in its value. -/
theorem mem_classes_classPage
    {value : Text} (h : ∀ c ∈ value, c ≠ '\x00' ∧ c ≠ '\r') (name : Text) :
    name ∈ (Inventory.ofPage (classPage value)).classes ↔
      name ∈ Inventory.classNames value := by
  have hvalue : StartTag.value?
      ⟨"p".toList, [⟨"class".toList, value⟩]⟩ "class".toList = some value := rfl
  rw [Inventory.mem_classes_ofPage, StartTag.ofPage_classPage h]
  simp only [List.mem_singleton, exists_eq_left, hvalue, Option.some.injEq,
    exists_eq_left']

theorem mem_spaceReference {c : Char} (h : c ∈ Inventory.spaceReference.pattern) :
    isSpace c = false := by
  have hall : ∀ c ∈ Inventory.spaceReference.pattern, isSpace c = false :=
    List.all_iff_forall_prop.mp rfl
  exact hall c h

/-- A token without blanks and semicolons is a name of its value. -/
theorem mem_classNames_of_mem_splitWhere
    {value token : Text} (h : token ∈ splitWhere isSpace value)
    (hne : token ≠ []) (hsemicolon : ';' ∉ token)
    (hblank : ∀ c ∈ token, isBlank c = false) :
    token ∈ Inventory.classNames value := by
  have htoken : words (Inventory.spaceReference.apply token) = [token] := by
    have hpattern : ¬ Inventory.spaceReference.pattern <:+: token :=
      fun hwithin => hsemicolon (hwithin.mem (by decide))
    rw [Substitution.apply_eq_self hpattern, words_of_forall hne hblank]
  generalize hparts : splitWhere isSpace value = parts at h
  induction parts generalizing value with
  | nil =>
      cases h
  | cons part parts ih =>
      by_cases hspace : ∃ c ∈ value, isSpace c = true
      · obtain ⟨front, c, back, rfl, hc, hfront⟩ :=
          exists_first_separator hspace
        have hpattern : c ∉ Inventory.spaceReference.pattern := by
          intro hmem
          simp [mem_spaceReference hmem] at hc
        rw [splitWhere_append_cons hfront hc, List.cons.injEq] at hparts
        rw [Inventory.classNames, Substitution.apply_append _ hpattern,
          words_append (isBlank_of_isSpace hc), List.mem_append]
        rcases List.mem_cons.mp h with rfl | h
        · left
          rw [hparts.1, htoken]
          exact List.mem_singleton_self token
        · right
          exact ih hparts.2 h
      · have hnone : ∀ c ∈ value, isSpace c = false := by
          intro c hc
          rw [Bool.eq_false_iff]
          exact fun hspaceC => hspace ⟨c, hc, hspaceC⟩
        rw [splitWhere_of_forall_not hnone] at hparts
        rw [← hparts, List.mem_singleton] at h
        rw [Inventory.classNames, ← h, htoken]
        exact List.mem_singleton_self token

/-- A token is among the classes of its page exactly when no blank cuts it. -/
theorem mem_classes_classPage_iff
    {value : Text} (h : ∀ c ∈ value, c ≠ '\x00' ∧ c ≠ '\r')
    {token : Text} (htoken : token ∈ classTokens value)
    (hsemicolon : ';' ∉ token) :
    token ∈ (Inventory.ofPage (classPage value)).classes ↔
      ∀ c ∈ token, isBlank c = false := by
  obtain ⟨hpart, hne⟩ := List.mem_filter.mp htoken
  rw [mem_classes_classPage h]
  constructor
  · intro hname
    exact (ne_nil_of_mem_words hname).2
  · intro hblank
    exact mem_classNames_of_mem_splitWhere hpart (by simpa using hne)
      hsemicolon hblank

end Tokens

end StylesheetPruning
