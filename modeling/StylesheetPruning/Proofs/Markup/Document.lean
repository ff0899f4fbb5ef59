import StylesheetPruning.Proofs.Markup.AttributeValues
import StylesheetPruning.Proofs.Markup.LineBreaks

/-!
# Documents

A document is a sequence of start tags, end tags, comments and texts. Its parts
carry the proofs that they can be written, so every document can be printed.

**Line breaks.** Unifying line breaks and dropping a byte order mark change
texts and comments only. So what is read is a document with the same tags.

**Reading.** Between two fragments the machine is in text. It reads a fragment
whatever follows, and gives the tag of a start tag.

**Results.**
* `run_print`: one fragment is read.
* `ofPage_print`: a printed document has the start tags that it was made of.
-/

namespace StylesheetPruning
namespace Document

open StartTag (unified behindReturn unified_append unified_cons unified_eq_self
  unifyLineBreaks dropByteOrderMark Reading Draft Stage)

section Syntax

/-- Whether a character may stand in the name of a tag, behind its first. -/
def isTagNameChar (c : Char) : Bool :=
  !(isSpace c || c = '/' || c = '>' || c = '\x00')

/-- The name of a tag. -/
structure TagName where
  first : Char
  rest : Text
  isAlpha_first : first.isAlpha = true
  rest_plain : ∀ c ∈ rest, isTagNameChar c = true

/-- The whole name. -/
def TagName.text (name : TagName) : Text :=
  name.first :: name.rest

/-- An attribute whose name is a word of small letters. -/
structure WrittenAttribute where
  name : Text
  value : Text
  name_ne_nil : name ≠ []
  name_plain : ∀ c ∈ name, c.isLower = true
  value_plain : ∀ c ∈ value, c ≠ '\x00' ∧ c ≠ '\r'

theorem class_ne_nil : "class".toList ≠ [] := by
  decide

theorem class_isLower : ∀ c ∈ "class".toList, c.isLower = true :=
  List.all_eq_true.mp (by decide)

/-- A start tag. -/
structure WrittenTag where
  name : TagName
  attributes : List WrittenAttribute

/-- A piece of a document, with start tags of the given type. -/
inductive Fragment (Tag : Type) where
  | startTag (tag : Tag)
  | endTag (name : TagName)
  | comment (content : Text) (h : ∀ c ∈ content, c ≠ '-' ∧ c ≠ '<' ∧ c ≠ '>')
  | text (content : Text) (h : ∀ c ∈ content, c ≠ '<')

namespace Fragment

variable {Tag Tag' : Type}

/-- The start tag of a fragment, if it is one. -/
def startTag? : Fragment Tag → Option Tag
  | startTag tag => some tag
  | endTag _ | comment _ _ | text _ _ => none

/-- Write the start tags in another way. -/
def map (f : Tag → Tag') : Fragment Tag → Fragment Tag'
  | startTag tag => startTag (f tag)
  | endTag name => endTag name
  | comment content h => comment content h
  | text content h => text content h

@[simp] theorem startTag?_map (f : Tag → Tag') (fragment : Fragment Tag) :
    (fragment.map f).startTag? = fragment.startTag?.map f := by
  cases fragment with
  | startTag tag => rfl
  | endTag name => rfl
  | comment content h => rfl
  | text content h => rfl

end Fragment

/-- The start tags of a document, in order. -/
def startTags {Tag : Type} (fragments : List (Fragment Tag)) : List Tag :=
  fragments.filterMap Fragment.startTag?

end Syntax

section Printing

def WrittenAttribute.print (item : WrittenAttribute) : Text :=
  ' ' :: (item.name ++
    '=' :: '"' :: (encodeValue item.value ++ ['"']))

def WrittenTag.print (tag : WrittenTag) : Text :=
  '<' :: (tag.name.text ++
    (tag.attributes.flatMap WrittenAttribute.print ++ ['>']))

def Fragment.print : Fragment WrittenTag → Text
  | startTag tag => tag.print
  | endTag name => '<' :: '/' :: (name.text ++ ['>'])
  | comment content _ => "<!--".toList ++ (content ++ "-->".toList)
  | text content _ => content

/-- Write a document. -/
def print (fragments : List (Fragment WrittenTag)) : Text :=
  fragments.flatMap Fragment.print

@[simp] theorem print_cons
    (fragment : Fragment WrittenTag) (rest : List (Fragment WrittenTag)) :
    print (fragment :: rest) = fragment.print ++ print rest :=
  List.flatMap_cons

/-- What is to be read of a start tag. -/
def WrittenTag.toStartTag (tag : WrittenTag) : StartTag :=
  { name := lowered tag.name.text
    attributes := tag.attributes.map (fun a => ⟨a.name, a.value⟩) }

end Printing

section Characters

variable {c : Char}

theorem isTagNameChar_cases (h : isTagNameChar c = true) :
    StartTag.isTagSpace c = false ∧ c ≠ '/' ∧ c ≠ '>' ∧ c ≠ '\x00' ∧
      c ≠ '\r' := by
  simp only [isTagNameChar, isSpace, Bool.not_eq_true', Bool.or_eq_false_iff,
    decide_eq_false_iff_not] at h
  simp [StartTag.isTagSpace, h]

theorem isTagNameChar_of_isAlpha (h : c.isAlpha = true) :
    isTagNameChar c = true := by
  rw [isTagNameChar, Bool.not_eq_true', Bool.eq_false_iff]
  intro hspecial
  simp only [isSpace, Bool.or_eq_true, decide_eq_true_eq] at hspecial
  rcases hspecial with ((((((rfl | rfl) | rfl) | rfl) | rfl) | rfl) | rfl) | rfl
  all_goals cases h

theorem TagName.text_plain (name : TagName) :
    ∀ c ∈ name.text, isTagNameChar c = true := by
  rw [TagName.text, List.forall_mem_cons]
  exact ⟨isTagNameChar_of_isAlpha name.isAlpha_first, name.rest_plain⟩

theorem nameChar_of_isTagNameChar (h : isTagNameChar c = true) :
    StartTag.nameChar c = c.toLower := by
  rw [StartTag.nameChar, StartTag.valueChar,
    if_neg (isTagNameChar_cases h).2.2.2.1]

/-- A small letter of an attribute name is kept as it is. -/
theorem isLower_cases (h : c.isLower = true) :
    isTagNameChar c = true ∧ c ≠ '=' ∧ c.toLower = c := by
  have hequals : c ≠ '=' := by
    rintro rfl
    cases h
  have halpha : c.isAlpha = true := Bool.or_eq_true_iff.mpr (.inr h)
  exact ⟨isTagNameChar_of_isAlpha halpha, hequals,
    toLower_of_isLower h⟩

/-- No line break of a tag needs to be unified. -/
theorem WrittenTag.print_plain (tag : WrittenTag) :
    ∀ c ∈ tag.print, c ≠ '\r' := by
  have hattribute : ∀ item ∈ tag.attributes,
      ∀ c ∈ item.print, c ≠ '\r' := by
    intro item _ c hc
    simp only [WrittenAttribute.print, List.mem_cons, List.mem_append,
      List.not_mem_nil, or_false] at hc
    rcases hc with rfl | hc | rfl | rfl | hc | rfl
    · decide
    · exact (isTagNameChar_cases
        (isLower_cases (item.name_plain c hc)).1).2.2.2.2
    · decide
    · decide
    · exact (encodeValue_cases item.value_plain c hc).2.2
    · decide
  intro c hc
  simp only [WrittenTag.print, List.mem_cons, List.mem_append,
    List.mem_flatMap, List.not_mem_nil, or_false] at hc
  rcases hc with rfl | hc | ⟨item, hattr, hc⟩ | rfl
  · decide
  · exact (isTagNameChar_cases (tag.name.text_plain c hc)).2.2.2.2
  · exact hattribute item hattr c hc
  · decide

end Characters

section Preparation

/-- What begins with a tag keeps its line breaks, whatever stands in front. -/
theorem unified_tag
    {rest : Text} (h : ∀ c ∈ rest, c ≠ '\r') (afterReturn : Bool) :
    unified afterReturn ('<' :: rest) = '<' :: rest := by
  rw [unified_cons, unified_eq_self h]
  rfl

/-- Unifying the line breaks of a fragment gives one with the same tag. -/
theorem Fragment.exists_unified
    (fragment : Fragment WrittenTag) (afterReturn : Bool) :
    ∃ fragment' : Fragment WrittenTag,
      unified afterReturn fragment.print = fragment'.print ∧
        fragment'.startTag? = fragment.startTag? := by
  cases fragment with
  | startTag tag =>
      have hplain := tag.print_plain
      rw [WrittenTag.print, List.forall_mem_cons] at hplain
      exact ⟨.startTag tag, unified_tag hplain.2 afterReturn, rfl⟩
  | endTag name =>
      have hplain : ∀ c ∈ '/' :: (name.text ++ ['>']), c ≠ '\r' := by
        intro c hc
        simp only [List.mem_cons, List.mem_append, List.not_mem_nil,
          or_false] at hc
        rcases hc with rfl | hc | rfl
        · decide
        · exact (isTagNameChar_cases (name.text_plain c hc)).2.2.2.2
        · decide
      exact ⟨.endTag name, unified_tag hplain afterReturn, rfl⟩
  | comment content h =>
      have hcontent : ∀ c ∈ unified false content,
          c ≠ '-' ∧ c ≠ '<' ∧ c ≠ '>' := by
        intro c hc
        rcases StartTag.mem_of_mem_unified hc with rfl | hc
        · decide
        · exact h c hc
      refine ⟨.comment (unified false content) hcontent, ?_, rfl⟩
      have hopen : unified afterReturn "<!--".toList = "<!--".toList := rfl
      have hclose : ∀ after, unified after "-->".toList = "-->".toList :=
        fun _ => rfl
      rw [Fragment.print, unified_append, hopen, unified_append, hclose]
      rfl
  | text content h =>
      have hcontent : ∀ c ∈ unified afterReturn content, c ≠ '<' := by
        intro c hc
        rcases StartTag.mem_of_mem_unified hc with rfl | hc
        · decide
        · exact h c hc
      exact ⟨.text (unified afterReturn content) hcontent, rfl, rfl⟩

/-- Unifying the line breaks of a document gives one with the same tags. -/
theorem exists_unified_print
    (fragments : List (Fragment WrittenTag)) (afterReturn : Bool) :
    ∃ fragments' : List (Fragment WrittenTag),
      unified afterReturn (print fragments) = print fragments' ∧
        startTags fragments' = startTags fragments := by
  induction fragments generalizing afterReturn with
  | nil =>
      exact ⟨[], rfl, rfl⟩
  | cons fragment rest ih =>
      obtain ⟨fragment', hfragment, htag⟩ := fragment.exists_unified afterReturn
      obtain ⟨rest', hrest, htags⟩ :=
        ih (behindReturn afterReturn fragment.print)
      refine ⟨fragment' :: rest', ?_, ?_⟩
      · rw [print_cons, unified_append, hfragment, hrest, print_cons]
      · rw [startTags, List.filterMap_cons, htag, ← startTags, htags,
          startTags, startTags, List.filterMap_cons]

/-- Dropping a byte order mark gives a document with the same tags. -/
theorem exists_dropByteOrderMark_print (fragments : List (Fragment WrittenTag)) :
    ∃ fragments' : List (Fragment WrittenTag),
      dropByteOrderMark (print fragments) = print fragments' ∧
        startTags fragments' = startTags fragments := by
  induction fragments with
  | nil =>
      exact ⟨[], rfl, rfl⟩
  | cons fragment rest ih =>
      cases fragment with
      | startTag tag => exact ⟨.startTag tag :: rest, rfl, rfl⟩
      | endTag name => exact ⟨.endTag name :: rest, rfl, rfl⟩
      | comment content h => exact ⟨.comment content h :: rest, rfl, rfl⟩
      | text content h =>
          cases content with
          | nil =>
              obtain ⟨rest', hrest, htags⟩ := ih
              exact ⟨rest', hrest, htags⟩
          | cons c content =>
              by_cases hmark : c = '\uFEFF'
              · refine ⟨.text content (List.forall_mem_cons.mp h).2 :: rest,
                  ?_, rfl⟩
                rw [print_cons, Fragment.print, List.cons_append,
                  dropByteOrderMark, if_pos hmark]
                rfl
              · refine ⟨.text (c :: content) h :: rest, ?_, rfl⟩
                rw [print_cons, Fragment.print, List.cons_append,
                  dropByteOrderMark, if_neg hmark]

end Preparation

section Reading

open StartTag.Reading

theorem run_cons
    {state state' : Reading} {c : Char} (h : state.step c = (state', none))
    (rest : Text) : run state [] (c :: rest) = run state' [] rest := by
  rw [run, h]

/-- Text without `<` is passed over. -/
theorem run_text
    {content : Text} (h : ∀ c ∈ content, c ≠ '<') (rest : Text) :
    run .text [] (content ++ rest) = run .text [] rest := by
  induction content with
  | nil =>
      rfl
  | cons c content ih =>
      obtain ⟨hc, hcontent⟩ := List.forall_mem_cons.mp h
      have hstep : Reading.text.step c = (.text, none) := by
        rw [step, if_neg hc]
      rw [List.cons_append, run_cons hstep, ih hcontent]

/-- A comment without dashes is passed over. -/
theorem run_comment
    {content : Text} (h : ∀ c ∈ content, c ≠ '-') (rest : Text) :
    run .comment [] (content ++ rest) = run .comment [] rest := by
  induction content with
  | nil =>
      rfl
  | cons c content ih =>
      obtain ⟨hc, hcontent⟩ := List.forall_mem_cons.mp h
      have hstep : Reading.comment.step c = (.comment, none) := by
        rw [step, if_neg hc]
      rw [List.cons_append, run_cons hstep, ih hcontent]

/-- The name of a tag is read character by character. -/
theorem run_name
    {text : Text} (h : ∀ c ∈ text, isTagNameChar c = true)
    (closing : Bool) (name : Text) (attributes : List Attribute)
    (rest : Text) :
    run (.tag .name ⟨closing, name, attributes⟩) [] (text ++ rest) =
      run (.tag .name ⟨closing, (lowered text).reverse ++ name, attributes⟩) []
        rest := by
  induction text generalizing name with
  | nil =>
      rfl
  | cons c text ih =>
      obtain ⟨hc, htext⟩ := List.forall_mem_cons.mp h
      obtain ⟨hspace, hslash, hangle, -, -⟩ := isTagNameChar_cases hc
      have hstep :
          (Reading.tag .name ⟨closing, name, attributes⟩).step c =
            (.tag .name ⟨closing, c.toLower :: name, attributes⟩, none) := by
        simp only [step, stepTag, hspace, Bool.false_eq_true, if_false,
          if_neg hslash, if_neg hangle, Draft.pushName,
          nameChar_of_isTagNameChar hc]
      rw [List.cons_append, run_cons hstep, ih htext]
      simp [lowered]

/-- The name of an attribute is read character by character. -/
theorem run_attributeName
    {text : Text} (h : ∀ c ∈ text, c.isLower = true)
    (closing : Bool) (tagName name value : Text) (attributes : List Attribute)
    (rest : Text) :
    run (.tag .attributeName ⟨closing, tagName, ⟨name, value⟩ :: attributes⟩) []
        (text ++ rest) =
      run (.tag .attributeName
        ⟨closing, tagName, ⟨text.reverse ++ name, value⟩ :: attributes⟩) []
        rest := by
  induction text generalizing name with
  | nil =>
      rfl
  | cons c text ih =>
      obtain ⟨hc, htext⟩ := List.forall_mem_cons.mp h
      obtain ⟨hplain, hequals, hlower⟩ := isLower_cases hc
      obtain ⟨hspace, hslash, hangle, -, -⟩ := isTagNameChar_cases hplain
      have hstep :
          (Reading.tag .attributeName
              ⟨closing, tagName, ⟨name, value⟩ :: attributes⟩).step c =
            (.tag .attributeName
              ⟨closing, tagName, ⟨c :: name, value⟩ :: attributes⟩, none) := by
        simp only [step, stepTag, hspace, Bool.false_eq_true, if_false,
          if_neg hslash, if_neg hequals, if_neg hangle, Draft.pushAttribute,
          nameChar_of_isTagNameChar hplain, hlower, List.modifyHead_cons]
      rw [List.cons_append, run_cons hstep, ih htext]
      simp

/-- Up to its quote a value is read character by character. -/
theorem run_quotedValue
    {text : Text} (h : ∀ c ∈ text, c ≠ '"' ∧ c ≠ '\x00')
    (closing : Bool) (tagName name value : Text) (attributes : List Attribute)
    (rest : Text) :
    run (.tag (.quotedValue '"')
        ⟨closing, tagName, ⟨name, value⟩ :: attributes⟩) [] (text ++ rest) =
      run (.tag (.quotedValue '"')
        ⟨closing, tagName, ⟨name, text.reverse ++ value⟩ :: attributes⟩) []
        rest := by
  induction text generalizing value with
  | nil =>
      rfl
  | cons c text ih =>
      obtain ⟨⟨hquote, hnul⟩, htext⟩ := List.forall_mem_cons.mp h
      have hstep :
          (Reading.tag (.quotedValue '"')
              ⟨closing, tagName, ⟨name, value⟩ :: attributes⟩).step c =
            (.tag (.quotedValue '"')
              ⟨closing, tagName, ⟨name, c :: value⟩ :: attributes⟩, none) := by
        simp only [step, stepTag, if_neg hquote, Draft.pushValue,
          StartTag.valueChar, if_neg hnul, List.modifyHead_cons]
      rw [List.cons_append, run_cons hstep, ih htext]
      simp

/-- An attribute as it stands in a draft, its texts in reverse. -/
def WrittenAttribute.drafted (item : WrittenAttribute) : Attribute :=
  ⟨item.name.reverse, (encodeValue item.value).reverse⟩

/-- Where the machine stands in front of an attribute or of the end of a tag. -/
def AtAttribute (stage : Stage) : Prop :=
  stage = .name ∨ stage = .afterValue

/-- An attribute is read. -/
theorem run_attribute
    {stage : Stage} (hstage : AtAttribute stage) (item : WrittenAttribute)
    (closing : Bool) (name : Text) (attributes : List Attribute)
    (rest : Text) :
    run (.tag stage ⟨closing, name, attributes⟩) [] (item.print ++ rest) =
      run (.tag .afterValue
        ⟨closing, name, item.drafted :: attributes⟩) [] rest := by
  have hspace :
      (Reading.tag stage ⟨closing, name, attributes⟩).step ' ' =
        (.tag .beforeAttribute ⟨closing, name, attributes⟩, none) := by
    rcases hstage with rfl | rfl
    · rfl
    · rfl
  have hequals : ∀ draft : Draft,
      (Reading.tag .attributeName draft).step '=' =
        (.tag .beforeValue draft, none) :=
    fun _ => rfl
  have hopen : ∀ draft : Draft,
      (Reading.tag .beforeValue draft).step '"' =
        (.tag (.quotedValue '"') draft, none) :=
    fun _ => rfl
  have hclose : ∀ draft : Draft,
      (Reading.tag (.quotedValue '"') draft).step '"' =
        (.tag .afterValue draft, none) :=
    fun _ => rfl
  obtain ⟨attributeName, value, hne, hname, hplainValue⟩ := item
  have hvalue := encodeValue_cases hplainValue
  cases attributeName with
  | nil =>
      exact absurd rfl hne
  | cons c text =>
      obtain ⟨hc, htext⟩ := List.forall_mem_cons.mp hname
      obtain ⟨hplain, -, hlower⟩ := isLower_cases hc
      obtain ⟨hblank, hslash, hangle, -, -⟩ := isTagNameChar_cases hplain
      have hfirst :
          (Reading.tag .beforeAttribute ⟨closing, name, attributes⟩).step c =
            (.tag .attributeName ⟨closing, name, ⟨[c], []⟩ :: attributes⟩,
              none) := by
        simp only [step, stepTag, atAttribute, hblank, Bool.false_eq_true,
          if_false, if_neg hslash, if_neg hangle, Draft.beginAttribute,
          nameChar_of_isTagNameChar hplain, hlower]
      have hquote : ∀ d ∈ encodeValue value, d ≠ '"' ∧ d ≠ '\x00' :=
        fun d hd => ⟨(hvalue d hd).1, (hvalue d hd).2.1⟩
      simp only [WrittenAttribute.print, WrittenAttribute.drafted,
        List.cons_append, List.append_assoc, List.nil_append]
      rw [run_cons hspace, run_cons hfirst, run_attributeName htext,
        run_cons (hequals _), run_cons (hopen _), run_quotedValue hquote,
        run_cons (hclose _)]
      simp

/-- The attributes of a tag are read one by one. -/
theorem exists_run_attributes
    {stage : Stage} (hstage : AtAttribute stage)
    (written : List WrittenAttribute)
    (closing : Bool) (name : Text) (attributes : List Attribute)
    (rest : Text) :
    ∃ stage', AtAttribute stage' ∧
      run (.tag stage ⟨closing, name, attributes⟩) []
          (written.flatMap WrittenAttribute.print ++ rest) =
        run (.tag stage'
          ⟨closing, name,
            (written.map WrittenAttribute.drafted).reverse ++ attributes⟩) []
          rest := by
  induction written generalizing stage attributes with
  | nil =>
      exact ⟨stage, hstage, rfl⟩
  | cons item written ih =>
      obtain ⟨stage', hstage', hrun⟩ :=
        ih (.inr rfl) (item.drafted :: attributes)
      refine ⟨stage', hstage', ?_⟩
      rw [List.flatMap_cons, List.append_assoc, run_attribute hstage, hrun]
      simp

/-- The draft of a tag is finished as the tag. -/
theorem finish?_drafted (tag : WrittenTag) :
    Draft.finish? ⟨false, (lowered tag.name.text).reverse,
        (tag.attributes.map WrittenAttribute.drafted).reverse⟩ =
      some tag.toStartTag := by
  have hdecode : ∀ a : WrittenAttribute,
      (⟨a.drafted.name.reverse, Reference.decode a.drafted.value.reverse⟩ :
        Attribute) = ⟨a.name, a.value⟩ := by
    intro a
    rw [WrittenAttribute.drafted, List.reverse_reverse, List.reverse_reverse,
      decode_encodeValue]
  rw [Draft.finish?, if_neg Bool.false_ne_true, List.reverse_reverse,
    List.reverse_reverse, List.map_map, WrittenTag.toStartTag]
  exact congrArg (fun attributes => some (StartTag.mk _ attributes))
    (List.map_congr_left (fun a _ => hdecode a))

/-- A letter behind `<` or `</` begins the name of a tag. -/
theorem step_first (name : TagName) :
    Reading.tagOpen.step name.first =
        (.tag .name ⟨false, [name.first.toLower], []⟩, none) ∧
      Reading.endTagOpen.step name.first =
        (.tag .name ⟨true, [name.first.toLower], []⟩, none) := by
  have halpha := name.isAlpha_first
  have hplain := isTagNameChar_of_isAlpha halpha
  have hslash := (isTagNameChar_cases hplain).2.1
  have hbang : name.first ≠ '!' := by
    intro h
    rw [h] at halpha
    cases halpha
  have hquestion : name.first ≠ '?' := by
    intro h
    rw [h] at halpha
    cases halpha
  constructor
  · simp only [step, if_neg hbang, if_neg hslash, if_neg hquestion, halpha,
      if_true, Draft.start, nameChar_of_isTagNameChar hplain]
  · simp only [step, halpha, if_true, Draft.start,
      nameChar_of_isTagNameChar hplain]

/-- A fragment is read, and a start tag gives its tag. -/
theorem run_print (fragment : Fragment WrittenTag) :
    run .text [] fragment.print =
      (.text, (fragment.startTag?.map WrittenTag.toStartTag).toList) := by
  have hopen : Reading.text.step '<' = (.tagOpen, none) := rfl
  have hslash : Reading.tagOpen.step '/' = (.endTagOpen, none) := rfl
  cases fragment with
  | startTag tag =>
      have hlowered : lowered tag.name.text =
          tag.name.first.toLower :: lowered tag.name.rest := rfl
      obtain ⟨stage, hstage, hattributes⟩ :=
        exists_run_attributes (.inl rfl) tag.attributes false
          ((lowered tag.name.rest).reverse ++ [tag.name.first.toLower]) []
          ['>']
      have hend : ∀ draft : Draft,
          (Reading.tag stage draft).step '>' = (.text, draft.finish?) := by
        intro draft
        rcases hstage with rfl | rfl
        · rfl
        · rfl
      rw [Fragment.print, WrittenTag.print, TagName.text, List.cons_append,
        run_cons hopen, run_cons (step_first tag.name).1,
        run_name tag.name.rest_plain, hattributes, List.append_nil,
        ← List.reverse_cons, ← hlowered, run, hend, finish?_drafted]
      rfl
  | endTag name =>
      rw [Fragment.print, TagName.text, List.cons_append, run_cons hopen,
        run_cons hslash, run_cons (step_first name).2,
        run_name name.rest_plain]
      rfl
  | comment content h =>
      have hmark : run .text [] ("<!--".toList ++ (content ++ "-->".toList)) =
          run .commentStart [] (content ++ "-->".toList) := rfl
      rw [Fragment.print, hmark]
      cases content with
      | nil =>
          rfl
      | cons c content =>
          obtain ⟨⟨hdash, -, hangle⟩, hcontent⟩ := List.forall_mem_cons.mp h
          have hstep : Reading.commentStart.step c = (.comment, none) := by
            rw [step, if_neg hdash, if_neg hangle]
          rw [List.cons_append, run_cons hstep,
            run_comment (fun d hd => (hcontent d hd).1)]
          rfl
  | text content h =>
      have hrun := run_text h []
      rwa [List.append_nil] at hrun

/-- A document is read fragment by fragment. -/
theorem run_print_all (fragments : List (Fragment WrittenTag)) :
    run .text [] (print fragments) =
      (.text, (startTags fragments).map WrittenTag.toStartTag) := by
  induction fragments with
  | nil =>
      rfl
  | cons fragment rest ih =>
      have htags : startTags (fragment :: rest) =
          fragment.startTag?.toList ++ startTags rest := by
        rw [startTags, List.filterMap_cons, startTags]
        cases fragment.startTag? with
        | none => rfl
        | some tag => rfl
      rw [print_cons, run_append, run_print, ih, htags, List.map_append]
      cases fragment.startTag? with
      | none => rfl
      | some tag => rfl

end Reading

/-- A printed document has the start tags that it was made of. -/
theorem ofPage_print (fragments : List (Fragment WrittenTag)) :
    StartTag.ofPage (print fragments) =
      (startTags fragments).map WrittenTag.toStartTag := by
  obtain ⟨marked, hmarked, htags⟩ := exists_dropByteOrderMark_print fragments
  obtain ⟨unified, hunified, htags'⟩ := exists_unified_print marked false
  rw [StartTag.ofPage, hmarked, unifyLineBreaks, ← StartTag.unified, hunified,
    run_print_all, htags', htags]

end Document
end StylesheetPruning
