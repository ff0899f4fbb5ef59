import StylesheetPruning.Markup.PageInventory
import StylesheetPruning.Proofs.Selector.Bodies
import StylesheetPruning.Proofs.Selector.RoundTrip

/-!
# Selectors of keyframes

A keyframe is selected by a list of markers and percentages. The markers `from`
and `to` and the percentages without a fraction ask a page for nothing. A
percentage with a fraction is cut at its decimal point, so what follows the
point is read as the name of a class.

**Grammar.** `Frame` is a member of such a list, `FrameList` is a list with
whitespace around its members.

**Results.**
* `FrameList.bodiesOf_print`: what a page decides about such a list.
* `FrameList.listVerdict_print`: the list is kept as it is exactly when the page
  has the classes that the fractions are taken for, and by every page exactly
  when there is no fraction.
* `FrameList.listVerdict_fraction`: a list with a fraction that is dropped.
-/

namespace StylesheetPruning

section Characters

/-- The characters of markers and percentages. -/
def isFrameChar (c : Char) : Bool :=
  isNameChar c || c = '%' || c = '.'

variable {c : Char}

theorem isFrameChar_cases (h : isFrameChar c = true) :
    isNameChar c = true ∨ c = '%' ∨ c = '.' := by
  simpa only [isFrameChar, Bool.or_eq_true, decide_eq_true_eq, or_assoc] using h

theorem ordinary_of_isFrameChar (h : isFrameChar c = true) : Ordinary c := by
  rcases isFrameChar_cases h with hname | rfl | rfl
  · exact {
      turn := isTurn_of_isNameChar hname
      space := isSpace_of_isNameChar hname
      comma := by
        rintro rfl
        cases hname
      combinator := Grammar.foreign_isCombinator c hname
      colon := by
        rintro rfl
        cases hname }
  · exact ⟨rfl, rfl, by decide, rfl, by decide⟩
  · exact ⟨rfl, rfl, by decide, rfl, by decide⟩

theorem lexingIsTurn_of_isFrameChar (h : isFrameChar c = true) :
    Lexing.isTurn c = false := by
  rcases isFrameChar_cases h with hname | rfl | rfl
  · exact lexingIsTurn_of_isNameChar hname
  · rfl
  · rfl

theorem isMark_of_isFrameChar (h : isFrameChar c = true) (hpoint : c ≠ '.') :
    SimpleSelector.isMark c = false := by
  rcases isFrameChar_cases h with hname | rfl | rfl
  · exact Grammar.foreign_isMark c hname
  · rfl
  · exact absurd rfl hpoint

theorem isNameChar_of_isDigit (h : c.isDigit = true) : isNameChar c = true := by
  simp [isNameChar, Char.isAlphanum, h]

theorem isAlpha_of_isDigit (h : c.isDigit = true) : c.isAlpha = false := by
  rw [Bool.eq_false_iff]
  intro halpha
  have hdigit := isDigit_iff.mp h
  rcases Bool.or_eq_true_iff.mp halpha with hupper | hlower
  · have hcapital := isUpper_iff.mp hupper
    omega
  · have hsmall := isLower_iff.mp hlower
    omega

theorem isAlpha_of_isKeyframeMarker
    {word : Text} (h : Kind.isKeyframeMarker word = true) :
    ∀ c ∈ word, c.isAlpha = true := by
  intro c hc
  have hmem : c.toLower ∈ lowered word := List.mem_map_of_mem hc
  have hletters : ∀ d ∈ lowered word, d.isAlpha = true := by
    rcases Bool.or_eq_true_iff.mp h with h | h <;>
      rw [of_decide_eq_true h] <;> exact List.all_eq_true.mp (by decide)
  exact isAlpha_of_toLower (hletters _ hmem)

end Characters

section Words

variable {text : Text}

/-- A text of such characters is its own body. -/
theorem bodyOf_of_forall (h : ∀ c ∈ text, isFrameChar c = true) :
    bodyOf text = text := by
  have hspace : ∀ c ∈ text, isSpace c = false :=
    fun c hc => (ordinary_of_isFrameChar (h c hc)).space
  have htrim : trimmed text = text := by
    cases text with
    | nil =>
        rfl
    | cons c rest =>
        rw [trimmed_cons (hspace c (by simp)),
          trimEnd_of_forall (fun d hd => hspace d (by simp [hd]))]
  have hhides : Hides (fun c => c = ':') text := by
    refine hides_of_forall ?_
    intro c hc
    have hordinary := ordinary_of_isFrameChar (h c hc)
    exact ⟨hordinary.turn, decide_eq_false hordinary.colon⟩
  rw [bodyOf, htrim, breakExposed_of_hides hhides]

theorem splitExposed_isCombinator_of_forall
    (h : ∀ c ∈ text, isFrameChar c = true) :
    splitExposed SimpleSelector.isCombinator text = [text] := by
  refine splitExposed_of_hides (hides_of_forall ?_)
  intro c hc
  have hordinary := ordinary_of_isFrameChar (h c hc)
  exact ⟨hordinary.turn, hordinary.combinator⟩

/-- Without a point there is no mark. -/
theorem closed_hides_isMark
    (h : ∀ c ∈ text, isFrameChar c = true ∧ c ≠ '.') :
    Closed text ∧ Hides SimpleSelector.isMark text := by
  have hturn : ∀ c ∈ text, Walk.isTurn c = false :=
    fun c hc => (ordinary_of_isFrameChar (h c hc).1).turn
  refine ⟨closed_of_forall hturn, hides_of_forall ?_⟩
  intro c hc
  exact ⟨hturn c hc, isMark_of_isFrameChar (h c hc).1 (h c hc).2⟩

end Words

section Frames

/-- One or more digits. -/
structure Digits where
  text : Text
  ne_nil : text ≠ []
  isDigit : ∀ c ∈ text, c.isDigit = true

/-- The digits with a percent sign. -/
def Digits.percent (digits : Digits) : Text :=
  digits.text ++ ['%']

/-- A member of a keyframe selector. -/
inductive Frame where
  | marker (word : Text) (h : Kind.isKeyframeMarker word = true)
  | percentage (whole : Digits) (fraction : Option Digits)

namespace Frame

/-- Write a member. -/
def print : Frame → Text
  | marker word _ => word
  | percentage whole none => whole.percent
  | percentage whole (some fraction) =>
      whole.text ++ '.' :: fraction.percent

/-- The fraction of a percentage that has one. -/
def fraction? : Frame → Option Digits
  | marker _ _ => none
  | percentage _ fraction => fraction

/-- What a page decides about a member. -/
def bodies : Frame → List Text
  | marker word _ => [word]
  | percentage whole none => [whole.percent]
  | percentage whole (some fraction) =>
      [whole.text, '.' :: fraction.percent]

end Frame

theorem Digits.forall_text (digits : Digits) :
    ∀ c ∈ digits.text, isFrameChar c = true ∧ c ≠ '.' := by
  intro c hc
  have hdigit := digits.isDigit c hc
  refine ⟨by simp [isFrameChar, isNameChar_of_isDigit hdigit], ?_⟩
  rintro rfl
  cases hdigit

/-- A number asks for nothing. -/
theorem Digits.meets_append (digits : Digits) (inventory : Inventory)
    (rest : Text) : inventory.meets (digits.text ++ rest) = true := by
  obtain ⟨c, others, htext⟩ := List.exists_cons_of_ne_nil digits.ne_nil
  have hdigit := digits.isDigit c (by simp [htext])
  have hpoint := (digits.forall_text c (by simp [htext])).2
  have hmark := isMark_of_isFrameChar
    (digits.forall_text c (by simp [htext])).1 hpoint
  rw [htext, List.cons_append]
  exact meets_of_not_asksPage
    (not_asksPage_of_not_isMark hmark (.inr (isAlpha_of_isDigit hdigit)))

theorem Digits.forall_percent (digits : Digits) :
    ∀ c ∈ digits.percent, isFrameChar c = true ∧ c ≠ '.' := by
  intro c hc
  rcases List.mem_append.mp hc with hc | hc
  · exact digits.forall_text c hc
  · rw [List.mem_singleton.mp hc]
    exact ⟨rfl, by decide⟩

/-- A marker asks for nothing. -/
theorem not_asksPage_marker
    {word : Text} (h : Kind.isKeyframeMarker word = true) : ¬ AsksPage word := by
  cases word with
  | nil =>
      cases h
  | cons c rest =>
      have halpha := isAlpha_of_isKeyframeMarker h c (by simp)
      have hmark :=
        Grammar.foreign_isMark c (Grammar.isNameChar_of_isAlpha halpha)
      exact not_asksPage_of_not_isMark hmark (.inl h)

/-- What follows a decimal point is taken for the name of a class. -/
theorem Digits.meets_point (fraction : Digits) (inventory : Inventory) :
    inventory.meets ('.' :: fraction.percent) =
      inventory.containsClass fraction.percent := by
  have hclass := fraction.forall_percent
  have hstar : '*' ∉ fraction.percent := by
    intro hmem
    exact absurd (hclass _ hmem).1 (by decide)
  have hback : ∀ c ∈ fraction.percent, c ≠ '\\' := by
    rintro c hc rfl
    exact absurd (hclass _ hc).1 (by decide)
  have hwidth : ('.' : Char).utf8Size = 1 := rfl
  rw [Inventory.meets, Grammar.ofText_dot hstar,
    Grammar.behindMark_cons hwidth, resolveEscapes_of_forall_ne hback]

namespace Frame

variable (frame : Frame)

theorem forall_print : ∀ c ∈ frame.print, isFrameChar c = true := by
  intro c hc
  cases frame with
  | marker word h =>
      have halpha := isAlpha_of_isKeyframeMarker h c hc
      simp [isFrameChar, Grammar.isNameChar_of_isAlpha halpha]
  | percentage whole fraction =>
      cases fraction with
      | none =>
          exact (whole.forall_percent c hc).1
      | some fraction =>
          rcases List.mem_append.mp hc with hc | hc
          · exact (whole.forall_text c hc).1
          · rcases List.mem_cons.mp hc with rfl | hc
            · rfl
            · exact (fraction.forall_percent c hc).1

theorem print_ne_nil : frame.print ≠ [] := by
  cases frame with
  | marker word h =>
      rintro rfl
      cases h
  | percentage whole fraction =>
      cases fraction <;> simp [print, Digits.percent]

/-- A member is cut at its decimal point only. -/
theorem textsOf_print : Selector.textsOf frame.print = frame.bodies := by
  rw [Selector.textsOf, splitExposed_isCombinator_of_forall frame.forall_print,
    List.flatMap_singleton]
  cases frame with
  | marker word h =>
      refine cutExposed_of_hides (closed_hides_isMark ?_).2
      intro c hc
      have halpha := isAlpha_of_isKeyframeMarker h c hc
      refine ⟨by simp [isFrameChar, Grammar.isNameChar_of_isAlpha halpha], ?_⟩
      rintro rfl
      cases halpha
  | percentage whole fraction =>
      cases fraction with
      | none =>
          exact cutExposed_of_hides
            (closed_hides_isMark whole.forall_percent).2
      | some fraction =>
          have hwhole := closed_hides_isMark whole.forall_text
          have hfraction := closed_hides_isMark fraction.forall_percent
          have hcut := @cutExposed_append _ whole.text _ []
            hwhole.1 hwhole.2 (by simp)
            (begins_cons (c := '.') rfl rfl hfraction.2)
          exact hcut

theorem flatten_bodies : frame.bodies.flatten = frame.print := by
  cases frame with
  | marker word h =>
      simp [bodies, print]
  | percentage whole fraction =>
      cases fraction <;> simp [bodies, print]

theorem map_bodyOf_bodies : frame.bodies.map bodyOf = frame.bodies := by
  have hbody : ∀ text ∈ frame.bodies, bodyOf text = id text := by
    intro text htext
    refine bodyOf_of_forall ?_
    intro c hc
    refine frame.forall_print c ?_
    rw [← frame.flatten_bodies]
    exact List.mem_flatten_of_mem htext hc
  rw [List.map_congr_left hbody, List.map_id]

/-- A page decides a member by the class that its fraction is taken for. -/
theorem forall_meets_bodies (inventory : Inventory) :
    (∀ body ∈ frame.bodies, inventory.meets body = true) ↔
      ∀ fraction ∈ frame.fraction?,
        inventory.containsClass fraction.percent = true := by
  cases frame with
  | marker word h =>
      simp [bodies, fraction?, meets_of_not_asksPage (not_asksPage_marker h)]
  | percentage whole fraction =>
      cases fraction with
      | none =>
          have hwhole := whole.meets_append inventory ['%']
          rw [← Digits.percent] at hwhole
          simp [bodies, fraction?, hwhole]
      | some fraction =>
          have hwhole := whole.meets_append inventory []
          rw [List.append_nil] at hwhole
          simp [bodies, fraction?, hwhole, fraction.meets_point]

end Frame

end Frames

section Lists

/-- A member, with the whitespace around it. -/
structure PlacedFrame where
  before : Grammar.Gap
  frame : Frame
  after : Grammar.Gap

namespace PlacedFrame

variable (member : PlacedFrame)

def print : Text :=
  member.before.text ++ (member.frame.print ++ member.after.text)

theorem enclosed : Grammar.Enclosed member.print := by
  have hframe : Grammar.Enclosed member.frame.print := {
    closed := closed_of_forall fun c hc =>
      (ordinary_of_isFrameChar (member.frame.forall_print c hc)).turn
    coded := coded_of_forall fun c hc =>
      lexingIsTurn_of_isFrameChar (member.frame.forall_print c hc)
    hides := by
      refine hides_of_forall ?_
      intro c hc
      have hordinary :=
        ordinary_of_isFrameChar (member.frame.forall_print c hc)
      exact ⟨hordinary.turn, decide_eq_false hordinary.comma⟩ }
  exact member.before.enclosed.append (hframe.append member.after.enclosed)

theorem trimmed_print : trimmed member.print = member.frame.print := by
  obtain ⟨c, rest, hprint⟩ := List.exists_cons_of_ne_nil member.frame.print_ne_nil
  have hspace : ∀ d ∈ c :: rest, isSpace d = false := by
    intro d hd
    rw [← hprint] at hd
    exact (ordinary_of_isFrameChar (member.frame.forall_print d hd)).space
  rw [print, hprint, trimmed_append member.before.blank member.after.blank
    (hspace c (by simp)), trimEnd_of_forall (fun d hd => hspace d (by simp [hd]))]

end PlacedFrame

/-- The selector of a keyframe. -/
structure FrameList where
  members : List PlacedFrame
  ne_nil : members ≠ []

namespace FrameList

variable (list : FrameList)

/-- Write a selector. -/
def print : Text :=
  List.intercalate [','] (list.members.map PlacedFrame.print)

/-- The fractions of its percentages. -/
def fractions : List Digits :=
  list.members.filterMap (fun member => member.frame.fraction?)

theorem coded : Coded list.print := by
  refine Grammar.coded_intercalate ?_
  intro text htext
  obtain ⟨member, -, rfl⟩ := List.mem_map.mp htext
  exact member.enclosed.coded

/-- The members are decided one by one. -/
theorem bodiesOf_print :
    bodiesOf list.print =
      list.members.flatMap (fun member => member.frame.bodies) := by
  have hmembers : splitExposed (fun c => c = ',') list.print =
      list.members.map PlacedFrame.print := by
    refine Grammar.splitExposed_intercalate (by simpa using list.ne_nil) ?_
    intro text htext
    obtain ⟨member, -, rfl⟩ := List.mem_map.mp htext
    exact member.enclosed
  rw [bodiesOf, hmembers, List.flatMap_map]
  simp only [PlacedFrame.trimmed_print, Frame.textsOf_print,
    Frame.map_bodyOf_bodies]

theorem all_isSpace_print : list.print.all isSpace = false := by
  cases hmembers : list.members with
  | nil =>
      exact absurd hmembers list.ne_nil
  | cons member members =>
      obtain ⟨c, rest, hframe⟩ :=
        List.exists_cons_of_ne_nil member.frame.print_ne_nil
      have hmember : c ∈ member.print := by
        simp [PlacedFrame.print, hframe]
      have hlist : c ∈ list.print := by
        rw [print, hmembers, List.map_cons]
        cases members with
        | nil =>
            rwa [List.map_nil, List.intercalate_singleton]
        | cons second members =>
            rw [List.map_cons, List.intercalate_cons_cons, List.append_assoc]
            exact List.mem_append_left _ hmember
      have hplain := member.frame.forall_print c (by simp [hframe])
      rw [List.all_eq_false]
      exact ⟨c, hlist, by simp [(ordinary_of_isFrameChar hplain).space]⟩

/-- A keyframe is judged by the classes that its fractions are taken for. -/
theorem listVerdict_print (offset : Nat) :
    (∀ inventory, listVerdict inventory list.print offset = .keep ↔
      ∀ fraction ∈ list.fractions,
        inventory.containsClass fraction.percent = true) ∧
    ((∀ inventory, listVerdict inventory list.print offset = .keep) ↔
      list.fractions = []) := by
  have hkeep : ∀ inventory, listVerdict inventory list.print offset = .keep ↔
      ∀ fraction ∈ list.fractions,
        inventory.containsClass fraction.percent = true := by
    intro inventory
    rw [listVerdict_eq_keep_iff list.coded.masked list.coded.uncommented
      list.all_isSpace_print, bodiesOf_print, List.forall_mem_flatMap]
    simp only [Frame.forall_meets_bodies, fractions, List.mem_filterMap]
    constructor
    · rintro h fraction ⟨member, hmember, hfraction⟩
      exact h member hmember fraction hfraction
    · intro h member hmember fraction hfraction
      exact h fraction ⟨member, hmember, hfraction⟩
  refine ⟨hkeep, ?_⟩
  constructor
  · intro h
    have hempty := (hkeep Inventory.empty).mp (h _)
    rw [List.eq_nil_iff_forall_not_mem]
    intro fraction hfraction
    have hclass := hempty fraction hfraction
    simp [Inventory.containsClass, Inventory.empty] at hclass
  · intro h inventory
    rw [hkeep, h]
    simp

/-- In `12.5%` the digit behind the point is taken for a class. -/
theorem listVerdict_fraction :
    ∃ list : FrameList, list.print = "12.5%".toList ∧
      listVerdict (Inventory.ofPage "<p></p>".toList) list.print 0 = .drop := by
  let whole : Digits := ⟨"12".toList, by decide, List.all_eq_true.mp (by decide)⟩
  let fraction : Digits := ⟨['5'], by decide, List.all_eq_true.mp (by decide)⟩
  let gap : Grammar.Gap := ⟨[], by simp⟩
  refine ⟨⟨[⟨gap, .percentage whole (some fraction), gap⟩], by simp⟩, rfl, ?_⟩
  have hprint : listVerdict (Inventory.ofPage "<p></p>".toList)
      "12.5%".toList 0 = .drop := by
    decide +kernel
  exact hprint

end FrameList

end Lists

end StylesheetPruning
