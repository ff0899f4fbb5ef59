import Mathlib.Data.List.Forall2
import StylesheetPruning.Proofs.Text.Decoding
import StylesheetPruning.Pruning.Checked

/-!
# The entry points agree

A stylesheet can be pruned against one page or several, given as texts or as
bytes. The functions on limits make the same checks of their inputs, in
different orders. Whether a run succeeds, and with what, does not depend on the
order. Its refusal does, when both inputs are refused and for different reasons.

**Inputs.** An input is accepted as a text, or refused: for its length first,
and for its encoding next.

**Agreement.** `Limits.Agreement` lists what the functions have in common, and
the one case in which their refusals differ.

**Results.**
* `readInput_eq_ok_iff`, `readInput_eq_error_iff`: what an input is accepted as,
  and what it is refused for.
* `pageRun`: how the runs over one page go together.
* `entryPoints_agree`: the functions agree about a stylesheet and its pages.
-/

namespace StylesheetPruning

/-- Whether bytes are the encoding of no text. -/
def IsNoText (bytes : ByteArray) : Prop :=
  ∀ text, bytes ≠ encodeUtf8 text

namespace Limits

section Inputs

/-- Whether an input of so many bytes is within the limit. -/
def Admits (limits : Limits) (length : Nat) : Prop :=
  ∀ limit, limits.maxBytes = some limit → length ≤ limit

/-- What an input is accepted as. -/
structure Accepts (limits : Limits) (bytes : ByteArray) (text : Text) :
    Prop where
  /-- The input is within the limit. -/
  admits : limits.Admits bytes.size
  /-- The input is the encoding of the text. -/
  isText : bytes = encodeUtf8 text

/-- What an input is refused for: its length first, and then its bytes. -/
inductive Refuses (limits : Limits) (input : Input) (bytes : ByteArray) :
    Refusal → Prop
  | tooLong {limit : Nat} (hlimit : limits.maxBytes = some limit)
      (hlength : limit < bytes.size) :
      Refuses limits input bytes (.tooLong input bytes.size limit)
  | notText {n : Nat} (hadmits : limits.Admits bytes.size)
      (htext : IsNoText bytes) (hlongest : IsLongestText bytes n) :
      Refuses limits input bytes (.notText input n)

variable {limits : Limits} {input : Input} {bytes : ByteArray}

/-- An input is within the limit, or refused for its length. -/
theorem checkLength_cases (limits : Limits) (input : Input) (length : Nat) :
    (limits.Admits length ∧ limits.checkLength input length = .ok ()) ∨
      ∃ limit, limits.maxBytes = some limit ∧ limit < length ∧
        limits.checkLength input length =
          .error (.tooLong input length limit) := by
  cases hlimit : limits.maxBytes with
  | none =>
      left
      constructor
      · intro limit h
        rw [hlimit] at h
        cases h
      · simp only [checkLength, hlimit]
  | some limit =>
      by_cases hlength : limit < length
      · right
        refine ⟨limit, rfl, hlength, ?_⟩
        simp only [checkLength, hlimit, if_pos hlength]
      · left
        constructor
        · intro limit' h
          rw [hlimit, Option.some.injEq] at h
          omega
        · simp only [checkLength, hlimit, if_neg hlength]

/-- An input is a text, or refused for its bytes. -/
theorem decodeInput_cases (input : Input) (bytes : ByteArray) :
    (∃ text, bytes = encodeUtf8 text ∧ decodeInput input bytes = .ok text) ∨
      ∃ n, IsNoText bytes ∧ IsLongestText bytes n ∧
        decodeInput input bytes = .error (.notText input n) := by
  cases h : decodeUtf8 bytes with
  | ok text =>
      left
      exact ⟨text, decodeUtf8_eq_ok_iff.mp h, by simp only [decodeInput, h]⟩
  | error n =>
      right
      obtain ⟨htext, hlongest⟩ := decodeUtf8_eq_error_iff.mp h
      exact ⟨n, htext, hlongest, by simp only [decodeInput, h]⟩

/-- An input is accepted as one text. -/
theorem Accepts.unique {text text' : Text}
    (h : limits.Accepts bytes text) (h' : limits.Accepts bytes text') :
    text = text' := by
  have hdecode := decodeUtf8_eq_ok_iff.mpr h.isText
  rw [decodeUtf8_eq_ok_iff.mpr h'.isText, Except.ok.injEq] at hdecode
  exact hdecode.symm

/-- Nothing is both accepted and refused. -/
theorem Refuses.not_accepts {refusal : Refusal} {text : Text}
    (h : limits.Refuses input bytes refusal) : ¬ limits.Accepts bytes text := by
  rintro ⟨hadmits, htext⟩
  cases h with
  | tooLong hlimit hlength =>
      have hle := hadmits _ hlimit
      omega
  | notText _ hno _ =>
      exact hno text htext

/-- An input is refused for one reason. -/
theorem Refuses.unique {refusal refusal' : Refusal}
    (h : limits.Refuses input bytes refusal)
    (h' : limits.Refuses input bytes refusal') : refusal = refusal' := by
  cases h with
  | tooLong hlimit hlength =>
      cases h' with
      | tooLong hlimit' _ =>
          rw [hlimit, Option.some.injEq] at hlimit'
          rw [hlimit']
      | notText hadmits _ _ =>
          have hle := hadmits _ hlimit
          omega
  | notText hadmits _ hlongest =>
      cases h' with
      | tooLong hlimit' hlength' =>
          have hle := hadmits _ hlimit'
          omega
      | notText _ _ hlongest' =>
          rw [hlongest.unique hlongest']

/-- Check an input and decode it. -/
def readInput (limits : Limits) (input : Input) (bytes : ByteArray) :
    Except Refusal Text := do
  limits.checkLength input bytes.size
  decodeInput input bytes

/-- An input is accepted as what is read, or refused. -/
theorem readInput_cases
    (limits : Limits) (input : Input) (bytes : ByteArray) :
    (∃ text, limits.Accepts bytes text ∧
        limits.readInput input bytes = .ok text) ∨
      ∃ refusal, limits.Refuses input bytes refusal ∧
        limits.readInput input bytes = .error refusal := by
  rcases limits.checkLength_cases input bytes.size with
    ⟨hadmits, hcheck⟩ | ⟨limit, hlimit, hlength, hcheck⟩
  · have hread : limits.readInput input bytes = decodeInput input bytes := by
      rw [readInput, hcheck]
      rfl
    rcases decodeInput_cases input bytes with
      ⟨text, htext, hdecode⟩ | ⟨n, hno, hlongest, hdecode⟩
    · exact .inl ⟨text, ⟨hadmits, htext⟩, hread.trans hdecode⟩
    · exact .inr ⟨_, .notText hadmits hno hlongest, hread.trans hdecode⟩
  · right
    refine ⟨_, .tooLong hlimit hlength, ?_⟩
    rw [readInput, hcheck]
    rfl

theorem readInput_eq_ok_iff {text : Text} :
    limits.readInput input bytes = .ok text ↔ limits.Accepts bytes text := by
  rcases limits.readInput_cases input bytes with
    ⟨text', haccepts, hread⟩ | ⟨refusal, hrefuses, hread⟩
  · rw [hread, Except.ok.injEq]
    constructor
    · rintro rfl
      exact haccepts
    · exact haccepts.unique
  · rw [hread]
    simp [hrefuses.not_accepts]

theorem readInput_eq_error_iff {refusal : Refusal} :
    limits.readInput input bytes = .error refusal ↔
      limits.Refuses input bytes refusal := by
  rcases limits.readInput_cases input bytes with
    ⟨text, haccepts, hread⟩ | ⟨refusal', hrefuses, hread⟩
  · rw [hread]
    simp only [reduceCtorEq, false_iff]
    exact fun hrefuses => hrefuses.not_accepts haccepts
  · rw [hread, Except.error.injEq]
    constructor
    · rintro rfl
      exact hrefuses
    · exact hrefuses.unique

theorem exists_refuses_iff :
    (∃ refusal, limits.Refuses input bytes refusal) ↔
      ¬ limits.Admits bytes.size ∨ IsNoText bytes := by
  constructor
  · rintro ⟨refusal, hrefuses⟩
    cases hrefuses with
    | @tooLong limit hlimit hlength =>
        left
        intro hadmits
        have hle := hadmits limit hlimit
        omega
    | notText _ hno _ =>
        exact .inr hno
  · intro h
    rcases limits.readInput_cases input bytes with
      ⟨text, haccepts, -⟩ | ⟨refusal, hrefuses, -⟩
    · rcases h with hlong | hno
      · exact absurd haccepts.admits hlong
      · exact absurd haccepts.isText (hno text)
    · exact ⟨refusal, hrefuses⟩

end Inputs

section Agreement

/-- What the entry of a page has to be, whatever the other pages are. -/
structure IsEntry (limits : Limits) (css : Text) (page : ByteArray)
    (entry : Except Refusal Outcome) : Prop where
  /-- A page that is refused has its refusal as its entry. -/
  refused : ∀ refusal, entry = .error refusal ↔
    limits.Refuses .page page refusal
  /-- A page that is accepted has the outcome of its run. -/
  accepted : ∀ html, limits.Accepts page html →
    ∃ outcome, limits.outcome css html = .ok outcome ∧ entry = .ok outcome

/-- Whether a run over one page fails, as a whole or for its page. -/
def FailsWith (limits : Limits) (css page : ByteArray) (refusal : Refusal) :
    Prop :=
  limits.outcomesOfBytes css [page] = .error refusal ∨
    limits.outcomesOfBytes css [page] = .ok [.error refusal]

/-- Whether both inputs are refused, and each for a reason of its own. -/
structure Crossed (limits : Limits) (css page : ByteArray) : Prop where
  /-- The stylesheet is within the limit. -/
  admits : limits.Admits css.size
  /-- It is no text. -/
  isNoText : IsNoText css
  /-- The page is over the limit. -/
  tooLong : ¬ limits.Admits page.size

/-- What the entry points have in common for a stylesheet. -/
structure Agreement (limits : Limits) (css : ByteArray) : Prop where
  /-- A run over pages fails as a whole exactly for its stylesheet. -/
  fails_iff : ∀ pages,
    (∃ refusal, limits.outcomesOfBytes css pages = .error refusal) ↔
      ¬ limits.Admits css.size ∨ IsNoText css
  /-- It fails with the refusal of the stylesheet. -/
  fails_with : ∀ pages refusal,
    limits.outcomesOfBytes css pages = .error refusal ↔
      limits.Refuses .stylesheet css refusal
  /-- Otherwise it has an entry for every page, in order. -/
  entries : ∀ text, limits.Accepts css text → ∀ pages,
    ∃ outcomes, limits.outcomesOfBytes css pages = .ok outcomes ∧
      List.Forall₂ (limits.IsEntry text) pages outcomes
  /-- Texts are pruned as their encodings are. -/
  texts : ∀ text, css = encodeUtf8 text → ∀ pages,
    limits.outcomes text pages =
      limits.outcomesOfBytes css (pages.map encodeUtf8)
  /-- A run over bytes gives the text of the outcome for its one page. -/
  succeeds_iff : ∀ page text,
    limits.usedRulesOfBytes css page = .ok text ↔
      ∃ outcome, limits.outcomesOfBytes css [page] = .ok [.ok outcome] ∧
        outcome.text = text
  /-- Two runs that fail have the same refusal, unless they are crossed. -/
  refusals : ∀ page refusal refusal',
    limits.usedRulesOfBytes css page = .error refusal →
    limits.FailsWith css page refusal' →
      (refusal = refusal' ↔ ¬ limits.Crossed css page)
  /-- In a crossed run one function names the page, and one the stylesheet. -/
  crossed : ∀ page, limits.Crossed css page →
    ∃ limit n, limits.maxBytes = some limit ∧ IsLongestText css n ∧
      limits.usedRulesOfBytes css page =
        .error (.tooLong .page page.size limit) ∧
      limits.outcomesOfBytes css [page] = .error (.notText .stylesheet n)

end Agreement

section Runs

variable {limits : Limits}

theorem outcomesOfBytes_eq (css : ByteArray) (pages : List ByteArray) :
    limits.outcomesOfBytes css pages =
      (limits.readInput .stylesheet css).map fun text =>
        pages.map (limits.pageOutcomeOfBytes (Sheet.ofText text)) := by
  simp only [outcomesOfBytes, readInput, bind, Except.bind]
  split
  · rfl
  · split
    · next hdecode => rw [hdecode]; rfl
    · next hdecode => rw [hdecode]; rfl

theorem pageOutcomeOfBytes_eq (sheet : Sheet) (page : ByteArray) :
    limits.pageOutcomeOfBytes sheet page =
      (limits.readInput .page page).map fun html =>
        sheet.pruneBy (Inventory.ofPage html) := by
  simp only [pageOutcomeOfBytes, readInput, bind, Except.bind]
  split
  · rfl
  · split
    · next hdecode => rw [hdecode]; rfl
    · next hdecode => rw [hdecode]; rfl

theorem outcomesOfBytes_of_accepts
    {css : ByteArray} {text : Text} (h : limits.Accepts css text)
    (pages : List ByteArray) :
    limits.outcomesOfBytes css pages =
      .ok (pages.map (limits.pageOutcomeOfBytes (Sheet.ofText text))) := by
  rw [outcomesOfBytes_eq, readInput_eq_ok_iff.mpr h]
  rfl

theorem outcomesOfBytes_eq_error_iff
    {css : ByteArray} {pages : List ByteArray} {refusal : Refusal} :
    limits.outcomesOfBytes css pages = .error refusal ↔
      limits.Refuses .stylesheet css refusal := by
  rw [outcomesOfBytes_eq, ← readInput_eq_error_iff]
  cases limits.readInput .stylesheet css with
  | ok text =>
      simp [Except.map]
  | error refusal' =>
      simp [Except.map]

/-- The length of an accepted input is that of its text. -/
theorem Accepts.size_eq {bytes : ByteArray} {text : Text}
    (h : limits.Accepts bytes text) : bytes.size = byteLength text := by
  rw [h.isText, size_encodeUtf8]

theorem outcome_of_accepts
    {css page : ByteArray} {text html : Text}
    (hcss : limits.Accepts css text) (hpage : limits.Accepts page html) :
    limits.outcome text html = .ok (outcomeOf text html) := by
  have hcheck : ∀ input, limits.checkLength input (byteLength text) = .ok () := by
    intro input
    rw [checkLength_eq_ok_iff, ← hcss.size_eq]
    exact hcss.admits
  have hcheck' : ∀ input, limits.checkLength input (byteLength html) = .ok () := by
    intro input
    rw [checkLength_eq_ok_iff, ← hpage.size_eq]
    exact hpage.admits
  simp only [outcome, hcheck, hcheck']
  rfl

/-- The entry of a page depends on the page and on the stylesheet. -/
theorem isEntry_pageOutcomeOfBytes
    {css : ByteArray} {text : Text} (hcss : limits.Accepts css text)
    (page : ByteArray) :
    limits.IsEntry text page
      (limits.pageOutcomeOfBytes (Sheet.ofText text) page) := by
  rw [pageOutcomeOfBytes_eq]
  constructor
  · intro refusal
    rw [← readInput_eq_error_iff]
    cases limits.readInput .page page with
    | ok html =>
        simp [Except.map]
    | error refusal' =>
        simp [Except.map]
  · intro html hpage
    refine ⟨_, outcome_of_accepts hcss hpage, ?_⟩
    rw [readInput_eq_ok_iff.mpr hpage]
    rfl

theorem decodeInput_encodeUtf8 (input : Input) (text : Text) :
    decodeInput input (encodeUtf8 text) = .ok text := by
  simp only [decodeInput, decodeUtf8_encodeUtf8]

/-- Texts are pruned as their encodings are. -/
theorem outcomes_eq_outcomesOfBytes (text : Text) (pages : List Text) :
    limits.outcomes text pages =
      limits.outcomesOfBytes (encodeUtf8 text) (pages.map encodeUtf8) := by
  have hpage : ∀ sheet page,
      limits.pageOutcomeOfBytes sheet (encodeUtf8 page) =
        limits.pageOutcome sheet page := by
    intro sheet page
    simp only [pageOutcomeOfBytes, pageOutcome, size_encodeUtf8,
      decodeInput_encodeUtf8]
    rfl
  simp only [outcomes, outcomesOfBytes, size_encodeUtf8,
    decodeInput_encodeUtf8, List.map_map, Function.comp_def, hpage]
  rfl

theorem FailsWith.unique
    {css page : ByteArray} {refusal refusal' : Refusal}
    (h : limits.FailsWith css page refusal)
    (h' : limits.FailsWith css page refusal') : refusal = refusal' := by
  rcases h with h | h
  · rcases h' with h' | h'
    · simpa [h] using h'
    · simp [h] at h'
  · rcases h' with h' | h'
    · simp [h] at h'
    · simpa [h] using h'

theorem FailsWith.of_page
    {css page : ByteArray} {text : Text} {refusal : Refusal}
    (hcss : limits.Accepts css text)
    (hpage : limits.Refuses .page page refusal) :
    limits.FailsWith css page refusal := by
  right
  rw [outcomesOfBytes_of_accepts hcss, List.map_singleton,
    ((isEntry_pageOutcomeOfBytes hcss page).refused refusal).mpr hpage]

/-- How the runs over one page go together. -/
inductive PageRun (limits : Limits) (css page : ByteArray) : Prop
  | succeeds {outcome : Outcome}
      (hused : limits.usedRulesOfBytes css page = .ok outcome.text)
      (houtcomes : limits.outcomesOfBytes css [page] = .ok [.ok outcome])
  | fails {refusal : Refusal} (hcrossed : ¬ limits.Crossed css page)
      (hused : limits.usedRulesOfBytes css page = .error refusal)
      (hfails : limits.FailsWith css page refusal)
  | crossed {limit n : Nat} (hcrossed : limits.Crossed css page)
      (hlimit : limits.maxBytes = some limit) (hlongest : IsLongestText css n)
      (hused : limits.usedRulesOfBytes css page =
        .error (.tooLong .page page.size limit))
      (houtcomes : limits.outcomesOfBytes css [page] =
        .error (.notText .stylesheet n))

/-- With both lengths admitted, the stylesheet is decoded before the page. -/
theorem PageRun.of_admits
    {css page : ByteArray} (hcss : limits.Admits css.size)
    (hpage : limits.Admits page.size)
    (hused : limits.usedRulesOfBytes css page = (do
      let css ← decodeInput .stylesheet css
      let page ← decodeInput .page page
      return (outcomeOf css page).text)) :
    limits.PageRun css page := by
  have hcrossed : ¬ limits.Crossed css page := fun h => h.tooLong hpage
  rcases decodeInput_cases .stylesheet css with
    ⟨text, htext, hdecode⟩ | ⟨n, hno, hlongest, hdecode⟩
  · have haccepts : limits.Accepts css text := ⟨hcss, htext⟩
    rcases decodeInput_cases .page page with
      ⟨html, hhtml, hdecode'⟩ | ⟨n, hno, hlongest, hdecode'⟩
    · have hentry := isEntry_pageOutcomeOfBytes haccepts page
      obtain ⟨outcome, houtcome, hok⟩ := hentry.accepted html ⟨hpage, hhtml⟩
      rw [outcome_of_accepts haccepts ⟨hpage, hhtml⟩,
        Except.ok.injEq] at houtcome
      refine @PageRun.succeeds _ _ _ outcome ?_ ?_
      · rw [hused, hdecode, hdecode', ← houtcome]
        rfl
      · rw [outcomesOfBytes_of_accepts haccepts, List.map_singleton, hok]
    · refine .fails hcrossed ?_
        (.of_page haccepts (.notText hpage hno hlongest))
      rw [hused, hdecode, hdecode']
      rfl
  · refine .fails hcrossed ?_ (.inl (outcomesOfBytes_eq_error_iff.mpr
      (.notText hcss hno hlongest)))
    rw [hused, hdecode]
    rfl

/-- A page that is too long is refused before the stylesheet is decoded. -/
theorem PageRun.of_tooLong
    {css page : ByteArray} {limit : Nat} (hcss : limits.Admits css.size)
    (hlimit : limits.maxBytes = some limit) (hlength : limit < page.size)
    (hused : limits.usedRulesOfBytes css page =
      .error (.tooLong .page page.size limit)) :
    limits.PageRun css page := by
  rcases decodeInput_cases .stylesheet css with
    ⟨text, htext, -⟩ | ⟨n, hno, hlongest, -⟩
  · have hcrossed : ¬ limits.Crossed css page := fun h => h.isNoText text htext
    exact .fails hcrossed hused
      (.of_page ⟨hcss, htext⟩ (.tooLong hlimit hlength))
  · have hlong : ¬ limits.Admits page.size := by
      intro hadmits
      have hle := hadmits limit hlimit
      omega
    exact .crossed ⟨hcss, hno, hlong⟩ hlimit hlongest hused
      (outcomesOfBytes_eq_error_iff.mpr (.notText hcss hno hlongest))

/-- A run over one page succeeds, fails in one way, or is crossed. -/
theorem pageRun (limits : Limits) (css page : ByteArray) :
    limits.PageRun css page := by
  rcases limits.checkLength_cases .stylesheet css.size with
    ⟨hcss, hcheck⟩ | ⟨limit, hlimit, hlength, hcheck⟩
  · rcases limits.checkLength_cases .page page.size with
      ⟨hpage, hcheck'⟩ | ⟨limit, hlimit, hlength, hcheck'⟩
    · refine .of_admits hcss hpage ?_
      rw [usedRulesOfBytes, hcheck, hcheck']
      rfl
    · refine .of_tooLong hcss hlimit hlength ?_
      rw [usedRulesOfBytes, hcheck, hcheck']
      rfl
  · refine .fails ?_ ?_ (.inl (outcomesOfBytes_eq_error_iff.mpr
      (.tooLong hlimit hlength)))
    · intro hcrossed
      have hle := hcrossed.admits limit hlimit
      omega
    · rw [usedRulesOfBytes, hcheck]
      rfl

/-- A run over bytes succeeds exactly where the run over pages does. -/
theorem usedRulesOfBytes_eq_ok_iff {css page : ByteArray} {text : Text} :
    limits.usedRulesOfBytes css page = .ok text ↔
      ∃ outcome, limits.outcomesOfBytes css [page] = .ok [.ok outcome] ∧
        outcome.text = text := by
  cases limits.pageRun css page with
  | succeeds hused houtcomes =>
      simp [hused, houtcomes]
  | fails _ hused hfails =>
      rcases hfails with h | h
      · simp [hused, h]
      · simp [hused, h]
  | crossed _ _ _ hused houtcomes =>
      simp [hused, houtcomes]

/-- Two runs that fail have the same refusal, unless they are crossed. -/
theorem refusal_eq_iff
    {css page : ByteArray} {refusal refusal' : Refusal}
    (hused : limits.usedRulesOfBytes css page = .error refusal)
    (hfails : limits.FailsWith css page refusal') :
    refusal = refusal' ↔ ¬ limits.Crossed css page := by
  cases limits.pageRun css page with
  | succeeds hused' =>
      rw [hused'] at hused
      cases hused
  | fails hcrossed hused' hfails' =>
      rw [hused', Except.error.injEq] at hused
      rw [← hused, hfails'.unique hfails]
      exact iff_of_true rfl hcrossed
  | crossed hcrossed _ _ hused' houtcomes =>
      rw [hused', Except.error.injEq] at hused
      rw [← hused, ← FailsWith.unique (.inl houtcomes) hfails]
      exact iff_of_false (by simp) (fun h => h hcrossed)

/-- In a crossed run one function names the page, and one the stylesheet. -/
theorem Crossed.exists_refusals
    {css page : ByteArray} (hcrossed : limits.Crossed css page) :
    ∃ limit n, limits.maxBytes = some limit ∧ IsLongestText css n ∧
      limits.usedRulesOfBytes css page =
        .error (.tooLong .page page.size limit) ∧
      limits.outcomesOfBytes css [page] = .error (.notText .stylesheet n) := by
  cases limits.pageRun css page with
  | succeeds _ houtcomes =>
      obtain ⟨refusal, hrefuses⟩ : ∃ refusal,
          limits.Refuses .stylesheet css refusal :=
        exists_refuses_iff.mpr (.inr hcrossed.isNoText)
      rw [outcomesOfBytes_eq_error_iff.mpr hrefuses] at houtcomes
      cases houtcomes
  | fails hcrossed' =>
      exact absurd hcrossed hcrossed'
  | crossed _ hlimit hlongest hused houtcomes =>
      exact ⟨_, _, hlimit, hlongest, hused, houtcomes⟩

/-- The functions on limits agree about a stylesheet and its pages. -/
theorem entryPoints_agree (limits : Limits) (css : ByteArray) :
    limits.Agreement css := by
  constructor
  case fails_iff =>
    intro pages
    simp only [outcomesOfBytes_eq_error_iff]
    exact exists_refuses_iff
  case fails_with =>
    intro pages refusal
    exact outcomesOfBytes_eq_error_iff
  case entries =>
    intro text hcss pages
    refine ⟨_, outcomesOfBytes_of_accepts hcss pages, ?_⟩
    rw [List.forall₂_map_right_iff, List.forall₂_same]
    exact fun page _ => isEntry_pageOutcomeOfBytes hcss page
  case texts =>
    rintro text rfl pages
    exact outcomes_eq_outcomesOfBytes text pages
  case succeeds_iff =>
    intro page text
    exact usedRulesOfBytes_eq_ok_iff
  case refusals =>
    intro page refusal refusal' hused hfails
    exact refusal_eq_iff hused hfails
  case crossed =>
    intro page hcrossed
    exact hcrossed.exists_refusals

example : (Limits.mk (some 1)).usedRulesOfBytes ⟨#[255]⟩ ⟨#[97, 98]⟩ =
    .error (.tooLong .page 2 1) := rfl

example : (Limits.mk (some 1)).outcomesOfBytes ⟨#[255]⟩ [⟨#[97, 98]⟩] =
    .error (.notText .stylesheet 0) := rfl

end Runs

end Limits

end StylesheetPruning
