import StylesheetPruning.Markup.PageInventory
import StylesheetPruning.Pruning.Refusal
import StylesheetPruning.Pruning.Sheet
import StylesheetPruning.Text.Utf8

/-!
# Pruning a stylesheet against pages

**Texts.** `usedRules` prunes without a limit. The functions on limits refuse
inputs that are too long or no text.

**Bytes.** Bytes are decoded first. With one page, both lengths are checked
before either input is decoded. With several pages, the stylesheet is checked
and decoded before any page, and a page that is refused does not disturb the
others.

**Results.** `checkLength_eq_ok_iff` says which inputs are within the limit.
-/

namespace StylesheetPruning

/-- What inputs have to respect. -/
structure Limits where
  /-- Refuse inputs that are longer than this number of bytes. -/
  maxBytes : Option Nat := none
deriving Repr, DecidableEq

/-- Prune a stylesheet against a page. -/
def outcomeOf (css page : Text) : Outcome :=
  (Sheet.ofText css).pruneBy (Inventory.ofPage page)

/-- The rules of a stylesheet that can match something on a page. -/
def usedRules (css page : Text) : Text :=
  (outcomeOf css page).text

namespace Limits

/-- Refuse an input that is longer than the limit. -/
def checkLength (limits : Limits) (input : Input) (length : Nat) :
    Except Refusal Unit :=
  match limits.maxBytes with
  | some limit =>
      if limit < length then .error (.tooLong input length limit) else .ok ()
  | none => .ok ()

/-- Refuse an input that is no text. -/
def decodeInput (input : Input) (bytes : ByteArray) : Except Refusal Text :=
  match decodeUtf8 bytes with
  | .ok text => .ok text
  | .error validLength => .error (.notText input validLength)

/-- Prune a stylesheet against a page, with a report. -/
def outcome (limits : Limits) (css page : Text) :
    Except Refusal Outcome := do
  limits.checkLength .stylesheet (byteLength css)
  limits.checkLength .page (byteLength page)
  return outcomeOf css page

/-- Prune a stylesheet against a page. -/
def usedRules (limits : Limits) (css page : Text) : Except Refusal Text := do
  let outcome ← limits.outcome css page
  return outcome.text

/-- Prune a stylesheet against a page, both given as bytes. -/
def usedRulesOfBytes (limits : Limits) (css page : ByteArray) :
    Except Refusal Text := do
  limits.checkLength .stylesheet css.size
  limits.checkLength .page page.size
  let css ← decodeInput .stylesheet css
  let page ← decodeInput .page page
  return (outcomeOf css page).text

/-- Prune a scanned stylesheet against a page. -/
def pageOutcome (limits : Limits) (sheet : Sheet) (page : Text) :
    Except Refusal Outcome := do
  limits.checkLength .page (byteLength page)
  return sheet.pruneBy (Inventory.ofPage page)

/-- Prune a scanned stylesheet against a page given as bytes. -/
def pageOutcomeOfBytes (limits : Limits) (sheet : Sheet) (page : ByteArray) :
    Except Refusal Outcome := do
  limits.checkLength .page page.size
  let page ← decodeInput .page page
  return sheet.pruneBy (Inventory.ofPage page)

/--
Prune a stylesheet against several pages. The outer refusal is that of the
stylesheet; each page has a refusal of its own.
-/
def outcomes (limits : Limits) (css : Text) (pages : List Text) :
    Except Refusal (List (Except Refusal Outcome)) := do
  limits.checkLength .stylesheet (byteLength css)
  let sheet := Sheet.ofText css
  return pages.map (limits.pageOutcome sheet)

/-- Prune a stylesheet against several pages, all given as bytes. -/
def outcomesOfBytes (limits : Limits) (css : ByteArray)
    (pages : List ByteArray) :
    Except Refusal (List (Except Refusal Outcome)) := do
  limits.checkLength .stylesheet css.size
  let css ← decodeInput .stylesheet css
  let sheet := Sheet.ofText css
  return pages.map (limits.pageOutcomeOfBytes sheet)

/-- An input is within the limit exactly when its length is not refused. -/
theorem checkLength_eq_ok_iff {limits : Limits} {input : Input}
    {length : Nat} :
    limits.checkLength input length = .ok () ↔
      ∀ limit, limits.maxBytes = some limit → length ≤ limit := by
  cases h : limits.maxBytes with
  | none => simp [checkLength, h]
  | some limit =>
      by_cases hl : limit < length
      · simp [checkLength, h, hl]
      · simp [checkLength, h, hl]
        omega

end Limits

end StylesheetPruning
