import StylesheetPruning.Text.Basic

/-!
# Escapes in identifiers

A backslash in a selector starts an escape. Up to six hexadecimal digits name
a code point, and one whitespace character behind them belongs to the escape.
Otherwise the escape is the backslash and the one character behind it, if
there is one.

**Extent.** `escapeTail` is the part of an escape behind its backslash. It is
all that a scan for structure has to know.

**Value.** `resolveEscapes` reads an identifier once, one character at a time,
and writes what its escapes stand for.
-/

namespace StylesheetPruning

/-- The part of an escape behind its backslash, given what follows that. -/
def escapeTail (rest : Text) : Text :=
  let digits := (rest.take 6).takeWhile isHexDigit
  if digits.isEmpty then
    rest.take 1
  else
    digits ++ ((rest.drop digits.length).take 1).filter isSpace

/-- Where the reading of an identifier stands between two characters. -/
inductive Resolving where
  /-- Outside of escapes. -/
  | plain
  /-- Behind the backslash of an escape. -/
  | opened
  /-- Behind some digits of an escape: their value and their number. -/
  | digits (value count : Nat)
deriving Repr, DecidableEq

namespace Resolving

/-- Read a character outside of escapes. -/
def stepPlain (c : Char) : Resolving × Text :=
  if c = '\\' then (opened, []) else (plain, [c])

/-- Read one character: the new state, and what is written. -/
def step : Resolving → Char → Resolving × Text
  | plain, c => stepPlain c
  | opened, c =>
      if isHexDigit c then (digits (hexValue c) 1, []) else (plain, [c])
  | digits value count, c =>
      if count < 6 ∧ isHexDigit c then
        (digits (value * 16 + hexValue c) (count + 1), [])
      else if isSpace c then
        (plain, [charOfCodePoint value])
      else
        let (state, written) := stepPlain c
        (state, charOfCodePoint value :: written)

/-- What is written at the end of the identifier. -/
def finish : Resolving → Text
  | plain | opened => []
  | digits value _ => [charOfCodePoint value]

/-- Read the rest of an identifier. -/
def run : Resolving → Text → Text
  | state, [] => state.finish
  | state, c :: rest =>
      let (state', written) := state.step c
      written ++ run state' rest

end Resolving

/-- An identifier with its escapes replaced by what they stand for. -/
def resolveEscapes (identifier : Text) : Text :=
  Resolving.plain.run identifier

/-- An identifier without a backslash stands for itself. -/
theorem resolveEscapes_of_forall_ne {identifier : Text}
    (h : ∀ c ∈ identifier, c ≠ '\\') :
    resolveEscapes identifier = identifier := by
  induction identifier with
  | nil => rfl
  | cons c rest ih =>
      have hc : c ≠ '\\' := h c (by simp)
      have hrest : resolveEscapes rest = rest :=
        ih (fun d hd => h d (by simp [hd]))
      simp only [resolveEscapes, Resolving.run, Resolving.step,
        Resolving.stepPlain, if_neg hc] at hrest ⊢
      simpa using hrest

/-- An escape never reaches beyond the text. -/
theorem exists_eq_escapeTail_append (rest : Text) :
    ∃ after, rest = escapeTail rest ++ after := by
  simp only [escapeTail]
  split
  · exact ⟨rest.drop 1, (List.take_append_drop 1 rest).symm⟩
  · have htake : (rest.take 6).takeWhile isHexDigit <+: rest :=
      (List.takeWhile_prefix _).trans (List.take_prefix 6 rest)
    obtain ⟨after, hafter⟩ := htake
    generalize (rest.take 6).takeWhile isHexDigit = digits at hafter ⊢
    subst hafter
    cases after with
    | nil => exact ⟨[], by simp⟩
    | cons c tail =>
        by_cases hc : isSpace c
        · exact ⟨tail, by simp [hc]⟩
        · exact ⟨c :: tail, by simp [hc]⟩

end StylesheetPruning
