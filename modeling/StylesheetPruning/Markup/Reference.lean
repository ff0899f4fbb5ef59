import StylesheetPruning.Markup.ReferenceTable

/-!
# Character references in attribute values

**Numbers.** An ampersand, a number sign and digits give the character of a
code point, in base ten or, behind an `x`, in base sixteen. A semicolon behind
the digits belongs to the reference. Zero, surrogates and numbers that are no
code point give the replacement character, and the numbers from 0x80 to 0x9F
are read as windows-1252.

**Names.** A name may end in a semicolon. A bare name is only read when
neither a letter, a digit nor an equals sign follows, so that the parameters
of a query are left alone.

**Text.** Every other ampersand stands for itself.
-/

namespace StylesheetPruning

namespace Reference

/-- What the numbers from 0x80 on mean in windows-1252, as code points. -/
def windows1252 : List Nat :=
  [ 0x20AC, 0x81, 0x201A, 0x0192, 0x201E, 0x2026, 0x2020, 0x2021,
    0x02C6, 0x2030, 0x0160, 0x2039, 0x0152, 0x8D, 0x017D, 0x8F,
    0x90, 0x2018, 0x2019, 0x201C, 0x201D, 0x2022, 0x2013, 0x2014,
    0x02DC, 0x2122, 0x0161, 0x203A, 0x0153, 0x9D, 0x017E, 0x0178 ]

/-- The character that a number refers to. -/
def charOfNumber (n : Nat) : Char :=
  if n = 0 then replacementChar
  else if n < 0x80 then charOfCodePoint n
  else charOfCodePoint (windows1252.getD (n - 0x80) n)

/-- One when a text begins with a semicolon, and zero otherwise. -/
def semicolonLength (text : Text) : Nat :=
  if text.head? = some ';' then 1 else 0

/--
A number behind `passed` characters of a reference: its character, and the
number of characters of the reference.
-/
def numeric? (isDigit : Char → Bool) (base passed : Nat) (text : Text) :
    Option (Text × Nat) :=
  let digits := text.takeWhile isDigit
  if digits.isEmpty then none
  else
    some ([charOfNumber (ofDigits base digits)],
      passed + digits.length + semicolonLength (text.drop digits.length))

/-- A name: its value, and the number of characters of the reference. -/
def named? (text : Text) : Option (Text × Nat) :=
  let name := text.takeWhile Char.isAlphanum
  let next := (text.drop name.length).head?
  if next = some ';' then
    (closedReference? name).map (fun value => (value, name.length + 1))
  else if next = some '=' then none
  else (bareReference? name).map (fun value => (value, name.length))

/-- The reference that the text behind an ampersand makes with it, if any. -/
def behindAmpersand? : Text → Option (Text × Nat)
  | '#' :: 'x' :: rest => numeric? isHexDigit 16 2 rest
  | '#' :: 'X' :: rest => numeric? isHexDigit 16 2 rest
  | '#' :: rest => numeric? Char.isDigit 10 1 rest
  | text => named? text

/--
Read a value from the left. The number counts characters of a reference that
are still to be passed; the last text is what was written so far, in reverse.
-/
def decode.go : Text → Nat → Text → Text
  | [], _, written => written.reverse
  | _ :: rest, skip + 1, written => go rest skip written
  | c :: rest, 0, written =>
      if c = '&' then
        match behindAmpersand? rest with
        | some (value, length) => go rest length (value.reverse ++ written)
        | none => go rest 0 (c :: written)
      else
        go rest 0 (c :: written)

/-- An attribute value with its references replaced by what they stand for. -/
def decode (value : Text) : Text :=
  decode.go value 0 []

theorem decode.go_written (value : Text) (skip : Nat) (written : Text) :
    decode.go value skip written = written.reverse ++ decode.go value skip [] := by
  induction value generalizing skip written with
  | nil => simp [decode.go]
  | cons c rest ih =>
      cases skip with
      | succ skip =>
          simp only [decode.go]
          exact ih skip written
      | zero =>
          simp only [decode.go]
          split
          · cases behindAmpersand? rest with
            | none =>
                simp only []
                rw [ih, ih 0 [c]]
                simp
            | some found =>
                obtain ⟨v, length⟩ := found
                simp only []
                rw [ih, ih length (v.reverse ++ [])]
                simp
          · rw [ih, ih 0 [c]]
            simp

theorem decode.go_skip (value : Text) (skip : Nat) :
    decode.go value skip [] = decode (value.drop skip) := by
  induction value generalizing skip with
  | nil => simp [decode.go, decode]
  | cons c rest ih =>
      cases skip with
      | zero => rfl
      | succ skip =>
          simp only [decode.go, List.drop_succ_cons]
          exact ih skip

@[simp] theorem decode_nil : decode [] = [] := rfl

/-- A character that is no ampersand stands for itself. -/
theorem decode_cons_of_ne {c : Char} (rest : Text) (h : c ≠ '&') :
    decode (c :: rest) = c :: decode rest := by
  rw [decode]
  simp only [decode.go, if_neg h]
  rw [decode.go_written]
  rfl

/-- A reference is replaced by its value, and its characters are passed. -/
theorem decode_ampersand_of_some {rest value : Text} {length : Nat}
    (h : behindAmpersand? rest = some (value, length)) :
    decode ('&' :: rest) = value ++ decode (rest.drop length) := by
  rw [decode]
  simp only [decode.go, if_true, h]
  rw [decode.go_written, decode.go_skip]
  simp

end Reference

end StylesheetPruning
