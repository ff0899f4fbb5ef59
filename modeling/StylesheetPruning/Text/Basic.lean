/-!
# Text: characters, byte offsets and spans

A text is a list of characters. Every position in a text is a byte offset of
its UTF-8 encoding, so a character counts with the length of its encoding.

**Boundaries.** `splitAt?` cuts a text at a byte offset. It answers only for
the offset of a character boundary inside the text.

**Slices.** `slice` is the text of a span. A span that is inverted, leaves the
text, or splits a character has the empty text.

**Results.** `splitAt?_eq_some_iff` says that a cut loses nothing and that the
first part has exactly the requested length.
-/

namespace StylesheetPruning

/-- A text, as the list of its characters. -/
abbrev Text := List Char

/-- A half-open range of byte offsets. -/
structure Span where
  start : Nat
  stop : Nat
deriving Repr, DecidableEq, Inhabited

/-- Number of bytes between the two ends of a span. -/
def Span.length (span : Span) : Nat :=
  span.stop - span.start

section Length

/-- Length of the UTF-8 encoding of a text. -/
def byteLength (text : Text) : Nat :=
  text.foldl (fun length c => length + c.utf8Size) 0

theorem foldl_utf8Size (text : Text) (n : Nat) :
    text.foldl (fun length c => length + c.utf8Size) n =
      n + byteLength text := by
  induction text generalizing n with
  | nil => rfl
  | cons c rest ih =>
      have h := ih (n + c.utf8Size)
      have h' := ih (0 + c.utf8Size)
      simp only [byteLength, List.foldl_cons] at h h' ⊢
      omega

@[simp] theorem byteLength_nil : byteLength [] = 0 := rfl

@[simp] theorem byteLength_cons (c : Char) (rest : Text) :
    byteLength (c :: rest) = c.utf8Size + byteLength rest := by
  have h := foldl_utf8Size rest (0 + c.utf8Size)
  simp only [byteLength, List.foldl_cons] at h ⊢
  omega

@[simp] theorem byteLength_append (left right : Text) :
    byteLength (left ++ right) = byteLength left + byteLength right := by
  induction left with
  | nil => simp
  | cons c rest ih => simp [ih, Nat.add_assoc]

@[simp] theorem byteLength_reverse (text : Text) :
    byteLength text.reverse = byteLength text := by
  induction text with
  | nil => rfl
  | cons c rest ih => simp [ih, Nat.add_comm]

/-- Only the empty text has no bytes. -/
theorem byteLength_eq_zero_iff {text : Text} :
    byteLength text = 0 ↔ text = [] := by
  cases text with
  | nil => simp
  | cons c rest =>
      have h := c.utf8Size_pos
      simp
      omega

/-- A run of one character has the length of its members together. -/
@[simp] theorem byteLength_replicate (n : Nat) (c : Char) :
    byteLength (List.replicate n c) = n * c.utf8Size := by
  induction n with
  | zero => simp
  | succ n ih =>
      simp only [List.replicate_succ, byteLength_cons, ih, Nat.succ_mul]
      omega

/-- A text of `n` spaces, which stands in for `n` bytes. -/
def spaces (n : Nat) : Text :=
  List.replicate n ' '

@[simp] theorem byteLength_spaces (n : Nat) : byteLength (spaces n) = n := by
  simp [spaces, show (' ' : Char).utf8Size = 1 from rfl]

end Length

section Cutting

/-- Walk to byte offset `n`, keeping the characters passed in reverse. -/
def splitAt?.go : Text → Nat → Text → Option (Text × Text)
  | rest, 0, passed => some (passed.reverse, rest)
  | [], _ + 1, _ => none
  | c :: rest, n + 1, passed =>
      if c.utf8Size ≤ n + 1 then
        go rest (n + 1 - c.utf8Size) (c :: passed)
      else
        none

/--
The two parts of a text on either side of byte offset `n`, or nothing when
there is no character boundary at `n`.
-/
def splitAt? (text : Text) (n : Nat) : Option (Text × Text) :=
  splitAt?.go text n []

theorem splitAt?.go_eq_some_iff (text : Text) (n : Nat)
    (passed left right : Text) :
    splitAt?.go text n passed = some (left, right) ↔
      ∃ mid, left = passed.reverse ++ mid ∧ text = mid ++ right ∧
        byteLength mid = n := by
  fun_induction splitAt?.go text n passed with
  | case1 rest passed =>
      simp only [Option.some.injEq, Prod.mk.injEq, byteLength_eq_zero_iff]
      constructor
      · rintro ⟨rfl, rfl⟩
        exact ⟨[], by simp, rfl, rfl⟩
      · rintro ⟨mid, rfl, rfl, rfl⟩
        simp
  | case2 n passed =>
      simp only [reduceCtorEq, false_iff]
      rintro ⟨mid, -, hmid, hn⟩
      have hnil : mid = [] := by
        cases mid with
        | nil => rfl
        | cons c rest => simp at hmid
      subst hnil
      simp at hn
  | case3 c rest n passed h ih =>
      rw [ih]
      clear ih
      constructor
      · rintro ⟨mid, rfl, rfl, hn⟩
        refine ⟨c :: mid, by simp, by simp, ?_⟩
        rw [byteLength_cons]
        omega
      · rintro ⟨mid, rfl, hmid, hn⟩
        cases mid with
        | nil => simp at hn
        | cons d tail =>
            simp only [List.cons_append, List.cons.injEq] at hmid
            obtain ⟨rfl, rfl⟩ := hmid
            simp only [byteLength_cons] at hn
            exact ⟨tail, by simp, rfl, by omega⟩
  | case4 c rest n passed h =>
      simp only [reduceCtorEq, false_iff]
      rintro ⟨mid, -, hmid, hn⟩
      cases mid with
      | nil => simp at hn
      | cons d tail =>
          simp only [List.cons_append, List.cons.injEq] at hmid
          obtain ⟨rfl, -⟩ := hmid
          simp only [byteLength_cons] at hn
          omega

/-- A cut at `n` loses nothing, and its first part has exactly `n` bytes. -/
theorem splitAt?_eq_some_iff {text : Text} {n : Nat} {left right : Text} :
    splitAt? text n = some (left, right) ↔
      text = left ++ right ∧ byteLength left = n := by
  rw [splitAt?, splitAt?.go_eq_some_iff]
  simp

/-- A text can be cut where two texts were put together. -/
@[simp] theorem splitAt?_append (left right : Text) :
    splitAt? (left ++ right) (byteLength left) = some (left, right) := by
  rw [splitAt?_eq_some_iff]
  simp

/-- Whether byte offset `n` is a character boundary of a text. -/
def IsBoundary (text : Text) (n : Nat) : Prop :=
  (splitAt? text n).isSome

instance (text : Text) (n : Nat) : Decidable (IsBoundary text n) :=
  inferInstanceAs (Decidable ((splitAt? text n).isSome = true))

/-- The text of a span whose two ends are character boundaries in order. -/
def slice? (text : Text) (span : Span) : Option Text :=
  if span.start ≤ span.stop then do
    let (_, rest) ← splitAt? text span.start
    let (middle, _) ← splitAt? rest span.length
    return middle
  else
    none

/-- The text of a span, empty where the span has no text. -/
def slice (text : Text) (span : Span) : Text :=
  (slice? text span).getD []

/-- A slice is what stands between two texts whose lengths place it. -/
theorem slice?_eq_some_iff {text : Text} {span : Span} {middle : Text} :
    slice? text span = some middle ↔
      ∃ left right, text = left ++ middle ++ right ∧
        byteLength left = span.start ∧
        byteLength left + byteLength middle = span.stop := by
  simp only [slice?, Span.length]
  split
  · simp only [bind, Option.bind_eq_some_iff, pure, Option.some.injEq,
      Prod.exists, splitAt?_eq_some_iff]
    constructor
    · rintro ⟨left, rest, ⟨rfl, hl⟩, mid, right, ⟨rfl, hm⟩, rfl⟩
      exact ⟨left, right, by simp, hl, by omega⟩
    · rintro ⟨left, right, rfl, hl, hm⟩
      exact ⟨left, middle ++ right, ⟨by simp, hl⟩, middle, right,
        ⟨rfl, by omega⟩, rfl⟩
  · simp only [reduceCtorEq, false_iff]
    rintro ⟨left, right, -, hl, hm⟩
    omega

end Cutting

section Spacing

/-- The five ASCII whitespace characters: space, tab, LF, FF and CR. -/
def isSpace (c : Char) : Bool :=
  c = ' ' || c = '\t' || c = '\n' || c = '\x0c' || c = '\r'

/-- The two characters that end a line. -/
def isLineBreak (c : Char) : Bool :=
  c = '\n' || c = '\r'

/-- The ten decimal and the twelve letter digits of base sixteen. -/
def isHexDigit (c : Char) : Bool :=
  c.isDigit || ('a' ≤ c && c ≤ 'f') || ('A' ≤ c && c ≤ 'F')

/-- Value of a digit of base sixteen. -/
def hexValue (c : Char) : Nat :=
  if c.isDigit then c.toNat - '0'.toNat
  else if 'a' ≤ c then c.toNat - 'a'.toNat + 10
  else c.toNat - 'A'.toNat + 10

/-- Value of a run of digits in the given base, most significant first. -/
def ofDigits (base : Nat) (digits : Text) : Nat :=
  digits.foldl (fun value c => value * base + hexValue c) 0

/-- The replacement character, which stands for what has no character. -/
def replacementChar : Char :=
  '\uFFFD'

/--
The character of a code point. Surrogates and values above U+10FFFF have no
character and give the replacement character.
-/
def charOfCodePoint (n : Nat) : Char :=
  if n.isValidChar then Char.ofNat n else replacementChar

/-- A text with its ASCII capitals lowered. -/
def lowered (text : Text) : Text :=
  text.map Char.toLower

end Spacing

section Lowering

variable {c : Char}

theorem isUpper_iff : c.isUpper = true ↔ 65 ≤ c.toNat ∧ c.toNat ≤ 90 :=
  decide_eq_true_iff

theorem isLower_iff : c.isLower = true ↔ 97 ≤ c.toNat ∧ c.toNat ≤ 122 :=
  Bool.and_eq_true_iff.trans (and_congr decide_eq_true_iff decide_eq_true_iff)

theorem isDigit_iff : c.isDigit = true ↔ 48 ≤ c.toNat ∧ c.toNat ≤ 57 :=
  Bool.and_eq_true_iff.trans (and_congr decide_eq_true_iff decide_eq_true_iff)

/-- Lowering moves the capitals of ASCII and nothing else. -/
theorem toLower_cases (c : Char) :
    (c.isUpper = true ∧ c.toLower.toNat = c.toNat + 32) ∨
      (c.isUpper = false ∧ c.toLower = c) := by
  cases hupper : c.isUpper with
  | true =>
      left
      have hrange := isUpper_iff.mp hupper
      have hcapital : c.val ≥ 'A'.val ∧ c.val ≤ 'Z'.val := hrange
      have hmoved : c.toLower = _ := dif_pos hcapital
      have hsum : c.toLower.toNat = (c.val + 32).toNat := by
        rw [hmoved]
        rfl
      have hsmall : c.toNat + 32 < 2 ^ 32 := by omega
      rw [hsum, UInt32.toNat_add]
      exact ⟨rfl, Nat.mod_eq_of_lt hsmall⟩
  | false =>
      right
      have hcapital : ¬ (c.val ≥ 'A'.val ∧ c.val ≤ 'Z'.val) := by
        intro hrange
        rw [isUpper_iff.mpr hrange] at hupper
        cases hupper
      exact ⟨rfl, dif_neg hcapital⟩

/-- Small letters are kept. -/
theorem toLower_of_isLower (h : c.isLower = true) : c.toLower = c := by
  rcases toLower_cases c with ⟨hupper, -⟩ | ⟨-, hkept⟩
  · have hsmall := isLower_iff.mp h
    have hcapital := isUpper_iff.mp hupper
    omega
  · exact hkept

/-- What is lowered to a letter is a letter. -/
theorem isAlpha_of_toLower (h : c.toLower.isAlpha = true) :
    c.isAlpha = true := by
  rcases toLower_cases c with ⟨hupper, -⟩ | ⟨-, hkept⟩
  · exact Bool.or_eq_true_iff.mpr (.inl hupper)
  · rwa [hkept] at h

/-- Lowering twice is lowering once. -/
theorem lowered_lowered (text : Text) :
    lowered (lowered text) = lowered text := by
  rw [lowered, lowered, List.map_map]
  refine List.map_congr_left ?_
  intro c _
  rcases toLower_cases c.toLower with ⟨hupper, -⟩ | ⟨-, hkept⟩
  · -- A lowered capital stands behind all capitals.
    have hagain := isUpper_iff.mp hupper
    rcases toLower_cases c with ⟨hcapital, hmoved⟩ | ⟨hother, hkept⟩
    · have hrange := isUpper_iff.mp hcapital
      omega
    · rw [hkept, hother] at hupper
      cases hupper
  · exact hkept

end Lowering

end StylesheetPruning
