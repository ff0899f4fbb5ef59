import StylesheetPruning.Text.Basic

/-!
# Splitting at separators and cutting at marks

**Splitting.** `splitWhere` drops every separator, so a list with `n` of them
has `n + 1` parts. `cutWhere` keeps every mark, as the beginning of a part.

**Words.** The words of a text are the parts between its blanks that are not
empty, where blank is the Unicode property White_Space.

**Results.** `flatten_splitWhere`: splitting loses the separators only.
`flatten_cutWhere`: cutting loses nothing. `ne_nil_of_mem_words`: a word is not
empty and holds no blank.
-/

namespace StylesheetPruning

section Parts

variable {α : Type}

/-- Put an item in front of the first part. -/
def consFirst (item : α) : List (List α) → List (List α)
  | [] => [[item]]
  | first :: others => (item :: first) :: others

/-- The parts of a list between its separators. -/
def splitWhere (isSeparator : α → Bool) (items : List α) : List (List α) :=
  items.foldr
    (fun item parts =>
      if isSeparator item then [] :: parts else consFirst item parts)
    [[]]

/-- The parts of a list, each of which but the first begins at a mark. -/
def cutWhere (isMark : α → Bool) (items : List α) : List (List α) :=
  items.foldr
    (fun item parts =>
      if isMark item then [] :: consFirst item parts
      else consFirst item parts)
    [[]]

@[simp] theorem splitWhere_nil (isSeparator : α → Bool) :
    splitWhere isSeparator [] = [[]] := rfl

theorem splitWhere_cons (isSeparator : α → Bool) (item : α) (rest : List α) :
    splitWhere isSeparator (item :: rest) =
      if isSeparator item then [] :: splitWhere isSeparator rest
      else consFirst item (splitWhere isSeparator rest) := rfl

@[simp] theorem cutWhere_nil (isMark : α → Bool) :
    cutWhere isMark [] = [[]] := rfl

theorem cutWhere_cons (isMark : α → Bool) (item : α) (rest : List α) :
    cutWhere isMark (item :: rest) =
      if isMark item then [] :: consFirst item (cutWhere isMark rest)
      else consFirst item (cutWhere isMark rest) := rfl

@[simp] theorem flatten_consFirst (item : α) (parts : List (List α)) :
    (consFirst item parts).flatten = item :: parts.flatten := by
  cases parts <;> rfl

/-- Splitting loses the separators only. -/
@[simp] theorem flatten_splitWhere (isSeparator : α → Bool) (items : List α) :
    (splitWhere isSeparator items).flatten =
      items.filter (fun item => !isSeparator item) := by
  induction items with
  | nil => rfl
  | cons item rest ih =>
      rw [splitWhere_cons]
      by_cases h : isSeparator item
      · simp [h, ih]
      · simp [h, ih]

/-- No part holds a separator. -/
theorem not_of_mem_splitWhere {isSeparator : α → Bool} {items part : List α}
    (h : part ∈ splitWhere isSeparator items) :
    ∀ item ∈ part, isSeparator item = false := by
  intro item hitem
  have hflat : item ∈ (splitWhere isSeparator items).flatten :=
    List.mem_flatten.mpr ⟨part, h, hitem⟩
  rw [flatten_splitWhere] at hflat
  simpa using (List.mem_filter.mp hflat).2

/-- Cutting loses nothing. -/
@[simp] theorem flatten_cutWhere (isMark : α → Bool) (items : List α) :
    (cutWhere isMark items).flatten = items := by
  induction items with
  | nil => rfl
  | cons item rest ih =>
      rw [cutWhere_cons]
      split <;> simp [ih]

end Parts

section Words

/-- The characters with the Unicode property White_Space. -/
def isBlank (c : Char) : Bool :=
  let n := c.toNat
  (0x09 ≤ n && n ≤ 0x0D) || n == 0x20 || n == 0x85 || n == 0xA0 ||
    n == 0x1680 || (0x2000 ≤ n && n ≤ 0x200A) || n == 0x2028 ||
    n == 0x2029 || n == 0x202F || n == 0x205F || n == 0x3000

/-- Every ASCII whitespace character is blank. -/
theorem isBlank_of_isSpace {c : Char} (h : isSpace c = true) :
    isBlank c = true := by
  simp only [isSpace, Bool.or_eq_true, decide_eq_true_eq] at h
  rcases h with (((rfl | rfl) | rfl) | rfl) | rfl <;> rfl

/-- The words of a text: what stands between its blanks. -/
def words (text : Text) : List Text :=
  (splitWhere isBlank text).filter (fun word => !word.isEmpty)

/-- A word is not empty and holds no blank. -/
theorem ne_nil_of_mem_words {text word : Text} (h : word ∈ words text) :
    word ≠ [] ∧ ∀ c ∈ word, isBlank c = false := by
  obtain ⟨hpart, hne⟩ := List.mem_filter.mp h
  exact ⟨by simpa using hne, not_of_mem_splitWhere hpart⟩

end Words

end StylesheetPruning
