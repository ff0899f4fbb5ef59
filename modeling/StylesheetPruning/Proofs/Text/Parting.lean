import StylesheetPruning.Text.Split

/-!
# Parts of lists that were put together

**Results.**
* `splitWhere_append`, `splitWhere_append_cons`: a separator ends the part in
  front of it.
* `cutWhere_append_flatten`: cutting gives back the parts that marks begin.
-/

namespace StylesheetPruning

section Separators

variable {α : Type} {isSeparator : α → Bool}

/-- A list without separators is one part. -/
theorem splitWhere_of_forall_not
    {items : List α} (h : ∀ item ∈ items, isSeparator item = false) :
    splitWhere isSeparator items = [items] := by
  induction items with
  | nil =>
      rfl
  | cons item rest ih =>
      have hitem : isSeparator item = false := h item (by simp)
      have hrest : splitWhere isSeparator rest = [rest] :=
        ih (fun d hd => h d (by simp [hd]))
      rw [splitWhere_cons, hrest, hitem]
      rfl

theorem splitWhere_ne_nil (isSeparator : α → Bool) (items : List α) :
    splitWhere isSeparator items ≠ [] := by
  cases items with
  | nil =>
      simp
  | cons item rest =>
      rw [splitWhere_cons]
      split
      · simp
      · cases splitWhere isSeparator rest <;> simp [consFirst]

/-- At a separator a list can be split into two. -/
theorem splitWhere_append
    {mark : α} (hmark : isSeparator mark = true) (front rest : List α) :
    splitWhere isSeparator (front ++ mark :: rest) =
      splitWhere isSeparator front ++ splitWhere isSeparator rest := by
  induction front with
  | nil =>
      rw [List.nil_append, splitWhere_cons, if_pos hmark]
      rfl
  | cons item front ih =>
      rw [List.cons_append, splitWhere_cons, splitWhere_cons, ih]
      split
      · rfl
      · cases hparts : splitWhere isSeparator front with
        | nil =>
            exact absurd hparts (splitWhere_ne_nil isSeparator front)
        | cons first others =>
            rfl

/-- A separator ends the part in front of it. -/
theorem splitWhere_append_cons
    {front : List α} (h : ∀ item ∈ front, isSeparator item = false)
    {mark : α} (hmark : isSeparator mark = true) (rest : List α) :
    splitWhere isSeparator (front ++ mark :: rest) =
      front :: splitWhere isSeparator rest := by
  rw [splitWhere_append hmark, splitWhere_of_forall_not h]
  rfl

/-- A list with separators has a first one. -/
theorem exists_first_separator
    {items : List α} (h : ∃ item ∈ items, isSeparator item = true) :
    ∃ front mark rest, items = front ++ mark :: rest ∧
      isSeparator mark = true ∧ ∀ item ∈ front, isSeparator item = false := by
  induction items with
  | nil =>
      obtain ⟨item, hitem, -⟩ := h
      cases hitem
  | cons item items ih =>
      cases hitem : isSeparator item with
      | true =>
          exact ⟨[], item, items, rfl, hitem, by simp⟩
      | false =>
          have hrest : ∃ d ∈ items, isSeparator d = true := by
            obtain ⟨d, hd, hmark⟩ := h
            rcases List.mem_cons.mp hd with rfl | hd
            · simp [hitem] at hmark
            · exact ⟨d, hd, hmark⟩
          obtain ⟨front, mark, rest, rfl, hmark, hfront⟩ := ih hrest
          refine ⟨item :: front, mark, rest, rfl, hmark, ?_⟩
          intro d hd
          rcases List.mem_cons.mp hd with rfl | hd
          · exact hitem
          · exact hfront d hd

end Separators

section Words

/-- At a blank a text can be cut into two. -/
theorem words_append
    {c : Char} (hc : isBlank c = true) (front back : Text) :
    words (front ++ c :: back) = words front ++ words back := by
  rw [words, splitWhere_append hc, List.filter_append, words, words]

theorem words_of_forall
    {word : Text} (hne : word ≠ []) (h : ∀ c ∈ word, isBlank c = false) :
    words word = [word] := by
  rw [words, splitWhere_of_forall_not h]
  simp [hne]

end Words

section Marks

variable {α : Type} {isMark : α → Bool}

/-- A list without marks is put in front of the first part. -/
theorem cutWhere_append
    {front : List α} (h : ∀ item ∈ front, isMark item = false)
    {rest first : List α} {others : List (List α)}
    (hrest : cutWhere isMark rest = first :: others) :
    cutWhere isMark (front ++ rest) = (front ++ first) :: others := by
  induction front with
  | nil =>
      exact hrest
  | cons item front ih =>
      have hitem : isMark item = false := h item (by simp)
      have hfront := ih (fun d hd => h d (by simp [hd]))
      rw [List.cons_append, cutWhere_cons, hfront, hitem]
      rfl

/-- A part that begins at a mark and holds no other. -/
def Marked (isMark : α → Bool) (part : List α) : Prop :=
  ∃ mark rest, part = mark :: rest ∧ isMark mark = true ∧
    ∀ item ∈ rest, isMark item = false

/-- Cutting gives back the parts that marks begin. -/
theorem cutWhere_append_flatten
    {front : List α} (hfront : ∀ item ∈ front, isMark item = false)
    {parts : List (List α)} (hparts : ∀ part ∈ parts, Marked isMark part) :
    cutWhere isMark (front ++ parts.flatten) = front :: parts := by
  induction parts generalizing front with
  | nil =>
      have hnil : cutWhere isMark [] = [] :: [] := rfl
      simpa using cutWhere_append hfront hnil
  | cons part parts ih =>
      obtain ⟨mark, rest, rfl, hmark, hrest⟩ := hparts part (by simp)
      have hcut : cutWhere isMark (rest ++ parts.flatten) = rest :: parts :=
        ih hrest (fun part hpart => hparts part (by simp [hpart]))
      have hpart : cutWhere isMark ((mark :: rest) ++ parts.flatten) =
          [] :: (mark :: rest) :: parts := by
        rw [List.cons_append, cutWhere_cons, hcut, if_pos hmark]
        rfl
      simpa using cutWhere_append hfront hpart

end Marks

end StylesheetPruning
