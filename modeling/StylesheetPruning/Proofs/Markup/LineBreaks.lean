import StylesheetPruning.Markup.StartTag

/-!
# Line breaks of a page that is read in parts

A CR at the end of one part of a page and an LF at the beginning of the next
are one line break. So the second part is unified knowing whether a CR stands
in front of it, and nothing else.

**Results.**
* `unified_append`: the parts of a page are unified one after the other.
* `unified_eq_self`: a page without CR keeps its line breaks.
-/

namespace StylesheetPruning

namespace StartTag

/-- The rest of a page with its line breaks unified, behind a CR or not. -/
def unified (afterReturn : Bool) (page : Text) : Text :=
  unifyLineBreaks.go afterReturn page []

/-- Whether a CR stands at the end of what was read. -/
def behindReturn (afterReturn : Bool) (page : Text) : Bool :=
  page.foldl (fun _ c => decide (c = '\r')) afterReturn

theorem unifyLineBreaks_go_eq
    (afterReturn : Bool) (page read : Text) :
    unifyLineBreaks.go afterReturn page read =
      read.reverse ++ unified afterReturn page := by
  induction page generalizing afterReturn read with
  | nil =>
      simp [unified, unifyLineBreaks.go]
  | cons c rest ih =>
      simp only [unified, unifyLineBreaks.go]
      split
      · rw [ih, ih true ['\n']]
        simp
      · split
        · rw [ih, ← unified]
        · rw [ih, ih false [c]]
          simp

@[simp] theorem unified_nil (afterReturn : Bool) :
    unified afterReturn [] = [] := rfl

/-- A CR becomes an LF, and an LF behind a CR is dropped. -/
theorem unified_cons (afterReturn : Bool) (c : Char) (rest : Text) :
    unified afterReturn (c :: rest) =
      if c = '\r' then '\n' :: unified true rest
      else if c = '\n' && afterReturn then unified false rest
      else c :: unified false rest := by
  simp only [unified, unifyLineBreaks.go]
  split
  · rw [unifyLineBreaks_go_eq]
    rfl
  · split
    · rfl
    · rw [unifyLineBreaks_go_eq]
      rfl

/-- The parts of a page are unified one after the other. -/
theorem unified_append (afterReturn : Bool) (page page' : Text) :
    unified afterReturn (page ++ page') =
      unified afterReturn page ++
        unified (behindReturn afterReturn page) page' := by
  induction page generalizing afterReturn with
  | nil =>
      rfl
  | cons c rest ih =>
      have hbehind : behindReturn afterReturn (c :: rest) =
          behindReturn (decide (c = '\r')) rest := rfl
      rw [List.cons_append, unified_cons, unified_cons, hbehind, ih, ih]
      split
      · next hreturn =>
          rw [decide_eq_true hreturn]
          rfl
      · next hreturn =>
          rw [decide_eq_false hreturn]
          split
          · rfl
          · rfl

/-- Unifying adds no characters but line feeds. -/
theorem mem_of_mem_unified
    {afterReturn : Bool} {page : Text} {c : Char}
    (h : c ∈ unified afterReturn page) : c = '\n' ∨ c ∈ page := by
  induction page generalizing afterReturn with
  | nil =>
      cases h
  | cons d rest ih =>
      rw [unified_cons] at h
      split at h
      · rcases List.mem_cons.mp h with rfl | h
        · exact .inl rfl
        · exact (ih h).imp_right (List.mem_cons_of_mem d)
      · split at h
        · exact (ih h).imp_right (List.mem_cons_of_mem d)
        · rcases List.mem_cons.mp h with rfl | h
          · exact .inr List.mem_cons_self
          · exact (ih h).imp_right (List.mem_cons_of_mem d)

/-- A page without CR keeps its line breaks. -/
theorem unified_eq_self
    {page : Text} (h : ∀ c ∈ page, c ≠ '\r') : unified false page = page := by
  induction page with
  | nil =>
      rfl
  | cons c rest ih =>
      obtain ⟨hc, hrest⟩ := List.forall_mem_cons.mp h
      rw [unified_cons, if_neg hc, Bool.and_false, if_neg Bool.false_ne_true,
        ih hrest]

end StartTag

end StylesheetPruning
