import StylesheetPruning.Proofs.Stylesheet.Comments

/-!
# Masking what was masked

The texts of a masking are masked again by the passes of the sweep and by a
second run. The second machine meets spaces where comments were, and filler
where the inside of a string was. It goes through the states of the first one
with two differences. In the place of a comment it stands outside of comments
and strings, and behind filler it is never behind a backslash.

**Filler.** A backslash in a string takes the next character with it; both are
filler afterwards and are read one by one. That leads to the same state, since
filler is no quote, no backslash and no line break.

**Results.**
* `reads_filled`: filling strings changes nothing else in a reading.
* `Masking.ofText_ofText`: masking again changes nothing.
-/

namespace StylesheetPruning

section Filling

/-- A character of the filler inside of strings. -/
def fillerCell : Cell :=
  ⟨'X', .quoted⟩

/-- A cell after the inside of its string was overwritten. -/
def Cell.filled (cell : Cell) : List Cell :=
  match cell.role with
  | .quoted => List.replicate cell.char.utf8Size fillerCell
  | .code | .commentStart | .commentBody => [cell]

/-- Where the machine stands once strings are filled. -/
def Lexing.filled : Lexing → Lexing
  | quotedEscaped quote => quoted quote
  | plain => plain
  | escaped => escaped
  | commentOpen => commentOpen
  | comment => comment
  | commentClose => commentClose
  | quoted quote => quoted quote

theorem Cell.flatMap_masked_filled (cell : Cell) :
    cell.filled.flatMap Cell.masked = cell.masked := by
  cases h : cell.role with
  | quoted =>
      have hfiller : fillerCell.masked = ['X'] := rfl
      simp only [filled, h, List.flatMap_replicate, hfiller]
      simp [masked, h]
  | code =>
      simp [filled, h]
  | commentStart =>
      simp [filled, h]
  | commentBody =>
      simp [filled, h]

theorem flatMap_masked_filled (cells : List Cell) :
    (cells.flatMap Cell.filled).flatMap Cell.masked =
      cells.flatMap Cell.masked := by
  rw [List.flatMap_assoc]
  simp only [Cell.flatMap_masked_filled]

variable {cells : List Cell}

/-- Outside of comments, filled cells spell the masked text. -/
theorem chars_flatMap_filled (h : Uncommented cells) :
    chars (cells.flatMap Cell.filled) = cells.flatMap Cell.masked := by
  induction cells with
  | nil =>
      rfl
  | cons cell rest ih =>
      obtain ⟨hcell, hrest⟩ := List.forall_mem_cons.mp h
      have hfirst : chars cell.filled = cell.masked := by
        rcases hcell with hrole | hrole <;>
          simp [Cell.filled, Cell.masked, hrole, chars, fillerCell]
      rw [List.flatMap_cons, List.flatMap_cons, chars_append, hfirst, ih hrest]

theorem uncommented_filled (h : Uncommented cells) :
    Uncommented (cells.flatMap Cell.filled) := by
  intro cell hcell
  obtain ⟨original, horiginal, hcell⟩ := List.mem_flatMap.mp hcell
  rcases h original horiginal with hrole | hrole
  · simp only [Cell.filled, hrole, List.mem_singleton] at hcell
    exact .inl (hcell ▸ hrole)
  · simp only [Cell.filled, hrole] at hcell
    rw [List.eq_of_mem_replicate hcell]
    exact .inr rfl

/-- A filled string begins with filler, and all else as before. -/
theorem nextChar_flatMap_filled (cells : List Cell) :
    nextChar (cells.flatMap Cell.filled) none = nextChar cells none ∨
      nextChar (cells.flatMap Cell.filled) none = some 'X' ∧
        (nextChar cells none).isSome = true := by
  cases cells with
  | nil =>
      exact .inl rfl
  | cons cell rest =>
      cases h : cell.role with
      | quoted =>
          obtain ⟨n, hn⟩ :=
            Nat.exists_eq_succ_of_ne_zero
              (Nat.ne_of_gt cell.char.utf8Size_pos)
          right
          simp [Cell.filled, h, hn, List.replicate_succ, fillerCell]
      | code =>
          left
          simp [Cell.filled, h]
      | commentStart =>
          left
          simp [Cell.filled, h]
      | commentBody =>
          left
          simp [Cell.filled, h]

end Filling

section Reading

/-- The quote that ends the string in which the machine stands. -/
def Lexing.quote? : Lexing → Option Char
  | quoted quote | quotedEscaped quote => some quote
  | plain | escaped | commentOpen | comment | commentClose => none

/-- Filler never becomes the quote of a string. -/
theorem quote?_step_ne_filler
    {state : Lexing} (h : state.quote? ≠ some 'X') (c : Char)
    (next : Option Char) : (state.step c next).1.quote? ≠ some 'X' := by
  cases state with
  | plain =>
      simp only [Lexing.step]
      split
      · simp [Lexing.quote?]
      · split
        · next hquote =>
            rintro hfiller
            rw [Option.some.inj hfiller] at hquote
            cases hquote
        · split <;> simp [Lexing.quote?]
  | escaped =>
      simp [Lexing.step, Lexing.quote?]
  | commentOpen =>
      simp [Lexing.step, Lexing.quote?]
  | comment =>
      simp only [Lexing.step]
      split <;> simp [Lexing.quote?]
  | commentClose =>
      simp [Lexing.step, Lexing.quote?]
  | quoted quote =>
      simp only [Lexing.step]
      split
      · simp [Lexing.quote?]
      · split <;> exact h
  | quotedEscaped quote =>
      exact h

/-- Filler leaves the machine in its string. -/
theorem reads_filler {quote : Char} (h : quote ≠ 'X') (n : Nat)
    (next : Option Char) :
    Reads anyhow (.quoted quote) (List.replicate n fillerCell) next
      (.quoted quote) := by
  have hstep : ∀ next, (Lexing.quoted quote).step 'X' next =
      (.quoted quote, .quoted) := by
    intro next
    simp [Lexing.step, isLineBreak, h.symm]
  induction n with
  | zero =>
      exact rfl
  | succ n ih =>
      simp only [List.replicate_succ, Reads, fillerCell, hstep]
      exact ⟨trivial, trivial, ih⟩

/-- One character is read as before when the strings around it are filled. -/
theorem reads_filled_cell
    {state : Lexing} {c : Char} {next next' : Option Char}
    (hquote : state.quote? ≠ some 'X')
    (hrole : (state.step c next).2 = .code ∨ (state.step c next).2 = .quoted)
    (hnext : next' = next ∨ next' = some 'X' ∧ next.isSome = true) :
    Reads anyhow state.filled (Cell.filled ⟨c, (state.step c next).2⟩) next'
      (state.step c next).1.filled := by
  cases state with
  | plain =>
      have hcomment : ¬ (c = '/' ∧ next = some '*') := by
        intro hcomment
        simp [Lexing.step, hcomment] at hrole
      have hstep := step_plain_congr (by decide) hnext hcomment
      have hcode : (Lexing.plain.step c next).2 = .code ∧
          (Lexing.plain.step c next).1.filled =
            (Lexing.plain.step c next).1 := by
        rcases step_plain_cases hcomment with h | h | h <;>
          exact h ▸ ⟨rfl, rfl⟩
      rw [hcode.1, hcode.2, ← hstep]
      exact ⟨trivial, hstep ▸ hcode.1, rfl⟩
  | escaped =>
      exact ⟨trivial, rfl, rfl⟩
  | commentOpen =>
      simp [Lexing.step] at hrole
  | comment =>
      simp only [Lexing.step] at hrole
      split at hrole <;> simp at hrole
  | commentClose =>
      simp [Lexing.step] at hrole
  | quoted quote =>
      by_cases hend : c = quote ∨ isLineBreak c = true
      · have hstep : ∀ after,
            (Lexing.quoted quote).step c after = (.plain, .code) := by
          intro after
          simp only [Lexing.step, if_pos hend]
        rw [hstep]
        simp only [Cell.filled, Lexing.filled, Reads, nextChar_nil, hstep]
        exact ⟨trivial, trivial, trivial⟩
      · have hinside : ((Lexing.quoted quote).step c next).2 = .quoted ∧
            ((Lexing.quoted quote).step c next).1.filled = .quoted quote := by
          simp only [Lexing.step, if_neg hend]
          split <;> exact ⟨rfl, rfl⟩
        rw [hinside.1, hinside.2]
        exact reads_filler (fun h => hquote (congrArg some h)) _ _
  | quotedEscaped quote =>
      exact reads_filler (fun h => hquote (congrArg some h)) _ _

/-- Filling strings changes nothing else in a reading without comments. -/
theorem reads_filled
    {state state' : Lexing} {cells : List Cell}
    (hquote : state.quote? ≠ some 'X') (hcells : Uncommented cells)
    (h : Reads anyhow state cells none state') :
    Reads anyhow state.filled (cells.flatMap Cell.filled) none
      state'.filled := by
  induction cells generalizing state with
  | nil =>
      cases h
      exact rfl
  | cons cell rest ih =>
      obtain ⟨c, role⟩ := cell
      obtain ⟨-, hrole, hrest⟩ := h
      obtain ⟨hcell, hcells⟩ := List.forall_mem_cons.mp hcells
      have hstep : (state.step c (nextChar rest none)).2 = role := hrole
      have hfirst := reads_filled_cell hquote (hstep.symm ▸ hcell)
        (nextChar_flatMap_filled rest)
      rw [hstep] at hfirst
      rw [List.flatMap_cons]
      exact hfirst.append
        (ih (quote?_step_ne_filler hquote _ _) hcells hrest)

end Reading

namespace Masking

/-- The masking of cells that are read outside of comments. -/
theorem ofText_of_reads
    {cells : List Cell} {state : Lexing} (hcells : Uncommented cells)
    (h : Reads anyhow .plain cells none state) :
    ofText (chars cells) =
      { masked := cells.flatMap Cell.masked
        uncommented := chars cells
        comments := []
        endsOpen := state.isOpen } := by
  have hcomments : commentSpans cells = [] := by
    rw [commentSpans_eq_nil_iff]
    intro cell hcell
    rcases hcells cell hcell with hrole | hrole <;> simp [hrole]
  simp only [ofText, annotate_of_reads h, hcomments,
    flatMap_uncommented_eq_chars hcells]

/-- Whether a stylesheet ends inside a string. -/
def endsInString (css : Text) : Bool :=
  (annotate .plain css).1.inString

/-- Once comments are blanked, only a string can be open at the end. -/
theorem isOpen_settled (state : Lexing) :
    state.settled.isOpen = state.inString := by
  cases state <;> rfl

theorem isOpen_filled (state : Lexing) : state.filled.isOpen = state.isOpen := by
  cases state <;> rfl

/--
Masking the uncommented text of a stylesheet gives both its texts again, and
masking its masked text gives that text twice. There are no comments left, and
the text ends open exactly when the stylesheet ends inside a string.
-/
theorem ofText_ofText (css : Text) :
    ofText (ofText css).uncommented =
      { masked := (ofText css).masked
        uncommented := (ofText css).uncommented
        comments := []
        endsOpen := endsInString css } ∧
    ofText (ofText css).masked =
      { masked := (ofText css).masked
        uncommented := (ofText css).masked
        comments := []
        endsOpen := endsInString css } := by
  have hcells := uncommented_settledCells css
  have hread := reads_settledCells css
  have hopen : (annotate .plain css).1.settled.isOpen = endsInString css :=
    isOpen_settled _
  constructor
  · have hagain := ofText_of_reads hcells hread
    rwa [chars_settledCells, flatMap_masked_settledCells, hopen] at hagain
  · have hfilled := reads_filled (by simp [Lexing.quote?]) hcells hread
    have hagain := ofText_of_reads (uncommented_filled hcells) hfilled
    rwa [chars_flatMap_filled hcells, flatMap_masked_filled,
      flatMap_masked_settledCells, isOpen_filled, hopen] at hagain

/-- Comments beside marks, escapes in and out of a string, and no end. -/
example :
    let css := "//**/*\\\"/*\\*/'\\'é\\\n\"a\\".toList
    ofText (ofText css).masked =
      ⟨"/    *\\\"     'XXXXX\n\"XX".toList,
        "/    *\\\"     'XXXXX\n\"XX".toList, [], true⟩ := by
  decide

end Masking

end StylesheetPruning
