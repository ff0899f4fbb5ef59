import StylesheetPruning.Proofs.Stylesheet.Calm

/-!
# Blocks

A block is read calmly from the plain state to the plain state, whatever
follows it. Blocks can be put together in any order.

**Stops.** Fences, commas and spaces that carry structure always lead to the
plain state, so cells up to such a stop are a block. What stands in front of
one stop may stand in front of any other.

**Results.**
* `whole_of_reads`: what is read calmly up to a stop is whole.
* `whole_append_cons`: a stop parts whole cells into whole cells.
* `Coded.masked`, `Coded.uncommented`: texts without comments and strings.
-/

namespace StylesheetPruning

section Stops

/-- Fences, the comma and the space. -/
def isStop (c : Char) : Bool :=
  isFence c || c = ',' || c = ' '

theorem isStop_cases {c : Char} (h : isStop c = true) :
    c = '{' ∨ c = '}' ∨ c = ';' ∨ c = ',' ∨ c = ' ' := by
  simpa only [isStop, isFence, Bool.or_eq_true, decide_eq_true_eq, or_assoc]
    using h

theorem isStop_of_isFence {c : Char} (h : isFence c = true) :
    isStop c = true := by
  simp [isStop, h]

/-- A string was begun by a quote. -/
def Lexing.Proper : Lexing → Prop
  | quoted quote | quotedEscaped quote => isQuote quote = true
  | plain | escaped | commentOpen | comment | commentClose => True

theorem proper_step
    {state : Lexing} (h : state.Proper) (c : Char) (next : Option Char) :
    (state.step c next).1.Proper := by
  cases state with
  | plain =>
      simp only [Lexing.step]
      split
      · exact trivial
      · split
        · next hquote =>
            exact hquote
        · split <;> exact trivial
  | escaped =>
      exact trivial
  | commentOpen =>
      exact trivial
  | comment =>
      simp only [Lexing.step]
      split <;> exact trivial
  | commentClose =>
      exact trivial
  | quoted quote =>
      simp only [Lexing.step]
      split
      · exact trivial
      · split <;> exact h
  | quotedEscaped quote =>
      exact h

theorem Reads.proper
    {ok : Lexing → Cell → Prop} {state state' : Lexing}
    {cells : List Cell} {next : Option Char}
    (h : Reads ok state cells next state') (hstate : state.Proper) :
    state'.Proper := by
  induction cells generalizing state with
  | nil =>
      cases h
      exact hstate
  | cons cell rest ih =>
      exact ih h.2.2 (proper_step hstate cell.char _)

/-- A stop that carries structure stands outside of strings. -/
theorem plain_or_escaped_of_stop
    {state : Lexing} {c : Char} {next : Option Char}
    (hc : isStop c = true) (hstate : state.Proper)
    (hrole : (state.step c next).2 = .code) :
    state = .plain ∨ state = .escaped := by
  cases state with
  | plain =>
      exact .inl rfl
  | escaped =>
      exact .inr rfl
  | commentOpen =>
      cases hrole
  | comment =>
      simp only [Lexing.step] at hrole
      split at hrole <;> cases hrole
  | commentClose =>
      cases hrole
  | quoted quote =>
      have hquote : c ≠ quote ∧ isLineBreak c = false := by
        have hproper : quote = '"' ∨ quote = '\'' := by
          simpa [Lexing.Proper, Lexing.isQuote] using hstate
        rcases isStop_cases hc with rfl | rfl | rfl | rfl | rfl <;>
          rcases hproper with rfl | rfl <;> decide
      simp only [Lexing.step, hquote.1, hquote.2] at hrole
      split at hrole
      · next h =>
          simp at h
      · split at hrole <;> cases hrole
  | quotedEscaped quote =>
      cases hrole

/-- Outside of strings, a stop leads to the plain state. -/
theorem step_stop
    {state : Lexing} (hstate : state = .plain ∨ state = .escaped)
    {c : Char} (hc : isStop c = true) (next : Option Char) :
    state.step c next = (.plain, .code) := by
  rcases hstate with rfl | rfl
  · rcases isStop_cases hc with rfl | rfl | rfl | rfl | rfl <;> rfl
  · rfl

/-- All stops are the same to the character in front of them. -/
theorem step_some_stop
    {c c' : Char} (hc : isStop c = true) (hc' : isStop c' = true)
    (state : Lexing) (d : Char) :
    state.step d (some c) = state.step d (some c') := by
  have hstop : ∀ c, isStop c = true →
      c ≠ '*' ∧ c ≠ '/' ∧ isLineBreak c = false := by
    intro c hc
    rcases isStop_cases hc with rfl | rfl | rfl | rfl | rfl <;> decide
  obtain ⟨hstar, hslash, hbreak⟩ := hstop c hc
  obtain ⟨hstar', hslash', hbreak'⟩ := hstop c' hc'
  cases state <;>
    simp [Lexing.step, hstar, hstar', hslash, hslash', hbreak, hbreak']

end Stops

section Lookahead

variable {ok : Lexing → Cell → Prop}

/-- What follows matters to the last character only. -/
theorem Reads.change_next
    {state state' : Lexing} {cells : List Cell} {next next' : Option Char}
    (h : Reads ok state cells next state')
    (hlast : ∀ s cell, ok s cell →
      s.step cell.char next = (state', cell.role) →
      s.step cell.char next' = (state', cell.role)) :
    Reads ok state cells next' state' := by
  induction cells generalizing state with
  | nil =>
      exact h
  | cons cell rest ih =>
      obtain ⟨hok, hrole, hrest⟩ := h
      cases rest with
      | nil =>
          have hstep : state.step cell.char next = (state', cell.role) :=
            Prod.ext hrest hrole
          have hstep' := hlast state cell hok hstep
          exact ⟨hok, congrArg Prod.snd hstep', congrArg Prod.fst hstep'⟩
      | cons cell' rest =>
          exact ⟨hok, hrole, ih hrest⟩

theorem Reads.change_stop
    {state state' : Lexing} {cells : List Cell} {c c' : Char}
    (hc : isStop c = true) (hc' : isStop c' = true)
    (h : Reads ok state cells (some c) state') :
    Reads ok state cells (some c') state' := by
  refine h.change_next ?_
  intro s cell _ hstep
  rwa [← step_some_stop hc hc']

/-- What is read up to one stop is read up to any other. -/
theorem reads_stops_of_reads
    (hok : ∀ state, state = .plain ∨ state = .escaped → ∀ c,
      isStop c = true → ok state (codeCell c))
    {cells : List Cell} {c : Char} {next : Option Char} {state : Lexing}
    (hc : isStop c = true)
    (h : Reads ok .plain (cells ++ [codeCell c]) next state) :
    (∀ c', isStop c' = true → ∀ next',
      Reads ok .plain (cells ++ [codeCell c']) next' .plain) ∧
      state = .plain := by
  obtain ⟨between, hcells, -, hrole, hlast⟩ := reads_append.mp h
  have hbetween := plain_or_escaped_of_stop hc (hcells.proper trivial) hrole
  constructor
  · intro c' hc' next'
    have hstep := step_stop hbetween hc' next'
    exact (Reads.change_stop hc hc' hcells).append
      ⟨hok between hbetween c' hc', congrArg Prod.snd hstep,
        congrArg Prod.fst hstep⟩
  · have hplain : (between.step c next).1 = state := hlast
    rw [← hplain, step_stop hbetween hc next]

end Lookahead

section Blocks

/-- Cells that are read calmly between plain states, whatever follows. -/
def Block (cells : List Cell) : Prop :=
  ∀ next, Reads calmly .plain cells next .plain

theorem block_nil : Block [] := by
  intro next
  rfl

theorem Block.append {cells cells' : List Cell}
    (h : Block cells) (h' : Block cells') : Block (cells ++ cells') := by
  intro next
  exact (h _).append (h' next)

theorem block_spaces (n : Nat) : Block ((spaces n).map codeCell) :=
  reads_spaces ⟨.inl rfl, rfl⟩ n

/-- Cells that may stand in front of any stop. -/
def Whole (cells : List Cell) : Prop :=
  ∀ c, isStop c = true → Block (cells ++ [codeCell c])

theorem whole_nil : Whole [] := by
  intro c hc next
  have hstep := step_stop (.inl rfl) hc next
  exact ⟨⟨.inl rfl, rfl⟩, congrArg Prod.snd hstep, congrArg Prod.fst hstep⟩

/-- What is read calmly up to a stop is whole. -/
theorem whole_of_reads
    {cells : List Cell} {c : Char} {next : Option Char} {state : Lexing}
    (hc : isStop c = true)
    (h : Reads calmly .plain (cells ++ [codeCell c]) next state) :
    Whole cells ∧ state = .plain := by
  refine reads_stops_of_reads ?_ hc h
  rintro state hstate c -
  refine ⟨.inl rfl, ?_⟩
  rcases hstate with rfl | rfl <;> rfl

/-- A stop parts whole cells into whole cells. -/
theorem whole_append_cons
    {cells cells' : List Cell} {c : Char} (hc : isStop c = true) :
    Whole (cells ++ codeCell c :: cells') ↔ Whole cells ∧ Whole cells' := by
  have hassoc : ∀ d, cells ++ codeCell c :: cells' ++ [codeCell d] =
      (cells ++ [codeCell c]) ++ (cells' ++ [codeCell d]) := by
    simp
  constructor
  · intro h
    have hread := h ' ' rfl none
    rw [hassoc] at hread
    obtain ⟨between, hfront, hback⟩ := reads_append.mp hread
    obtain ⟨hcells, rfl⟩ := whole_of_reads hc hfront
    exact ⟨hcells, (whole_of_reads rfl hback).1⟩
  · rintro ⟨hcells, hcells'⟩ d hd
    rw [hassoc]
    exact (hcells c hc).append (hcells' d hd)

theorem whole_append_spaces {cells : List Cell} (h : Whole cells) (n : Nat) :
    Whole (cells ++ (spaces n).map codeCell) := by
  induction n generalizing cells with
  | zero =>
      simpa [spaces] using h
  | succ n ih =>
      have hspace : Whole (cells ++ [codeCell ' ']) :=
        (whole_append_cons rfl).mpr ⟨h, whole_nil⟩
      have hnext := ih hspace
      rw [List.append_assoc] at hnext
      exact hnext

theorem whole_spaces_append {cells : List Cell} (h : Whole cells) (n : Nat) :
    Whole ((spaces n).map codeCell ++ cells) := by
  intro c hc
  rw [List.append_assoc]
  exact (block_spaces n).append (h c hc)

end Blocks

section Coded

/-- A text that has neither comments nor strings, whatever follows it. -/
def Coded (text : Text) : Prop :=
  Block (text.map codeCell)

theorem coded_nil : Coded [] :=
  block_nil

theorem Coded.append {text text' : Text} (h : Coded text) (h' : Coded text') :
    Coded (text ++ text') := by
  rw [Coded, List.map_append]
  exact Block.append h h'

/-- Whether a character can lead out of the plain state. -/
def Lexing.isTurn (c : Char) : Bool :=
  c = '/' || isQuote c || c = '\\'

theorem coded_singleton {c : Char} (h : Lexing.isTurn c = false) :
    Coded [c] := by
  simp only [Lexing.isTurn, Bool.or_eq_false_iff, decide_eq_false_iff_not] at h
  obtain ⟨⟨hslash, hquote⟩, hback⟩ := h
  have hstep : ∀ next, Lexing.plain.step c next = (.plain, .code) := by
    intro next
    simp [Lexing.step, hslash, hquote, hback]
  intro next
  exact ⟨⟨.inl rfl, rfl⟩, congrArg Prod.snd (hstep next),
    congrArg Prod.fst (hstep next)⟩

theorem coded_of_forall
    {text : Text} (h : ∀ c ∈ text, Lexing.isTurn c = false) : Coded text := by
  induction text with
  | nil =>
      exact coded_nil
  | cons c text ih =>
      have hc : Coded [c] := coded_singleton (h c (by simp))
      exact hc.append (ih (fun d hd => h d (by simp [hd])))

/-- A backslash takes the next character with it. -/
theorem coded_escape (c : Char) : Coded ['\\', c] := by
  intro next
  exact ⟨⟨.inl rfl, rfl⟩, rfl, ⟨.inl rfl, rfl⟩, rfl, rfl⟩

theorem Coded.masked {text : Text} (h : Coded text) :
    (Masking.ofText text).masked = text := by
  have hmasked := masked_of_reads (h none)
  rwa [chars_map_codeCell, flatMap_masked_map_codeCell] at hmasked

theorem Coded.uncommented {text : Text} (h : Coded text) :
    (Masking.ofText text).uncommented = text := by
  have huncommented := uncommented_of_reads (h none)
  rwa [chars_map_codeCell] at huncommented

/-- There is nothing to settle without comments. -/
theorem Coded.settledCells_eq {text : Text} (h : Coded text) :
    settledCells text = text.map codeCell := by
  have hcells := annotate_of_reads (h none)
  rw [chars_map_codeCell] at hcells
  rw [settledCells, hcells, List.flatMap_map, List.map_eq_flatMap]
  rfl

end Coded

end StylesheetPruning
