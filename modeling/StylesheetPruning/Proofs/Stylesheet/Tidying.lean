import StylesheetPruning.Proofs.Stylesheet.BlankBlocks
import StylesheetPruning.Proofs.Stylesheet.LeadingSpace

/-!
# What tidying leaves

Tidying sweeps empty rules out of a text in normal spacing and trims what is
left. A pass deletes behind a fence or at the beginning, so it brings nothing
together that spacing would change, and trimming takes characters away at the
two ends only.

**Spaces at the ends.** The lexing machine reads a space in front as it stands.
A space at the end may be escaped or part of a string, and the character in
front of it has the same role without it. So the rules of a text are as empty
with spaces at its ends as without.

**Results.**
* `emptied_trimSpaces`: trimming makes no rule empty and fills none.
* `tidy_tidy_iff`: tidying once more finds nothing to do exactly when the sweep
  left no empty rule.
* `tidy_stable`: a tidied text is trimmed and in normal spacing, and it stays
  as it is when the sweep came to its end.
-/

namespace StylesheetPruning

section Trimming

theorem head?_trimSpaces (text : Text) : (trimSpaces text).head? ≠ some ' ' := by
  intro hhead
  have hfirst := List.head?_dropWhile_not (fun c => decide (c = ' ')) text
  have hprefix : trimSpaces text <+: text.dropWhile (fun c => decide (c = ' ')) := by
    have hsuffix := List.dropWhile_suffix (fun c => decide (c = ' '))
      (l := (text.dropWhile (fun c => decide (c = ' '))).reverse)
    have hreverse := List.reverse_prefix.mpr hsuffix
    rwa [List.reverse_reverse] at hreverse
  obtain ⟨rest, hrest⟩ := List.head?_eq_some_iff.mp hhead
  rw [hrest] at hprefix
  obtain ⟨back, hback⟩ := hprefix
  rw [← hback] at hfirst
  simp at hfirst

theorem getLast?_trimSpaces (text : Text) :
    (trimSpaces text).getLast? ≠ some ' ' := by
  intro hlast
  have hfirst := List.head?_dropWhile_not (fun c => decide (c = ' '))
    (text.dropWhile (fun c => decide (c = ' '))).reverse
  rw [trimSpaces, List.getLast?_reverse] at hlast
  rw [hlast] at hfirst
  simp at hfirst

/-- A text without spaces at its two ends is trimmed. -/
theorem trimSpaces_eq_self {text : Text}
    (hhead : text.head? ≠ some ' ') (hlast : text.getLast? ≠ some ' ') :
    trimSpaces text = text := by
  have hdrop : ∀ text : Text, text.head? ≠ some ' ' →
      text.dropWhile (fun c => decide (c = ' ')) = text := by
    intro text htext
    cases text with
    | nil =>
        rfl
    | cons c rest =>
        refine List.dropWhile_cons_of_neg ?_
        simpa using htext
  rw [← List.head?_reverse] at hlast
  rw [trimSpaces, hdrop text hhead, hdrop _ hlast, List.reverse_reverse]

/-- Trimming twice is trimming once. -/
theorem trimSpaces_trimSpaces (text : Text) :
    trimSpaces (trimSpaces text) = trimSpaces text :=
  trimSpaces_eq_self (head?_trimSpaces text) (getLast?_trimSpaces text)

end Trimming

namespace EmptyRules

section Ends

theorem emptied_eq_zero_iff {text : Text} :
    emptied text = 0 ↔ spans (Masking.ofText text).masked = [] :=
  List.length_eq_zero_iff

/-- Spaces at the end make no rule empty and fill none. -/
theorem emptied_append_spaces (text : Text) (n : Nat) :
    emptied (text ++ spaces n) = emptied text := by
  obtain ⟨front, back, state, hcells, hfront, hback, hread⟩ :=
    exists_reads_of_append_spaces (chars_annotate .plain (text ++ spaces n))
      (reads_annotate .plain (text ++ spaces n))
  have hwhole : (Masking.ofText (text ++ spaces n)).masked =
      front.flatMap Cell.masked ++ back.flatMap Cell.masked := by
    rw [← List.flatMap_append, ← hcells]
    rfl
  have hpart : (Masking.ofText text).masked = front.flatMap Cell.masked := by
    rw [← hfront]
    exact masked_of_reads hread
  have hfenceless : Fenceless back := by
    intro cell hcell
    have hmem : cell.char ∈ chars back := List.mem_map_of_mem hcell
    rw [hback] at hmem
    rw [Cell.isFence, List.eq_of_mem_replicate hmem]
    exact Bool.and_false _
  rw [emptied, emptied, hwhole, hpart, spans, spans, List.foldl_append,
    Level.foldl_step_fenceless hfenceless]

theorem emptied_spaces_append (n : Nat) (text : Text) :
    emptied (spaces n ++ text) = emptied text := by
  induction n with
  | zero =>
      rfl
  | succ n ih =>
      exact (emptied_cons_idle idle_space (spaces n ++ text)).trans ih

/-- Trimming makes no rule empty and fills none. -/
theorem emptied_trimSpaces (text : Text) :
    emptied (trimSpaces text) = emptied text := by
  obtain ⟨m, n, htext⟩ := exists_spaces_trimSpaces text
  calc
    emptied (trimSpaces text)
      = emptied (trimSpaces text ++ spaces n) :=
          (emptied_append_spaces _ n).symm
    _ = emptied (spaces m ++ (trimSpaces text ++ spaces n)) :=
          (emptied_spaces_append m _).symm
    _ = emptied text := by
          rw [← htext]

end Ends

section Ending

/--
Whether the sweep of a text ends with a pass that finds no empty rule, and not
at the greatest number of passes.
-/
def ComesToEnd (text : Text) : Prop :=
  ∃ n < passLimit, emptied (pass^[n] text) = 0

/-- A sweep that comes to its end leaves no empty rule. -/
theorem ComesToEnd.emptied_sweep {text : Text} (h : ComesToEnd text) :
    emptied (sweep text).text = 0 := by
  obtain ⟨n, hlimit, hn⟩ := h
  have hfixed : pass (pass^[n] text) = pass^[n] text :=
    pass_eq_self (emptied_eq_zero_iff.mp hn)
  have hsweep : (sweep text).text = pass^[n] text := by
    obtain ⟨k, hk⟩ := Nat.exists_eq_add_of_le (Nat.le_of_lt hlimit)
    rw [sweep, text_run, hk, Nat.add_comm, Function.iterate_add_apply,
      Function.iterate_fixed hfixed]
  rw [hsweep, hn]

end Ending

end EmptyRules

section Tidied

open EmptyRules

variable (text : Text) (edits : List Edit)

theorem text_tidy :
    (tidy text edits).text =
      trimSpaces (sweep (normalSpacing (Edit.applyAll text edits))).text := by
  rw [tidy]

/-- Tidying keeps the normal spacing through all passes. -/
theorem normalSpaced_tidy : NormalSpaced (tidy text edits).text := by
  rw [text_tidy]
  refine NormalSpaced.of_part ?_ (trimSpaces_part _)
  refine sweep_preserves (fun _ htext => NormalSpaced.pass htext) ?_
  exact normalSpaced_normalSpacing _

/-- Without edits, a text in normal spacing is swept and trimmed. -/
theorem NormalSpaced.tidy_nil {text : Text} (h : NormalSpaced text) :
    tidy text [] =
      { sweep text with text := trimSpaces (sweep text).text } := by
  rw [tidy, Edit.applyAll_nil, h.eq_self]

/--
A trimmed text in normal spacing is tidy exactly when none of its rules is
empty.
-/
theorem NormalSpaced.tidy_nil_eq_self_iff {text : Text}
    (h : NormalSpaced text) (htrim : trimSpaces text = text) :
    tidy text [] = ⟨text, 0⟩ ↔ emptied text = 0 := by
  rw [h.tidy_nil]
  constructor
  · intro heq
    have hremoved : (sweep text).removed = 0 := congrArg Sweep.removed heq
    have hle := emptied_le_removed_sweep text
    rw [hremoved] at hle
    exact Nat.le_zero.mp hle
  · intro hempty
    rw [sweep_eq_self (emptied_eq_zero_iff.mp hempty), htrim]

/-- Tidying again finds nothing exactly when the sweep left no empty rule. -/
theorem tidy_tidy_iff :
    tidy (tidy text edits).text [] = ⟨(tidy text edits).text, 0⟩ ↔
      emptied (sweep (normalSpacing (Edit.applyAll text edits))).text = 0 := by
  have hnormal := normalSpaced_tidy text edits
  rw [text_tidy] at hnormal ⊢
  rw [hnormal.tidy_nil_eq_self_iff (trimSpaces_trimSpaces _),
    emptied_trimSpaces]

/--
A tidied text neither begins nor ends with a space and is in normal spacing.
When the sweep comes to its end, tidying the text again changes nothing.
-/
theorem tidy_stable :
    (tidy text edits).text.head? ≠ some ' ' ∧
    (tidy text edits).text.getLast? ≠ some ' ' ∧
    normalSpacing (tidy text edits).text = (tidy text edits).text ∧
    (ComesToEnd (normalSpacing (Edit.applyAll text edits)) →
      tidy (tidy text edits).text [] = ⟨(tidy text edits).text, 0⟩) := by
  refine ⟨?_, ?_, (normalSpaced_tidy text edits).eq_self, ?_⟩
  · rw [text_tidy]
    exact head?_trimSpaces _
  · rw [text_tidy]
    exact getLast?_trimSpaces _
  · intro hend
    exact (tidy_tidy_iff text edits).mpr hend.emptied_sweep

end Tidied

/-- A group that an edit and two passes empty, in front of an escaped space. -/
theorem tidy_stable_group :
    let text := " @m\x7b.a \x7bx\x7d /*c*/ \x7d\n  p \x7bz: '\x7d' \x7d\\ ".toList
    let edits : List Edit := [Edit.delete ⟨8, 9⟩]
    EmptyRules.ComesToEnd (normalSpacing (Edit.applyAll text edits)) ∧
      tidy text edits = ⟨"p\x7bz:'\x7d' \x7d\\".toList, 2⟩ ∧
      tidy (tidy text edits).text [] = ⟨(tidy text edits).text, 0⟩ := by
  have hend : EmptyRules.ComesToEnd (normalSpacing (Edit.applyAll
      " @m\x7b.a \x7bx\x7d /*c*/ \x7d\n  p \x7bz: '\x7d' \x7d\\ ".toList
      [Edit.delete ⟨8, 9⟩])) :=
    ⟨2, by decide, by decide +kernel⟩
  exact ⟨hend, by decide +kernel, (tidy_stable _ _).2.2.2 hend⟩

end StylesheetPruning
