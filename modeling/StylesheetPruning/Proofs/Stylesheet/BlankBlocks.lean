import StylesheetPruning.Proofs.Stylesheet.Levels
import StylesheetPruning.Proofs.Stylesheet.Sweeping

/-!
# Bare and blank blocks

A block is bare when only whitespace stands in it, and blank when only
whitespace is left of it without the blank blocks in it. The empty rules of a
stylesheet are its bare blocks, so a pass of the sweep erases these. Enough
passes erase all blank blocks.

**Passes.** A pass keeps every level blank or not as it was. Of the blank
blocks that are nested in one another it erases the innermost, which is bare.

**Results.**
* `Proper.spans_masked`: the empty rules are the bare blocks.
* `Proper.pass_eq_erase`: a pass erases them.
* `erase_isBlank_erase`, `count_isBlank`, `height_erase_isBare`: what a pass
  changes about the blank blocks.
* `Proper.run_eq`: what enough passes leave, and how many rules they remove.
-/

namespace StylesheetPruning

namespace Level

section Passes

/-- A level that is all whitespace. -/
def isBare : Level → Bool
  | rest body => (body.flatMap Cell.masked).all isSpace
  | fence _ _ _ => false
  | block _ _ _ => false

variable {level : Level}

theorem exists_rest_of_isBare (h : level.isBare = true) :
    ∃ body, level = .rest body := by
  cases level with
  | rest body =>
      exact ⟨body, rfl⟩
  | fence body c after =>
      cases h
  | block list inner after =>
      cases h

theorem spans_of_isBare (h : level.isBare = true) (p : Level → Bool)
    (offset : Nat) : level.spans p offset = [] := by
  obtain ⟨body, rfl⟩ := exists_rest_of_isBare h
  rfl

/-- Without fences the scan only sees whether there is more than whitespace. -/
theorem foldl_step_of_forall {text : Text} (h : ∀ c ∈ text, isFence c = false)
    (scan : EmptyRules.Scan) :
    text.foldl EmptyRules.Scan.step scan =
      { scan with
        offset := scan.offset + byteLength text
        candidate := if text.all isSpace then scan.candidate else none } := by
  induction text generalizing scan with
  | nil =>
      rfl
  | cons c rest ih =>
      obtain ⟨hc, hrest⟩ := List.forall_mem_cons.mp h
      simp only [isFence, Bool.or_eq_false_iff, decide_eq_false_iff_not] at hc
      rw [List.foldl_cons, ih hrest, byteLength_cons, ← Nat.add_assoc]
      cases hspace : isSpace c <;>
        simp [EmptyRules.Scan.step, hc, hspace]

theorem foldl_step_fenceless {cells : List Cell} (h : Fenceless cells)
    (scan : EmptyRules.Scan) :
    (cells.flatMap Cell.masked).foldl EmptyRules.Scan.step scan =
      { scan with
        offset := scan.offset + width cells
        candidate :=
          if (cells.flatMap Cell.masked).all isSpace then scan.candidate
          else none } := by
  rw [foldl_step_of_forall (isFence_of_mem_masked h),
    byteLength_masked_eq_width]

/-- A block is left with the spans of its bare blocks, or with its own. -/
theorem foldl_step_block {list : List Cell} {inner : Level}
    (hlist : Fenceless list) {offset boundary : Nat} {found : List Span}
    (hinner : inner.masked.foldl EmptyRules.Scan.step
        ⟨offset + width list + 1, offset + width list + 1, some offset, found⟩ =
      ⟨offset + width list + 1 + width inner.cells, boundary,
        if inner.isBare then some offset else none,
        (inner.spans isBare (offset + width list + 1)).reverse ++ found⟩)
    (candidate : Option Nat) (text : Text) :
    (list.flatMap Cell.masked ++ '{' :: (inner.masked ++ '}' :: text)).foldl
        EmptyRules.Scan.step ⟨offset, offset, candidate, found⟩ =
      text.foldl EmptyRules.Scan.step
        ⟨stopOf offset list inner, stopOf offset list inner, none,
          (if inner.isBare then [⟨offset, stopOf offset list inner⟩]
            else inner.spans isBare (offset + width list + 1)).reverse ++
              found⟩ := by
  have hopen : ∀ candidate : Option Nat, EmptyRules.Scan.step
      ⟨offset + width list, offset, candidate, found⟩ '{' =
      ⟨offset + width list + 1, offset + width list + 1, some offset, found⟩ :=
    fun _ => rfl
  have hstop : offset + width list + 1 + width inner.cells + 1 =
      stopOf offset list inner := by
    rw [stopOf]
    omega
  have hsize : ('}' : Char).utf8Size = 1 := rfl
  rw [List.foldl_append, foldl_step_fenceless hlist, List.foldl_cons, hopen,
    List.foldl_append, hinner, List.foldl_cons]
  congr 1
  cases hbare : inner.isBare with
  | true =>
      simp [EmptyRules.Scan.step, hsize, hstop, spans_of_isBare hbare]
  | false =>
      simp [EmptyRules.Scan.step, hsize, hstop]

/--
The scan finds the bare blocks of a level. Behind a closed level, the rule
around it is still a candidate if the level is bare.
-/
theorem Proper.foldl_step (h : Proper level) (offset : Nat)
    (candidate : Option Nat) (found : List Span)
    (hcandidate : candidate = none ∨ level.Strayless) :
    ∃ boundary candidate',
      level.masked.foldl EmptyRules.Scan.step
          ⟨offset, offset, candidate, found⟩ =
        ⟨offset + width level.cells, boundary, candidate',
          (level.spans isBare offset).reverse ++ found⟩ ∧
      (level.Closed →
        candidate' = if level.isBare then candidate else none) := by
  induction h generalizing offset candidate found with
  | @rest body hbody =>
      exact ⟨_, _, foldl_step_fenceless hbody _, fun _ => rfl⟩
  | @fence body c after hbody hc hopen hafter ih =>
      -- Behind a fence, only an opening brace leaves a candidate.
      rw [masked_fence, List.foldl_append, foldl_step_fenceless hbody,
        List.foldl_cons, width_cells_fence, ← Nat.add_assoc, ← Nat.add_assoc]
      rcases isFence_cases hc with rfl | rfl | rfl
      · have hstrayless := hopen.resolve_left (by simp)
        obtain ⟨boundary, candidate', hfold, -⟩ :=
          ih (offset + width body + 1) (some offset) found
            (.inr hstrayless)
        exact ⟨boundary, candidate', hfold, fun hclosed => by cases hclosed.1⟩
      · obtain rfl : candidate = none :=
          hcandidate.resolve_right (fun hstrayless => hstrayless.1 rfl)
        obtain ⟨boundary, candidate', hfold, -⟩ :=
          ih (offset + width body + 1) none found (.inl rfl)
        refine ⟨boundary, candidate', ?_, fun hclosed => by cases hclosed.1⟩
        rw [ite_self]
        exact hfold
      · obtain ⟨boundary, candidate', hfold, hnone⟩ :=
          ih (offset + width body + 1) none found (.inl rfl)
        refine ⟨boundary, candidate', hfold, ?_⟩
        intro hclosed
        rw [hnone hclosed.2, ite_self]
        rfl
  | @block list inner after hlist hclosed hinner hafter ihinner ihafter =>
      obtain ⟨_, _, hinside, hbare⟩ :=
        ihinner (offset + width list + 1) (some offset) found
          (.inr hclosed.strayless)
      rw [hbare hclosed] at hinside
      obtain ⟨boundary, candidate', hbehind, hnone⟩ :=
        ihafter (stopOf offset list inner) none _ (.inl rfl)
      refine ⟨boundary, candidate', ?_, ?_⟩
      · rw [masked_block, foldl_step_block hlist hinside, hbehind, spans,
          List.reverse_append, List.append_assoc, width_cells_block, stopOf]
        simp only [Nat.add_assoc]
      · intro hclosed
        rw [hnone hclosed, ite_self]
        rfl

/-- The empty rules of a stylesheet are its bare blocks. -/
theorem Proper.spans_masked (h : Proper level) :
    EmptyRules.spans level.masked = level.spans isBare 0 := by
  obtain ⟨boundary, candidate, hfold, -⟩ :=
    h.foldl_step 0 none [] (.inl rfl)
  rw [EmptyRules.spans, EmptyRules.Scan.start, hfold]
  simp

/-- A level that is a whole stylesheet. -/
def Standing (level : Level) : Prop :=
  ∃ state, Reads anyhow .plain level.cells none state

theorem Proper.standing_erase (h : Proper level) (hstanding : level.Standing)
    (p : Level → Bool) : (level.erase p).Standing := by
  obtain ⟨state, hreads⟩ := hstanding
  rw [← List.append_nil level.cells] at hreads
  have herase := h.reads_erase p hreads
  rw [List.append_nil] at herase
  exact ⟨state, herase⟩

theorem Standing.masked_eq (h : level.Standing) :
    (Masking.ofText (chars level.cells)).masked = level.masked := by
  obtain ⟨state, hreads⟩ := h
  exact masked_of_reads hreads

/-- A pass erases the bare blocks. -/
theorem Proper.pass_eq_erase (h : Proper level) (hstanding : level.Standing) :
    EmptyRules.pass (chars level.cells) = chars (level.erase isBare).cells := by
  rw [EmptyRules.pass, hstanding.masked_eq, h.spans_masked]
  exact Edit.applyAll_of_rebuilt (rebuilt_erase isBare level 0)

theorem Proper.emptied_eq (h : Proper level) (hstanding : level.Standing) :
    EmptyRules.emptied (chars level.cells) = (level.spans isBare 0).length := by
  rw [EmptyRules.emptied, hstanding.masked_eq, h.spans_masked]

end Passes

section Blanks

variable {q : Level → Bool} {level : Level}

/-- Whether only whitespace is left of a level without its blank blocks. -/
def isBlank : Level → Bool
  | rest body => (body.flatMap Cell.masked).all isSpace
  | fence _ _ _ => false
  | block _ inner after => inner.isBlank && after.isBlank

/-- Number of blocks whose inside is as asked for, at all levels. -/
def count (q : Level → Bool) : Level → Nat
  | rest _ => 0
  | fence _ _ after => after.count q
  | block _ inner after =>
      (if q inner then inner.count q + 1 else inner.count q) + after.count q

/-- How deep blocks whose inside is as asked for are nested in one another. -/
def height (q : Level → Bool) : Level → Nat
  | rest _ => 0
  | fence _ _ after => after.height q
  | block _ inner after =>
      max (if q inner then inner.height q + 1 else inner.height q)
        (after.height q)

theorem isBlank_of_isBare (h : level.isBare = true) : level.isBlank = true := by
  obtain ⟨body, rfl⟩ := exists_rest_of_isBare h
  exact h

variable (hq : ∀ level : Level, q level = true → level.isBlank = true)

include hq

/-- Erasing blank blocks keeps every level blank or not. -/
theorem isBlank_erase (level : Level) :
    (level.erase q).isBlank = level.isBlank := by
  induction level with
  | rest body =>
      rfl
  | fence body c after _ =>
      rfl
  | block list inner after ihinner ihafter =>
      rw [erase]
      split
      · next hinner =>
          rw [ihafter, isBlank, hq inner hinner, Bool.true_and]
      · rw [isBlank, ihinner, ihafter, isBlank]

/-- To erase some blank blocks first changes nothing in the end. -/
theorem erase_isBlank_erase (level : Level) :
    (level.erase q).erase isBlank = level.erase isBlank := by
  induction level with
  | rest body =>
      rfl
  | fence body c after ih =>
      rw [erase, erase, erase, ih]
  | block list inner after ihinner ihafter =>
      rw [erase]
      split
      · next hinner =>
          rw [ihafter, erase, if_pos (hq inner hinner)]
      · rw [erase, erase, isBlank_erase hq, ihinner, ihafter]

omit hq

/-- Nothing bare is left when the blank blocks are erased. -/
theorem spans_isBare_erase (level : Level) (offset : Nat) :
    (level.erase isBlank).spans isBare offset = [] := by
  induction level generalizing offset with
  | rest body =>
      rfl
  | fence body c after ih =>
      exact ih _
  | block list inner after ihinner ihafter =>
      rw [erase]
      split
      · exact ihafter _
      · next hinner =>
          have hbare : ¬ (inner.erase isBlank).isBare = true := by
            intro hbare
            have hblank := isBlank_of_isBare hbare
            rw [isBlank_erase (fun _ h => h)] at hblank
            exact hinner hblank
          rw [spans, if_neg hbare, ihinner, ihafter, List.append_nil]

theorem count_of_isBare (h : level.isBare = true) (q : Level → Bool) :
    level.count q = 0 := by
  obtain ⟨body, rfl⟩ := exists_rest_of_isBare h
  rfl

/-- A pass removes its share of the blank blocks. -/
theorem count_isBlank (level : Level) (offset : Nat) :
    level.count isBlank = (level.spans isBare offset).length +
      (level.erase isBare).count isBlank := by
  induction level generalizing offset with
  | rest body =>
      rfl
  | fence body c after ih =>
      exact ih _
  | block list inner after ihinner ihafter =>
      rw [erase, spans, count, List.length_append,
        ihafter (stopOf offset list inner)]
      cases hbare : inner.isBare with
      | true =>
          rw [isBlank_of_isBare hbare, count_of_isBare hbare, if_pos rfl,
            if_pos rfl, if_pos rfl, List.length_singleton]
          omega
      | false =>
          simp only [Bool.false_eq_true, if_false]
          rw [count, isBlank_erase (fun _ h => isBlank_of_isBare h),
            ihinner (offset + width list + 1)]
          split <;> omega

/-- A level that is blank and not bare has a blank block. -/
theorem height_pos (hblank : level.isBlank = true) (hbare : ¬ level.isBare = true) :
    0 < level.height isBlank := by
  cases level with
  | rest body =>
      exact absurd hblank hbare
  | fence body c after =>
      cases hblank
  | block list inner after =>
      rw [isBlank, Bool.and_eq_true] at hblank
      rw [height, if_pos hblank.1]
      omega

/-- After a pass, blank blocks are nested one less deep. -/
theorem height_erase_isBare (level : Level) :
    (level.erase isBare).height isBlank ≤ level.height isBlank - 1 := by
  induction level with
  | rest body =>
      exact Nat.le_refl _
  | fence body c after ih =>
      exact ih
  | block list inner after ihinner ihafter =>
      rw [erase, height]
      split
      · omega
      · next hbare =>
          rw [height, isBlank_erase (fun _ h => isBlank_of_isBare h)]
          split
          · next hblank =>
              have hpos := height_pos hblank hbare
              omega
          · omega

/-- Without blank blocks there is nothing to erase. -/
theorem erase_eq_self (h : level.height isBlank = 0) :
    level.erase isBlank = level ∧ level.count isBlank = 0 := by
  induction level with
  | rest body =>
      exact ⟨rfl, rfl⟩
  | fence body c after ih =>
      obtain ⟨herase, hcount⟩ := ih h
      rw [erase, herase]
      exact ⟨rfl, hcount⟩
  | block list inner after ihinner ihafter =>
      rw [height, Nat.max_eq_zero_iff] at h
      obtain ⟨hblock, hafter⟩ := h
      cases hblank : inner.isBlank with
      | true =>
          rw [hblank, if_pos rfl] at hblock
          cases hblock
      | false =>
          rw [hblank, if_neg (by simp)] at hblock
          obtain ⟨hinner, hcount⟩ := ihinner hblock
          obtain ⟨hbehind, hcount'⟩ := ihafter hafter
          rw [erase, count, hblank, hinner, hbehind, hcount, hcount']
          exact ⟨rfl, rfl⟩

/-- What enough passes leave of a level, and how many rules they remove. -/
theorem Proper.run_eq (h : Proper level) (hstanding : level.Standing) {n : Nat}
    (hheight : level.height isBlank ≤ n) (removed : Nat) :
    EmptyRules.Sweep.run n ⟨chars level.cells, removed⟩ =
      ⟨chars (level.erase isBlank).cells, removed + level.count isBlank⟩ := by
  induction n generalizing level removed with
  | zero =>
      obtain ⟨herase, hcount⟩ := erase_eq_self (Nat.le_zero.mp hheight)
      rw [herase, hcount]
      rfl
  | succ n ih =>
      have hnext := level.height_erase_isBare
      rw [EmptyRules.run_succ, h.pass_eq_erase hstanding,
        h.emptied_eq hstanding,
        ih (h.erase isBare) (h.standing_erase hstanding isBare) (by omega),
        erase_isBlank_erase (fun _ h => isBlank_of_isBare h),
        level.count_isBlank 0, Nat.add_assoc]

end Blanks

end Level

end StylesheetPruning
