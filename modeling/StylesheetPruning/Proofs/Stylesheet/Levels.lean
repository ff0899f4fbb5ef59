import StylesheetPruning.Proofs.Edit.Deletion
import StylesheetPruning.Proofs.Stylesheet.Rewriting
import StylesheetPruning.Proofs.Stylesheet.RuleTree

/-!
# The levels of a stylesheet

The cells of a stylesheet are a level. A level is read from fence to fence: an
opening brace with a partner begins a block, the inside of which is a level
again. All other fences part the level and hold nothing. An outline only tells
leaves apart from the rest; a level has every block.

**Erasing.** Blocks of a level can be erased, each with its selector list, and
so can blocks inside those that stay.

**Results.**
* `exists_level`: all cells are those of a level.
* `Proper.reads_erase`: what is left is read as it was read before.
* `rebuilt_erase`: erasing is to delete spans, in one pass over the text.
* `Proper.ofMasked_masked`: the rules of a stylesheet are the blocks of its
  level.
-/

namespace StylesheetPruning

/-- Cells with the blocks that begin and end among them. -/
inductive Level where
  /-- What stands behind the last fence. -/
  | rest (body : List Cell)
  /-- A run up to a fence that belongs to no block. -/
  | fence (body : List Cell) (c : Char) (after : Level)
  /-- A selector list with its block. -/
  | block (list : List Cell) (inner after : Level)

namespace Level

/-- The cells of a level. -/
def cells : Level → List Cell
  | rest body => body
  | fence body c after => body ++ codeCell c :: after.cells
  | block list inner after => list ++ (blockCells inner.cells ++ after.cells)

/-- The masked text of a level. -/
def masked (level : Level) : Text :=
  level.cells.flatMap Cell.masked

/-- Whether all fences outside of the blocks of a level are as asked for. -/
def Fenced (ok : Char → Prop) : Level → Prop
  | rest _ => True
  | fence _ c after => ok c ∧ after.Fenced ok
  | block _ _ after => after.Fenced ok

/-- No brace of a level is without its partner. -/
abbrev Closed (level : Level) : Prop :=
  level.Fenced (fun c => c = ';')

/-- No closing brace of a level is without its partner. -/
abbrev Strayless (level : Level) : Prop :=
  level.Fenced (fun c => c ≠ '}')

/-- Levels as they come out of cells: every brace with a partner is in a block. -/
inductive Proper : Level → Prop
  | rest {body : List Cell} :
      Fenceless body → Proper (.rest body)
  | fence {body : List Cell} {c : Char} {after : Level} :
      Fenceless body → isFence c = true → c ≠ '{' ∨ after.Strayless →
      Proper after → Proper (.fence body c after)
  | block {list : List Cell} {inner after : Level} :
      Fenceless list → inner.Closed → Proper inner → Proper after →
      Proper (.block list inner after)

theorem masked_fence (body : List Cell) (c : Char) (after : Level) :
    (fence body c after).masked =
      body.flatMap Cell.masked ++ c :: after.masked := by
  simp [masked, cells, codeCell, Cell.masked]

theorem masked_block (list : List Cell) (inner after : Level) :
    (block list inner after).masked =
      list.flatMap Cell.masked ++
        '{' :: (inner.masked ++ '}' :: after.masked) := by
  simp [masked, cells, blockCells, codeCell, Cell.masked]

theorem byteLength_masked (level : Level) :
    byteLength level.masked = width level.cells :=
  byteLength_masked_eq_width level.cells

theorem width_cells_fence (body : List Cell) (c : Char) (after : Level) :
    width (fence body c after).cells =
      width body + c.utf8Size + width after.cells := by
  simp [cells, codeCell, Nat.add_assoc]

theorem width_cells_block (list : List Cell) (inner after : Level) :
    width (block list inner after).cells =
      width list + width inner.cells + 2 + width after.cells := by
  have hleaf := Leaf.width_cells ⟨0, list, inner.cells⟩
  rw [Leaf.cells] at hleaf
  rw [cells, ← List.append_assoc, width_append, hleaf]

theorem Fenced.mono {ok ok' : Char → Prop} (hok : ∀ c, ok c → ok' c)
    {level : Level} (h : level.Fenced ok) : level.Fenced ok' := by
  induction level with
  | rest body =>
      exact trivial
  | fence body c after ih =>
      exact ⟨hok c h.1, ih h.2⟩
  | block list inner after _ ih =>
      exact ih h

theorem Closed.strayless {level : Level} (h : level.Closed) :
    level.Strayless := by
  refine h.mono ?_
  rintro c rfl
  decide

section Building

/-- A level holds a closing brace without a partner, or none. -/
theorem Proper.strayless_or_exists {level : Level} (h : Proper level) :
    level.Strayless ∨
      ∃ inner after : Level, inner.Closed ∧ Proper inner ∧ Proper after ∧
        level.cells = inner.cells ++ codeCell '}' :: after.cells := by
  induction h with
  | rest =>
      exact .inl trivial
  | @fence body c after hbody hc hopen hafter ih =>
      rcases isFence_cases hc with rfl | rfl | rfl
      · exact .inl ⟨by decide, hopen.resolve_left (by simp)⟩
      · exact .inr ⟨.rest body, after, trivial, .rest hbody, hafter, rfl⟩
      · rcases ih with hnone | ⟨inner, behind, hclosed, hinner, hbehind, hcells⟩
        · exact .inl ⟨by decide, hnone⟩
        · refine .inr ⟨.fence body ';' inner, behind, ⟨rfl, hclosed⟩,
            .fence hbody rfl (.inl (by decide)) hinner, hbehind, ?_⟩
          simp [cells, hcells]
  | @block list inner after hlist hinner hproper hafter _ ih =>
      rcases ih with hnone | ⟨inner', behind, hclosed, hinner', hbehind, hcells⟩
      · exact .inl hnone
      · refine .inr ⟨.block list inner inner', behind, hclosed,
          .block hlist hinner hproper hinner', hbehind, ?_⟩
        simp [cells, hcells]

theorem Proper.exists_cons {level : Level} (h : Proper level)
    {cell : Cell} (hcell : cell.isFence = false) :
    ∃ level' : Level, Proper level' ∧ level'.cells = cell :: level.cells := by
  cases h with
  | @rest body hbody =>
      exact ⟨.rest (cell :: body), .rest (Outline.fenceless_cons hcell hbody),
        rfl⟩
  | @fence body c after hbody hc hopen hafter =>
      exact ⟨.fence (cell :: body) c after,
        .fence (Outline.fenceless_cons hcell hbody) hc hopen hafter, rfl⟩
  | @block list inner after hlist hinner hproper hafter =>
      exact ⟨.block (cell :: list) inner after,
        .block (Outline.fenceless_cons hcell hlist) hinner hproper hafter, rfl⟩

/-- All cells are those of a level. -/
theorem exists_level (cells : List Cell) :
    ∃ level : Level, Proper level ∧ level.cells = cells := by
  have hnil : Fenceless [] := by
    simp [Fenceless]
  induction cells with
  | nil =>
      exact ⟨.rest [], .rest hnil, rfl⟩
  | cons cell cells ih =>
      obtain ⟨level, hlevel, rfl⟩ := ih
      cases hcell : cell.isFence with
      | false =>
          exact hlevel.exists_cons hcell
      | true =>
          rcases cell.isFence_cases hcell with rfl | rfl | rfl
          · -- The block ends at the first closing brace without a partner.
            rcases hlevel.strayless_or_exists with
              hnone | ⟨inner, after, hclosed, hinner, hafter, hcells⟩
            · exact ⟨.fence [] '{' level,
                .fence hnil rfl (.inr hnone) hlevel, rfl⟩
            · refine ⟨.block [] inner after,
                .block hnil hclosed hinner hafter, ?_⟩
              simp [Level.cells, blockCells, hcells]
          · exact ⟨.fence [] '}' level,
              .fence hnil rfl (.inl (by decide)) hlevel, rfl⟩
          · exact ⟨.fence [] ';' level,
              .fence hnil rfl (.inl (by decide)) hlevel, rfl⟩

end Building

section Erasing

variable {p : Level → Bool} {level : Level}

/-- A level without the blocks whose inside is as asked for. -/
def erase (p : Level → Bool) : Level → Level
  | rest body => rest body
  | fence body c after => fence body c (after.erase p)
  | block list inner after =>
      if p inner then after.erase p
      else block list (inner.erase p) (after.erase p)

/-- One past the block of a selector list at an offset. -/
def stopOf (offset : Nat) (list : List Cell) (inner : Level) : Nat :=
  offset + width list + width inner.cells + 2

/--
The spans of the erased blocks of a level at an offset. A block inside an
erased one has no span of its own.
-/
def spans (p : Level → Bool) : Nat → Level → List Span
  | _, rest _ => []
  | offset, fence body c after =>
      after.spans p (offset + width body + c.utf8Size)
  | offset, block list inner after =>
      (if p inner then [⟨offset, stopOf offset list inner⟩]
        else inner.spans p (offset + width list + 1)) ++
          after.spans p (stopOf offset list inner)

theorem stopOf_eq (offset : Nat) (list : List Cell) (inner : Level) :
    stopOf offset list inner =
      offset + byteLength (chars (list ++ blockCells inner.cells)) := by
  have hwidth := Leaf.width_cells ⟨offset, list, inner.cells⟩
  simp only [Leaf.cells, width] at hwidth
  rw [hwidth, stopOf, width, width]
  omega

theorem add_byteLength_block (offset : Nat) (list : List Cell) (inner : Level) :
    offset + byteLength (list.flatMap Cell.masked ++
        '{' :: (inner.masked ++ ['}'])) = stopOf offset list inner := by
  rw [byteLength_append_block, byteLength_masked_eq_width, byteLength_masked,
    stopOf]
  omega

theorem add_byteLength_fence (offset : Nat) (body : List Cell) (c : Char) :
    offset + byteLength (body.flatMap Cell.masked ++ [c]) =
      offset + width body + c.utf8Size := by
  rw [byteLength_append, byteLength_masked_eq_width, byteLength_cons,
    byteLength_nil]
  omega

/-- A fence outside of all blocks stays where it is. -/
theorem Fenced.erase {ok : Char → Prop} (h : level.Fenced ok)
    (p : Level → Bool) : (level.erase p).Fenced ok := by
  induction level with
  | rest body =>
      exact trivial
  | fence body c after ih =>
      exact ⟨h.1, ih h.2⟩
  | block list inner after _ ih =>
      rw [Level.erase]
      split
      · exact ih h
      · exact ih h

theorem Proper.erase (h : Proper level) (p : Level → Bool) :
    Proper (level.erase p) := by
  induction h with
  | rest hbody =>
      exact .rest hbody
  | fence hbody hc hopen _ ih =>
      exact .fence hbody hc (hopen.imp_right (fun h => h.erase p)) ih
  | block hlist hclosed _ _ ihinner ihafter =>
      rw [Level.erase]
      split
      · exact ihafter
      · exact .block hlist (hclosed.erase p) ihinner ihafter

theorem reads_fence {cells : List Cell} {c : Char} {next : Option Char}
    {state : Lexing} (hc : isFence c = true)
    (h : Reads anyhow .plain (cells ++ [codeCell c]) next state) :
    (∀ next', Reads anyhow .plain (cells ++ [codeCell c]) next' .plain) ∧
      state = .plain := by
  have hstop := isStop_of_isFence hc
  obtain ⟨hreads, hstate⟩ :=
    reads_stops_of_reads (fun _ _ _ _ => trivial) hstop h
  exact ⟨hreads c hstop, hstate⟩

/--
What is left of a level is read as it was read before, whatever follows it. An
erased block stands between two fences, and both lead to the plain state.
-/
theorem Proper.reads_erase (h : Proper level) (p : Level → Bool)
    {tail : List Cell} {next : Option Char} {state : Lexing}
    (hreads : Reads anyhow .plain (level.cells ++ tail) next state) :
    Reads anyhow .plain ((level.erase p).cells ++ tail) next state := by
  induction h generalizing tail next state with
  | rest =>
      exact hreads
  | @fence body c after hbody hc hopen hafter ih =>
      have hassoc : ∀ behind : Level, (Level.fence body c behind).cells ++ tail =
          (body ++ [codeCell c]) ++ (behind.cells ++ tail) := by
        simp [cells]
      rw [hassoc] at hreads
      obtain ⟨between, hfront, hback⟩ := reads_append.mp hreads
      obtain ⟨hrun, rfl⟩ := reads_fence hc hfront
      rw [Level.erase, hassoc]
      exact (hrun _).append (ih hback)
  | @block list inner after hlist hclosed hinner hafter ihinner ihafter =>
      have hassoc : ∀ inside behind : Level,
          (Level.block list inside behind).cells ++ tail =
            (list ++ [codeCell '{']) ++
              ((inside.cells ++ [codeCell '}']) ++ (behind.cells ++ tail)) := by
        simp [cells, blockCells]
      rw [hassoc] at hreads
      obtain ⟨between, hfront, hback⟩ := reads_append.mp hreads
      obtain ⟨hrun, rfl⟩ := reads_fence rfl hfront
      obtain ⟨between', hinside, hbehind⟩ := reads_append.mp hback
      obtain ⟨-, rfl⟩ := reads_fence rfl hinside
      rw [Level.erase]
      split
      · exact ihafter hbehind
      · obtain ⟨hleft, -⟩ := reads_fence rfl (ihinner hinside)
        rw [hassoc]
        exact (hrun _).append ((hleft _).append (ihafter hbehind))

/-- Erasing is to delete spans, in one pass over the text. -/
theorem rebuilt_erase (p : Level → Bool) (level : Level) (offset : Nat) :
    Rebuilt offset (chars level.cells)
      ((level.spans p offset).map Edit.delete) (chars (level.erase p).cells) := by
  induction level generalizing offset with
  | rest body =>
      exact .done offset _
  | fence body c after ih =>
      have hassoc : ∀ behind : Level, chars (Level.fence body c behind).cells =
          (chars body ++ [c]) ++ chars behind.cells := by
        simp [cells, codeCell]
      have hoffset : offset + width body + c.utf8Size =
          offset + byteLength (chars body ++ [c]) := by
        simp [width, Nat.add_assoc]
      rw [hassoc, Level.erase, hassoc, spans, hoffset]
      exact .keep (ih _)
  | block list inner after ihinner ihafter =>
      rw [Level.erase, spans]
      have hafter := ihafter (stopOf offset list inner)
      split
      · have hcells : chars (Level.block list inner after).cells =
            chars (list ++ blockCells inner.cells) ++ chars after.cells := by
          simp [cells]
        have hold : chars (list ++ blockCells inner.cells) ≠ [] := by
          simp [blockCells]
        rw [stopOf_eq] at hafter ⊢
        rw [hcells, List.singleton_append, List.map_cons]
        exact .replace hold hafter
      · have hassoc : ∀ inside behind : Level,
            chars (Level.block list inside behind).cells =
              (chars list ++ ['{']) ++
                (chars inside.cells ++ (['}'] ++ chars behind.cells)) := by
          simp [cells, blockCells, codeCell]
        have hopen : offset + width list + 1 =
            offset + byteLength (chars list ++ ['{']) := by
          rw [byteLength_append, Nat.add_assoc]
          rfl
        have hstop : stopOf offset list inner =
            offset + byteLength (chars list ++ ['{']) +
              byteLength (chars inner.cells) + byteLength ['}'] := by
          have hclose : byteLength ['}'] = 1 := rfl
          rw [← hopen, hclose, stopOf, width, width]
          omega
        rw [hassoc, hassoc, List.map_append, hopen]
        rw [hstop] at hafter ⊢
        exact .keep ((ihinner _).append (.keep hafter))

/-- The spans of the erased blocks cover what is erased. -/
theorem without_spans (p : Level → Bool) (level : Level) (offset : Nat) :
    without (level.spans p offset) offset (chars level.cells) =
      chars (level.erase p).cells :=
  (without_of_rebuilt (rebuilt_erase p level offset) rfl).symm

end Erasing

section Rules

variable {level : Level}

/-- The rules of a level at an offset. -/
def rules : Nat → Level → List Rule
  | _, rest _ => []
  | offset, fence body c after =>
      after.rules (offset + width body + c.utf8Size)
  | offset, block list inner after =>
      ⟨offset, offset + width list, stopOf offset list inner,
        inner.rules (offset + width list + 1)⟩ ::
          after.rules (stopOf offset list inner)

theorem isFence_of_mem_masked {cells : List Cell} (h : Fenceless cells) :
    ∀ c ∈ cells.flatMap Cell.masked, isFence c = false := by
  intro c hc
  have hbraces := Outline.Braceless.masked h.braceless c hc
  have hsemicolon := Outline.Fenceless.masked h c hc
  simp [isFence, hbraces, hsemicolon]

theorem balanced_fenceless {cells : List Cell} (h : Fenceless cells) :
    Balanced (cells.flatMap Cell.masked) := by
  have hbraces : ∀ c ∈ cells.flatMap Cell.masked, isBrace c = false :=
    fun c hc => isBrace_eq_false_iff.mpr
      (Outline.Braceless.masked h.braceless c hc)
  rw [Balanced, ← depthAfter?_braces, braces_eq_nil hbraces]
  rfl

theorem Proper.balanced (h : Proper level) (hclosed : level.Closed) :
    Balanced level.masked := by
  induction h with
  | rest hbody =>
      exact balanced_fenceless hbody
  | @fence body c after hbody _ _ _ ih =>
      obtain ⟨rfl, hafter⟩ := hclosed
      rw [Balanced, masked_fence, (balanced_fenceless hbody).depthAfter?_append,
        depthAfter?_cons_of_ne (by decide) (by decide)]
      exact ih hafter
  | @block list inner after hlist hinner _ _ ihinner ihafter =>
      rw [Balanced, masked_block, (balanced_fenceless hlist).depthAfter?_append,
        (ihinner hinner).depthAfter?_block]
      exact ihafter hclosed

theorem Proper.depthAfter?_ne_none (h : Proper level)
    (hstrayless : level.Strayless) (depth : Nat) :
    depthAfter? depth level.masked ≠ none := by
  induction h generalizing depth with
  | @rest body hbody =>
      have heq := (balanced_fenceless hbody).depthAfter?_eq depth
      rw [masked, cells, heq]
      simp
  | @fence body c after hbody hc _ _ ih =>
      obtain ⟨hclose, hafter⟩ := hstrayless
      rw [masked_fence, (balanced_fenceless hbody).depthAfter?_append]
      by_cases hopen : c = '{'
      · subst hopen
        rw [depthAfter?_cons_open]
        exact ih hafter _
      · rw [depthAfter?_cons_of_ne hopen hclose]
        exact ih hafter _
  | @block list inner after hlist hclosed hinner _ _ ihafter =>
      rw [masked_block, (balanced_fenceless hlist).depthAfter?_append,
        (hinner.balanced hclosed).depthAfter?_block]
      exact ihafter hstrayless _

theorem lastFence_append_fenceless {cells : List Cell} (h : Fenceless cells)
    (front : Text) :
    lastFence (front ++ cells.flatMap Cell.masked) = lastFence front := by
  have hfences : ∀ c ∈ (cells.flatMap Cell.masked).reverse,
      (!isFence c) = true := by
    intro c hc
    rw [isFence_of_mem_masked h c (List.mem_reverse.mp hc)]
    rfl
  rw [lastFence, List.reverse_append, List.dropWhile_append_of_pos hfences]
  rfl

theorem treeOf_fenceless {cells : List Cell} (h : Fenceless cells)
    {front rest : Text} {rules : List Rule}
    (htree : Rule.TreeOf (front ++ cells.flatMap Cell.masked) rest rules) :
    Rule.TreeOf front (cells.flatMap Cell.masked ++ rest) rules := by
  have hbraces := Outline.Braceless.masked h.braceless
  generalize cells.flatMap Cell.masked = text at htree hbraces
  induction text generalizing front with
  | nil =>
      rwa [List.append_nil] at htree
  | cons c text ih =>
      obtain ⟨hc, htext⟩ := List.forall_mem_cons.mp hbraces
      refine .pass hc.1 (ih ?_ htext)
      rwa [List.append_assoc]

/-- The rules of a level are the tree of its masked text. -/
theorem Proper.treeOf (h : Proper level) {front : Text}
    (hfront : lastFence front = byteLength front) :
    Rule.TreeOf front level.masked (level.rules (byteLength front)) := by
  induction h generalizing front with
  | @rest body hbody =>
      have htree := treeOf_fenceless hbody (.nil (front ++ _))
      rwa [List.append_nil] at htree
  | @fence body c after hbody hc hopen hafter ih =>
      have hrest := ih (lastFence_append_fence hc
        (front ++ body.flatMap Cell.masked))
      rw [List.append_assoc, byteLength_append, add_byteLength_fence,
        ← List.append_assoc] at hrest
      rw [masked_fence]
      refine treeOf_fenceless hbody ?_
      by_cases hbrace : c = '{'
      · subst hbrace
        have hstrayless := hopen.resolve_left (by simp)
        exact .unclosed (hafter.depthAfter?_ne_none hstrayless 0) hrest
      · exact .pass hbrace hrest
  | @block list inner after hlist hclosed hinner _ ihinner ihafter =>
      have hinside := ihinner (lastFence_append_fence (c := '{') rfl
        (front ++ list.flatMap Cell.masked))
      have hblock := lastFence_append_block
        (front ++ list.flatMap Cell.masked) inner.masked
      rw [← byteLength_append_block] at hblock
      have hrest := ihafter hblock
      have htree := Rule.TreeOf.block (hinner.balanced hclosed) hinside hrest
      rw [masked_block]
      refine treeOf_fenceless hlist ?_
      rw [Rule.ofBlock, lastFence_append_fenceless hlist, hfront] at htree
      rw [byteLength_append_block, byteLength_append_open, byteLength_append,
        byteLength_masked_eq_width, byteLength_masked] at htree
      exact htree

/-- The rules of a masked stylesheet are those of its level. -/
theorem Proper.ofMasked_masked (h : Proper level) :
    Rule.ofMasked level.masked = level.rules 0 :=
  Rule.ofMasked_of_treeOf (h.treeOf rfl)

end Rules

end Level

end StylesheetPruning
