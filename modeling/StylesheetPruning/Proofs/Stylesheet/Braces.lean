import Mathlib.Algebra.GroupWithZero.Nat
import StylesheetPruning.Proofs.Stylesheet.Sweeping

/-!
# Braces and empty pairs

Braces that carry structure are what the masked text has of braces, and gaps
have none. A pair of braces with nothing but whitespace and comments between
them is an empty rule.

**Visible text.** `visible` keeps the characters that carry structure and are
no whitespace. It is the same for cells with the same gist.

**Pairs.** `LosesPairs n` says that `n` pairs of braces, each empty when its
turn came, were taken out of a text. This keeps the depth behind the text.

**Results.**
* `length_spans_masked`: empty rules are empty pairs of the visible text.
* `LosesPairs.count_open`, `LosesPairs.count_close`, `LosesPairs.depthAfter?`:
  what is lost with pairs of braces.
* `losesPairs_rewritten`: the braces of a stylesheet with other leaves.
* `losesPairs_pass`: the braces behind a pass of the sweep.
-/

namespace StylesheetPruning

section Visible

/-- Opening and closing braces. -/
def isBrace (c : Char) : Bool :=
  c = '{' || c = '}'

theorem isBrace_eq_false_iff {c : Char} :
    isBrace c = false ↔ c ≠ '{' ∧ c ≠ '}' := by
  simp [isBrace]

/-- A text without all that is no brace. -/
def braces (text : Text) : Text :=
  text.filter isBrace

@[simp] theorem braces_append (text text' : Text) :
    braces (text ++ text') = braces text ++ braces text' :=
  List.filter_append _ _

theorem braces_eq_nil {text : Text} (h : ∀ c ∈ text, isBrace c = false) :
    braces text = [] :=
  List.filter_eq_nil_iff.mpr (fun c hc => by simp [h c hc])

/-- Whether a cell carries structure and is no whitespace. -/
def Cell.isVisible (cell : Cell) : Bool :=
  cell.role = .code && !isSpace cell.char

/-- The characters that carry structure, without whitespace. -/
def visible (cells : List Cell) : Text :=
  chars (cells.filter Cell.isVisible)

@[simp] theorem visible_nil : visible [] = [] := rfl

@[simp] theorem visible_append (cells cells' : List Cell) :
    visible (cells ++ cells') = visible cells ++ visible cells' := by
  simp [visible]

theorem visible_cons (cell : Cell) (rest : List Cell) :
    visible (cell :: rest) =
      if cell.isVisible then cell.char :: visible rest else visible rest := by
  by_cases h : cell.isVisible = true <;> simp [visible, h]

theorem visible_cons_codeCell {c : Char} (h : isSpace c = false)
    (rest : List Cell) : visible (codeCell c :: rest) = c :: visible rest := by
  simp [visible_cons, Cell.isVisible, codeCell, h]

@[simp] theorem visible_spaces (n : Nat) :
    visible ((spaces n).map codeCell) = [] := by
  simp [visible, spaces, codeCell, Cell.isVisible, isSpace]

/-- Gaps are not visible. -/
theorem visible_gist (cells : List Cell) : visible (gist cells) = visible cells := by
  rw [visible, visible, gist, List.filter_filter]
  congr 2
  funext cell
  cases hgap : isGap cell.char with
  | false =>
      simp
  | true =>
      simp [Cell.isVisible, isSpace_of_isGap hgap]

/-- The masked text has the braces that are visible. -/
theorem braces_masked (cells : List Cell) :
    braces (cells.flatMap Cell.masked) = braces (visible cells) := by
  have hcell : ∀ cell : Cell, braces cell.masked = braces (visible [cell]) := by
    intro cell
    have hfiller : ∀ n, braces (List.replicate n 'X') = [] := fun n =>
      braces_eq_nil (fun c hc => by rw [List.eq_of_mem_replicate hc]; rfl)
    have hspaces : ∀ n, braces (spaces n) = [] := fun n =>
      braces_eq_nil (fun c hc => by rw [List.eq_of_mem_replicate hc]; rfl)
    cases hrole : cell.role with
    | code =>
        rw [visible_cons, Cell.isVisible, Cell.masked, hrole]
        cases hspace : isSpace cell.char with
        | false =>
            simp
        | true =>
            refine braces_eq_nil (List.forall_mem_singleton.mpr ?_)
            rw [isBrace_eq_false_iff]
            constructor
            · intro hopen
              simp [hopen, isSpace] at hspace
            · intro hclose
              simp [hclose, isSpace] at hspace
    | quoted =>
        simp [visible_cons, Cell.isVisible, Cell.masked, hrole, hfiller]
        rfl
    | commentStart =>
        simp [visible_cons, Cell.isVisible, Cell.masked, hrole, hspaces]
        rfl
    | commentBody =>
        simp [visible_cons, Cell.isVisible, Cell.masked, hrole, hspaces]
        rfl
  induction cells with
  | nil =>
      rfl
  | cons cell rest ih =>
      have happend := visible_append [cell] rest
      rw [List.singleton_append] at happend
      rw [List.flatMap_cons, braces_append, ih, hcell, happend, braces_append]

theorem Braceless.braces_visible {cells : List Cell} (h : Braceless cells) :
    braces (visible cells) = [] := by
  rw [← braces_masked]
  refine braces_eq_nil ?_
  intro c hc
  exact isBrace_eq_false_iff.mpr (Outline.Braceless.masked h c hc)

/-- A leaf has one pair of braces. -/
theorem braces_visible_leaf
    {list inner : List Cell} (hlist : Fenceless list)
    (hinner : Braceless inner) :
    braces (visible (list ++ blockCells inner)) = ['{', '}'] := by
  have hopen : ∀ cells, braces (visible (codeCell '{' :: cells)) =
      '{' :: braces (visible cells) := by
    intro cells
    rw [visible_cons_codeCell rfl]
    rfl
  have hclose : braces (visible [codeCell '}']) = ['}'] := rfl
  rw [visible_append, braces_append, hlist.braceless.braces_visible, blockCells,
    hopen, visible_append, braces_append, hinner.braces_visible, hclose]
  rfl

end Visible

section EmptyPairs

/-- Number of opening braces with a closing brace right behind them. -/
def emptyPairs : Text → Nat
  | [] => 0
  | c :: rest =>
      emptyPairs rest + if c = '{' ∧ rest.head? = some '}' then 1 else 0

theorem emptyPairs_cons_of_ne {c : Char} (h : c ≠ '{') (rest : Text) :
    emptyPairs (c :: rest) = emptyPairs rest := by
  simp [emptyPairs, h]

theorem emptyPairs_open_of_ne {c : Char} (h : c ≠ '}') (rest : Text) :
    emptyPairs ('{' :: c :: rest) = emptyPairs (c :: rest) := by
  rw [emptyPairs]
  simp [h]

theorem emptyPairs_open_close (rest : Text) :
    emptyPairs ('{' :: '}' :: rest) = emptyPairs rest + 1 := by
  rw [emptyPairs, emptyPairs_cons_of_ne (by decide)]
  simp

theorem emptyPairs_append_le (text text' : Text) :
    emptyPairs text + emptyPairs text' ≤ emptyPairs (text ++ text') := by
  induction text with
  | nil =>
      simp [emptyPairs]
  | cons c rest ih =>
      rw [List.cons_append, emptyPairs, emptyPairs]
      cases rest with
      | nil =>
          simp [emptyPairs]
      | cons d rest =>
          have hhead : (d :: rest ++ text').head? = (d :: rest).head? := rfl
          rw [hhead]
          omega

theorem Cell.eq_codeCell_of_isVisible {cell : Cell}
    (h : cell.isVisible = true) : cell = codeCell cell.char := by
  simp only [isVisible, Bool.and_eq_true, decide_eq_true_eq] at h
  obtain ⟨c, role⟩ := cell
  rw [codeCell, ← h.1]

/-- Outside of strings, what is not visible is masked as whitespace. -/
theorem all_isSpace_masked
    {state : Lexing} {cell : Cell} {next : Option Char}
    (hstate : state.isPlain = true)
    (hrole : (state.step cell.char next).2 = cell.role) :
    cell.masked.all isSpace = !cell.isVisible := by
  have hspaces : ∀ n, (spaces n).all isSpace = true := by
    intro n
    rw [List.all_eq_true]
    intro c hc
    rw [List.eq_of_mem_replicate hc]
    rfl
  cases hcell : cell.role with
  | code =>
      simp [Cell.masked, Cell.isVisible, hcell]
  | quoted =>
      rw [hcell] at hrole
      have hcode : (state.step cell.char next).2 = .code →
          isSpace cell.char = true := by
        intro hcode
        rw [hrole] at hcode
        cases hcode
      exact absurd hrole (step_of_isPlain hstate hcode).1
  | commentStart =>
      simp [Cell.masked, Cell.isVisible, hcell, hspaces]
  | commentBody =>
      simp [Cell.masked, Cell.isVisible, hcell, hspaces]

section Pending

/-- The opening brace of a block that is hollow so far. -/
def pendingBrace (hollow : Bool) : Text :=
  if hollow then ['{'] else []

theorem emptyPairs_pending_open (hollow : Bool) (text : Text) :
    emptyPairs (pendingBrace hollow ++ '{' :: text) =
      emptyPairs ('{' :: text) := by
  cases hollow with
  | false =>
      rfl
  | true =>
      exact emptyPairs_open_of_ne (by decide) _

theorem emptyPairs_pending_close (hollow : Bool) (text : Text) :
    emptyPairs (pendingBrace hollow ++ '}' :: text) =
      emptyPairs text + if hollow then 1 else 0 := by
  cases hollow with
  | false =>
      exact emptyPairs_cons_of_ne (by decide) text
  | true =>
      exact emptyPairs_open_close text

theorem emptyPairs_pending_of_ne
    {c : Char} (h : c ≠ '{' ∧ c ≠ '}') (hollow : Bool) (text : Text) :
    emptyPairs (pendingBrace hollow ++ c :: text) = emptyPairs text := by
  cases hollow with
  | false =>
      exact emptyPairs_cons_of_ne h.1 text
  | true =>
      exact (emptyPairs_open_of_ne h.2 text).trans
        (emptyPairs_cons_of_ne h.1 text)

/-- A cell that is no brace leaves a block hollow, or it is visible. -/
theorem emptyPairs_pending_cell
    {cell : Cell} (hopen : cell ≠ codeCell '{') (hclose : cell ≠ codeCell '}')
    {hollow : Bool}
    (hmasked : hollow = true → cell.masked.all isSpace = !cell.isVisible)
    (rest : List Cell) :
    emptyPairs (pendingBrace (hollow && cell.masked.all isSpace) ++
        visible rest) =
      emptyPairs (pendingBrace hollow ++ visible (cell :: rest)) := by
  rw [visible_cons]
  cases hvisible : cell.isVisible with
  | false =>
      cases hollow with
      | false =>
          rfl
      | true =>
          rw [hmasked rfl, hvisible]
          rfl
  | true =>
      have hcell := Cell.eq_codeCell_of_isVisible hvisible
      have hchar : cell.char ≠ '{' ∧ cell.char ≠ '}' := by
        constructor
        · intro hc
          exact hopen (hc ▸ hcell)
        · intro hc
          exact hclose (hc ▸ hcell)
      rw [if_pos rfl, emptyPairs_pending_of_ne hchar]
      cases hollow with
      | false =>
          rfl
      | true =>
          rw [hmasked rfl, hvisible]
          rfl

end Pending

/-- Whether only whitespace was seen behind the last opening brace. -/
def hollowBlock (block : Option OpenLeaf) : Bool :=
  block.any OpenLeaf.hollow

theorem hollowBlock_passAll (block : Option OpenLeaf) (text : Text) :
    hollowBlock (block.map (fun b => b.passAll text)) =
      (hollowBlock block && text.all isSpace) := by
  cases block <;> rfl

theorem countP_close (block : Option OpenLeaf) (stop : Nat) :
    (block.map (fun b => b.close stop)).toList.countP Prod.snd =
      if hollowBlock block then 1 else 0 := by
  cases block with
  | none =>
      rfl
  | some b =>
      cases hhollow : b.hollow <;> simp [hollowBlock, OpenLeaf.close, hhollow]

/-- The scan finds an empty leaf for every empty pair. -/
theorem countP_leafScan_masked
    {ok : Lexing → Cell → Prop} {state state' : Lexing}
    {cells : List Cell} {next : Option Char}
    (h : Reads ok state cells next state') (hproper : state.Proper)
    (offset boundary : Nat) (block : Option OpenLeaf)
    (hplain : hollowBlock block = true → state.isPlain = true) :
    (leafScan offset boundary block (cells.flatMap Cell.masked)).countP
        Prod.snd =
      emptyPairs (pendingBrace (hollowBlock block) ++ visible cells) := by
  induction cells generalizing state offset boundary block with
  | nil =>
      cases hollowBlock block <;> rfl
  | cons cell rest ih =>
      obtain ⟨-, hrole, hrest⟩ := h
      have hproper' := proper_step hproper cell.char (nextChar rest next)
      rw [List.flatMap_cons]
      by_cases hopen : cell = codeCell '{'
      · subst hopen
        have hstop : isStop '{' = true := rfl
        have hstep : state.step (codeCell '{').char (nextChar rest next) =
            (.plain, .code) :=
          step_stop (plain_or_escaped_of_stop hstop hproper hrole) hstop _
        have hscan := ih hrest hproper' (offset + 1) (offset + 1)
          (some ⟨boundary, offset, true⟩) (fun _ => by rw [hstep]; rfl)
        rw [show (codeCell '{').masked = ['{'] from rfl, List.singleton_append,
          leafScan_open, hscan, visible_cons_codeCell rfl,
          emptyPairs_pending_open]
        rfl
      · by_cases hclose : cell = codeCell '}'
        · subst hclose
          have hscan := ih hrest hproper' (offset + 1) (offset + 1) none
            (fun hfalse => absurd hfalse (by decide))
          rw [show (codeCell '}').masked = ['}'] from rfl,
            List.singleton_append, leafScan_close, List.countP_append, hscan,
            countP_close, visible_cons_codeCell rfl, emptyPairs_pending_close,
            Nat.add_comm]
          rfl
        · have hbraces : ∀ c ∈ cell.masked, c ≠ '{' ∧ c ≠ '}' := by
            have hbraceless : Braceless [cell] :=
              List.forall_mem_singleton.mpr ⟨hopen, hclose⟩
            simpa using Outline.Braceless.masked hbraceless
          obtain ⟨boundary', -, hscan⟩ := exists_leafScan_append hbraces offset
            boundary block (rest.flatMap Cell.masked)
          -- A block stays hollow as long as nothing visible is met.
          have hplain' : hollowBlock
                (block.map (fun b => b.passAll cell.masked)) = true →
              (state.step cell.char (nextChar rest next)).1.isPlain = true := by
            rw [hollowBlock_passAll, Bool.and_eq_true]
            rintro ⟨hblock, hall⟩
            refine (step_of_isPlain (hplain hblock) ?_).2
            rw [hrole]
            intro hcode
            simpa [Cell.masked, hcode] using hall
          have hmasked : hollowBlock block = true →
              cell.masked.all isSpace = !cell.isVisible :=
            fun hblock => all_isSpace_masked (hplain hblock) hrole
          rw [hscan, ih hrest hproper' _ _ _ hplain', hollowBlock_passAll,
            emptyPairs_pending_cell hopen hclose hmasked]

/-- The empty rules of what is read are the empty pairs of what is visible. -/
theorem length_spans_masked
    {ok : Lexing → Cell → Prop} {state : Lexing} {cells : List Cell}
    (h : Reads ok .plain cells none state) :
    (EmptyRules.spans (cells.flatMap Cell.masked)).length =
      emptyPairs (visible cells) := by
  have hscan := countP_leafScan_masked h trivial 0 0 none (fun _ => rfl)
  rw [EmptyRules.spans_eq_leafScan, EmptyRules.emptySpans, List.length_map,
    ← List.countP_eq_length_filter]
  exact hscan

end EmptyPairs

section Loss

/-- Take pairs of braces out of a text, each of them empty in its turn. -/
inductive LosesPairs : Nat → Text → Text → Prop
  | none (text : Text) : LosesPairs 0 text text
  | one {n : Nat} {text front back : Text} :
      LosesPairs n text (front ++ '{' :: '}' :: back) →
      LosesPairs (n + 1) text (front ++ back)

/-- Depth behind a character, if it closes no block that was not opened. -/
def depthStep? (depth : Nat) (c : Char) : Option Nat :=
  if c = '{' then some (depth + 1)
  else if c = '}' then
    if depth = 0 then none else some (depth - 1)
  else some depth

/-- Depth behind a text, if every closing brace of it closes a block. -/
def depthAfter? (depth : Nat) (text : Text) : Option Nat :=
  text.foldlM depthStep? depth

/-- Every block is closed, and every closing brace closes one. -/
def Balanced (text : Text) : Prop :=
  depthAfter? 0 text = some 0

instance (text : Text) : Decidable (Balanced text) :=
  inferInstanceAs (Decidable (_ = _))

theorem depthAfter?_append (depth : Nat) (text text' : Text) :
    depthAfter? depth (text ++ text') =
      (depthAfter? depth text).bind (fun d => depthAfter? d text') :=
  List.foldlM_append

/-- Only the braces of a text decide about the depth. -/
theorem depthAfter?_braces (depth : Nat) (text : Text) :
    depthAfter? depth (braces text) = depthAfter? depth text := by
  induction text generalizing depth with
  | nil =>
      rfl
  | cons c rest ih =>
      rw [braces, List.filter_cons]
      cases hbrace : isBrace c with
      | false =>
          obtain ⟨hopen, hclose⟩ := isBrace_eq_false_iff.mp hbrace
          have hstep : depthStep? depth c = some depth := by
            rw [depthStep?, if_neg hopen, if_neg hclose]
          have hfirst : depthAfter? depth (c :: rest) =
              (depthStep? depth c).bind (fun d => depthAfter? d rest) := rfl
          rw [hfirst, hstep]
          exact ih depth
      | true =>
          exact congrArg (Option.bind (depthStep? depth c)) (funext ih)

theorem count_braces {c : Char} (h : isBrace c = true) (text : Text) :
    (braces text).count c = text.count c :=
  List.count_filter h

namespace LosesPairs

variable {m n : Nat} {text text' : Text}

theorem trans {text'' : Text} (h : LosesPairs m text text')
    (h' : LosesPairs n text' text'') : LosesPairs (m + n) text text'' := by
  induction h' with
  | none =>
      exact h
  | one _ ih =>
      exact .one (ih h)

theorem append_left (h : LosesPairs n text text') (front : Text) :
    LosesPairs n (front ++ text) (front ++ text') := by
  induction h with
  | none =>
      exact .none _
  | @one n text front' back _ ih =>
      rw [← List.append_assoc]
      refine .one ?_
      rw [List.append_assoc]
      exact ih

theorem append_right (h : LosesPairs n text text') (back : Text) :
    LosesPairs n (text ++ back) (text' ++ back) := by
  induction h with
  | none =>
      exact .none _
  | @one n text front back' _ ih =>
      rw [List.append_assoc]
      refine .one ?_
      rw [List.append_assoc] at ih
      exact ih

theorem append {other other' : Text} (h : LosesPairs m text text')
    (h' : LosesPairs n other other') :
    LosesPairs (m + n) (text ++ other) (text' ++ other') :=
  (h.append_right other).trans (h'.append_left text')

/-- A pair that stands alone is lost. -/
theorem pair : LosesPairs 1 ['{', '}'] [] :=
  @one 0 _ [] [] (.none _)

theorem count_open (h : LosesPairs n text text') :
    text'.count '{' + n = text.count '{' := by
  induction h with
  | none =>
      rfl
  | one _ ih =>
      simp [List.count_append] at ih ⊢
      omega

theorem count_close (h : LosesPairs n text text') :
    text'.count '}' + n = text.count '}' := by
  induction h with
  | none =>
      rfl
  | one _ ih =>
      simp [List.count_append] at ih ⊢
      omega

/-- Losing pairs keeps the depth. -/
theorem depthAfter? (h : LosesPairs n text text') (depth : Nat) :
    StylesheetPruning.depthAfter? depth text' =
      StylesheetPruning.depthAfter? depth text := by
  induction h with
  | none =>
      rfl
  | one _ ih =>
      rw [← ih, depthAfter?_append, depthAfter?_append]
      rfl

end LosesPairs

end Loss

namespace Outline

variable {image : Leaf → List Cell} {lost : Leaf → Nat}

theorem losesPairs_rewrite
    (passages : List Passage) (offset : Nat)
    (h : ∀ leaf ∈ leavesFrom offset passages,
      LosesPairs (lost leaf) (braces (visible leaf.cells))
        (braces (visible (image leaf)))) :
    LosesPairs ((leavesFrom offset passages).map lost).sum
      (braces (visible (passages.flatMap Passage.cells)))
      (braces (visible (rewrite image offset passages))) := by
  induction passages generalizing offset with
  | nil =>
      exact .none _
  | cons passage others ih =>
      rw [List.flatMap_cons, visible_append, braces_append]
      cases passage with
      | run body fence =>
          rw [rewrite_run, visible_append, braces_append]
          exact (ih _ h).append_left _
      | leaf list inner =>
          simp only [leavesFrom, List.forall_mem_cons] at h
          rw [leavesFrom, List.map_cons, List.sum_cons, rewrite, visible_append,
            braces_append]
          exact h.1.append (ih _ h.2)

/-- The braces of a stylesheet are lost with those of its leaves. -/
theorem losesPairs_rewritten
    {cells : List Cell}
    (h : ∀ leaf ∈ (ofCells cells).leaves,
      LosesPairs (lost leaf) (braces (visible leaf.cells))
        (braces (visible (image leaf)))) :
    LosesPairs ((ofCells cells).leaves.map lost).sum
      (braces (visible cells))
      (braces (visible (rewritten image (ofCells cells)))) := by
  have hpassages := losesPairs_rewrite (ofCells cells).passages 0 h
  have hall := hpassages.append_right (braces (visible (ofCells cells).rest))
  rw [← braces_append, ← visible_append, passages_append_rest, ← braces_append,
    ← visible_append] at hall
  exact hall

/-- Empty pairs of the new leaves are empty pairs of the new stylesheet. -/
theorem sum_emptyPairs_le
    (image : Leaf → List Cell) (passages : List Passage) (offset : Nat) :
    ((leavesFrom offset passages).map
        (fun leaf => emptyPairs (visible (image leaf)))).sum ≤
      emptyPairs (visible (rewrite image offset passages)) := by
  induction passages generalizing offset with
  | nil =>
      exact Nat.le_refl 0
  | cons passage others ih =>
      cases passage with
      | run body fence =>
          have hothers := ih (offset + width body + fence.utf8Size)
          have happend := emptyPairs_append_le
            (visible (Passage.run body fence).cells)
            (visible (rewrite image (offset + width body + fence.utf8Size)
              others))
          rw [rewrite_run, visible_append, leavesFrom]
          omega
      | leaf list inner =>
          have hothers := ih (offset + width list + width inner + 2)
          have happend := emptyPairs_append_le
            (visible (image ⟨offset, list, inner⟩))
            (visible (rewrite image (offset + width list + width inner + 2)
              others))
          rw [rewrite, visible_append, leavesFrom, List.map_cons, List.sum_cons]
          omega

end Outline

section Passes

/-- Of a leaf that a pass removes, one pair of braces is lost. -/
theorem losesPairs_swept
    {cells : List Cell} {leaf : Leaf}
    (h : leaf ∈ (Outline.ofCells cells).leaves) :
    LosesPairs (if leaf.isEmpty then 1 else 0)
      (braces (visible leaf.cells)) (braces (visible leaf.swept)) := by
  obtain ⟨hlist, hinner⟩ := Outline.parts_of_mem_leaves h
  rw [Leaf.swept]
  split
  · rw [Leaf.cells, braces_visible_leaf hlist hinner]
    exact .pair
  · exact .none _

/-- A pass removes the empty leaves. -/
theorem emptied_eq_sum
    {cells : List Cell}
    (hmasked : (Masking.ofText (chars cells)).masked =
      cells.flatMap Cell.masked) :
    EmptyRules.emptied (chars cells) =
      ((Outline.ofCells cells).leaves.map
        (fun leaf => if leaf.isEmpty then 1 else 0)).sum := by
  rw [EmptyRules.emptied, hmasked, Outline.spans_masked, List.length_map]
  induction (Outline.ofCells cells).leaves with
  | nil =>
      rfl
  | cons leaf leaves ih =>
      rw [List.filter_cons, List.map_cons, List.sum_cons, ← ih]
      split
      · rw [List.length_cons, Nat.add_comm]
      · rw [Nat.zero_add]

theorem emptied_eq (text : Text) :
    EmptyRules.emptied text =
      ((Outline.ofCells (annotate .plain text).2).leaves.map
        (fun leaf => if leaf.isEmpty then 1 else 0)).sum := by
  rw [← emptied_eq_sum (EmptyRules.masked_annotate text), chars_annotate]

/-- A pass takes out the pairs of braces that it counts. -/
theorem losesPairs_pass
    {cells : List Cell}
    (hmasked : (Masking.ofText (chars cells)).masked =
      cells.flatMap Cell.masked) :
    LosesPairs (EmptyRules.emptied (chars cells)) (braces (visible cells))
      (braces (visible
        (Outline.rewritten Leaf.swept (Outline.ofCells cells)))) := by
  rw [emptied_eq_sum hmasked]
  exact Outline.losesPairs_rewritten (fun _ hleaf => losesPairs_swept hleaf)

end Passes

end StylesheetPruning
