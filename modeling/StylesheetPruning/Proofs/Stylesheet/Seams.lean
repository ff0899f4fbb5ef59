import StylesheetPruning.Proofs.Stylesheet.Braces

/-!
# Where stylesheets can be put together

Cells are sealed when they are a block, end at a fence and leave no block
open. Whatever follows sealed cells is read and outlined as if it stood alone,
and so it is swept on its own.

**Why sealed.** A pass may take the closing brace away at which the cells
ended, so that they end at a semicolon or are empty. No block is open there,
so no opening brace of the cells looks for its closing brace behind them.

**Results.**
* `annotate_append`: what follows a block is read as if it stood alone.
* `Outline.ofCells_append`: it is outlined as if it stood alone.
* `Sealed.swept`: what a pass leaves of sealed cells is sealed.
* `Sealed.sweep_append`: the two parts are swept one by one.
-/

namespace StylesheetPruning

section Reading

theorem Reads.anyhow
    {ok : Lexing → Cell → Prop} {state state' : Lexing} {cells : List Cell}
    {next : Option Char} (h : Reads ok state cells next state') :
    Reads StylesheetPruning.anyhow state cells next state' := by
  induction cells generalizing state with
  | nil =>
      exact h
  | cons cell rest ih =>
      exact ⟨trivial, h.2.1, ih h.2.2⟩

/-- What follows a block is read as if it stood alone. -/
theorem annotate_append
    {cells : List Cell} (h : ∀ next, Reads anyhow .plain cells next .plain)
    (text : Text) :
    annotate .plain (chars cells ++ text) =
      ((annotate .plain text).1, cells ++ (annotate .plain text).2) := by
  have hread := (h _).append (reads_annotate .plain text)
  have hannotate := annotate_of_reads hread
  rwa [chars_append, chars_annotate] at hannotate

/-- What is read up to a stop is read alike whatever follows. -/
theorem reads_of_reads_stop
    {cells : List Cell} {c : Char} {next : Option Char} {state : Lexing}
    (hc : isStop c = true)
    (h : Reads anyhow .plain (cells ++ [codeCell c]) next state)
    (next' : Option Char) :
    Reads anyhow .plain (cells ++ [codeCell c]) next' .plain :=
  (reads_stops_of_reads (fun _ _ _ _ => trivial) hc h).1 c hc next'

end Reading

section Depth

/-- Depth behind a text, closing braces that close nothing being passed over. -/
def openAfter (depth : Nat) (text : Text) : Nat :=
  text.foldl
    (fun depth c =>
      if c = '{' then depth + 1 else if c = '}' then depth - 1 else depth)
    depth

@[simp] theorem openAfter_append (depth : Nat) (text text' : Text) :
    openAfter depth (text ++ text') =
      openAfter (openAfter depth text) text' :=
  List.foldl_append

theorem openAfter_braces (depth : Nat) (text : Text) :
    openAfter depth (braces text) = openAfter depth text := by
  induction text generalizing depth with
  | nil =>
      rfl
  | cons c rest ih =>
      rw [braces, List.filter_cons]
      cases hbrace : isBrace c with
      | false =>
          obtain ⟨hopen, hclose⟩ := isBrace_eq_false_iff.mp hbrace
          have hfirst : openAfter depth (c :: rest) = openAfter depth rest := by
            simp [openAfter, hopen, hclose]
          rw [hfirst]
          exact ih depth
      | true =>
          exact ih _

/-- Losing pairs keeps the number of open blocks. -/
theorem LosesPairs.openAfter
    {n : Nat} {text text' : Text} (h : LosesPairs n text text')
    (depth : Nat) :
    StylesheetPruning.openAfter depth text' =
      StylesheetPruning.openAfter depth text := by
  induction h with
  | none =>
      rfl
  | one _ ih =>
      rw [← ih, openAfter_append, openAfter_append]
      rfl

/-- The scan for rules keeps one open block for each level of depth. -/
theorem length_opened_foldl_step (text : Text) (scan : Rule.Scan) :
    (text.foldl Rule.Scan.step scan).opened.length =
      openAfter scan.opened.length text := by
  have hclose : ∀ (scan : Rule.Scan) (stop : Nat),
      (scan.close stop).opened.length = scan.opened.length - 1 := by
    intro scan stop
    obtain ⟨offset, boundary, opened, found⟩ := scan
    cases opened with
    | nil =>
        rfl
    | cons block outer =>
        cases outer <;> rfl
  induction text generalizing scan with
  | nil =>
      rfl
  | cons c rest ih =>
      rw [List.foldl_cons, ih, openAfter, openAfter, List.foldl_cons]
      congr 1
      by_cases hopen : c = '{'
      · simp [Rule.Scan.step, hopen]
      · by_cases hend : c = '}'
        · subst hend
          exact hclose scan _
        · rw [Rule.step_pass scan hopen hend, if_neg hopen, if_neg hend]

end Depth

section Fences

/-- The last cell is a fence, if there is one. -/
def EndsFenced (cells : List Cell) : Prop :=
  ∀ cell ∈ cells.getLast?, cell.isFence = true

theorem endsFenced_nil : EndsFenced [] := by
  intro cell hcell
  cases hcell

theorem EndsFenced.append {cells cells' : List Cell}
    (h : EndsFenced cells) (h' : EndsFenced cells') :
    EndsFenced (cells ++ cells') := by
  intro cell hcell
  rw [List.getLast?_append, Option.mem_def, Option.or_eq_some_iff] at hcell
  rcases hcell with hcell | ⟨-, hcell⟩
  · exact h' cell hcell
  · exact h cell hcell

theorem endsFenced_append_fence
    {c : Char} (hc : isFence c = true) (cells : List Cell) :
    EndsFenced (cells ++ [codeCell c]) := by
  intro cell hcell
  rw [List.getLast?_append, List.getLast?_singleton] at hcell
  obtain rfl : codeCell c = cell := Option.some.inj hcell
  simp [Cell.isFence, codeCell, hc]

theorem EndsFenced.of_cons {cell : Cell} {rest : List Cell}
    (h : EndsFenced (cell :: rest)) : EndsFenced rest := by
  intro d hd
  refine h d ?_
  rw [List.getLast?_cons, Option.mem_def.mp hd]
  rfl

theorem EndsFenced.isFence_of_singleton {cell : Cell}
    (h : EndsFenced [cell]) : cell.isFence = true :=
  h cell rfl

end Fences

namespace Outline

/-- The search for the end of a block does not run through to the end. -/
def Stops (passages : List Passage) : Prop :=
  ∃ passage ∈ passages, ∀ body, passage ≠ .run body ';'

/-- A search that ends in passages does not see what follows them. -/
theorem Stops.closeBlock_append
    {passages : List Passage} (h : Stops passages) (others : List Passage) :
    closeBlock (passages ++ others) =
      (closeBlock passages).map
        (fun (inner, after) => (inner, after ++ others)) := by
  induction passages with
  | nil =>
      obtain ⟨passage, hpassage, -⟩ := h
      cases hpassage
  | cons passage rest ih =>
      cases passage with
      | leaf list inner =>
          rfl
      | run body fence =>
          simp only [List.cons_append, closeBlock]
          split
          · rfl
          · split
            · next hsemicolon =>
                have hrest : Stops rest := by
                  obtain ⟨passage, hpassage, hne⟩ := h
                  rcases List.mem_cons.mp hpassage with rfl | hpassage
                  · exact absurd (by rw [hsemicolon]) (hne body)
                  · exact ⟨passage, hpassage, hne⟩
                rw [ih hrest, Option.map_map, Option.map_map]
                rfl
            · rfl

theorem Stops.consFence_append
    {passages : List Passage} (h : Stops passages) (c : Char)
    (others : List Passage) :
    consFence c (passages ++ others) = consFence c passages ++ others := by
  simp only [consFence, h.closeBlock_append]
  split
  · cases closeBlock passages with
    | none =>
        rfl
    | some closed =>
        rfl
  · rfl

/-- Where a block is closed, the search for the end of a block stops. -/
theorem stops_ofCells
    {cells : List Cell} {depth : Nat}
    (h : openAfter (depth + 1) (braces (visible cells)) = 0) :
    Stops (ofCells cells).passages := by
  refine Classical.byContradiction ?_
  intro hstops
  obtain ⟨hproper, hrest⟩ := proper_ofCells cells
  -- Otherwise there are semicolons only, and they close nothing.
  have hpassages : ∀ passages : List Passage, Proper passages →
      ¬ Stops passages →
      braces (visible (passages.flatMap Passage.cells)) = [] := by
    intro passages hproper hstops
    simp only [Stops, not_exists, not_and, not_forall, not_not] at hstops
    induction hproper with
    | nil =>
        rfl
    | @leaf list inner others _ _ _ _ =>
        obtain ⟨body, hbody⟩ := hstops _ List.mem_cons_self
        cases hbody
    | @run body fence others hbody _ _ _ ih =>
        obtain ⟨body', hbody'⟩ := hstops _ List.mem_cons_self
        obtain ⟨-, rfl⟩ := Passage.run.inj hbody'
        have hsemicolon : braces (visible [codeCell ';']) = [] := rfl
        rw [List.flatMap_cons, visible_append, braces_append,
          ih (fun p hp => hstops p (List.mem_cons_of_mem _ hp)), Passage.cells,
          visible_append, braces_append, hbody.braceless.braces_visible,
          hsemicolon]
        rfl
  rw [← passages_append_rest cells, visible_append, braces_append,
    hpassages _ hproper hstops, hrest.braceless.braces_visible] at h
  cases h

theorem passages_ne_nil {cells : List Cell}
    (hne : cells ≠ []) (h : EndsFenced cells) : (ofCells cells).passages ≠ [] := by
  intro hnil
  have hcells := passages_append_rest cells
  rw [hnil, List.flatMap_nil, List.nil_append] at hcells
  have hrest := (proper_ofCells cells).2
  rw [hcells] at hrest
  have hfence := h _ (List.getLast?_eq_some_getLast hne)
  rw [hrest _ (List.getLast_mem hne)] at hfence
  cases hfence

/-- Behind a fence with no block open, an outline begins anew. -/
theorem ofCells_append
    {cells : List Cell} {depth : Nat} (hends : EndsFenced cells)
    (hclosed : openAfter depth (braces (visible cells)) = 0)
    (others : List Cell) :
    ofCells (cells ++ others) =
      ⟨(ofCells cells).passages ++ (ofCells others).passages,
        (ofCells others).rest⟩ := by
  induction cells generalizing depth with
  | nil =>
      rfl
  | cons cell rest ih =>
      have hcell : ∀ depth, openAfter depth
            (braces (visible (cell :: rest))) =
          openAfter (openAfter depth (braces (visible [cell])))
            (braces (visible rest)) := by
        intro depth
        rw [← openAfter_append, ← braces_append, ← visible_append]
        rfl
      rw [hcell] at hclosed
      rw [List.cons_append, ofCells_cons, ih hends.of_cons hclosed, ofCells_cons]
      generalize hrest : ofCells rest = outline
      simp only [cons]
      split
      · next hfence =>
          rcases cell.isFence_cases hfence with rfl | rfl | rfl
          · have hstops := @stops_ofCells rest depth hclosed
            rw [hrest] at hstops
            rw [codeCell, hstops.consFence_append]
          · rfl
          · rfl
      · next hfence =>
          have hne : rest ≠ [] := by
            rintro rfl
            exact hfence hends.isFence_of_singleton
          have hpassages := passages_ne_nil hne hends.of_cons
          rw [hrest] at hpassages
          obtain ⟨passages, behind⟩ := outline
          cases passages with
          | nil =>
              exact absurd rfl hpassages
          | cons passage passages =>
              cases passage <;> rfl

end Outline

section Placeless

/-- What does not depend on the offset at which a leaf starts. -/
def Placeless {β : Type} (f : Leaf → β) : Prop :=
  ∀ start start' list inner, f ⟨start, list, inner⟩ = f ⟨start', list, inner⟩

namespace Outline

theorem map_leavesFrom
    {β : Type} {f : Leaf → β} (hf : Placeless f) (passages : List Passage)
    (start start' : Nat) :
    (leavesFrom start passages).map f = (leavesFrom start' passages).map f := by
  induction passages generalizing start start' with
  | nil =>
      rfl
  | cons passage others ih =>
      cases passage with
      | run body fence =>
          exact ih _ _
      | leaf list inner =>
          rw [leavesFrom, leavesFrom, List.map_cons, List.map_cons,
            hf start start' list inner, ih]

theorem rewrite_eq
    {image : Leaf → List Cell} (himage : Placeless image)
    (passages : List Passage) (start start' : Nat) :
    rewrite image start passages = rewrite image start' passages := by
  induction passages generalizing start start' with
  | nil =>
      rfl
  | cons passage others ih =>
      cases passage with
      | run body fence =>
          rw [rewrite, rewrite, ih]
      | leaf list inner =>
          rw [rewrite, rewrite, himage start start' list inner, ih]

theorem map_leavesFrom_append
    {β : Type} {f : Leaf → β} (hf : Placeless f)
    (passages others : List Passage) (start : Nat) :
    (leavesFrom start (passages ++ others)).map f =
      (leavesFrom start passages).map f ++ (leavesFrom 0 others).map f := by
  induction passages generalizing start with
  | nil =>
      exact map_leavesFrom hf others start 0
  | cons passage rest ih =>
      cases passage with
      | run body fence =>
          exact ih _
      | leaf list inner =>
          rw [List.cons_append, leavesFrom, leavesFrom, List.map_cons,
            List.map_cons, ih]
          rfl

theorem rewrite_append
    {image : Leaf → List Cell} (himage : Placeless image)
    (passages others : List Passage) (start : Nat) :
    rewrite image start (passages ++ others) =
      rewrite image start passages ++ rewrite image 0 others := by
  induction passages generalizing start with
  | nil =>
      exact rewrite_eq himage others start 0
  | cons passage rest ih =>
      cases passage with
      | run body fence =>
          rw [List.cons_append, rewrite, rewrite, ih]
          simp
      | leaf list inner =>
          rw [List.cons_append, rewrite, rewrite, ih, List.append_assoc]

end Outline

end Placeless

/-- Cells that end at a fence and leave nothing open. -/
structure Sealed (cells : List Cell) : Prop where
  /-- They are read alike whatever follows. -/
  block : Block cells
  /-- They end at a fence. -/
  ends : EndsFenced cells
  /-- No block is open behind them. -/
  closed : openAfter 0 (braces (visible cells)) = 0

namespace Sealed

variable {cells : List Cell}

theorem rest_eq_nil (h : Sealed cells) : (Outline.ofCells cells).rest = [] := by
  have happend := Outline.ofCells_append h.ends h.closed []
  rw [List.append_nil] at happend
  rw [happend]
  rfl

theorem flatMap_passages (h : Sealed cells) :
    (Outline.ofCells cells).passages.flatMap Passage.cells = cells := by
  have hcells := Outline.passages_append_rest cells
  rwa [h.rest_eq_nil, List.append_nil] at hcells

/-- The leaves of what follows sealed cells are those it has alone. -/
theorem map_leaves_append
    (h : Sealed cells) {β : Type} {f : Leaf → β} (hf : Placeless f)
    (others : List Cell) :
    (Outline.ofCells (cells ++ others)).leaves.map f =
      (Outline.ofCells cells).leaves.map f ++
        (Outline.ofCells others).leaves.map f := by
  rw [Outline.leaves, Outline.ofCells_append h.ends h.closed]
  exact Outline.map_leavesFrom_append hf _ _ 0

/-- What follows sealed cells is rewritten as if it stood alone. -/
theorem rewritten_append
    (h : Sealed cells) {image : Leaf → List Cell} (himage : Placeless image)
    (others : List Cell) :
    Outline.rewritten image (Outline.ofCells (cells ++ others)) =
      Outline.rewritten image (Outline.ofCells cells) ++
        Outline.rewritten image (Outline.ofCells others) := by
  rw [Outline.rewritten, Outline.ofCells_append h.ends h.closed,
    Outline.rewrite_append himage, Outline.rewritten, h.rest_eq_nil,
    List.append_nil, List.append_assoc]
  rfl

theorem reads (h : Sealed cells) (next : Option Char) :
    Reads anyhow .plain cells next .plain :=
  (h.block next).anyhow

theorem masked_self (h : Sealed cells) :
    (Masking.ofText (chars cells)).masked = cells.flatMap Cell.masked :=
  masked_of_reads (h.block none)

theorem endsFenced_rewrite_swept
    {passages : List Passage} (hproper : Outline.Proper passages)
    (offset : Nat) :
    EndsFenced (Outline.rewrite Leaf.swept offset passages) := by
  induction hproper generalizing offset with
  | nil =>
      exact endsFenced_nil
  | @run body fence others _ hfence _ _ ih =>
      rw [Outline.rewrite_run, Passage.cells]
      exact (endsFenced_append_fence hfence body).append (ih _)
  | @leaf list inner others _ _ _ ih =>
      rw [Outline.rewrite, Leaf.swept]
      split
      · exact endsFenced_nil.append (ih _)
      · have hcells : Leaf.cells ⟨offset, list, inner⟩ =
            list ++ codeCell '{' :: inner ++ [codeCell '}'] := by
          simp [Leaf.cells, blockCells]
        rw [hcells]
        exact (endsFenced_append_fence rfl _).append (ih _)

/-- What a pass leaves of sealed cells is sealed. -/
theorem swept (h : Sealed cells) :
    Sealed (Outline.rewritten Leaf.swept (Outline.ofCells cells)) := by
  have hproper := (Outline.proper_ofCells cells).1
  have hrewritten : Outline.rewritten Leaf.swept (Outline.ofCells cells) =
      Outline.rewrite Leaf.swept 0 (Outline.ofCells cells).passages := by
    rw [Outline.rewritten, h.rest_eq_nil, List.append_nil]
  have hread : Reads calmly .plain
      ((Outline.ofCells cells).passages.flatMap Passage.cells ++ []) none
      .plain := by
    rw [List.append_nil, h.flatMap_passages]
    exact h.block none
  have hwhole := (whole_of_reads_passages hproper hread).1
  constructor
  · rw [hrewritten]
    refine Outline.block_rewrite hwhole 0 ?_
    intro leaf hleaf
    rw [Leaf.swept]
    split
    · exact block_nil
    · exact Leaf.block (Outline.leaves_whole hwhole 0 leaf hleaf)
  · rw [hrewritten]
    exact endsFenced_rewrite_swept hproper 0
  · rw [(losesPairs_pass h.masked_self).openAfter]
    exact h.closed

end Sealed

section Sweeping

open EmptyRules

theorem placeless_swept : Placeless Leaf.swept := by
  intro start start' list inner
  rfl

theorem placeless_isEmpty :
    Placeless (fun leaf => if leaf.isEmpty then 1 else 0) := by
  intro start start' list inner
  rfl

namespace Sealed

variable {cells : List Cell}

/-- A pass works on both sides of a seam. -/
theorem pass_append (h : Sealed cells) (text : Text) :
    pass (chars cells ++ text) = pass (chars cells) ++ pass text := by
  rw [pass_eq, pass_eq text, annotate_append h.reads,
    h.rewritten_append placeless_swept, chars_append,
    pass_eq_rewritten h.masked_self]

theorem emptied_append (h : Sealed cells) (text : Text) :
    emptied (chars cells ++ text) = emptied (chars cells) + emptied text := by
  rw [emptied_eq, emptied_eq text, annotate_append h.reads,
    h.map_leaves_append placeless_isEmpty, List.sum_append,
    emptied_eq_sum h.masked_self]

theorem run_append (n : Nat) (h : Sealed cells) (text : Text) (a b : Nat) :
    Sweep.run n ⟨chars cells ++ text, a + b⟩ =
      ⟨(Sweep.run n ⟨chars cells, a⟩).text ++ (Sweep.run n ⟨text, b⟩).text,
        (Sweep.run n ⟨chars cells, a⟩).removed +
          (Sweep.run n ⟨text, b⟩).removed⟩ := by
  induction n generalizing cells text a b with
  | zero =>
      rfl
  | succ n ih =>
      have hpass := ih h.swept (pass text) (a + emptied (chars cells))
        (b + emptied text)
      rw [← pass_eq_rewritten h.masked_self] at hpass
      rw [run_succ, run_succ, run_succ]
      simp only [h.pass_append, h.emptied_append]
      rw [← hpass, Nat.add_add_add_comm]

/-- The two sides of a seam are swept one by one. -/
theorem sweep_append (h : Sealed cells) (text : Text) :
    sweep (chars cells ++ text) =
      ⟨(sweep (chars cells)).text ++ (sweep text).text,
        (sweep (chars cells)).removed + (sweep text).removed⟩ :=
  h.run_append passLimit text 0 0

end Sealed

end Sweeping

end StylesheetPruning
