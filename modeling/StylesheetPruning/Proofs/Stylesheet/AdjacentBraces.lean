import StylesheetPruning.Proofs.Stylesheet.RuleTree
import StylesheetPruning.Proofs.Text.Slicing

/-!
# Leaves are adjacent braces

A brace and the next one behind it always match when the first opens a block
and the second closes one. So the leaves of the tree can be found without a
stack, and the scan for empty rules needs none.

**Adjacency.** Two braces are adjacent when the first is an opening one, the
second a closing one, and no brace stands between them.

**Results.**
* `mem_leafScan_iff`: what the scan for leaves lists, and what it says of it.
* `leavesIn_adjacent`: the leaves of a masked text are its adjacent braces, and
  its empty rules are those of them that hold only whitespace.
-/

namespace StylesheetPruning

/-- No brace in a text. -/
def NoBrace (text : Text) : Prop :=
  ∀ c ∈ text, isBrace c = false

theorem noBrace_cons {c : Char} {text : Text} :
    NoBrace (c :: text) ↔ isBrace c = false ∧ NoBrace text :=
  List.forall_mem_cons

/-- Whether two braces are adjacent in a text that starts at an offset. -/
def AdjacentFrom (offset : Nat) (text : Text) (pair : BracePair) : Prop :=
  ∃ front inner back, text = front ++ '{' :: (inner ++ '}' :: back) ∧
    NoBrace inner ∧
    pair.opening = offset + byteLength front ∧
    pair.closing = offset + byteLength front + 1 + byteLength inner

/-- Whether two braces of a text are adjacent. -/
def Adjacent (text : Text) (pair : BracePair) : Prop :=
  AdjacentFrom 0 text pair

/-- What stands between the braces of a rule. -/
def Rule.inside (r : Rule) : Span :=
  ⟨r.brace + 1, r.stop - 1⟩

section Scanning

/-- What the scan says of a leaf: its braces, and whether it is empty. -/
abbrev LeafNote := BracePair × Bool

/-- The note on an entry of the scan. -/
def noteOf (entry : Rule × Bool) : LeafNote :=
  (entry.1.pair, entry.2)

/-- The note on a block that was opened in front of a text and ends in it. -/
def EndsIn (block : OpenLeaf) (offset : Nat) (text : Text)
    (note : LeafNote) : Prop :=
  ∃ inner back, text = inner ++ '}' :: back ∧ NoBrace inner ∧
    note = (⟨block.brace, offset + byteLength inner⟩,
      block.hollow && inner.all isSpace)

/-- The note on adjacent braces of a text. -/
def NotedIn (offset : Nat) (text : Text) (note : LeafNote) : Prop :=
  ∃ front inner back, text = front ++ '{' :: (inner ++ '}' :: back) ∧
    NoBrace inner ∧
    note = (⟨offset + byteLength front,
      offset + byteLength front + 1 + byteLength inner⟩, inner.all isSpace)

variable {note : LeafNote} {block : OpenLeaf} {offset : Nat}

theorem not_endsIn_nil : ¬ EndsIn block offset [] note := by
  rintro ⟨inner, back, htext, -⟩
  simp at htext

theorem not_endsIn_open (rest : Text) :
    ¬ EndsIn block offset ('{' :: rest) note := by
  rintro ⟨inner, back, htext, hinner, -⟩
  cases inner with
  | nil =>
      simp at htext
  | cons c inner =>
      obtain ⟨rfl, -⟩ := List.cons.inj htext
      have hbrace := (noBrace_cons.mp hinner).1
      cases hbrace

theorem endsIn_close_iff (rest : Text) :
    EndsIn block offset ('}' :: rest) note ↔
      note = (⟨block.brace, offset⟩, block.hollow) := by
  constructor
  · rintro ⟨inner, back, htext, hinner, rfl⟩
    cases inner with
    | nil =>
        simp
    | cons c inner =>
        obtain ⟨rfl, -⟩ := List.cons.inj htext
        have hbrace := (noBrace_cons.mp hinner).1
        cases hbrace
  · rintro rfl
    exact ⟨[], rest, rfl, by simp [NoBrace], by simp⟩

theorem endsIn_cons_iff {c : Char} (hc : isBrace c = false) (rest : Text) :
    EndsIn block offset (c :: rest) note ↔
      EndsIn (block.pass c) (offset + c.utf8Size) rest note := by
  constructor
  · rintro ⟨inner, back, htext, hinner, rfl⟩
    cases inner with
    | nil =>
        obtain ⟨rfl, -⟩ := List.cons.inj htext
        cases hc
    | cons d inner =>
        obtain ⟨rfl, rfl⟩ := List.cons.inj htext
        refine ⟨inner, back, rfl, (noBrace_cons.mp hinner).2, ?_⟩
        simp [OpenLeaf.pass, Bool.and_assoc, Nat.add_assoc]
  · rintro ⟨inner, back, rfl, hinner, rfl⟩
    refine ⟨c :: inner, back, rfl, noBrace_cons.mpr ⟨hc, hinner⟩, ?_⟩
    simp [OpenLeaf.pass, Bool.and_assoc, Nat.add_assoc]

theorem not_notedIn_nil : ¬ NotedIn offset [] note := by
  rintro ⟨front, inner, back, htext, -⟩
  simp at htext

/--
Adjacent braces behind a character, or that character with another. Where the
selector list of the block starts is not noted, so it may be anywhere.
-/
theorem notedIn_cons_iff (c : Char) (rest : Text) :
    NotedIn offset (c :: rest) note ↔
      (c = '{' ∧ EndsIn ⟨0, offset, true⟩ (offset + 1) rest note) ∨
        NotedIn (offset + c.utf8Size) rest note := by
  constructor
  · rintro ⟨front, inner, back, htext, hinner, rfl⟩
    cases front with
    | nil =>
        obtain ⟨rfl, rfl⟩ := List.cons.inj htext
        exact .inl ⟨rfl, inner, back, rfl, hinner, by simp⟩
    | cons d front =>
        obtain ⟨rfl, rfl⟩ := List.cons.inj htext
        refine .inr ⟨front, inner, back, rfl, hinner, ?_⟩
        rw [byteLength_cons, ← Nat.add_assoc]
  · rintro (⟨rfl, inner, back, rfl, hinner, rfl⟩ |
      ⟨front, inner, back, rfl, hinner, rfl⟩)
    · exact ⟨[], inner, back, rfl, hinner, by simp⟩
    · refine ⟨c :: front, inner, back, rfl, hinner, ?_⟩
      rw [byteLength_cons, ← Nat.add_assoc]

theorem notedIn_cons_iff_of_ne {c : Char} (hc : c ≠ '{') (rest : Text) :
    NotedIn offset (c :: rest) note ↔ NotedIn (offset + c.utf8Size) rest note := by
  rw [notedIn_cons_iff]
  simp [hc]

/--
The scan notes the block that is open in front of a text, if it ends before
another brace comes, and all adjacent braces of the text.
-/
theorem mem_leafScan_iff (text : Text) (offset boundary : Nat)
    (block : Option OpenLeaf) :
    note ∈ (leafScan offset boundary block text).map noteOf ↔
      (∃ b ∈ block, EndsIn b offset text note) ∨ NotedIn offset text note := by
  induction text generalizing offset boundary block with
  | nil =>
      simp [leafScan, not_endsIn_nil, not_notedIn_nil]
  | cons c rest ih =>
      by_cases hopen : c = '{'
      · subst hopen
        have hsize : ('{' : Char).utf8Size = 1 := rfl
        have hstart : EndsIn ⟨boundary, offset, true⟩ (offset + 1) rest note ↔
            EndsIn ⟨0, offset, true⟩ (offset + 1) rest note := Iff.rfl
        rw [leafScan_open, ih, notedIn_cons_iff, hsize]
        simp [not_endsIn_open, hstart]
      · by_cases hclose : c = '}'
        · subst hclose
          have hsize : ('}' : Char).utf8Size = 1 := rfl
          rw [leafScan_close, List.map_append, List.mem_append, ih,
            notedIn_cons_iff_of_ne (by decide), hsize]
          cases block with
          | none =>
              simp
          | some b =>
              simp [endsIn_close_iff, noteOf, OpenLeaf.close, Rule.pair]
        · have hbrace : isBrace c = false :=
            isBrace_eq_false_iff.mpr ⟨hopen, hclose⟩
          rw [leafScan_pass _ _ _ _ hopen hclose, ih,
            notedIn_cons_iff_of_ne hopen]
          cases block with
          | none =>
              simp
          | some b =>
              simp [endsIn_cons_iff hbrace]

/-- The scan lists the leaves in the order of their opening braces. -/
theorem pairwise_leafScan (text : Text) (offset boundary : Nat)
    (block : Option OpenLeaf) (hblock : ∀ b ∈ block, b.brace < offset) :
    (leafScan offset boundary block text).Pairwise
      (fun entry entry' => entry.1.brace < entry'.1.brace) := by
  induction text generalizing offset boundary block with
  | nil =>
      exact .nil
  | cons c rest ih =>
      by_cases hopen : c = '{'
      · subst hopen
        rw [leafScan_open]
        exact ih _ _ _ (by simp)
      · by_cases hclose : c = '}'
        · subst hclose
          have hrest := ih (offset + 1) (offset + 1) none (by simp)
          rw [leafScan_close]
          cases block with
          | none =>
              exact hrest
          | some b =>
              refine List.pairwise_cons.mpr ⟨?_, hrest⟩
              intro entry hentry
              -- All that is found behind the block opens behind it.
              have hnote := (mem_leafScan_iff rest (offset + 1) (offset + 1)
                none).mp (List.mem_map_of_mem (f := noteOf) hentry)
              simp only [Option.not_mem_none, false_and, exists_false,
                false_or] at hnote
              obtain ⟨front, inner, back, -, -, heq⟩ := hnote
              have hbrace : entry.1.brace = offset + 1 + byteLength front :=
                congrArg (fun note => note.1.opening) heq
              have hb := hblock b rfl
              show b.brace < entry.1.brace
              omega
        · rw [leafScan_pass _ _ _ _ hopen hclose]
          refine ih _ _ _ ?_
          intro b hb
          obtain ⟨b', hb', rfl⟩ := Option.map_eq_some_iff.mp hb
          have hlt := hblock b' hb'
          show b'.brace < _
          omega

end Scanning

section Leaves

theorem exists_notedIn_iff {offset : Nat} {text : Text} {pair : BracePair} :
    (∃ hollow, NotedIn offset text (pair, hollow)) ↔
      AdjacentFrom offset text pair := by
  constructor
  · rintro ⟨hollow, front, inner, back, htext, hinner, hnote⟩
    obtain ⟨rfl, -⟩ := Prod.mk.inj hnote
    exact ⟨front, inner, back, htext, hinner, rfl, rfl⟩
  · rintro ⟨front, inner, back, htext, hinner, hopening, hclosing⟩
    refine ⟨inner.all isSpace, front, inner, back, htext, hinner, ?_⟩
    rw [← hclosing, ← hopening]

/-- The scan says of a leaf what stands between its braces. -/
theorem snd_eq_of_mem_leafScan {masked : Text} {entry : Rule × Bool}
    (h : entry ∈ leafScan 0 0 none masked) :
    entry.2 = (slice masked entry.1.inside).all isSpace := by
  have hnote := (mem_leafScan_iff masked 0 0 none).mp
    (List.mem_map_of_mem (f := noteOf) h)
  simp only [Option.not_mem_none, false_and, exists_false, false_or] at hnote
  obtain ⟨front, inner, back, rfl, -, heq⟩ := hnote
  obtain ⟨hpair, hhollow⟩ := Prod.mk.inj heq
  obtain ⟨hbrace, hstop⟩ := BracePair.mk.inj hpair
  have hinside : entry.1.inside = ⟨byteLength (front ++ ['{']),
      byteLength (front ++ ['{']) + byteLength inner⟩ := by
    rw [Rule.inside, hbrace, hstop, byteLength_append_open, Nat.zero_add]
  have hslice : slice (front ++ '{' :: (inner ++ '}' :: back))
      entry.1.inside = inner := by
    rw [← List.singleton_append, ← List.append_assoc, hinside]
    exact slice_append (front ++ ['{']) inner ('}' :: back) rfl rfl
  rw [hslice]
  exact hhollow

/--
The leaves of a masked text are its adjacent braces, in source order. Its
empty rules are the leaves that hold only whitespace.
-/
theorem leavesIn_adjacent (masked : Text) :
    (Rule.leavesIn masked).Pairwise (fun r r' => r.brace < r'.brace) ∧
      (∀ pair, pair ∈ (Rule.leavesIn masked).map Rule.pair ↔
        Adjacent masked pair) ∧
      EmptyRules.spans masked =
        ((Rule.leavesIn masked).filter
          (fun r => (slice masked r.inside).all isSpace)).map Rule.span := by
  have hflags : ∀ entry ∈ leafScan 0 0 none masked,
      entry.2 = (slice masked entry.1.inside).all isSpace :=
    fun entry hentry => snd_eq_of_mem_leafScan hentry
  rw [Rule.leavesIn_eq_leafScan]
  refine ⟨?_, ?_, ?_⟩
  · exact List.pairwise_map.mpr
      (pairwise_leafScan masked 0 0 none (by simp))
  · intro pair
    rw [Adjacent, ← exists_notedIn_iff, List.map_map]
    have hnotes : ∀ hollow, (pair, hollow) ∈
        (leafScan 0 0 none masked).map noteOf ↔
          NotedIn 0 masked (pair, hollow) := by
      intro hollow
      rw [mem_leafScan_iff]
      simp
    simp only [← hnotes, List.mem_map, Function.comp_apply, noteOf,
      Prod.mk.injEq]
    constructor
    · rintro ⟨entry, hentry, hpair⟩
      exact ⟨entry.2, entry, hentry, hpair, rfl⟩
    · rintro ⟨hollow, entry, hentry, hpair, -⟩
      exact ⟨entry, hentry, hpair⟩
  · rw [EmptyRules.spans_eq_leafScan, EmptyRules.emptySpans, List.filter_map,
      List.map_map]
    congr 1
    exact List.filter_congr hflags

end Leaves

end StylesheetPruning
