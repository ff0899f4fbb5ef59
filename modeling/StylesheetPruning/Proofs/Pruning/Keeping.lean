import StylesheetPruning.Proofs.Pruning.Layout
import StylesheetPruning.Proofs.Pruning.Members
import StylesheetPruning.Proofs.Stylesheet.Seams
import StylesheetPruning.Proofs.Stylesheet.Sweeping

/-!
# What is kept of a list is read as what was live in it

Dead members of a selector list become padding, and the rest is read again.
It has the live members in order, each of which says what it said before, with
one exception: a single live member that is blank leaves a blank list.

**Members.** A group of cells that stood in front of a comma may stand in front
of any other comma, and in front of padding. The last group of a list may be
cut off by the end of the text only, so nothing is ever put behind it.

**Linked groups.** `Linked` says of groups that each may stand where it stands.
Groups are linked when they were read from a list, and a list that is made of
linked groups is read as these groups.

**Results.**
* `linked_of_grouped`, `Linked.grouped`, `Linked.reads`: groups against lists.
* `exists_linked_keptFrom`: what is kept is padding, or made of linked groups.
* `keptEdit?_keepsLive`: the edit of a list keeps exactly what was live.
-/

namespace StylesheetPruning

open Selector

section Members

/-- A group that may stand at the end of a list. -/
structure Member (group : List Cell) : Prop where
  uncommented : Uncommented group
  hides : Hides (fun c => c = ',') (group.flatMap Cell.masked)
  reads : ∃ state, Reads anyhow .plain group none state

/-- A group that may stand in front of a comma, or of padding. -/
structure InnerMember (group : List Cell) : Prop where
  uncommented : Uncommented group
  hides : Hides (fun c => c = ',') (group.flatMap Cell.masked)
  crosses : ∀ rest, Crosses 0 (group.flatMap Cell.masked) (',' :: rest) 0
  reads : ∀ c, isStop c = true → ∀ next,
    Reads anyhow .plain (group ++ [codeCell c]) next .plain

/-- Cells of padding. -/
def blanks (n : Nat) : List Cell :=
  (spaces n).map codeCell

@[simp] theorem chars_blanks (n : Nat) : chars (blanks n) = spaces n :=
  chars_map_codeCell (spaces n)

@[simp] theorem flatMap_masked_blanks (n : Nat) :
    (blanks n).flatMap Cell.masked = spaces n :=
  flatMap_masked_map_codeCell (spaces n)

theorem uncommented_map_codeCell (text : Text) :
    Uncommented (text.map codeCell) := by
  intro cell hcell
  obtain ⟨c, -, rfl⟩ := List.mem_map.mp hcell
  exact .inl rfl

theorem Uncommented.append {cells cells' : List Cell}
    (h : Uncommented cells) (h' : Uncommented cells') :
    Uncommented (cells ++ cells') := by
  intro cell hcell
  rcases List.mem_append.mp hcell with hcell | hcell
  · exact h cell hcell
  · exact h' cell hcell

theorem forall_isSpace_spaces (n : Nat) : ∀ c ∈ spaces n, isSpace c = true := by
  intro c hc
  rw [List.eq_of_mem_replicate hc]
  rfl

theorem forall_spaces_ne_comma (n : Nat) :
    ∀ c ∈ spaces n, Walk.isTurn c = false ∧ decide (c = ',') = false := by
  intro c hc
  rw [List.eq_of_mem_replicate hc]
  exact ⟨rfl, rfl⟩

theorem hides_spaces_append {text : Text}
    (h : Hides (fun c => c = ',') text) (n : Nat) :
    Hides (fun c => c = ',') (spaces n ++ text) :=
  (hides_of_forall (forall_spaces_ne_comma n)).append
    (closed_of_forall (fun c hc => (forall_spaces_ne_comma n c hc).1)) h

variable {group : List Cell}

/-- Padding in front of an inner member belongs to it. -/
theorem InnerMember.blanks_append (h : InnerMember group) (m : Nat) :
    InnerMember (blanks m ++ group) := by
  refine ⟨(uncommented_map_codeCell _).append h.uncommented, ?_, ?_, ?_⟩
  · rw [List.flatMap_append, flatMap_masked_blanks]
    exact hides_spaces_append h.hides m
  · intro rest
    rw [List.flatMap_append, flatMap_masked_blanks]
    exact (crosses_spaces m 0 _).trans (h.crosses rest)
  · intro c hc next
    rw [List.append_assoc]
    exact (reads_spaces trivial m _).append (h.reads c hc next)

/-- At the end of a list there may be padding behind an inner member. -/
theorem InnerMember.append_blanks (h : InnerMember group) (n : Nat) :
    Member (group ++ blanks n) := by
  refine ⟨h.uncommented.append (uncommented_map_codeCell _), ?_, ?_⟩
  · rw [List.flatMap_append, flatMap_masked_blanks]
    exact h.hides.append_of_forall
      (fun c hc => (forall_spaces_ne_comma n c hc).2)
  · cases n with
    | zero =>
        obtain ⟨between, hread, -⟩ := reads_append.mp (h.reads ' ' rfl none)
        simpa [blanks, spaces] using exists_reads_none hread
    | succ n =>
        have hcells : group ++ blanks (n + 1) =
            group ++ [codeCell ' '] ++ blanks n := by
          simp [blanks, spaces, List.replicate_succ]
        rw [hcells]
        exact ⟨_, (h.reads ' ' rfl _).append (reads_spaces trivial n none)⟩

theorem InnerMember.member (h : InnerMember group) : Member group := by
  simpa [blanks, spaces] using h.append_blanks 0

theorem Member.blanks_append (h : Member group) (m : Nat) :
    Member (blanks m ++ group) := by
  obtain ⟨state, hread⟩ := h.reads
  refine ⟨(uncommented_map_codeCell _).append h.uncommented, ?_, state, ?_⟩
  · rw [List.flatMap_append, flatMap_masked_blanks]
    exact hides_spaces_append h.hides m
  · exact (reads_spaces trivial m _).append hread

end Members

section Linking

/-- Groups each of which may stand where it stands in a list. -/
inductive Linked : List (List Cell) → Prop
  | nil : Linked []
  | last {group : List Cell} : Member group → Linked [group]
  | next {group second : List Cell} {groups : List (List Cell)} :
      InnerMember group → Linked (second :: groups) →
      Linked (group :: second :: groups)

variable {group : List Cell} {groups : List (List Cell)} {cells : List Cell}

theorem Linked.of_cons (h : Linked (group :: groups)) :
    Member group ∧ (InnerMember group ∨ groups = []) ∧ Linked groups := by
  cases h with
  | last hmember =>
      exact ⟨hmember, .inr rfl, .nil⟩
  | next hinner hrest =>
      exact ⟨hinner.member, .inl hinner, hrest⟩

/-- The groups of a list that was read are linked. -/
theorem linked_of_grouped
    (h : Grouped cells groups) (huncommented : Uncommented cells)
    {state : Lexing} (hread : Reads anyhow .plain cells none state) :
    Linked groups := by
  induction groups generalizing cells with
  | nil =>
      exact .nil
  | cons group groups ih =>
      obtain ⟨rfl, hparted⟩ := h
      cases groups with
      | nil =>
          rw [List.intercalate_singleton] at hparted huncommented hread
          exact .last ⟨huncommented, hparted.of_singleton.2, state, hread⟩
      | cons second groups =>
          have hcells : List.intercalate [codeCell ',']
                (group :: second :: groups) =
              group ++ codeCell ',' ::
                List.intercalate [codeCell ','] (second :: groups) := by
            rw [List.intercalate_cons_cons, List.append_assoc]
            rfl
          rw [hcells] at hparted huncommented hread
          rw [List.flatMap_append, List.flatMap_cons, List.map_cons,
            List.map_cons] at hparted
          obtain ⟨hhides, hcross, hrest⟩ := hparted.of_cons_cons
          rw [← List.singleton_append, ← List.append_assoc] at hread
          obtain ⟨between, hfront, hback⟩ := reads_append.mp hread
          obtain ⟨hstops, rfl⟩ :=
            reads_stops_of_reads (fun _ _ _ _ => trivial) rfl hfront
          have hinner : InnerMember group :=
            ⟨fun cell hcell => huncommented cell (by simp [hcell]), hhides,
              hcross.change_behind, hstops⟩
          exact .next hinner (ih ⟨rfl, hrest⟩
            (fun cell hcell => huncommented cell (by simp [hcell])) hback)

/-- A list that is made of linked groups is cut into these groups. -/
theorem Linked.grouped (h : Linked groups) (hne : groups ≠ []) :
    Grouped (List.intercalate [codeCell ','] groups) groups := by
  refine ⟨rfl, ?_⟩
  induction h with
  | nil =>
      exact absurd rfl hne
  | last hmember =>
      rw [List.intercalate_singleton]
      exact .last hmember.hides
  | @next group second groups hinner _ ih =>
      rw [List.intercalate_cons_cons, List.append_assoc, List.flatMap_append]
      exact .next hinner.hides rfl (hinner.crosses _) (ih (by simp))

theorem Linked.uncommented (h : Linked groups) :
    Uncommented (List.intercalate [codeCell ','] groups) := by
  induction h with
  | nil =>
      simp [Uncommented]
  | last hmember =>
      rw [List.intercalate_singleton]
      exact hmember.uncommented
  | next hinner _ ih =>
      rw [List.intercalate_cons_cons]
      exact (hinner.uncommented.append
        (uncommented_map_codeCell [','])).append ih

/-- A list that is made of linked groups is read as their cells say. -/
theorem Linked.reads (h : Linked groups) :
    ∃ state, Reads anyhow .plain (List.intercalate [codeCell ','] groups) none
      state := by
  induction h with
  | nil =>
      exact ⟨.plain, rfl⟩
  | last hmember =>
      rw [List.intercalate_singleton]
      exact hmember.reads
  | next hinner _ ih =>
      obtain ⟨state, hread⟩ := ih
      rw [List.intercalate_cons_cons]
      exact ⟨state, (hinner.reads ',' rfl _).append hread⟩

end Linking

section Contents

/-- A group that says what a selector says, and is blank when it is. -/
structure SpeaksFor (group : List Cell) (selector : Selector) : Prop where
  content : contentOfGroup group = selector.content
  blank : (group.flatMap Cell.masked).all isSpace =
    selector.source.all isSpace

theorem all_isSpace_spaces (n : Nat) : (spaces n).all isSpace = true :=
  List.all_eq_true.mpr (forall_isSpace_spaces n)

/-- Padding does not matter to what a group says. -/
theorem SpeaksFor.padded {group : List Cell} {selector : Selector}
    (h : SpeaksFor group selector) (m n : Nat) :
    SpeaksFor (blanks m ++ (group ++ blanks n)) selector := by
  refine ⟨?_, ?_⟩
  · have hcontent := content_ofPiece (byteLength_masked_eq_width group)
      (forall_isSpace_spaces m) (forall_isSpace_spaces n) [] [] 0
    rw [← h.content, contentOfGroup, contentOfGroup, ← hcontent]
    simp [Selector.content, ofPiece, contentOf]
  · rw [← h.blank]
    simp [all_isSpace_spaces]

/-- Whitespace outside of strings is code, and leaves the machine there. -/
theorem step_plain_of_isSpace
    {c : Char} (h : isSpace c = true) (next : Option Char) :
    Lexing.plain.step c next = (.plain, .code) := by
  simp only [isSpace, Bool.or_eq_true, decide_eq_true_eq] at h
  rcases h with (((rfl | rfl) | rfl) | rfl) | rfl <;> rfl

theorem role_ne_quoted_of_plain (c : Char) (next : Option Char) :
    (Lexing.plain.step c next).2 ≠ .quoted := by
  simp only [Lexing.step]
  split
  · simp
  · split
    · simp
    · split <;> simp

/-- Whether a group is blank can be seen from both of its texts. -/
theorem all_isSpace_flatMap_masked
    {group : List Cell} {state : Lexing} {next : Option Char}
    (h : Reads anyhow .plain group next state)
    (huncommented : Uncommented group) :
    (group.flatMap Cell.masked).all isSpace = (chars group).all isSpace := by
  induction group with
  | nil =>
      rfl
  | cons cell rest ih =>
      obtain ⟨-, hrole, hrest⟩ := h
      have hcode : cell.role = .code := by
        refine (huncommented cell (by simp)).resolve_right ?_
        rw [← hrole]
        exact role_ne_quoted_of_plain cell.char _
      have hmasked : cell.masked = [cell.char] := by
        simp [Cell.masked, hcode]
      rw [List.flatMap_cons, List.all_append, hmasked, chars_cons,
        List.all_cons]
      cases hspace : isSpace cell.char with
      | false =>
          simp [hspace]
      | true =>
          rw [step_plain_of_isSpace hspace] at hrest
          rw [ih hrest (fun d hd => huncommented d (by simp [hd]))]
          simp [hspace]

/-- A member says what the selector says that was read from it. -/
theorem Member.speaksFor
    {cells group : List Cell} {offset : Nat} {selector : Selector}
    (h : Member group) (hfrom : ReadFrom cells offset group selector) :
    SpeaksFor group selector := by
  obtain ⟨state, hread⟩ := h.reads
  refine ⟨hfrom.content.symm, ?_⟩
  rw [hfrom.source]
  exact all_isSpace_flatMap_masked hread h.uncommented

end Contents

section Keeping

open Judgement

/-- A selector was read from a group, of which it is the source. -/
structure Judges (group : List Cell) (judgement : Judgement) : Prop where
  source : judgement.selector.source = chars group
  speaks : SpeaksFor group judgement.selector

variable {groups : List (List Cell)} {judgements : List Judgement}

/-- What is kept behind a live member is made of linked groups. -/
theorem exists_linked_keptBehind
    {group : List Cell} {selector : Selector} {m n : Nat}
    (hgroup : Member group)
    (hinner : InnerMember group ∨ n = 0 ∧ judgements = [])
    (hspeaks : SpeaksFor group selector) (h : Linked groups)
    (hjudges : List.Forall₂ Judges groups judgements) :
    ∃ kept, Linked kept ∧
      chars (List.intercalate [codeCell ','] kept) =
        spaces m ++ (chars group ++ keptBehind n judgements) ∧
      List.Forall₂ SpeaksFor kept (selector :: liveSelectors judgements) := by
  induction hjudges generalizing group selector m n with
  | nil =>
      refine ⟨[blanks m ++ (group ++ blanks n)], .last ?_, ?_,
        .cons (hspeaks.padded m n) .nil⟩
      · rcases hinner with hinner | ⟨rfl, -⟩
        · exact (hinner.append_blanks n).blanks_append m
        · simpa [blanks, spaces] using hgroup.blanks_append m
      · simp [keptBehind]
  | @cons next judgement groups judgements hjudge hrest ih =>
      obtain ⟨hnext, hcases, hlinked⟩ := h.of_cons
      have hinner' : InnerMember group := by
        simpa using hinner
      have hcases' : InnerMember next ∨ 0 = 0 ∧ judgements = [] := by
        refine hcases.imp_right ?_
        rintro rfl
        cases hrest
        exact ⟨rfl, rfl⟩
      rw [keptBehind, liveSelectors_cons]
      split
      · obtain ⟨kept, hkept, hchars, hsaid⟩ :=
          ih (m := n) hnext hcases' hjudge.speaks hlinked
        cases hsaid with
        | @cons first _ kept _ hfirst hothers =>
            refine ⟨(blanks m ++ group) :: first :: kept,
              .next (hinner'.blanks_append m) hkept, ?_,
              .cons ?_ (.cons hfirst hothers)⟩
            · rw [List.intercalate_cons_cons, chars_append, hchars,
                hjudge.source]
              simp [codeCell]
            · simpa [blanks, spaces] using hspeaks.padded m 0
      · exact ih hgroup (.inl hinner') hspeaks hlinked

/-- What is kept of a list is padding only, or is made of linked groups. -/
theorem exists_linked_keptFrom
    (h : Linked groups) (hjudges : List.Forall₂ Judges groups judgements)
    (n : Nat) :
    (liveSelectors judgements = [] ∧ ∃ m, keptFrom n judgements = spaces m) ∨
      ∃ kept, Linked kept ∧ kept ≠ [] ∧
        chars (List.intercalate [codeCell ','] kept) =
          keptFrom n judgements ∧
        List.Forall₂ SpeaksFor kept (liveSelectors judgements) := by
  induction hjudges generalizing n with
  | nil =>
      exact .inl ⟨rfl, n, rfl⟩
  | @cons group judgement groups judgements hjudge hrest ih =>
      obtain ⟨hgroup, hcases, hlinked⟩ := h.of_cons
      rw [keptFrom, liveSelectors_cons]
      split
      · have hcases' : InnerMember group ∨ 0 = 0 ∧ judgements = [] := by
          refine hcases.imp_right ?_
          rintro rfl
          cases hrest
          exact ⟨rfl, rfl⟩
        obtain ⟨kept, hkept, hchars, hsaid⟩ := exists_linked_keptBehind
          (m := n) hgroup hcases' hjudge.speaks hlinked hrest
        right
        refine ⟨kept, hkept, ?_, ?_, hsaid⟩
        · rintro rfl
          cases hsaid
        · rw [hchars, hjudge.source, List.append_assoc]
      · exact ih hlinked _

/-- Whether all that is live in a list is one blank member. -/
def leavesBlank (judgements : List Judgement) : Bool :=
  match liveSelectors judgements with
  | [selector] => selector.source.all isSpace
  | _ => false

/-- Linked groups are blank together when they are one blank group. -/
theorem all_isSpace_intercalate
    {kept : List (List Cell)} (hne : kept ≠ [])
    (h : List.Forall₂ SpeaksFor kept (liveSelectors judgements)) :
    ((List.intercalate [codeCell ','] kept).flatMap Cell.masked).all isSpace =
      leavesBlank judgements := by
  rw [leavesBlank]
  generalize liveSelectors judgements = selectors at h
  cases h with
  | nil =>
      exact absurd rfl hne
  | cons hspeaks hrest =>
      cases hrest with
      | nil =>
          rw [List.intercalate_singleton]
          exact hspeaks.blank
      | cons _ _ =>
          have hcomma : (codeCell ',').masked.all isSpace = false := rfl
          simp [List.intercalate_cons_cons, hcomma]

theorem map_content_of_speaksFor
    {kept : List (List Cell)} {selectors : List Selector}
    (h : List.Forall₂ SpeaksFor kept selectors) :
    kept.map contentOfGroup = selectors.map Selector.content := by
  induction h with
  | nil =>
      rfl
  | cons hspeaks _ ih =>
      rw [List.map_cons, List.map_cons, hspeaks.content, ih]

/-- The selectors that are read from a text. -/
def readText (text : Text) : List Selector :=
  readList (Masking.ofText text).masked (Masking.ofText text).uncommented 0

theorem map_content_readText_spaces (n : Nat) :
    (readText (spaces n)).map Selector.content = [] := by
  have hcoded : Coded (spaces n) := by
    refine coded_of_forall ?_
    intro c hc
    rw [List.eq_of_mem_replicate hc]
    rfl
  rw [readText, hcoded.masked, readList, if_pos (all_isSpace_spaces n)]
  rfl

/-- A list that is made of linked groups says what they say. -/
theorem map_content_readText
    {kept : List (List Cell)} (hlinked : Linked kept) (hne : kept ≠ [])
    (h : List.Forall₂ SpeaksFor kept (liveSelectors judgements)) :
    (readText (chars (List.intercalate [codeCell ','] kept))).map
        Selector.content =
      if leavesBlank judgements then []
      else (liveSelectors judgements).map Selector.content := by
  obtain ⟨state, hread⟩ := hlinked.reads
  have huncommented : (Masking.ofText
        (chars (List.intercalate [codeCell ','] kept))).uncommented =
      chars (List.intercalate [codeCell ','] kept) := by
    simp only [Masking.ofText, annotate_of_reads hread]
    exact flatMap_uncommented_eq_chars hlinked.uncommented
  rw [readText, masked_of_reads hread, huncommented]
  cases hblank : leavesBlank judgements with
  | true =>
      rw [← all_isSpace_intercalate hne h] at hblank
      rw [readList, if_pos hblank]
      rfl
  | false =>
      rw [← all_isSpace_intercalate hne h] at hblank
      have hgroups := forall₂_readList (hlinked.grouped hne) hblank 0
      rw [map_content_of_forall₂ hgroups, map_content_of_speaksFor h]
      simp

/-- Judgements of the selectors of a list are judgements of its groups. -/
theorem forall₂_judges
    {cells : List Cell} {offset : Nat} (hlinked : Linked groups)
    (h : List.Forall₂ (ReadFrom cells offset) groups
      (judgements.map Judgement.selector)) :
    List.Forall₂ Judges groups judgements := by
  induction groups generalizing judgements with
  | nil =>
      cases judgements with
      | nil =>
          exact .nil
      | cons judgement rest =>
          cases h
  | cons group groups ih =>
      cases judgements with
      | nil =>
          cases h
      | cons judgement rest =>
          obtain ⟨hmember, -, hrest⟩ := hlinked.of_cons
          cases h with
          | cons hfrom hothers =>
              exact .cons ⟨hfrom.source, hmember.speaksFor hfrom⟩
                (ih hrest hothers)

/--
The edit of a list in which some members are judged dead takes the place of the
whole list and has its length. What it writes is read as the live members in
order, except that a single live member that is blank is not read.
-/
theorem keptEdit?_keepsLive
    {list : Text} {judgements : List Judgement}
    (hselectors : judgements.map Judgement.selector = readText list)
    (hne : judgements ≠ []) :
    ∃ edit, keptEdit? judgements = some edit ∧
      edit.span = ⟨0, byteLength list⟩ ∧
      byteLength edit.replacement = byteLength list ∧
      (readText edit.replacement).map Selector.content =
        if leavesBlank judgements then []
        else (liveSelectors judgements).map Selector.content := by
  let cells := settledCells list
  have hwidth : width cells = byteLength list := by
    rw [width, chars_settledCells, Masking.byteLength_uncommented]
  have hread : readText list =
      readList (cells.flatMap Cell.masked) (chars cells) 0 := by
    rw [readText, flatMap_masked_settledCells, chars_settledCells]
  have hblank : (cells.flatMap Cell.masked).all isSpace = false := by
    rw [Bool.eq_false_iff]
    intro hblank
    rw [hread, readList, if_pos hblank, List.map_eq_nil_iff] at hselectors
    exact hne hselectors
  obtain ⟨groups, hgroups⟩ := exists_grouped cells
  have hlinked : Linked groups := linked_of_grouped hgroups
    (uncommented_settledCells list) (reads_settledCells list)
  have hfrom := forall₂_readList hgroups hblank 0
  rw [← hread, ← hselectors] at hfrom
  have hjudges := forall₂_judges hlinked hfrom
  have hdivides := divides_cells hblank 0
  rw [← hread, ← hselectors, Nat.zero_add, hwidth] at hdivides
  have hsources : byteLength (keptText judgements) = byteLength list := by
    have hjoined := hdivides.joined
    rw [List.map_map] at hjoined
    rw [byteLength_keptText, ← hwidth]
    exact congrArg byteLength hjoined
  obtain ⟨first, hfirst⟩ : ∃ first, judgements.head? = some first :=
    ⟨_, List.head?_eq_some_head hne⟩
  obtain ⟨last, hlast⟩ : ∃ last, judgements.getLast? = some last :=
    ⟨_, List.getLast?_eq_some_getLast hne⟩
  have hstart := hdivides.first
  have hstop := hdivides.last
  rw [List.head?_map, hfirst] at hstart
  rw [List.getLast?_map, hlast] at hstop
  refine ⟨⟨⟨first.selector.span.start, last.selector.span.stop⟩,
    keptText judgements⟩, ?_, ?_, hsources, ?_⟩
  · simp only [keptEdit?, hfirst, hlast]
    rfl
  · exact congrArg₂ Span.mk (Option.some.inj hstart) (Option.some.inj hstop)
  · rcases exists_linked_keptFrom hlinked hjudges 0 with
      ⟨hnone, n, hkept⟩ | ⟨kept, hkept, hkeptne, hchars, hspeaks⟩
    · have hleaves : leavesBlank judgements = false := by
        rw [leavesBlank, hnone]
      rw [keptText, hkept, map_content_readText_spaces, hleaves, hnone]
      rfl
    · rw [keptText, ← hchars]
      exact map_content_readText hkept hkeptne hspeaks

/-- An escape takes up a space of the padding and means what it meant. -/
theorem keptEdit?_keepsLive_escape :
    ∃ edit, keptEdit? (List.zipWith Judgement.mk
        (readText ".a\\61,b".toList) [true, false]) = some edit ∧
      edit.span = ⟨0, 7⟩ ∧ byteLength edit.replacement = 7 ∧
      (readText edit.replacement).map Selector.content =
        [(".a\\61".toList,
          [⟨0, ".a\\61".toList, "aa".toList, none, .className⟩])] := by
  obtain ⟨edit, hedit, hspan, hlength, hcontent⟩ :=
    @keptEdit?_keepsLive ".a\\61,b".toList
      (List.zipWith Judgement.mk (readText ".a\\61,b".toList) [true, false])
      (by decide +kernel) (by decide +kernel)
  exact ⟨edit, hedit, hspan, hlength, hcontent.trans (by decide +kernel)⟩

end Keeping

end StylesheetPruning
