import StylesheetPruning.Proofs.Edit.Respacing

/-!
# Spaces beside one mark

A substitution of the table takes a space away behind a mark, in front of a
mark, or around a plus sign. The first two kinds look at the space and at one
neighbour only. Together they are a single pass from the right, whatever the
order in which they stand in a table.

**Single spaces.** Two spaces in a row are dealt with one after the other by
the pass and left over by a substitution; no such text reaches them.

**Results.**
* `closeRound_eq_tighten`: substitutions for one mark, one after the other, are
  one pass.
* `tighten_tighten`: passes compose, and the marks of both count.
* `tighten_append`: two texts are passed over apart unless a space meets a mark
  where they touch.
-/

namespace StylesheetPruning

section SingleSpaces

/-- A text without two spaces in a row. -/
def SingleSpaced (text : Text) : Prop :=
  ¬ doubleSpace <:+: text

theorem singleSpaced_cons {c : Char} {rest : Text} :
    SingleSpaced (c :: rest) ↔
      (c = ' ' → rest.head? ≠ some ' ') ∧ SingleSpaced rest := by
  rw [SingleSpaced, List.infix_cons_iff, not_or, SingleSpaced]
  refine and_congr_left fun _ => ?_
  cases rest with
  | nil =>
      simp [doubleSpace]
  | cons d tail =>
      simp [doubleSpace, eq_comm]

theorem SingleSpaced.tail {c : Char} {rest : Text}
    (h : SingleSpaced (c :: rest)) : SingleSpaced rest :=
  (singleSpaced_cons.mp h).2

theorem SingleSpaced.of_part {text part : Text}
    (h : SingleSpaced text) (hpart : part <:+: text) : SingleSpaced part :=
  fun hwithin => h (hwithin.trans hpart)

end SingleSpaces

section Marks

/-- A table takes away a space behind a character. -/
def LooseBehind (table : List Substitution) (c : Char) : Prop :=
  [c, ' '] ∈ table.map Substitution.pattern

/-- A table takes away a space in front of a character. -/
def LooseBefore (table : List Substitution) (c : Char) : Prop :=
  [' ', c] ∈ table.map Substitution.pattern

instance (table : List Substitution) (c : Char) :
    Decidable (LooseBehind table c) :=
  inferInstanceAs (Decidable (_ ∈ _))

instance (table : List Substitution) (c : Char) :
    Decidable (LooseBefore table c) :=
  inferInstanceAs (Decidable (_ ∈ _))

-- Without it the search may look at all characters instead of the first one.
instance (table : List Substitution) (first : Option Char) :
    Decidable (∃ d ∈ first, LooseBefore table d) :=
  Option.decidableExistsMem first

theorem plusSigns_shrinks : "+".toList.length < " + ".toList.length := by
  decide

/-- The substitution for the spaces around a plus sign. -/
def plusSigns : Substitution :=
  ⟨" + ".toList, "+".toList, plusSigns_shrinks⟩

@[simp] theorem pattern_plusSigns : plusSigns.pattern = [' ', '+', ' '] := rfl

@[simp] theorem replacement_plusSigns : plusSigns.replacement = ['+'] := rfl

theorem plusSigns_mem : plusSigns ∈ looseSpaces := by
  simp [looseSpaces, plusSigns]

theorem looseBehind_looseSpaces {c : Char} :
    LooseBehind looseSpaces c ↔ c = ':' ∨ c = ',' := by
  simp [LooseBehind, looseSpaces]

theorem looseBefore_looseSpaces {c : Char} :
    LooseBefore looseSpaces c ↔ c = '\x7b' ∨ c = '(' := by
  simp [LooseBefore, looseSpaces]

theorem LooseBehind.mono {table table' : List Substitution}
    (h : table ⊆ table') {c : Char} (hc : LooseBehind table c) :
    LooseBehind table' c :=
  List.map_subset _ h hc

theorem LooseBefore.mono {table table' : List Substitution}
    (h : table ⊆ table') {c : Char} (hc : LooseBefore table c) :
    LooseBefore table' c :=
  List.map_subset _ h hc

theorem looseBehind_append {table table' : List Substitution} {c : Char} :
    LooseBehind (table ++ table') c ↔
      LooseBehind table c ∨ LooseBehind table' c := by
  simp only [LooseBehind, List.map_append, List.mem_append]

theorem looseBefore_append {table table' : List Substitution} {c : Char} :
    LooseBefore (table ++ table') c ↔
      LooseBefore table c ∨ LooseBefore table' c := by
  simp only [LooseBefore, List.map_append, List.mem_append]

/-- A mark is no space and no plus sign. -/
structure Mark (c : Char) : Prop where
  ne_space : c ≠ ' '
  ne_plus : c ≠ '+'

theorem LooseBehind.mark {c : Char} (h : LooseBehind looseSpaces c) :
    Mark c := by
  rcases looseBehind_looseSpaces.mp h with rfl | rfl <;>
    exact ⟨by decide, by decide⟩

theorem LooseBefore.mark {c : Char} (h : LooseBefore looseSpaces c) :
    Mark c := by
  rcases looseBefore_looseSpaces.mp h with rfl | rfl <;>
    exact ⟨by decide, by decide⟩

/-- No mark loses spaces on both sides. -/
theorem LooseBefore.not_looseBehind {c : Char}
    (h : LooseBefore looseSpaces c) : ¬ LooseBehind looseSpaces c := by
  rw [looseBehind_looseSpaces]
  rcases looseBefore_looseSpaces.mp h with rfl | rfl <;> decide

end Marks

section Passes

/-- Put a character in front of a text that a pass has gone over. -/
def tightenOne (table : List Substitution) (c : Char) (passed : Text) : Text :=
  if c = ' ' ∧ ∃ d ∈ passed.head?, LooseBefore table d then passed
  else if LooseBehind table c ∧ passed.head? = some ' ' then c :: passed.tail
  else c :: passed

/-- One pass over a text for all substitutions that look at a single mark. -/
def tighten (table : List Substitution) (text : Text) : Text :=
  text.foldr (tightenOne table) []

variable {table : List Substitution}

@[simp] theorem tighten_nil : tighten table [] = [] := rfl

theorem tighten_cons (c : Char) (rest : Text) :
    tighten table (c :: rest) = tightenOne table c (tighten table rest) := rfl

theorem tightenOne_of_ne_space {c : Char} {passed : Text} (hc : c ≠ ' ')
    (h : LooseBehind table c → passed.head? ≠ some ' ') :
    tightenOne table c passed = c :: passed := by
  rw [tightenOne, if_neg (fun hand => hc hand.1),
    if_neg (fun hand => h hand.1 hand.2)]

theorem tightenOne_space {passed : Text}
    (h : ∀ d ∈ passed.head?, ¬ LooseBefore table d)
    (hhead : passed.head? ≠ some ' ') :
    tightenOne table ' ' passed = ' ' :: passed := by
  rw [tightenOne, if_neg (fun ⟨_, d, hd, hloose⟩ => h d hd hloose),
    if_neg (fun hand => hhead hand.2)]

theorem tightenOne_space_before {d : Char} {rest : Text}
    (h : LooseBefore table d) :
    tightenOne table ' ' (d :: rest) = d :: rest := by
  rw [tightenOne, if_pos ⟨rfl, d, rfl, h⟩]

theorem tightenOne_behind_space {c : Char} {rest : Text} (hc : c ≠ ' ')
    (h : LooseBehind table c) :
    tightenOne table c (' ' :: rest) = c :: rest := by
  rw [tightenOne, if_neg (fun hand => hc hand.1), if_pos ⟨h, rfl⟩]
  rfl

/-- A character that is no space stays in its place. -/
theorem head?_tightenOne {c : Char} (hc : c ≠ ' ') (passed : Text) :
    (tightenOne table c passed).head? = some c := by
  rw [tightenOne, if_neg (fun hand => hc hand.1)]
  split <;> rfl

theorem head?_tighten_of_ne_space (table : List Substitution) {rest : Text}
    (h : rest.head? ≠ some ' ') :
    (tighten table rest).head? = rest.head? := by
  cases rest with
  | nil =>
      rfl
  | cons c tail =>
      rw [tighten_cons, List.head?_cons]
      exact head?_tightenOne (fun hc => h (by rw [hc]; rfl)) _

/-- A pass puts no space in front. -/
theorem head?_eq_space_of_tighten {rest : Text}
    (h : (tighten table rest).head? = some ' ') : rest.head? = some ' ' := by
  by_cases hne : rest.head? = some ' '
  · exact hne
  · rwa [head?_tighten_of_ne_space _ hne] at h

theorem tighten_cons_of_ne_space {c : Char} {rest : Text} (hc : c ≠ ' ')
    (h : LooseBehind table c → rest.head? ≠ some ' ') :
    tighten table (c :: rest) = c :: tighten table rest := by
  rw [tighten_cons]
  refine tightenOne_of_ne_space hc fun hloose => ?_
  rw [head?_tighten_of_ne_space _ (h hloose)]
  exact h hloose

theorem tighten_space {rest : Text}
    (h : ∀ d ∈ rest.head?, ¬ LooseBefore table d)
    (hhead : rest.head? ≠ some ' ') :
    tighten table (' ' :: rest) = ' ' :: tighten table rest := by
  have hsame := head?_tighten_of_ne_space table hhead
  rw [tighten_cons]
  exact tightenOne_space (by rwa [hsame]) (by rwa [hsame])

theorem tighten_space_before {d : Char} {rest : Text} (hd : d ≠ ' ')
    (h : LooseBefore table d) :
    tighten table (' ' :: d :: rest) = tighten table (d :: rest) := by
  have hhead : (tighten table (d :: rest)).head? = some d :=
    head?_tightenOne hd _
  obtain ⟨tail, htail⟩ := List.head?_eq_some_iff.mp hhead
  rw [tighten_cons, htail]
  exact tightenOne_space_before h

theorem tighten_behind_space {c : Char} {rest : Text} (hc : c ≠ ' ')
    (h : LooseBehind table c) (hhead : rest.head? ≠ some ' ') :
    tighten table (c :: ' ' :: rest) = c :: tighten table rest := by
  have hsame := head?_tighten_of_ne_space table hhead
  by_cases hbefore : ∃ d ∈ (tighten table rest).head?, LooseBefore table d
  · have hspace : tighten table (' ' :: rest) = tighten table rest := by
      rw [tighten_cons, tightenOne, if_pos ⟨rfl, hbefore⟩]
    rw [tighten_cons, hspace]
    exact tightenOne_of_ne_space hc (fun _ => by rwa [hsame])
  · rw [tighten_cons, tighten_cons, tightenOne_space
      (fun d hd hloose => hbefore ⟨d, hd, hloose⟩) (by rwa [hsame])]
    exact tightenOne_behind_space hc h

/-- Only the marks of a table count. -/
theorem tighten_congr {table' : List Substitution}
    (hbehind : ∀ c, LooseBehind table c ↔ LooseBehind table' c)
    (hbefore : ∀ c, LooseBefore table c ↔ LooseBefore table' c)
    (text : Text) : tighten table text = tighten table' text := by
  have hone : tightenOne table = tightenOne table' := by
    funext c passed
    simp only [tightenOne, hbehind, hbefore]
  rw [tighten, tighten, hone]

theorem ungapped_cons (c : Char) (rest : Text) :
    ungapped (c :: rest) = ungapped [c] ++ ungapped rest :=
  ungapped_append [c] rest

theorem ungapped_tighten (table : List Substitution) (text : Text) :
    ungapped (tighten table text) = ungapped text := by
  induction text with
  | nil =>
      rfl
  | cons c rest ih =>
      rw [ungapped_cons, ← ih, tighten_cons, tightenOne]
      split
      · next hand =>
          rw [hand.1]
          rfl
      · split
        · next hand =>
            obtain ⟨tail, htail⟩ := List.head?_eq_some_iff.mp hand.2
            rw [htail, List.tail_cons, ungapped_cons, ungapped_cons ' ']
            rfl
        · rw [ungapped_cons]

end Passes

section Composition

variable {table table' : List Substitution}

theorem singleSpaced_tighten
    (htable : table ⊆ looseSpaces) {text : Text} (h : SingleSpaced text) :
    SingleSpaced (tighten table text) := by
  induction text with
  | nil =>
      exact h
  | cons c rest ih =>
      have hrest := ih h.tail
      rw [tighten_cons, tightenOne]
      split
      · exact hrest
      · split
        · next hand =>
            have hc := (LooseBehind.mark (hand.1.mono htable)).ne_space
            refine singleSpaced_cons.mpr ⟨fun heq => absurd heq hc, ?_⟩
            exact hrest.of_part (List.tail_suffix _).isInfix
        · refine singleSpaced_cons.mpr ⟨fun heq hhead => ?_, hrest⟩
          exact (singleSpaced_cons.mp h).1 heq (head?_eq_space_of_tighten hhead)

/-- Behind a mark it does not matter whether a space is still there. -/
theorem tightenOne_behind_tighten_space
    {c : Char} {rest : Text} (hc : c ≠ ' ') (hloose : LooseBehind table c)
    (hhead : rest.head? ≠ some ' ') :
    tightenOne table c (tighten table' (' ' :: rest)) =
      c :: tighten table' rest := by
  have hsame := head?_tighten_of_ne_space table' hhead
  by_cases hbefore : ∃ d ∈ rest.head?, LooseBefore table' d
  · have hspace : tighten table' (' ' :: rest) = tighten table' rest := by
      rw [tighten_cons, tightenOne, if_pos ⟨rfl, by rwa [hsame]⟩]
    rw [hspace]
    exact tightenOne_of_ne_space hc (fun _ => by rwa [hsame])
  · rw [tighten_space (fun d hd hd' => hbefore ⟨d, hd, hd'⟩) hhead]
    exact tightenOne_behind_space hc hloose

/-- A space goes if the next character asks for it in either table. -/
theorem tighten_tightenOne_space
    {passed : Text} (hhead : passed.head? ≠ some ' ') :
    tighten table' (tightenOne table ' ' passed) =
      tightenOne (table ++ table') ' ' (tighten table' passed) := by
  have hsame := head?_tighten_of_ne_space table' hhead
  by_cases hbefore : ∃ d ∈ passed.head?, LooseBefore table d
  · have hboth : ∃ d ∈ (tighten table' passed).head?,
        LooseBefore (table ++ table') d := by
      obtain ⟨d, hd, hloose⟩ := hbefore
      exact ⟨d, by rwa [hsame], looseBefore_append.mpr (.inl hloose)⟩
    rw [tightenOne, if_pos ⟨rfl, hbefore⟩, tightenOne, if_pos ⟨rfl, hboth⟩]
  · have hnot : ∀ d ∈ passed.head?, ¬ LooseBefore table d :=
      fun d hd hloose => hbefore ⟨d, hd, hloose⟩
    have hiff : (∃ d ∈ (tighten table' passed).head?,
        LooseBefore (table ++ table') d) ↔
          ∃ d ∈ (tighten table' passed).head?, LooseBefore table' d := by
      rw [hsame]
      refine exists_congr fun d => and_congr_right fun hd => ?_
      rw [looseBefore_append, or_iff_right (hnot d hd)]
    have hbehind : (tighten table' passed).head? ≠ some ' ' := by
      rwa [hsame]
    rw [tightenOne_space hnot hhead, tighten_cons]
    simp only [tightenOne, hiff, hbehind, and_false]

/-- A mark takes the space behind it if it is in either table. -/
theorem tighten_tightenOne_char
    {c : Char} (hc : c ≠ ' ') {passed : Text} (hpassed : SingleSpaced passed) :
    tighten table' (tightenOne table c passed) =
      tightenOne (table ++ table') c (tighten table' passed) := by
  by_cases hhead : passed.head? = some ' '
  · obtain ⟨rest, rfl⟩ := List.head?_eq_some_iff.mp hhead
    have hrest := (singleSpaced_cons.mp hpassed).1 rfl
    by_cases hloose : LooseBehind (table ++ table') c
    · rw [tightenOne_behind_tighten_space hc hloose hrest]
      by_cases hfirst : LooseBehind table c
      · rw [tightenOne_behind_space hc hfirst]
        exact tighten_cons_of_ne_space hc (fun _ => hrest)
      · have hsecond := (looseBehind_append.mp hloose).resolve_left hfirst
        rw [tightenOne_of_ne_space hc (fun hl => absurd hl hfirst)]
        exact tighten_behind_space hc hsecond hrest
    · have hneither := not_or.mp (mt looseBehind_append.mpr hloose)
      rw [tightenOne_of_ne_space hc (fun hl => absurd hl hneither.1),
        tightenOne_of_ne_space hc (fun hl => absurd hl hloose)]
      exact tightenOne_of_ne_space hc (fun hl => absurd hl hneither.2)
  · have hsame := head?_tighten_of_ne_space table' hhead
    rw [tightenOne_of_ne_space hc (fun _ => hhead),
      tightenOne_of_ne_space hc (fun _ => by rwa [hsame])]
    exact tighten_cons_of_ne_space hc (fun _ => hhead)

/-- Two passes are one pass for the marks of both. -/
theorem tighten_tighten
    (htable : table ⊆ looseSpaces)
    {text : Text} (h : SingleSpaced text) :
    tighten table' (tighten table text) = tighten (table ++ table') text := by
  induction text with
  | nil =>
      rfl
  | cons c rest ih =>
      have hstep : tighten table' (tightenOne table c (tighten table rest)) =
          tightenOne (table ++ table') c
            (tighten table' (tighten table rest)) := by
        by_cases hc : c = ' '
        · subst hc
          exact tighten_tightenOne_space fun hhead =>
            (singleSpaced_cons.mp h).1 rfl (head?_eq_space_of_tighten hhead)
        · exact tighten_tightenOne_char hc (singleSpaced_tighten htable h.tail)
      rw [tighten_cons, hstep, ih h.tail, ← tighten_cons]

end Composition

section Substitutions

/-- A substitution takes a space away beside a single mark. -/
inductive BesideMark (s : Substitution) : Prop
  | behind {c : Char} : Mark c → s.replacement = [c] →
      s.pattern = [c, ' '] → BesideMark s
  | before {c : Char} : Mark c → s.replacement = [c] →
      s.pattern = [' ', c] → BesideMark s

theorem besideMark_of_mem {s : Substitution} (hs : s ∈ looseSpaces)
    (hplus : s ≠ plusSigns) : BesideMark s := by
  simp only [looseSpaces, List.mem_cons, List.not_mem_nil, or_false] at hs
  rcases hs with rfl | rfl | rfl | rfl | rfl
  · exact .behind ⟨by decide, by decide⟩ rfl rfl
  · exact .before ⟨by decide, by decide⟩ rfl rfl
  · exact .before ⟨by decide, by decide⟩ rfl rfl
  · exact .behind ⟨by decide, by decide⟩ rfl rfl
  · exact absurd rfl hplus

theorem isPrefixOf_pair {a b c : Char} {rest : Text} :
    [a, b].isPrefixOf (c :: rest) = true ↔ a = c ∧ rest.head? = some b := by
  rw [List.isPrefixOf_iff_prefix, List.cons_prefix_cons,
    List.singleton_prefix_iff_head?_eq_some]

/-- A space behind a mark goes as in a pass. -/
theorem apply_eq_tighten_behind {s : Substitution} {c : Char} (hc : Mark c)
    (hreplacement : s.replacement = [c]) (hpattern : s.pattern = [c, ' '])
    {text : Text} (h : SingleSpaced text) : s.apply text = tighten [s] text := by
  have hbehind : ∀ d, LooseBehind [s] d ↔ d = c := by
    simp [LooseBehind, hpattern]
  have hbefore : ∀ d, ¬ LooseBefore [s] d := by
    simp [LooseBefore, hpattern, hc.ne_space.symm]
  induction text using s.apply_induction with
  | nil =>
      rfl
  | found rest ih =>
      rw [s.apply_pattern_append, hpattern, hreplacement]
      rw [hpattern] at h
      have hrest := singleSpaced_cons.mp h.tail
      rw [ih hrest.2]
      exact (tighten_behind_space hc.ne_space ((hbehind c).mpr rfl)
        (hrest.1 rfl)).symm
  | kept d rest hmatch ih =>
      rw [s.apply_cons_of_no_match d rest hmatch, ih h.tail]
      rw [hpattern, isPrefixOf_pair, not_and] at hmatch
      by_cases hd : d = ' '
      · subst hd
        exact (tighten_space (fun d _ => hbefore d)
          ((singleSpaced_cons.mp h).1 rfl)).symm
      · exact (tighten_cons_of_ne_space hd
          fun hl => hmatch ((hbehind d).mp hl).symm).symm

/-- A space in front of a mark goes as in a pass. -/
theorem apply_eq_tighten_before {s : Substitution} {c : Char} (hc : Mark c)
    (hreplacement : s.replacement = [c]) (hpattern : s.pattern = [' ', c])
    {text : Text} (h : SingleSpaced text) : s.apply text = tighten [s] text := by
  have hbehind : ∀ d, ¬ LooseBehind [s] d := by
    simp [LooseBehind, hpattern, hc.ne_space.symm]
  have hbefore : ∀ d, LooseBefore [s] d ↔ d = c := by
    simp [LooseBefore, hpattern]
  induction text using s.apply_induction with
  | nil =>
      rfl
  | found rest ih =>
      rw [s.apply_pattern_append, hpattern, hreplacement]
      rw [hpattern] at h
      rw [ih h.tail.tail]
      calc [c] ++ tighten [s] rest
          = tighten [s] (c :: rest) :=
            (tighten_cons_of_ne_space hc.ne_space
              fun hl => absurd hl (hbehind c)).symm
        _ = tighten [s] ([' ', c] ++ rest) :=
            (tighten_space_before hc.ne_space ((hbefore c).mpr rfl)).symm
  | kept d rest hmatch ih =>
      rw [s.apply_cons_of_no_match d rest hmatch, ih h.tail]
      rw [hpattern, isPrefixOf_pair, not_and] at hmatch
      by_cases hd : d = ' '
      · subst hd
        refine (tighten_space (fun d hd hl => hmatch rfl ?_)
          ((singleSpaced_cons.mp h).1 rfl)).symm
        rw [(hbefore d).mp hl] at hd
        exact hd
      · exact (tighten_cons_of_ne_space hd
          fun hl => absurd hl (hbehind d)).symm

/-- A substitution beside a single mark is a pass. -/
theorem apply_eq_tighten {s : Substitution} (hs : BesideMark s) {text : Text}
    (h : SingleSpaced text) : s.apply text = tighten [s] text := by
  cases hs with
  | behind hc hreplacement hpattern =>
      exact apply_eq_tighten_behind hc hreplacement hpattern h
  | before hc hreplacement hpattern =>
      exact apply_eq_tighten_before hc hreplacement hpattern h

@[simp] theorem tighten_nil_table (text : Text) : tighten [] text = text := by
  induction text with
  | nil =>
      rfl
  | cons c rest ih =>
      rw [tighten_cons, ih]
      simp [tightenOne, LooseBehind, LooseBefore]

/-- Substitutions for one mark, one after the other, are one pass. -/
theorem closeRound_eq_tighten {table : List Substitution}
    (htable : table ⊆ looseSpaces) (hplus : plusSigns ∉ table) {text : Text}
    (h : SingleSpaced text) : closeRound table text = tighten table text := by
  induction table generalizing text with
  | nil =>
      exact (tighten_nil_table text).symm
  | cons s rest ih =>
      obtain ⟨hs, hrest⟩ := List.cons_subset.mp htable
      rw [List.mem_cons, not_or] at hplus
      have hone : [s] ⊆ looseSpaces := List.cons_subset.mpr ⟨hs, List.nil_subset _⟩
      have happly : s.apply text = tighten [s] text :=
        apply_eq_tighten (besideMark_of_mem hs (Ne.symm hplus.1)) h
      calc closeRound (s :: rest) text
          = closeRound rest (s.apply text) := rfl
        _ = tighten rest (tighten [s] text) := by
            rw [happly, ih hrest hplus.2 (singleSpaced_tighten hone h)]
        _ = tighten (s :: rest) text := tighten_tighten hone h

end Substitutions

section Appending

variable {table : List Substitution}

theorem tightenOne_ne_nil (c : Char) (passed : Text) :
    tightenOne table c passed ≠ [] := by
  rw [tightenOne]
  split
  · next hand =>
      obtain ⟨d, hd, -⟩ := hand.2
      intro hnil
      rw [hnil] at hd
      cases hd
  · split <;> exact List.cons_ne_nil _ _

theorem tightenOne_append (c : Char) {passed : Text} (hne : passed ≠ [])
    (back : Text) :
    tightenOne table c (passed ++ back) = tightenOne table c passed ++ back := by
  obtain ⟨d, rest, rfl⟩ := List.exists_cons_of_ne_nil hne
  rw [tightenOne, tightenOne, List.cons_append, List.head?_cons,
    List.head?_cons, List.tail_cons, List.tail_cons]
  split
  · rfl
  · split <;> rfl

/-- Two texts are passed over apart unless a space meets a mark at the seam. -/
theorem tighten_append {front back : Text}
    (hspace : front.getLast? = some ' ' →
      back.head? ≠ some ' ' ∧ ∀ d ∈ back.head?, ¬ LooseBefore table d)
    (hmark : ∀ c ∈ front.getLast?, LooseBehind table c →
      back.head? ≠ some ' ') :
    tighten table (front ++ back) =
      tighten table front ++ tighten table back := by
  induction front with
  | nil =>
      rfl
  | cons c rest ih =>
      rw [List.cons_append]
      cases rest with
      | nil =>
          by_cases hc : c = ' '
          · subst hc
            obtain ⟨hhead, hbefore⟩ := hspace rfl
            rw [List.nil_append, tighten_space hbefore hhead,
              tighten_space (by simp) (by simp)]
            rfl
          · rw [List.nil_append, tighten_cons_of_ne_space hc (hmark c rfl),
              tighten_cons_of_ne_space hc (fun _ => by simp)]
            rfl
      | cons d tail =>
          rw [List.getLast?_cons_cons] at hspace hmark
          have hne : tighten table (d :: tail) ≠ [] := tightenOne_ne_nil d _
          rw [tighten_cons, ih hspace hmark, tighten_cons c (d :: tail)]
          exact tightenOne_append c hne _

/-- A last character that is no space stays the last one. -/
theorem getLast?_tighten
    (table : List Substitution) {text : Text} {c : Char} (hc : c ≠ ' ')
    (h : text.getLast? = some c) : (tighten table text).getLast? = some c := by
  induction text with
  | nil =>
      cases h
  | cons d rest ih =>
      cases rest with
      | nil =>
          rw [List.getLast?_singleton, Option.some.injEq] at h
          subst h
          rw [tighten_cons_of_ne_space hc (fun _ => by simp)]
          rfl
      | cons x tail =>
          rw [List.getLast?_cons_cons] at h
          have hrest := ih h
          rw [tighten_cons, tightenOne]
          split
          · exact hrest
          · obtain ⟨y, passed, hpassed⟩ :
                ∃ y passed, tighten table (x :: tail) = y :: passed :=
              List.exists_cons_of_ne_nil (tightenOne_ne_nil x _)
            rw [hpassed] at hrest ⊢
            split
            · next hand =>
                cases passed with
                | nil =>
                    rw [List.getLast?_singleton] at hrest
                    exact absurd (hrest.symm.trans hand.2) (by simpa using hc)
                | cons z more =>
                    rw [List.getLast?_cons_cons] at hrest
                    rwa [List.tail_cons, List.getLast?_cons_cons]
            · rwa [List.getLast?_cons_cons]

end Appending

end StylesheetPruning
