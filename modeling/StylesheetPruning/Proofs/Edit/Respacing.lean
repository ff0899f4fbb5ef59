import Mathlib.Logic.Relation
import StylesheetPruning.Edit.Spacing
import StylesheetPruning.Proofs.Text.Substituting

/-!
# Normal spacing, one change at a time

Normal spacing is reached by small changes: a line break becomes a space, or a
space is dropped beside a character that makes it needless. What every such
change keeps, normal spacing keeps.

**Normal form.** A text in normal spacing has no line break, no two spaces in
a row and no pattern of a substitution, and every such text stays as it is.

**Results.**
* `respaced_normalSpacing`: normal spacing is reached by changes.
* `Respaced.ungapped_eq`: changes keep everything but spaces and line breaks.
* `normalSpaced_normalSpacing`, `NormalSpaced.eq_self`: the normal form.
* `NormalSpaced.delete`: deleting behind a fence keeps the normal form.
-/

namespace StylesheetPruning

/-- A text without spaces and line breaks. -/
def ungapped (text : Text) : Text :=
  text.filter (fun c => !isGap c)

@[simp] theorem ungapped_nil : ungapped [] = [] := rfl

@[simp] theorem ungapped_append (text text' : Text) :
    ungapped (text ++ text') = ungapped text ++ ungapped text' :=
  List.filter_append _ _

@[simp] theorem ungapped_spaces (n : Nat) : ungapped (spaces n) = [] := by
  simp [ungapped, spaces, isGap]

/-- A text without its spaces. -/
def unspaced (text : Text) : Text :=
  text.filter (fun c => c ≠ ' ')

@[simp] theorem unspaced_append (text text' : Text) :
    unspaced (text ++ text') = unspaced text ++ unspaced text' :=
  List.filter_append _ _

@[simp] theorem unspaced_spaces (n : Nat) : unspaced (spaces n) = [] := by
  simp [unspaced, spaces]

/-- Number of characters besides spaces and line breaks. -/
def weight (text : Text) : Nat :=
  (ungapped text).length

@[simp] theorem weight_nil : weight [] = 0 := rfl

@[simp] theorem weight_append (text text' : Text) :
    weight (text ++ text') = weight text + weight text' := by
  simp [weight]

@[simp] theorem weight_spaces (n : Nat) : weight (spaces n) = 0 := by
  simp [weight]

section Changes

/-- Characters behind which a space is dropped. -/
def closesBehind (c : Char) : Bool :=
  c = ' ' || c = ':' || c = ',' || c = '+'

/-- Characters in front of which a space is dropped. -/
def closesBefore (c : Char) : Bool :=
  c = '\x7b' || c = '(' || c = '+'

/-- A change of spacing. -/
inductive SpacingChange : Text → Text → Prop
  | gap {c : Char} : isGap c = true → SpacingChange [c] [' ']
  | behind {c : Char} : closesBehind c = true → SpacingChange [c, ' '] [c]
  | before {c : Char} : closesBefore c = true → SpacingChange [' ', c] [c]

/-- A change of spacing somewhere in a text. -/
def RespacedOnce (text text' : Text) : Prop :=
  ∃ front old new back, SpacingChange old new ∧
    text = front ++ (old ++ back) ∧ text' = front ++ (new ++ back)

/-- Any number of changes of spacing. -/
abbrev Respaced : Text → Text → Prop :=
  Relation.ReflTransGen RespacedOnce

theorem Respaced.append_left {text text' : Text}
    (h : Respaced text text') (front : Text) :
    Respaced (front ++ text) (front ++ text') := by
  refine Relation.ReflTransGen.lift (fun t => front ++ t) ?_ _ _ h
  rintro _ _ ⟨front', old, new, back, hchange, rfl, rfl⟩
  exact ⟨front ++ front', old, new, back, hchange, by simp, by simp⟩

theorem Respaced.cons {text text' : Text}
    (h : Respaced text text') (c : Char) :
    Respaced (c :: text) (c :: text') :=
  h.append_left [c]

theorem respaced_of_change {old new : Text}
    (h : SpacingChange old new) (back : Text) :
    Respaced (old ++ back) (new ++ back) :=
  .single ⟨[], old, new, back, h, rfl, rfl⟩

theorem respaced_squeeze (c : Char) (rest : Text) :
    Respaced (c :: rest) (squeeze c rest) := by
  rw [squeeze]
  split
  · next hgap =>
      have hspace : Respaced (c :: rest) (' ' :: rest) :=
        respaced_of_change (.gap hgap) rest
      split
      · next hhead =>
          obtain ⟨tail, rfl⟩ : ∃ tail, rest = ' ' :: tail := by
            cases rest with
            | nil =>
                cases hhead
            | cons d tail =>
                simp only [List.head?_cons, Option.some.injEq] at hhead
                exact ⟨tail, by rw [hhead]⟩
          have hdouble : Respaced (' ' :: ' ' :: tail) (' ' :: tail) :=
            respaced_of_change (.behind rfl) tail
          exact hspace.trans hdouble
      · exact hspace
  · exact .refl

theorem respaced_collapseGaps (text : Text) :
    Respaced text (collapseGaps text) := by
  induction text with
  | nil =>
      exact .refl
  | cons c rest ih =>
      rw [collapseGaps_cons]
      exact (ih.cons c).trans (respaced_squeeze c _)

/-- The pattern of a substitution is changed into its replacement. -/
theorem respaced_pattern
    {s : Substitution} (hs : s ∈ looseSpaces) (back : Text) :
    Respaced (s.pattern ++ back) (s.replacement ++ back) := by
  simp only [looseSpaces, List.mem_cons, List.not_mem_nil, or_false] at hs
  rcases hs with rfl | rfl | rfl | rfl | rfl
  · exact respaced_of_change (.behind (c := ':') rfl) back
  · exact respaced_of_change (.before (c := '\x7b') rfl) back
  · exact respaced_of_change (.before (c := '(') rfl) back
  · exact respaced_of_change (.behind (c := ',') rfl) back
  · have hbefore : Respaced (' ' :: '+' :: ' ' :: back) ('+' :: ' ' :: back) :=
      respaced_of_change (.before (c := '+') rfl) (' ' :: back)
    have hbehind : Respaced ('+' :: ' ' :: back) ('+' :: back) :=
      respaced_of_change (.behind (c := '+') rfl) back
    exact hbefore.trans hbehind

theorem respaced_apply
    {s : Substitution} (hs : s ∈ looseSpaces) (text : Text) :
    Respaced text (s.apply text) := by
  induction text using s.apply_induction with
  | nil =>
      exact .refl
  | found rest ih =>
      rw [s.apply_pattern_append]
      exact (respaced_pattern hs rest).trans (ih.append_left _)
  | kept c rest h ih =>
      rw [s.apply_cons_of_no_match c rest h]
      exact ih.cons c

theorem respaced_closeRound
    {table : List Substitution} (htable : ∀ s ∈ table, s ∈ looseSpaces)
    (text : Text) : Respaced text (closeRound table text) := by
  induction table generalizing text with
  | nil =>
      exact .refl
  | cons s rest ih =>
      have hrest := ih (fun s' hs' => htable s' (List.mem_cons_of_mem s hs'))
      exact (respaced_apply (htable s (by simp)) text).trans (hrest _)

theorem respaced_closeRounds (n : Nat) (text : Text) :
    Respaced text (closeRounds looseSpaces n text) := by
  have hround : ∀ text, Respaced text (closeRound looseSpaces text) :=
    respaced_closeRound (fun s hs => hs)
  induction n generalizing text with
  | zero =>
      exact .refl
  | succ n ih =>
      simp only [closeRounds]
      split
      · exact hround text
      · exact (hround text).trans (ih _)

/-- Normal spacing is reached by changes of spacing. -/
theorem respaced_normalSpacing (text : Text) :
    Respaced text (normalSpacing text) :=
  (respaced_collapseGaps text).trans (respaced_closeRounds _ _)

/-- Changes of spacing keep everything but spaces and line breaks. -/
theorem Respaced.ungapped_eq {text text' : Text} (h : Respaced text text') :
    ungapped text' = ungapped text := by
  induction h with
  | refl =>
      rfl
  | tail _ honce ih =>
      obtain ⟨front, old, new, back, hchange, rfl, rfl⟩ := honce
      have hnew : ungapped new = ungapped old := by
        cases hchange with
        | gap hc =>
            simp [ungapped, hc]
            rfl
        | behind hc =>
            rfl
        | before hc =>
            rfl
      rw [← ih]
      simp [hnew]

end Changes

section NormalForm

/-- Two spaces in a row. -/
def doubleSpace : Text :=
  [' ', ' ']

/-- The texts that normal spacing leaves nowhere. -/
def loosePatterns : List Text :=
  doubleSpace :: looseSpaces.map Substitution.pattern

/-- A text in normal spacing. -/
structure NormalSpaced (text : Text) : Prop where
  unbroken : ∀ c ∈ text, isLineBreak c = false
  tight : ∀ pattern ∈ loosePatterns, ¬ pattern <:+: text

theorem NormalSpaced.of_part {text part : Text}
    (h : NormalSpaced text) (hpart : part <:+: text) : NormalSpaced part := by
  constructor
  · intro c hc
    exact h.unbroken c (hpart.mem hc)
  · intro pattern hpattern hwithin
    exact h.tight pattern hpattern (hwithin.trans hpart)

theorem collapseGaps_eq_self
    {text : Text} (hbreaks : ∀ c ∈ text, isLineBreak c = false)
    (hdouble : ¬ doubleSpace <:+: text) : collapseGaps text = text := by
  induction text with
  | nil =>
      rfl
  | cons c rest ih =>
      simp only [List.mem_cons, forall_eq_or_imp] at hbreaks
      rw [List.infix_cons_iff, not_or] at hdouble
      rw [collapseGaps_cons, ih hbreaks.2 hdouble.2, squeeze]
      split
      · next hgap =>
          have hc : c = ' ' := by
            simpa [isGap, hbreaks.1] using hgap
          subst hc
          split
          · next hhead =>
              cases rest with
              | nil =>
                  cases hhead
              | cons d tail =>
                  simp only [List.head?_cons, Option.some.injEq] at hhead
                  subst hhead
                  exact absurd ⟨tail, rfl⟩ hdouble.1
          · rfl
      · rfl

namespace Substitution

/-- A replacement without spaces puts no two spaces together. -/
theorem not_doubleSpace_apply
    {s : Substitution} {x : Char} (hreplacement : s.replacement = [x])
    (hx : x ≠ ' ') {text : Text} (h : ¬ doubleSpace <:+: text) :
    ¬ doubleSpace <:+: s.apply text ∧
      ((s.apply text).head? = some ' ' → text.head? = some ' ') := by
  induction text using s.apply_induction with
  | nil =>
      exact ⟨h, id⟩
  | found rest ih =>
      have hrest : ¬ doubleSpace <:+: rest :=
        fun hwithin => h (List.infix_append_of_infix_right hwithin)
      rw [s.apply_pattern_append, hreplacement, List.singleton_append,
        List.infix_cons_iff, not_or]
      refine ⟨⟨?_, (ih hrest).1⟩, ?_⟩
      · intro hprefix
        exact hx (List.cons_prefix_cons.mp hprefix).1.symm
      · intro hhead
        exact absurd (Option.some.inj hhead) hx
  | kept c rest hc ih =>
      rw [List.infix_cons_iff, not_or] at h
      obtain ⟨hrest, hhead⟩ := ih h.2
      rw [s.apply_cons_of_no_match c rest hc, List.infix_cons_iff, not_or]
      refine ⟨⟨?_, hrest⟩, fun heq => heq⟩
      intro hprefix
      obtain ⟨hspace, hprefix⟩ := List.cons_prefix_cons.mp hprefix
      refine h.1 (List.cons_prefix_cons.mpr ⟨hspace, ?_⟩)
      obtain ⟨tail, htail⟩ := hprefix
      have hfirst := hhead (by rw [← htail]; rfl)
      cases rest with
      | nil =>
          cases hfirst
      | cons d rest' =>
          exact ⟨rest', by rw [Option.some.inj hfirst]; rfl⟩

end Substitution

/-- A round that keeps a text leaves it alone in every substitution. -/
theorem apply_eq_self_of_closeRound
    {table : List Substitution} {text : Text}
    (h : closeRound table text = text) :
    ∀ s ∈ table, s.apply text = text := by
  induction table with
  | nil =>
      simp
  | cons s rest ih =>
      have hround : closeRound rest (s.apply text) = text := h
      have hle := length_closeRound_le rest (s.apply text)
      have hle' := s.length_apply_le text
      rw [hround] at hle
      have hfirst : s.apply text = text :=
        s.apply_eq_self_of_length (by omega)
      rw [hfirst] at hround
      intro s' hs'
      rcases List.mem_cons.mp hs' with rfl | hs'
      · exact hfirst
      · exact ih hround s' hs'

theorem closeRound_eq_self
    {table : List Substitution} {text : Text}
    (h : ∀ s ∈ table, ¬ s.pattern <:+: text) :
    closeRound table text = text := by
  induction table with
  | nil =>
      rfl
  | cons s rest ih =>
      have hfirst : s.apply text = text := s.apply_eq_self (h s (by simp))
      have hrest := ih (fun s' hs' => h s' (List.mem_cons_of_mem s hs'))
      simpa only [closeRound, List.foldl_cons, hfirst] using hrest

/-- A text in normal spacing stays as it is. -/
theorem NormalSpaced.eq_self {text : Text} (h : NormalSpaced text) :
    normalSpacing text = text := by
  refine normalSpacing_eq_of_fixed ?_ ?_
  · exact collapseGaps_eq_self h.unbroken (h.tight doubleSpace (by simp [loosePatterns]))
  · refine closeRound_eq_self ?_
    intro s hs
    exact h.tight s.pattern
      (List.mem_cons_of_mem _ (List.mem_map_of_mem hs))

/-- Neither a line break nor two spaces in a row. -/
def Collapsed (text : Text) : Prop :=
  (∀ c ∈ text, isLineBreak c = false) ∧ ¬ doubleSpace <:+: text

theorem collapsed_collapseGaps (text : Text) : Collapsed (collapseGaps text) := by
  refine ⟨fun c hc => not_isLineBreak_of_mem_collapseGaps hc, ?_⟩
  induction text with
  | nil =>
      intro hwithin
      cases List.infix_nil.mp hwithin
  | cons c rest ih =>
      rw [collapseGaps_cons, squeeze]
      split
      · split
        · exact ih
        · next hhead =>
            rw [List.infix_cons_iff, not_or]
            refine ⟨?_, ih⟩
            intro hprefix
            obtain ⟨tail, htail⟩ := (List.cons_prefix_cons.mp hprefix).2
            refine hhead ?_
            rw [← htail]
            rfl
      · next hgap =>
          rw [List.infix_cons_iff, not_or]
          refine ⟨?_, ih⟩
          intro hprefix
          have hc := (List.cons_prefix_cons.mp hprefix).1
          refine hgap ?_
          rw [← hc]
          rfl

theorem collapsed_apply
    {s : Substitution} (hs : s ∈ looseSpaces) {text : Text}
    (h : Collapsed text) : Collapsed (s.apply text) := by
  obtain ⟨x, hreplacement, hspace, hbreak⟩ :
      ∃ x, s.replacement = [x] ∧ x ≠ ' ' ∧ isLineBreak x = false := by
    simp only [looseSpaces, List.mem_cons, List.not_mem_nil, or_false] at hs
    rcases hs with rfl | rfl | rfl | rfl | rfl <;>
      exact ⟨_, rfl, by decide, by decide⟩
  refine ⟨?_, (s.not_doubleSpace_apply hreplacement hspace h.2).1⟩
  intro c hc
  rcases s.mem_of_mem_apply hc with hc | hc
  · exact h.1 c hc
  · rw [hreplacement, List.mem_singleton] at hc
    rw [hc]
    exact hbreak

theorem collapsed_closeRound
    {table : List Substitution} (htable : ∀ s ∈ table, s ∈ looseSpaces)
    {text : Text} (h : Collapsed text) : Collapsed (closeRound table text) := by
  induction table generalizing text with
  | nil =>
      exact h
  | cons s rest ih =>
      have hrest := fun s' hs' => htable s' (List.mem_cons_of_mem s hs')
      exact ih hrest (collapsed_apply (htable s (by simp)) h)

theorem collapsed_closeRounds (n : Nat) {text : Text} (h : Collapsed text) :
    Collapsed (closeRounds looseSpaces n text) := by
  have hround : ∀ {text : Text}, Collapsed text →
      Collapsed (closeRound looseSpaces text) :=
    fun htext => collapsed_closeRound (fun s hs => hs) htext
  induction n generalizing text with
  | zero =>
      exact h
  | succ n ih =>
      simp only [closeRounds]
      split
      · exact hround h
      · exact ih (hround h)

/-- Normal spacing reaches the normal form. -/
theorem normalSpaced_normalSpacing (text : Text) :
    NormalSpaced (normalSpacing text) := by
  have hcollapsed : Collapsed (normalSpacing text) :=
    collapsed_closeRounds _ (collapsed_collapseGaps text)
  refine ⟨hcollapsed.1, ?_⟩
  intro pattern hpattern
  rcases List.mem_cons.mp hpattern with rfl | hpattern
  · exact hcollapsed.2
  · obtain ⟨s, hs, rfl⟩ := List.mem_map.mp hpattern
    refine s.not_pattern_of_apply_eq_self ?_
    exact apply_eq_self_of_closeRound (closeRound_closeUp looseSpaces _) s hs

/-- No character but the last of a pattern is a brace or a semicolon. -/
theorem not_mem_dropLast_of_mem_loosePatterns
    {pattern : Text} (h : pattern ∈ loosePatterns) {c : Char}
    (hc : c = '{' ∨ c = '}' ∨ c = ';') : c ∉ pattern.dropLast := by
  simp only [loosePatterns, looseSpaces, List.map_cons, List.map_nil,
    List.mem_cons, List.not_mem_nil, or_false] at h
  rcases h with rfl | rfl | rfl | rfl | rfl | rfl <;>
    rcases hc with rfl | rfl | rfl <;> decide

/-- Deleting a part behind a brace or a semicolon keeps the normal form. -/
theorem NormalSpaced.delete
    {front part back : Text}
    (hfront : ∀ c ∈ front.getLast?, c = '{' ∨ c = '}' ∨ c = ';')
    (h : NormalSpaced (front ++ (part ++ back))) :
    NormalSpaced (front ++ back) := by
  have hleft : NormalSpaced front :=
    h.of_part (List.infix_append_of_infix_left List.infix_rfl)
  have hright : NormalSpaced back :=
    h.of_part (List.infix_append_of_infix_right
      (List.infix_append_of_infix_right List.infix_rfl))
  constructor
  · intro c hc
    rcases List.mem_append.mp hc with hc | hc
    · exact hleft.unbroken c hc
    · exact hright.unbroken c hc
  · intro pattern hpattern hwithin
    rcases List.infix_append_iff_ne_nil.mp hwithin with
      hwithin | hwithin | ⟨left, right, hleft', hright', rfl, hsuffix, -⟩
    · exact hleft.tight pattern hpattern hwithin
    · exact hright.tight pattern hpattern hwithin
    · -- The last character in front of the joint would be inside a pattern.
      have hlast : left.getLast hleft' ∈ front.getLast? := by
        obtain ⟨before, rfl⟩ := hsuffix
        rw [List.getLast?_append, List.getLast?_eq_some_getLast hleft']
        rfl
      have hmem : left.getLast hleft' ∈ (left ++ right).dropLast := by
        rw [List.dropLast_append_of_ne_nil hright']
        exact List.mem_append_left _ (List.getLast_mem hleft')
      exact not_mem_dropLast_of_mem_loosePatterns hpattern
        (hfront _ hlast) hmem

end NormalForm

end StylesheetPruning
