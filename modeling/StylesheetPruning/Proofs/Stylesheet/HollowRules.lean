import StylesheetPruning.Proofs.Stylesheet.AdjacentBraces
import StylesheetPruning.Proofs.Stylesheet.BlankBlocks

/-!
# The sweep is one pruning of hollow rules

A rule is hollow when only whitespace is left in its block once the hollow
rules in it are deleted. The sweep removes in its first pass the hollow rules
that hold no rules, and in every later one those around them. What it leaves
can be said at once: the text without its outermost hollow rules.

**Mirroring.** The rules of a stylesheet are the blocks of its level. `Mirrors`
says that a property of rules and a property of levels agree on them, and then
the outermost rules with the property, their number and their nesting are those
of the blocks.

**Results.**
* `Proper.mirrors_isHollow`: hollow rules are blank blocks.
* `sweep_eq_without`: the sweep deletes the outermost hollow rules.
-/

namespace StylesheetPruning

namespace Rule

section Hollow

mutual

/-- Whether only whitespace is left in a block without its hollow rules. -/
def isHollow (masked : Text) : Rule → Bool
  | ⟨start, brace, stop, children⟩ =>
      (without (hollowSpans masked children) (brace + 1)
        (slice masked (inside ⟨start, brace, stop, children⟩))).all isSpace

/-- The spans of the hollow ones among rules. -/
def hollowSpans (masked : Text) : List Rule → List Span
  | [] => []
  | r :: rest =>
      if isHollow masked r then r.span :: hollowSpans masked rest
      else hollowSpans masked rest

end

mutual

/-- The rules as asked for, but for those inside another one. -/
def outermost (p : Rule → Bool) : Rule → List Rule
  | ⟨start, brace, stop, children⟩ =>
      if p ⟨start, brace, stop, children⟩ then [⟨start, brace, stop, children⟩]
      else outermostOf p children

/-- The same for several rules. -/
def outermostOf (p : Rule → Bool) : List Rule → List Rule
  | [] => []
  | r :: rest => outermost p r ++ outermostOf p rest

end

mutual

/-- How deep rules as asked for are nested in one another. -/
def nesting (p : Rule → Bool) : Rule → Nat
  | ⟨start, brace, stop, children⟩ =>
      if p ⟨start, brace, stop, children⟩ then nestingOf p children + 1
      else nestingOf p children

/-- The same for several rules. -/
def nestingOf (p : Rule → Bool) : List Rule → Nat
  | [] => 0
  | r :: rest => max (nesting p r) (nestingOf p rest)

end

/-- The hollow rules of a masked text that are in no other, in source order. -/
def outermostHollow (masked : Text) : List Rule :=
  outermostOf (isHollow masked) (ofMasked masked)

/-- How deep the hollow rules of a masked text are nested in one another. -/
def hollowDepth (masked : Text) : Nat :=
  nestingOf (isHollow masked) (ofMasked masked)

/-- Number of hollow rules of a masked text, at all levels. -/
def hollowCount (masked : Text) : Nat :=
  (listing (ofMasked masked)).countP (isHollow masked)

theorem hollowSpans_eq (masked : Text) (rules : List Rule) :
    hollowSpans masked rules = (rules.filter (isHollow masked)).map span := by
  induction rules with
  | nil =>
      rfl
  | cons r rest ih =>
      rw [hollowSpans, List.filter_cons, ih]
      split <;> rfl

end Hollow

end Rule

namespace Level

section Mirroring

variable {p : Rule → Bool} {q : Level → Bool} {level : Level} {offset : Nat}

/--
Whether a property of rules says of the rules of a level what a property of
levels says of the insides of their blocks.
-/
def Mirrors (p : Rule → Bool) (q : Level → Bool) : Nat → Level → Prop
  | _, rest _ => True
  | offset, fence body c after =>
      after.Mirrors p q (offset + width body + c.utf8Size)
  | offset, block list inner after =>
      p ⟨offset, offset + width list, stopOf offset list inner,
          inner.rules (offset + width list + 1)⟩ = q inner ∧
        inner.Mirrors p q (offset + width list + 1) ∧
        after.Mirrors p q (stopOf offset list inner)

theorem le_start_of_mem_rules {r : Rule} (h : r ∈ level.rules offset) :
    offset ≤ r.start := by
  induction level generalizing offset with
  | rest body =>
      cases h
  | fence body c after ih =>
      have hle := ih h
      omega
  | block list inner after _ ih =>
      rcases List.mem_cons.mp h with rfl | h
      · exact Nat.le_refl _
      · have hle := ih h
        rw [stopOf] at hle
        omega

theorem le_start_of_mem_hollowSpans {masked : Text} {span : Span}
    (h : span ∈ Rule.hollowSpans masked (level.rules offset)) :
    offset ≤ span.start := by
  rw [Rule.hollowSpans_eq] at h
  obtain ⟨r, hr, rfl⟩ := List.mem_map.mp h
  exact le_start_of_mem_rules (List.mem_filter.mp hr).1

theorem not_isSpace_of_isFence {c : Char} (h : isFence c = true) :
    isSpace c = false := by
  rcases isFence_cases h with rfl | rfl | rfl <;> decide

/-- Text in front of a fence that is kept is kept, so it is not all blank. -/
theorem all_isSpace_without_fence {spans : List Span} {text rest : Text}
    {c : Char} (hc : isFence c = true)
    (h : ∀ span ∈ spans, offset + byteLength (text ++ [c]) ≤ span.start) :
    (without spans offset (text ++ c :: rest)).all isSpace = false := by
  rw [List.append_cons, without_append, without_eq_self h]
  simp [not_isSpace_of_isFence hc]

/-- What is left of the text of a level without its hollow rules. -/
theorem Proper.all_without_hollowSpans (h : Proper level) {masked : Text}
    (hmirrors : level.Mirrors (Rule.isHollow masked) isBlank offset) :
    (without (Rule.hollowSpans masked (level.rules offset)) offset
      level.masked).all isSpace = level.isBlank := by
  induction h generalizing offset with
  | @rest body hbody =>
      rw [rules, Rule.hollowSpans, without_eq_self (by simp)]
      rfl
  | @fence body c after hbody hc _ _ _ =>
      rw [masked_fence]
      refine all_isSpace_without_fence hc ?_
      intro span hspan
      rw [add_byteLength_fence]
      exact le_start_of_mem_hollowSpans hspan
  | @block list inner after hlist _ _ _ _ ihafter =>
      obtain ⟨hinner, -, hafter⟩ := hmirrors
      rw [rules, Rule.hollowSpans, hinner, masked_block, isBlank]
      cases inner.isBlank with
      | true =>
          have hstop := add_byteLength_block offset list inner
          have hassoc : list.flatMap Cell.masked ++
              '{' :: (inner.masked ++ '}' :: after.masked) =
                (list.flatMap Cell.masked ++ '{' :: (inner.masked ++ ['}'])) ++
                  after.masked := by
            simp
          rw [← hstop] at hafter
          rw [if_pos rfl, hassoc, Rule.span, ← hstop, without_cons_append,
            ihafter hafter, Bool.true_and]
      | false =>
          rw [if_neg (by simp), Bool.false_and]
          refine all_isSpace_without_fence rfl ?_
          intro span hspan
          have hle := le_start_of_mem_hollowSpans hspan
          rw [stopOf] at hle
          rw [byteLength_append_open, byteLength_masked_eq_width]
          omega

/-- Hollow rules are blank blocks. -/
theorem Proper.mirrors_isHollow (h : Proper level) {masked left right : Text}
    (hmasked : masked = left ++ (level.masked ++ right)) :
    level.Mirrors (Rule.isHollow masked) isBlank (byteLength left) := by
  induction h generalizing left right with
  | rest =>
      exact trivial
  | @fence body c after _ _ _ _ ih =>
      have heq : masked = (left ++ (body.flatMap Cell.masked ++ [c])) ++
          (after.masked ++ right) := by
        simp [hmasked, masked_fence]
      have hafter := ih heq
      rw [byteLength_append, add_byteLength_fence] at hafter
      exact hafter
  | @block list inner after _ _ hproper _ ihinner ihafter =>
      have hbrace : byteLength (left ++ list.flatMap Cell.masked ++ ['{']) =
          byteLength left + width list + 1 := by
        rw [byteLength_append_open, byteLength_append,
          byteLength_masked_eq_width]
      have heq : masked = (left ++ list.flatMap Cell.masked ++ ['{']) ++
          (inner.masked ++ '}' :: (after.masked ++ right)) := by
        simp [hmasked, masked_block]
      have heq' : masked = (left ++ (list.flatMap Cell.masked ++
          '{' :: (inner.masked ++ ['}']))) ++ (after.masked ++ right) := by
        simp [heq]
      have hinner := ihinner heq
      have hafter := ihafter heq'
      rw [hbrace] at hinner
      rw [byteLength_append, add_byteLength_block] at hafter
      refine ⟨?_, hinner, hafter⟩
      have hslice : slice masked
          ⟨byteLength left + width list + 1,
            stopOf (byteLength left) list inner - 1⟩ = inner.masked := by
        rw [heq]
        refine slice_append _ _ _ hbrace.symm ?_
        rw [hbrace, byteLength_masked]
        show stopOf (byteLength left) list inner - 1 = _
        rw [stopOf]
        omega
      rw [Rule.isHollow, Rule.inside, hslice,
        hproper.all_without_hollowSpans hinner]

/-- The outermost rules as asked for are the erased blocks. -/
theorem Mirrors.outermostOf_rules (h : level.Mirrors p q offset) :
    (Rule.outermostOf p (level.rules offset)).map Rule.span =
      level.spans q offset := by
  induction level generalizing offset with
  | rest body =>
      rfl
  | fence body c after ih =>
      exact ih h
  | block list inner after ihinner ihafter =>
      obtain ⟨hblock, hinner, hafter⟩ := h
      rw [rules, Rule.outermostOf, Rule.outermost, hblock, List.map_append,
        ihafter hafter, spans, ← ihinner hinner]
      split <;> rfl

theorem Mirrors.countP_listing (h : level.Mirrors p q offset) :
    (Rule.listing (level.rules offset)).countP p = level.count q := by
  induction level generalizing offset with
  | rest body =>
      rfl
  | fence body c after ih =>
      exact ih h
  | block list inner after ihinner ihafter =>
      obtain ⟨hblock, hinner, hafter⟩ := h
      rw [rules, Rule.listing_cons, List.countP_cons, List.countP_append,
        hblock, ihinner hinner, ihafter hafter, count]
      split <;> omega

theorem Mirrors.nestingOf_rules (h : level.Mirrors p q offset) :
    Rule.nestingOf p (level.rules offset) = level.height q := by
  induction level generalizing offset with
  | rest body =>
      rfl
  | fence body c after ih =>
      exact ih h
  | block list inner after ihinner ihafter =>
      obtain ⟨hblock, hinner, hafter⟩ := h
      rw [rules, Rule.nestingOf, Rule.nesting, hblock, ihinner hinner,
        ihafter hafter, height]

end Mirroring

end Level

/--
When hollow rules are nested no deeper than there are passes, the sweep
deletes the outermost ones, counts those at all levels, and leaves no empty
rule.
-/
theorem sweep_eq_without {text : Text}
    (h : Rule.hollowDepth (Masking.ofText text).masked ≤ EmptyRules.passLimit) :
    EmptyRules.sweep text =
        ⟨without ((Rule.outermostHollow (Masking.ofText text).masked).map
            Rule.span) 0 text,
          Rule.hollowCount (Masking.ofText text).masked⟩ ∧
      EmptyRules.spans
        (Masking.ofText (EmptyRules.sweep text).text).masked = [] := by
  obtain ⟨level, hlevel, hcells⟩ := Level.exists_level (annotate .plain text).2
  have htext : chars level.cells = text := by
    rw [hcells, chars_annotate]
  have hstanding : level.Standing := by
    refine ⟨(annotate .plain text).1, ?_⟩
    rw [hcells]
    exact reads_annotate .plain text
  subst htext
  rw [hstanding.masked_eq] at h ⊢
  have hmasked : level.masked = [] ++ (level.masked ++ []) :=
    (List.append_nil _).symm
  have hmirrors := hlevel.mirrors_isHollow hmasked
  rw [byteLength_nil] at hmirrors
  rw [Rule.hollowDepth, hlevel.ofMasked_masked, hmirrors.nestingOf_rules] at h
  have hsweep := hlevel.run_eq hstanding h 0
  rw [Nat.zero_add] at hsweep
  rw [EmptyRules.sweep, hsweep]
  constructor
  · rw [Rule.outermostHollow, Rule.hollowCount, hlevel.ofMasked_masked,
      hmirrors.outermostOf_rules, hmirrors.countP_listing, Level.without_spans]
  · have hrest := hlevel.standing_erase hstanding Level.isBlank
    rw [hrest.masked_eq, (hlevel.erase Level.isBlank).spans_masked,
      Level.spans_isBare_erase]

/-- A group that loses its only rule goes with it, and its comment too. -/
theorem sweep_eq_without_group :
    Rule.hollowDepth (Masking.ofText
        "@m\x7b.a\x7b \x7d/*;*/\x7dp\x7bz:1\x7d".toList).masked = 2 ∧
      EmptyRules.sweep "@m\x7b.a\x7b \x7d/*;*/\x7dp\x7bz:1\x7d".toList =
        ⟨"p\x7bz:1\x7d".toList, 2⟩ ∧
      EmptyRules.spans (Masking.ofText (EmptyRules.sweep
        "@m\x7b.a\x7b \x7d/*;*/\x7dp\x7bz:1\x7d".toList).text).masked = [] := by
  have hdepth : Rule.hollowDepth (Masking.ofText
      "@m\x7b.a\x7b \x7d/*;*/\x7dp\x7bz:1\x7d".toList).masked = 2 := by
    decide +kernel
  obtain ⟨hsweep, hnone⟩ :=
    @sweep_eq_without "@m\x7b.a\x7b \x7d/*;*/\x7dp\x7bz:1\x7d".toList
      (by rw [hdepth]; decide)
  exact ⟨hdepth, hsweep.trans (by decide +kernel), hnone⟩

end StylesheetPruning
