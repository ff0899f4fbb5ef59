import StylesheetPruning.Proofs.Selector.Printed

/-!
# Reading compounds

**Grouping.** `group` puts pseudo selectors behind the conditions they follow,
which is where cutting at marks leaves them.

**Trimming.** The space that ends an escape at the end of a selector is taken
for whitespace around it and trimmed away. The name stays the same, so
simple selectors are read from their texts and from their trimmed texts.

**Results.**
* `Simple.ofText?_eq`: a simple selector is read as it was meant.
* `Compound.ofTexts_cutExposed`, `Compound.ofTexts_cutExposed_trimEnd`: a
  compound is read as its simple selectors.
-/

namespace StylesheetPruning
namespace Grammar

section Suffixes

variable {p : Char → Bool}

theorem closed_pseudos (pseudos : List Pseudo) :
    Closed (pseudos.flatMap Pseudo.print) := by
  induction pseudos with
  | nil =>
      exact closed_nil
  | cons pseudo rest ih =>
      exact pseudo.closed.append ih

theorem hides_pseudos
    (hp : Foreign p) (hcolon : p ':' = false) (hopen : p '(' = false)
    (pseudos : List Pseudo) : Hides p (pseudos.flatMap Pseudo.print) := by
  induction pseudos with
  | nil =>
      exact hides_nil
  | cons pseudo rest ih =>
      exact (pseudo.hides hp hcolon hopen).append pseudo.closed ih

/-- Pseudo selectors begin with a colon. -/
theorem exists_pseudos_eq (pseudo : Pseudo) (rest : List Pseudo) :
    ∃ text, (pseudo :: rest).flatMap Pseudo.print = ':' :: text := by
  obtain ⟨text, htext⟩ := pseudo.exists_print_eq
  refine ⟨text ++ rest.flatMap Pseudo.print, ?_⟩
  rw [List.flatMap_cons, htext]
  rfl

/-- What pseudo selectors follow does not end with a space. -/
theorem trimEnd_append_pseudos
    (front : Text) (pseudo : Pseudo) (rest : List Pseudo) :
    trimEnd (front ++ (pseudo :: rest).flatMap Pseudo.print) =
      front ++ (pseudo :: rest).flatMap Pseudo.print := by
  induction rest generalizing front pseudo with
  | nil =>
      obtain ⟨text, htext⟩ := pseudo.exists_print_eq
      have hne : pseudo.print ≠ [] := by
        simp [htext]
      rw [List.flatMap_singleton]
      exact trimEnd_append_of_eq_self hne pseudo.trimEnd_print front
  | cons next rest ih =>
      rw [List.flatMap_cons, ← List.append_assoc]
      exact ih (front ++ pseudo.print) next

end Suffixes

section Bases

variable {p : Char → Bool}

theorem Base.closed (base : Base) : Closed base.print := by
  cases base with
  | head h =>
      exact h.closed
  | condition c =>
      exact c.closed

theorem Base.hides
    (base : Base) (hp : Foreign p) (hstar : p '*' = false)
    (hmark : ∀ c, SimpleSelector.isMark c = true → p c = false) :
    Hides p base.print := by
  cases base with
  | head h =>
      exact h.hides hp hstar
  | condition c =>
      exact c.hides hp hmark

/-- A base does not begin with a space. -/
theorem Base.exists_print_eq (base : Base) :
    ∃ c rest, base.print = c :: rest ∧ isSpace c = false := by
  match base with
  | .head .universal =>
      exact ⟨'*', [], rfl, rfl⟩
  | .head (.element name) =>
      exact ⟨name.first, name.rest, rfl,
        isSpace_of_isNameChar (isNameChar_of_isAlpha name.isAlpha_first)⟩
  | .condition (.className name) =>
      exact ⟨'.', _, rfl, rfl⟩
  | .condition (.identifier name) =>
      exact ⟨'#', _, rfl, rfl⟩
  | .condition (.bracketed content) =>
      exact ⟨'[', content.text ++ [']'], rfl, rfl⟩

/-- What a reader makes of the text of a base. -/
def Base.Reads (base : Base) (body : Text) : Prop :=
  Kind.ofText body = base.kind ∧
    SimpleSelector.valueOf base.kind body = base.value

theorem contains_star_eq_false {text : Text} (h : '*' ∉ text) :
    text.contains '*' = false := by
  simpa using h

theorem ofText_dot {rest : Text} (h : '*' ∉ rest) :
    Kind.ofText ('.' :: rest) = .className := by
  rw [Kind.ofText, contains_star_eq_false (by simp [h])]
  rfl

theorem ofText_hash {rest : Text} (h : '*' ∉ rest) :
    Kind.ofText ('#' :: rest) = .identifier := by
  rw [Kind.ofText, contains_star_eq_false (by simp [h])]
  rfl

theorem ofText_bracket {rest : Text} (h : '*' ∉ rest) :
    Kind.ofText ('[' :: rest) = .attributeName := by
  rw [Kind.ofText, contains_star_eq_false (by simp [h])]
  rfl

theorem ofText_element
    {c : Char} {rest : Text} (hc : c.isAlpha = true) (hrest : '*' ∉ rest)
    (hmarker : Kind.isKeyframeMarker (c :: rest) = false) :
    Kind.ofText (c :: rest) = .element := by
  have hne : ∀ d : Char, d.isAlpha = false → c ≠ d := by
    rintro d hd rfl
    simp [hd] at hc
  have hstar : '*' ≠ c := (hne '*' rfl).symm
  unfold Kind.ofText
  rw [contains_star_eq_false (by simp [hrest, hstar])]
  simp [hmarker, hc, hne '.' rfl, hne '#' rfl, hne '[' rfl, hne '@' rfl]

theorem behindMark_cons {c : Char} (h : c.utf8Size = 1) (rest : Text) :
    SimpleSelector.behindMark (c :: rest) = rest := by
  have hslice := @slice_append [c] rest [] ⟨1, byteLength (c :: rest)⟩
    (by simp [h]) (by simp [h])
  rwa [List.append_nil, List.singleton_append] at hslice

theorem Base.reads_dot
    {name : Name} {text : Text} (hstar : '*' ∉ text)
    (hvalue : resolveEscapes text = name.text) :
    Base.Reads (.condition (.className name)) ('.' :: text) :=
  ⟨ofText_dot hstar,
    (congrArg resolveEscapes (behindMark_cons rfl text)).trans hvalue⟩

theorem Base.reads_hash
    {name : Name} {text : Text} (hstar : '*' ∉ text)
    (hvalue : resolveEscapes text = name.text) :
    Base.Reads (.condition (.identifier name)) ('#' :: text) :=
  ⟨ofText_hash hstar,
    (congrArg resolveEscapes (behindMark_cons rfl text)).trans hvalue⟩

theorem Name.not_mem_serialize (name : Name) : '*' ∉ serialize name.text := by
  rw [name.spells.mem_iff rfl rfl (by decide) (by decide)]
  exact name.starless

theorem Name.not_mem_trimEnd (name : Name) :
    '*' ∉ trimEnd (serialize name.text) :=
  fun hstar => name.not_mem_serialize (mem_of_mem_trimEnd hstar)

theorem Head.trimEnd_print (head : Head) : trimEnd head.print = head.print := by
  cases head with
  | universal =>
      rfl
  | element name =>
      exact trimEnd_of_forall
        (fun c hc => isSpace_of_isNameChar (name.forall_isNameChar c hc))

theorem Condition.trimEnd_print_bracketed (content : Content) :
    trimEnd (bracketed content).print = (bracketed content).print := by
  rw [print]
  exact trimEnd_append_of_eq_self (by simp) rfl _

/-- The text of a base is read as it was meant. -/
theorem Base.reads_print (base : Base) : base.Reads base.print := by
  match base with
  | .head .universal =>
      exact ⟨rfl, rfl⟩
  | .head (.element name) =>
      refine ⟨ofText_element name.isAlpha_first ?_ name.unmarked, rfl⟩
      intro hstar
      exact absurd (name.forall_isNameChar '*' (List.mem_cons_of_mem _ hstar))
        (by decide)
  | .condition (.className name) =>
      exact reads_dot name.not_mem_serialize name.spells.resolveEscapes_eq
  | .condition (.identifier name) =>
      exact reads_hash name.not_mem_serialize name.spells.resolveEscapes_eq
  | .condition (.bracketed content) =>
      refine ⟨ofText_bracket ?_, rfl⟩
      intro hstar
      rcases List.mem_append.mp hstar with hstar | hstar
      · exact (isArgumentChar_of_isContentChar (content.plain '*' hstar)).2 rfl
      · exact absurd hstar (by decide)

/-- So is the text without the space that ends an escape. -/
theorem Base.reads_trimEnd (base : Base) : base.Reads (trimEnd base.print) := by
  match base with
  | .head h =>
      have htrim : trimEnd (Base.head h).print = (Base.head h).print :=
        h.trimEnd_print
      rw [htrim]
      exact reads_print _
  | .condition (.className name) =>
      have htrim : trimEnd (Base.condition (.className name)).print =
          '.' :: trimEnd (serialize name.text) :=
        trimEnd_cons_of_not_isSpace rfl _
      rw [htrim]
      exact reads_dot name.not_mem_trimEnd
        name.spells.resolveEscapes_trimEnd
  | .condition (.identifier name) =>
      have htrim : trimEnd (Base.condition (.identifier name)).print =
          '#' :: trimEnd (serialize name.text) :=
        trimEnd_cons_of_not_isSpace rfl _
      rw [htrim]
      exact reads_hash name.not_mem_trimEnd
        name.spells.resolveEscapes_trimEnd
  | .condition (.bracketed content) =>
      have htrim : trimEnd (Base.condition (.bracketed content)).print =
          (Base.condition (.bracketed content)).print :=
        Condition.trimEnd_print_bracketed content
      rw [htrim]
      exact reads_print _

end Bases

section Simples

theorem Simple.closed (simple : Simple) : Closed simple.print :=
  simple.base.closed.append (closed_pseudos simple.pseudos)

theorem Simple.exists_print_eq (simple : Simple) :
    ∃ c rest, simple.print = c :: rest ∧ isSpace c = false := by
  obtain ⟨c, rest, hprint, hspace⟩ := simple.base.exists_print_eq
  refine ⟨c, rest ++ simple.pseudos.flatMap Pseudo.print, ?_, hspace⟩
  rw [print, hprint]
  rfl

theorem Simple.trimEnd_print_ne_nil (simple : Simple) :
    trimEnd simple.print ≠ [] := by
  obtain ⟨c, rest, hprint, hspace⟩ := simple.exists_print_eq
  rw [hprint, trimEnd_cons_of_not_isSpace hspace]
  simp

theorem Simple.trimmed_print (simple : Simple) :
    trimmed simple.print = trimEnd simple.print := by
  obtain ⟨c, rest, hprint, hspace⟩ := simple.exists_print_eq
  rw [hprint, trimmed_cons hspace, trimEnd_cons_of_not_isSpace hspace]

theorem Simple.trimmed_trimEnd (simple : Simple) :
    trimmed (trimEnd simple.print) = trimEnd simple.print := by
  obtain ⟨c, rest, hprint, hspace⟩ := simple.exists_print_eq
  rw [hprint, trimEnd_cons_of_not_isSpace hspace, trimmed_cons hspace,
    trimEnd_trimEnd]

/-- The first colon of a simple selector begins its suffix. -/
theorem Simple.breakExposed_trimEnd (simple : Simple) :
    ∃ body, simple.base.Reads body ∧ body ≠ [] ∧
      breakExposed (fun c => c = ':') (trimEnd simple.print) =
        (body, simple.pseudos.flatMap Pseudo.print) := by
  have hmark : ∀ c, SimpleSelector.isMark c = true →
      decide (c = ':') = false := by
    intro c hc
    rw [decide_eq_false_iff_not]
    rintro rfl
    exact absurd hc (by decide)
  have hhides : Hides (fun c => c = ':') simple.base.print :=
    simple.base.hides (foreign_eq rfl) rfl hmark
  obtain ⟨c, rest, hprint, hspace⟩ := simple.base.exists_print_eq
  cases hpseudos : simple.pseudos with
  | nil =>
      refine ⟨trimEnd simple.base.print, simple.base.reads_trimEnd, ?_, ?_⟩
      · rw [hprint, trimEnd_cons_of_not_isSpace hspace]
        simp
      · have hsimple : simple.print = simple.base.print := by
          simp [print, hpseudos]
        rw [hsimple]
        exact breakExposed_of_hides hhides.trimEnd
  | cons pseudo pseudos =>
      obtain ⟨text, htext⟩ := exists_pseudos_eq pseudo pseudos
      refine ⟨simple.base.print, simple.base.reads_print, ?_, ?_⟩
      · rw [hprint]
        simp
      · rw [print, hpseudos, trimEnd_append_pseudos, htext]
        exact breakExposed_append_cons simple.base.closed hhides rfl rfl text

/-- A simple selector is read from its text, trimmed or not. -/
theorem Simple.ofText?_eq
    {simple : Simple} {text : Text}
    (htext : trimmed text = trimEnd simple.print) (position : Nat) :
    SimpleSelector.ofText? position text = some (simple.part position) := by
  obtain ⟨body, ⟨hkind, hvalue⟩, hne, hbreak⟩ := simple.breakExposed_trimEnd
  have hbody : body.isEmpty = false := by
    simpa using hne
  have hsuffix : (simple.pseudos.flatMap Pseudo.print).isEmpty =
      simple.pseudos.isEmpty := by
    cases hpseudos : simple.pseudos with
    | nil =>
        rfl
    | cons pseudo pseudos =>
        obtain ⟨rest, hrest⟩ := exists_pseudos_eq pseudo pseudos
        rw [hrest]
        rfl
  rw [SimpleSelector.ofText?, htext, hbreak]
  simp only [hbody, hkind, hvalue, hsuffix]
  rfl

end Simples

section Parts

theorem partsFrom_append (position : Nat) (simples simples' : List Simple) :
    partsFrom position (simples ++ simples') =
      partsFrom position simples ++
        partsFrom (position + simples.length) simples' := by
  rw [partsFrom, List.zipIdx_append, List.map_append]
  rfl

theorem length_partsFrom (position : Nat) (simples : List Simple) :
    (partsFrom position simples).length = simples.length := by
  simp [partsFrom]

theorem ofTexts_cons_of_eq_some
    {position : Nat} {text : Text} {part : SimpleSelector}
    (h : SimpleSelector.ofText? position text = some part)
    (rest : List Text) :
    SimpleSelector.ofTexts position (text :: rest) =
      part :: SimpleSelector.ofTexts (position + 1) rest := by
  rw [SimpleSelector.ofTexts, h]

theorem ofTexts_cons_of_eq_none
    {position : Nat} {text : Text}
    (h : SimpleSelector.ofText? position text = none) (rest : List Text) :
    SimpleSelector.ofTexts position (text :: rest) =
      SimpleSelector.ofTexts position rest := by
  rw [SimpleSelector.ofTexts, h]

theorem ofTexts_map_print (position : Nat) (simples : List Simple) :
    SimpleSelector.ofTexts position (simples.map Simple.print) =
      partsFrom position simples := by
  induction simples generalizing position with
  | nil =>
      rfl
  | cons simple simples ih =>
      have hread := simple.ofText?_eq simple.trimmed_print position
      rw [List.map_cons, ofTexts_cons_of_eq_some hread, ih]
      rfl

/-- Pseudo selectors with nothing in front of them ask for nothing. -/
theorem ofText?_pseudos (position : Nat) (pseudos : List Pseudo) :
    SimpleSelector.ofText? position (pseudos.flatMap Pseudo.print) = none := by
  cases pseudos with
  | nil =>
      rfl
  | cons pseudo pseudos =>
      obtain ⟨text, htext⟩ := exists_pseudos_eq pseudo pseudos
      have hbreak : breakExposed (fun c => c = ':') (':' :: trimEnd text) =
          ([], ':' :: trimEnd text) :=
        breakExposed_append_cons closed_nil hides_nil rfl rfl (trimEnd text)
      rw [SimpleSelector.ofText?, htext, trimmed_cons rfl, hbreak]
      rfl

end Parts

section Compounds

theorem flatMap_print_eq (items : List Item) :
    items.flatMap Item.print =
      (group items).1.flatMap Pseudo.print ++
        ((group items).2.map Simple.print).flatten := by
  induction items with
  | nil =>
      rfl
  | cons item items ih =>
      cases item with
      | condition c =>
          simp [group, ih, Item.print, Simple.print, Base.print]
      | pseudo p =>
          simp [group, ih, Item.print]

/-- Every grouped condition begins at a mark and shows no other. -/
theorem begins_of_mem_group
    {items : List Item} {simple : Simple} (h : simple ∈ (group items).2) :
    Begins SimpleSelector.isMark simple.print := by
  induction items with
  | nil =>
      cases h
  | cons item items ih =>
      cases item with
      | condition c =>
          rcases List.mem_cons.mp h with rfl | h
          · exact c.begins.append c.closed
              (hides_pseudos foreign_isMark rfl rfl (group items).1)
          · exact ih h
      | pseudo p =>
          exact ih h

namespace Compound

variable (compound : Compound)

/-- The text of a compound up to its first condition. -/
def lead : Text :=
  compound.head.elim [] Head.print ++
    (group compound.items).1.flatMap Pseudo.print

/-- The conditions of a compound with the pseudo selectors behind them. -/
def conditions : List Simple :=
  (group compound.items).2

theorem print_eq :
    compound.print =
      compound.lead ++ (compound.conditions.map Simple.print).flatten := by
  rw [print, flatMap_print_eq, lead, conditions, List.append_assoc]

theorem closed_head : Closed (compound.head.elim [] Head.print) := by
  cases compound.head with
  | none =>
      exact closed_nil
  | some head =>
      exact head.closed

theorem hides_head
    {p : Char → Bool} (hp : Foreign p) (hstar : p '*' = false) :
    Hides p (compound.head.elim [] Head.print) := by
  cases compound.head with
  | none =>
      exact hides_nil
  | some head =>
      exact head.hides hp hstar

theorem closed_lead : Closed compound.lead :=
  compound.closed_head.append (closed_pseudos _)

theorem hides_lead : Hides SimpleSelector.isMark compound.lead :=
  (compound.hides_head foreign_isMark rfl).append compound.closed_head
    (hides_pseudos foreign_isMark rfl rfl _)

theorem closed_begins_of_mem_conditions
    {text : Text} (h : text ∈ compound.conditions.map Simple.print) :
    Closed text ∧ Begins SimpleSelector.isMark text := by
  obtain ⟨simple, hsimple, rfl⟩ := List.mem_map.mp h
  exact ⟨simple.closed, begins_of_mem_group hsimple⟩

/-- What stands in front of the conditions is the head, or asks for nothing. -/
theorem ofTexts_lead (position : Nat) (texts : List Text)
    (htexts : ∀ position, SimpleSelector.ofTexts position texts =
      partsFrom position compound.conditions) :
    SimpleSelector.ofTexts position (compound.lead :: texts) =
      partsFrom position compound.simples := by
  cases hhead : compound.head with
  | none =>
      have hlead : SimpleSelector.ofText? position compound.lead = none := by
        rw [lead, hhead]
        exact ofText?_pseudos position _
      have hsimples : compound.simples = compound.conditions := by
        simp [simples, hhead, conditions]
      rw [ofTexts_cons_of_eq_none hlead, htexts, hsimples]
  | some head =>
      let simple : Simple := ⟨.head head, (group compound.items).1⟩
      have hlead : SimpleSelector.ofText? position compound.lead =
          some (simple.part position) := by
        rw [lead, hhead]
        exact simple.ofText?_eq simple.trimmed_print position
      have hsimples : compound.simples = simple :: compound.conditions := by
        simp [simples, hhead, conditions, simple]
      rw [ofTexts_cons_of_eq_some hlead, htexts, hsimples]
      rfl

theorem trimEnd_lead : trimEnd compound.lead = compound.lead := by
  rw [lead]
  cases (group compound.items).1 with
  | nil =>
      rw [List.flatMap_nil, List.append_nil]
      cases compound.head with
      | none =>
          rfl
      | some head =>
          exact head.trimEnd_print
  | cons pseudo pseudos =>
      exact trimEnd_append_pseudos _ pseudo pseudos

variable {compound}

/-- Without conditions there is nothing to cut. -/
theorem ofTexts_of_nil (h : compound.conditions = []) (position : Nat) :
    SimpleSelector.ofTexts position
        (cutExposed SimpleSelector.isMark compound.lead) =
      partsFrom position compound.simples := by
  rw [cutExposed_of_hides compound.hides_lead]
  refine compound.ofTexts_lead position [] ?_
  intro position
  rw [h]
  rfl

/-- The last condition may have lost a space. -/
theorem ofTexts_of_concat
    {front : List Simple} {last : Simple}
    (h : compound.conditions = front ++ [last])
    {text : Text} (hbegins : Begins SimpleSelector.isMark text)
    (htext : trimmed text = trimEnd last.print) (position : Nat) :
    SimpleSelector.ofTexts position
        (cutExposed SimpleSelector.isMark
          (compound.lead ++ ((front.map Simple.print).flatten ++ text))) =
      partsFrom position compound.simples := by
  have hfront : ∀ text ∈ front.map Simple.print,
      Closed text ∧ Begins SimpleSelector.isMark text := by
    intro text hmem
    apply compound.closed_begins_of_mem_conditions
    rw [h, List.map_append]
    exact List.mem_append_left _ hmem
  rw [cutExposed_append compound.closed_lead compound.hides_lead hfront hbegins]
  refine compound.ofTexts_lead position _ ?_
  intro position
  have hlast := last.ofText?_eq htext (position + front.length)
  rw [SimpleSelector.ofTexts_append, ofTexts_map_print, length_partsFrom,
    ofTexts_cons_of_eq_some hlast, h, partsFrom_append]
  rfl

theorem begins_of_eq_concat
    {front : List Simple} {last : Simple}
    (h : compound.conditions = front ++ [last]) :
    Begins SimpleSelector.isMark last.print := by
  have hmem : last ∈ compound.conditions := by
    simp [h]
  exact begins_of_mem_group hmem

theorem print_eq_of_concat
    {front : List Simple} {last : Simple}
    (h : compound.conditions = front ++ [last]) :
    compound.print =
      compound.lead ++ ((front.map Simple.print).flatten ++ last.print) := by
  rw [print_eq, h]
  simp

/-- A compound is read as its simple selectors. -/
theorem ofTexts_cutExposed (position : Nat) :
    SimpleSelector.ofTexts position
        (cutExposed SimpleSelector.isMark compound.print) =
      partsFrom position compound.simples := by
  rcases List.eq_nil_or_concat compound.conditions with
    h | ⟨front, last, h⟩
  · have hprint : compound.print = compound.lead := by
      simp [print_eq, h]
    rw [hprint]
    exact ofTexts_of_nil h position
  · rw [List.concat_eq_append] at h
    rw [print_eq_of_concat h]
    exact ofTexts_of_concat h (begins_of_eq_concat h) last.trimmed_print
      position

/-- So is a compound without the space that ends an escape. -/
theorem ofTexts_cutExposed_trimEnd (position : Nat) :
    SimpleSelector.ofTexts position
        (cutExposed SimpleSelector.isMark (trimEnd compound.print)) =
      partsFrom position compound.simples := by
  rcases List.eq_nil_or_concat compound.conditions with
    h | ⟨front, last, h⟩
  · have hprint : trimEnd compound.print = compound.lead := by
      simp [print_eq, h, trimEnd_lead]
    rw [hprint]
    exact ofTexts_of_nil h position
  · rw [List.concat_eq_append] at h
    have hne := last.trimEnd_print_ne_nil
    have hprint : trimEnd compound.print = compound.lead ++
        ((front.map Simple.print).flatten ++ trimEnd last.print) := by
      rw [print_eq_of_concat h, ← List.append_assoc, trimEnd_append hne,
        List.append_assoc]
    rw [hprint]
    exact ofTexts_of_concat h ((begins_of_eq_concat h).trimEnd hne)
      last.trimmed_trimEnd position

end Compound

end Compounds

end Grammar
end StylesheetPruning
