import StylesheetPruning.Proofs.Selector.Compounds

/-!
# Reading what was printed

**Selectors.** A combinator is a run of separators. The gaps between them ask
for nothing, so a selector is read compound by compound.

**Lists.** A member is `Enclosed`: it is closed and coded, and shows no comma.

**Pages.** A page decides a simple selector by its base, so it can match
exactly when the page has what the base asks for.

**Results.**
* `Complex.partsOf_print`: a selector is read as the simple selectors of its
  compounds.
* `SelectorList.readList_print`: a list is read as its members were meant.
* `judge_readList_print`: and it is judged as it should.
-/

namespace StylesheetPruning
namespace Grammar

section Selectors

theorem Item.closed (item : Item) : Closed item.print := by
  cases item with
  | condition c =>
      exact c.closed
  | pseudo p =>
      exact p.closed

theorem Item.coded (item : Item) : Coded item.print := by
  cases item with
  | condition c =>
      exact c.coded
  | pseudo p =>
      exact p.coded

/-- A condition that no exposed character of a compound satisfies. -/
structure Separates (p : Char → Bool) : Prop where
  foreign : Foreign p
  star : p '*' = false
  colon : p ':' = false
  opening : p '(' = false
  mark : ∀ c, SimpleSelector.isMark c = true → p c = false

theorem separates_isCombinator : Separates SimpleSelector.isCombinator where
  foreign := foreign_isCombinator
  star := rfl
  colon := rfl
  opening := rfl
  mark := by
    intro c hc
    rcases isMark_cases hc with rfl | rfl | rfl <;> rfl

theorem separates_comma : Separates (fun c => c = ',') where
  foreign := foreign_eq rfl
  star := rfl
  colon := rfl
  opening := rfl
  mark := by
    intro c hc
    rcases isMark_cases hc with rfl | rfl | rfl <;> rfl

variable {p : Char → Bool}

theorem Item.hides (item : Item) (hp : Separates p) : Hides p item.print := by
  cases item with
  | condition c =>
      exact c.hides hp.foreign hp.mark
  | pseudo pseudo =>
      exact pseudo.hides hp.foreign hp.colon hp.opening

theorem closed_hides_items (items : List Item) (hp : Separates p) :
    Closed (items.flatMap Item.print) ∧
      Hides p (items.flatMap Item.print) := by
  induction items with
  | nil =>
      exact ⟨closed_nil, hides_nil⟩
  | cons item items ih =>
      exact ⟨item.closed.append ih.1,
        (item.hides hp).append item.closed ih.2⟩

theorem Compound.closed (compound : Compound) : Closed compound.print :=
  compound.closed_head.append
    (closed_hides_items compound.items separates_comma).1

theorem Compound.hides (compound : Compound) (hp : Separates p) :
    Hides p compound.print :=
  (compound.hides_head hp.foreign hp.star).append compound.closed_head
    (closed_hides_items compound.items hp).2

/-- A compound does not begin with a space. -/
theorem Compound.exists_print_eq (compound : Compound) :
    ∃ c rest, compound.print = c :: rest ∧ isSpace c = false := by
  cases hhead : compound.head with
  | some head =>
      obtain ⟨c, rest, hprint, hspace⟩ := (Base.head head).exists_print_eq
      refine ⟨c, rest ++ compound.items.flatMap Item.print, ?_, hspace⟩
      rw [print, hhead]
      exact congrArg (· ++ _) hprint
  | none =>
      cases hitems : compound.items with
      | nil =>
          simpa [hhead, hitems] using compound.nonempty
      | cons item items =>
          have hprint : compound.print =
              item.print ++ items.flatMap Item.print := by
            rw [print, hhead, hitems]
            rfl
          cases item with
          | condition c =>
              obtain ⟨d, rest, hcondition, hspace⟩ :=
                (Base.condition c).exists_print_eq
              refine ⟨d, rest ++ items.flatMap Item.print, ?_, hspace⟩
              rw [hprint]
              exact congrArg (· ++ _) hcondition
          | pseudo pseudo =>
              obtain ⟨rest, hpseudo⟩ := pseudo.exists_print_eq
              refine ⟨':', rest ++ items.flatMap Item.print, ?_, rfl⟩
              rw [hprint]
              exact congrArg (· ++ _) hpseudo

/-- A combinator is a run of separators. -/
theorem Combinator.print_ne_nil (combinator : Combinator) :
    combinator.print ≠ [] := by
  cases combinator with
  | descendant gap h =>
      exact h
  | symbol before c h after =>
      simp [print]

theorem isCombinator_of_isSpace {c : Char} (h : isSpace c = true) :
    SimpleSelector.isCombinator c = true := by
  simp [SimpleSelector.isCombinator, h]

theorem Combinator.isCombinator_of_mem (combinator : Combinator) :
    ∀ c ∈ combinator.print, SimpleSelector.isCombinator c = true := by
  intro c hc
  cases combinator with
  | descendant gap h =>
      exact isCombinator_of_isSpace (gap.blank c hc)
  | symbol before d h after =>
      rcases List.mem_append.mp hc with hc | hc
      · exact isCombinator_of_isSpace (before.blank c hc)
      · rcases List.mem_cons.mp hc with rfl | hc
        · simp only [List.mem_cons, List.not_mem_nil, or_false] at h
          rcases h with rfl | rfl | rfl | rfl <;> rfl
        · exact isCombinator_of_isSpace (after.blank c hc)

theorem isTurn_of_isCombinator
    {c : Char} (h : SimpleSelector.isCombinator c = true) :
    Walk.isTurn c = false ∧ Lexing.isTurn c = false := by
  rcases isCombinator_cases h with hspace | rfl | rfl | rfl | rfl
  · simp only [isSpace, Bool.or_eq_true, decide_eq_true_eq] at hspace
    rcases hspace with (((rfl | rfl) | rfl) | rfl) | rfl <;> exact ⟨rfl, rfl⟩
  all_goals
    exact ⟨rfl, rfl⟩

/-- Separators in front of a selector ask for nothing. -/
theorem ofTexts_textsOf_append
    {separators : Text}
    (h : ∀ c ∈ separators, SimpleSelector.isCombinator c = true)
    (text : Text) (position : Nat) :
    SimpleSelector.ofTexts position (Selector.textsOf (separators ++ text)) =
      SimpleSelector.ofTexts position (Selector.textsOf text) := by
  induction separators with
  | nil =>
      rfl
  | cons c separators ih =>
      have hc := h c (by simp)
      have hrest := ih (fun d hd => h d (by simp [hd]))
      have hsplit : splitExposed SimpleSelector.isCombinator
            (c :: (separators ++ text)) =
          [] :: splitExposed SimpleSelector.isCombinator (separators ++ text) :=
        splitExposed_append_cons closed_nil hides_nil
          (isTurn_of_isCombinator hc).1 hc (separators ++ text)
      rw [List.cons_append, Selector.textsOf, hsplit, List.flatMap_cons,
        SimpleSelector.ofTexts_append]
      exact hrest

namespace Complex

theorem trimEnd_print_ne_nil
    (first : Compound) (rest : List (Combinator × Compound)) :
    trimEnd (first.print ++ printRest rest) ≠ [] := by
  obtain ⟨c, text, hprint, hspace⟩ := first.exists_print_eq
  rw [hprint, List.cons_append, trimEnd_cons_of_not_isSpace hspace]
  simp

/-- A selector is read as the simple selectors of its compounds. -/
theorem ofTexts_textsOf
    (first : Compound) (rest : List (Combinator × Compound))
    (position : Nat) :
    SimpleSelector.ofTexts position
        (Selector.textsOf (trimEnd (first.print ++ printRest rest))) =
      partsFrom position
        (first.simples ++ rest.flatMap (fun next => next.2.simples)) := by
  induction rest generalizing first position with
  | nil =>
      have hsplit := splitExposed_of_hides
        (first.hides separates_isCombinator).trimEnd
      rw [printRest, List.flatMap_nil, List.append_nil, Selector.textsOf,
        hsplit, List.flatMap_singleton, List.flatMap_nil, List.append_nil]
      exact first.ofTexts_cutExposed_trimEnd position
  | cons next rest ih =>
      obtain ⟨combinator, second⟩ := next
      let tail := second.print ++ printRest rest
      have htail : trimEnd tail ≠ [] := trimEnd_print_ne_nil second rest
      have htrim : trimEnd
            (first.print ++ printRest ((combinator, second) :: rest)) =
          first.print ++ (combinator.print ++ trimEnd tail) := by
        have hprint : first.print ++ printRest ((combinator, second) :: rest) =
            first.print ++ combinator.print ++ tail := by
          simp [printRest, tail]
        rw [hprint, trimEnd_append htail, List.append_assoc]
      have hseparators := combinator.isCombinator_of_mem
      cases hcombinator : combinator.print with
      | nil =>
          exact absurd hcombinator combinator.print_ne_nil
      | cons c separators =>
          rw [hcombinator] at htrim hseparators
          have hc := hseparators c (by simp)
          have hsplit : splitExposed SimpleSelector.isCombinator
                (first.print ++ c :: (separators ++ trimEnd tail)) =
              first.print :: splitExposed SimpleSelector.isCombinator
                (separators ++ trimEnd tail) :=
            splitExposed_append_cons first.closed
              (first.hides separates_isCombinator)
              (isTurn_of_isCombinator hc).1 hc (separators ++ trimEnd tail)
          have hothers : ∀ d ∈ separators,
              SimpleSelector.isCombinator d = true :=
            fun d hd => hseparators d (by simp [hd])
          have hrest := ofTexts_textsOf_append hothers (trimEnd tail)
            (position + first.simples.length)
          rw [htrim, List.cons_append, Selector.textsOf, hsplit,
            List.flatMap_cons, SimpleSelector.ofTexts_append,
            first.ofTexts_cutExposed, length_partsFrom, ← Selector.textsOf,
            hrest, ih, List.flatMap_cons, ← partsFrom_append]

variable (complex : Complex)

theorem partsOf_print :
    Selector.partsOf (trimEnd complex.print) = partsFrom 0 complex.simples :=
  ofTexts_textsOf complex.first complex.rest 0

end Complex

end Selectors

section Members

/-- A text that may stand between the commas of a list. -/
structure Enclosed (text : Text) : Prop where
  closed : Closed text
  coded : Coded text
  hides : Hides (fun c => c = ',') text

theorem Enclosed.append
    {text text' : Text} (h : Enclosed text) (h' : Enclosed text') :
    Enclosed (text ++ text') where
  closed := h.closed.append h'.closed
  coded := h.coded.append h'.coded
  hides := h.hides.append h.closed h'.hides

/-- Runs of separators may stand anywhere. -/
theorem enclosed_of_forall
    {text : Text} (h : ∀ c ∈ text, SimpleSelector.isCombinator c = true) :
    Enclosed text where
  closed := closed_of_forall (fun c hc => (isTurn_of_isCombinator (h c hc)).1)
  coded := coded_of_forall (fun c hc => (isTurn_of_isCombinator (h c hc)).2)
  hides := by
    refine hides_of_forall ?_
    intro c hc
    refine ⟨(isTurn_of_isCombinator (h c hc)).1, ?_⟩
    rw [decide_eq_false_iff_not]
    rintro rfl
    exact absurd (h ',' hc) (by decide)

theorem Gap.enclosed (gap : Gap) : Enclosed gap.text :=
  enclosed_of_forall (fun c hc => isCombinator_of_isSpace (gap.blank c hc))

theorem coded_items (items : List Item) : Coded (items.flatMap Item.print) := by
  induction items with
  | nil =>
      exact coded_nil
  | cons item items ih =>
      exact item.coded.append ih

theorem Compound.enclosed (compound : Compound) : Enclosed compound.print where
  closed := compound.closed
  coded := by
    refine Coded.append ?_ (coded_items compound.items)
    cases compound.head with
    | none =>
        exact coded_nil
    | some head =>
        exact head.coded
  hides := compound.hides separates_comma

theorem Complex.enclosed (complex : Complex) : Enclosed complex.print := by
  have hrest : Enclosed (printRest complex.rest) := by
    induction complex.rest with
    | nil =>
        exact ⟨closed_nil, coded_nil, hides_nil⟩
    | cons next rest ih =>
        have hcombinator : Enclosed next.1.print :=
          enclosed_of_forall next.1.isCombinator_of_mem
        exact (hcombinator.append next.2.enclosed).append ih
  exact complex.first.enclosed.append hrest

theorem Member.enclosed (member : Member) : Enclosed member.print :=
  member.before.enclosed.append
    (member.complex.enclosed.append member.after.enclosed)

theorem Complex.exists_print_eq (complex : Complex) :
    ∃ c rest, complex.print = c :: rest ∧ isSpace c = false := by
  obtain ⟨c, rest, hprint, hspace⟩ := complex.first.exists_print_eq
  refine ⟨c, rest ++ printRest complex.rest, ?_, hspace⟩
  rw [print, hprint]
  rfl

/-- The whitespace around a member is trimmed away. -/
theorem Member.trimmed_print (member : Member) :
    trimmed member.print = trimEnd member.complex.print := by
  obtain ⟨c, rest, hprint, hspace⟩ := member.complex.exists_print_eq
  rw [print, hprint,
    trimmed_append member.before.blank member.after.blank hspace,
    trimEnd_cons_of_not_isSpace hspace]

/-- A member is read as it was meant. -/
theorem Member.ofText_eq (member : Member) (offset start : Nat) :
    Selector.ofText offset ⟨start, member.print⟩ =
      member.selector (offset + start) := by
  rw [Selector.ofText, member.trimmed_print, Complex.partsOf_print,
    Member.selector]
  simp [Piece.span, Nat.add_assoc]

end Members

section Lists

theorem coded_intercalate {texts : List Text} (h : ∀ text ∈ texts, Coded text) :
    Coded (List.intercalate [','] texts) := by
  induction texts with
  | nil =>
      exact coded_nil
  | cons text texts ih =>
      have htext : Coded text := h text (by simp)
      have htexts := ih (fun d hd => h d (by simp [hd]))
      cases texts with
      | nil =>
          rwa [List.intercalate_singleton]
      | cons second texts =>
          have hcomma : Coded [','] := coded_singleton rfl
          rw [List.intercalate_cons_cons]
          exact (htext.append hcomma).append htexts

/-- A list is split into the texts between its commas. -/
theorem splitExposed_intercalate
    {texts : List Text} (hne : texts ≠ [])
    (h : ∀ text ∈ texts, Enclosed text) :
    splitExposed (fun c => c = ',') (List.intercalate [','] texts) =
      texts := by
  induction texts with
  | nil =>
      exact absurd rfl hne
  | cons text texts ih =>
      have htext : Enclosed text := h text (by simp)
      cases texts with
      | nil =>
          rw [List.intercalate_singleton]
          exact splitExposed_of_hides htext.hides
      | cons second texts =>
          have htexts := ih (by simp) (fun d hd => h d (by simp [hd]))
          rw [List.intercalate_cons_cons, List.append_assoc,
            List.singleton_append,
            splitExposed_append_cons htext.closed htext.hides rfl rfl, htexts]

theorem map_ofText_place (offset start : Nat) (members : List Member) :
    (Piece.place 1 start (members.map Member.print)).map
        (Selector.ofText offset) =
      selectorsFrom (offset + start) members := by
  induction members generalizing start with
  | nil =>
      rfl
  | cons member members ih =>
      rw [List.map_cons, Piece.place, List.map_cons, member.ofText_eq, ih,
        selectorsFrom]
      simp [Nat.add_assoc]

namespace SelectorList

variable (list : SelectorList)

theorem coded : Coded list.print := by
  refine coded_intercalate ?_
  intro text htext
  obtain ⟨member, -, rfl⟩ := List.mem_map.mp htext
  exact member.enclosed.coded

/-- A list is not all whitespace. -/
theorem all_isSpace_print : list.print.all isSpace = false := by
  cases hmembers : list.members with
  | nil =>
      exact absurd hmembers list.ne_nil
  | cons member members =>
      obtain ⟨c, rest, hprint, hspace⟩ := member.complex.exists_print_eq
      have hmember : c ∈ member.print := by
        simp [Member.print, hprint]
      have hlist : c ∈ list.print := by
        rw [print, hmembers, List.map_cons]
        cases members with
        | nil =>
            rwa [List.map_nil, List.intercalate_singleton]
        | cons second members =>
            rw [List.map_cons, List.intercalate_cons_cons, List.append_assoc]
            exact List.mem_append_left _ hmember
      rw [List.all_eq_false]
      exact ⟨c, hlist, by simp [hspace]⟩

/-- A list is read as its members were meant. -/
theorem readList_print (offset : Nat) :
    Selector.readList list.print list.print offset = list.selectors offset := by
  have hsplit : splitExposed (fun c => c = ',') list.print =
      list.members.map Member.print := by
    refine splitExposed_intercalate ?_ ?_
    · simpa using list.ne_nil
    · intro text htext
      obtain ⟨member, -, rfl⟩ := List.mem_map.mp htext
      exact member.enclosed
  rw [Selector.readList_self list.all_isSpace_print, Selector.piecesOf,
    Piece.split, hsplit]
  exact map_ofText_place offset 0 list.members

end SelectorList

end Lists

section Pages

variable (inventory : Inventory)

/-- Whether a page has what a base asks for. -/
def Base.isOn : Base → Bool
  | .head h => h.isOn inventory
  | .condition c => c.isOn inventory

theorem canMatch_part (simple : Simple) (position : Nat) :
    (simple.part position).canMatch inventory =
      simple.base.isOn inventory := by
  obtain ⟨base, pseudos⟩ := simple
  match base with
  | .head .universal => rfl
  | .head (.element name) => rfl
  | .condition (.className name) => rfl
  | .condition (.identifier name) => rfl
  | .condition (.bracketed content) => rfl

theorem all_canMatch_partsFrom (position : Nat) (simples : List Simple) :
    (partsFrom position simples).all
        (fun part => part.canMatch inventory) =
      simples.all (fun simple => simple.base.isOn inventory) := by
  induction simples generalizing position with
  | nil =>
      rfl
  | cons simple simples ih =>
      have hrest := ih (position + 1)
      rw [List.all_cons, ← hrest, ← canMatch_part inventory simple position]
      rfl

/-- Grouping keeps all conditions. -/
theorem all_isOn_group (items : List Item) :
    (group items).2.all (fun simple => simple.base.isOn inventory) =
      items.all (Item.isOn inventory) := by
  induction items with
  | nil =>
      rfl
  | cons item items ih =>
      cases item with
      | condition c =>
          rw [List.all_cons, ← ih]
          rfl
      | pseudo p =>
          rw [List.all_cons, ← ih]
          rfl

theorem all_isOn_simples (compound : Compound) :
    compound.simples.all (fun simple => simple.base.isOn inventory) =
      compound.isOn inventory := by
  have hitems := all_isOn_group inventory compound.items
  rw [Compound.isOn, Compound.simples, ← hitems]
  cases compound.head with
  | none =>
      simp
  | some head =>
      rw [Option.all_some]
      rfl

/-- A page can match a selector when it has all that is asked for. -/
theorem canMatch_selector (member : Member) (start : Nat) :
    (member.selector start).canMatch inventory = member.isOn inventory := by
  have hrest : ∀ rest : List (Combinator × Compound),
      (rest.flatMap (fun next => next.2.simples)).all
          (fun simple => simple.base.isOn inventory) =
        rest.all (fun next => next.2.isOn inventory) := by
    intro rest
    simp only [List.all_flatMap, all_isOn_simples]
  rw [Selector.canMatch, Member.selector, all_canMatch_partsFrom,
    Complex.simples, List.all_append, all_isOn_simples, hrest]
  rfl

theorem map_canMatch_selectorsFrom (start : Nat) (members : List Member) :
    (selectorsFrom start members).map
        (fun selector => selector.canMatch inventory) =
      members.map (Member.isOn inventory) := by
  induction members generalizing start with
  | nil =>
      rfl
  | cons member members ih =>
      rw [selectorsFrom, List.map_cons, List.map_cons, ih,
        canMatch_selector]

/-- The positions of the dead are the positions of what is missing. -/
theorem deadFrom_eq
    {judgements : List Judgement} {members : List Member}
    (h : judgements.map Judgement.live = members.map (Member.isOn inventory))
    (position : Nat) :
    Judgement.deadFrom position judgements =
      ((members.zipIdx position).filter
        (fun numbered => !numbered.1.isOn inventory)).map Prod.snd := by
  induction members generalizing judgements position with
  | nil =>
      rw [List.map_nil, List.map_eq_nil_iff] at h
      rw [h]
      rfl
  | cons member members ih =>
      cases judgements with
      | nil =>
          cases h
      | cons judgement judgements =>
          rw [List.map_cons, List.map_cons, List.cons.injEq] at h
          obtain ⟨hlive, hrest⟩ := h
          rw [Judgement.deadFrom, ih hrest, List.zipIdx_cons]
          cases hmember : member.isOn inventory with
          | true =>
              rw [hmember] at hlive
              rw [if_pos hlive, List.filter_cons_of_neg (by simp [hmember])]
          | false =>
              rw [hmember] at hlive
              rw [if_neg (by simp [hlive]),
                List.filter_cons_of_pos (by simp [hmember])]
              rfl

theorem length_missing (list : SelectorList) :
    (list.missing inventory).length =
      (list.members.filter (fun member => !member.isOn inventory)).length := by
  have hfst : (list.members.zipIdx.map Prod.fst).filter
        (fun member => !member.isOn inventory) =
      list.members.filter (fun member => !member.isOn inventory) :=
    congrArg _ (List.zipIdx_map_fst 0 list.members)
  rw [← hfst, List.filter_map, List.length_map, SelectorList.missing,
    List.length_map]
  rfl

/-- The verdict depends on what is missing only. -/
theorem verdict_eq
    {judgements : List Judgement} {list : SelectorList}
    (h : judgements.map Judgement.live =
      list.members.map (Member.isOn inventory)) :
    Judgement.verdict judgements = list.verdict inventory := by
  have hdead : Judgement.deadPositions judgements = list.missing inventory :=
    deadFrom_eq inventory h 0
  have hlength : judgements.length = list.members.length := by
    simpa using congrArg List.length h
  have hkeep : list.members.all (Member.isOn inventory) = true ↔
      list.missing inventory = [] := by
    rw [← List.length_eq_zero_iff, length_missing, List.length_eq_zero_iff,
      List.filter_eq_nil_iff, List.all_eq_true]
    simp
  have hdrop : list.members.all (fun member => !member.isOn inventory) = true ↔
      (list.missing inventory).length = judgements.length := by
    rw [length_missing, hlength, List.length_filter_eq_length_iff,
      List.all_eq_true]
  rw [Judgement.verdict, hdead, SelectorList.verdict]
  cases hmissing : list.missing inventory with
  | nil =>
      rw [if_pos (hkeep.mpr hmissing)]
  | cons position rest =>
      have hsome : ¬ list.members.all (Member.isOn inventory) = true := by
        rw [hkeep, hmissing]
        simp
      rw [hmissing, List.length_cons] at hdrop
      simp only [if_neg hsome, hdrop]

end Pages

/--
A printed list is read as its members were meant, each is live when the page
has all that it asks for, and the verdict follows.
-/
theorem judge_readList_print
    (list : SelectorList) (offset : Nat) (inventory : Inventory) :
    let masking := Masking.ofText list.print
    let judgements := Judgement.judge inventory
      (Selector.readList masking.masked masking.uncommented offset)
    judgements.map Judgement.selector = list.selectors offset ∧
      judgements.map Judgement.live =
        list.members.map (Member.isOn inventory) ∧
      Judgement.verdict judgements = list.verdict inventory := by
  have hlive : (Judgement.judge inventory (list.selectors offset)).map
      Judgement.live = list.members.map (Member.isOn inventory) := by
    rw [Judgement.judge, List.map_map]
    exact map_canMatch_selectorsFrom inventory offset list.members
  have hselector : (Judgement.judge inventory (list.selectors offset)).map
      Judgement.selector = list.selectors offset := by
    rw [Judgement.judge, List.map_map]
    exact List.map_id _
  simp only [list.coded.masked, list.coded.uncommented, list.readList_print]
  exact ⟨hselector, hlive, verdict_eq inventory hlive⟩

end Grammar
end StylesheetPruning
