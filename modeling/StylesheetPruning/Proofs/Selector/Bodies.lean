import StylesheetPruning.Proofs.Selector.Pieces
import StylesheetPruning.Selector.Judgement
import StylesheetPruning.Stylesheet.Masking

/-!
# What a page decides about a selector list

A page decides a selector list by the bodies of its simple selectors, one by
one. A body is what stands in front of a pseudo suffix. Where the bodies stand
in the list does not matter, as long as it is only asked whether the whole list
is kept.

**Bodies.** `bodiesOf` lists the bodies of a selector list.

**Results.**
* `listVerdict_eq_keep_iff`: a list is kept as it is exactly when the page meets
  each of its bodies.
* `forall_meets_iff`: every page meets them exactly when none asks for an
  element, a class or an identifier.
* `exists_bodiesOf_eq_cons`: a list begins with its first body.
-/

namespace StylesheetPruning

section Meeting

/-- What a page has to contain for the text of a simple selector. -/
def bodyOf (text : Text) : Text :=
  (breakExposed (fun c => c = ':') (trimmed text)).1

/-- Whether a page has what a body asks for. -/
def Inventory.meets (inventory : Inventory) (body : Text) : Bool :=
  match Kind.ofText body with
  | .element => inventory.containsElement body
  | .className =>
      inventory.containsClass
        (resolveEscapes (SimpleSelector.behindMark body))
  | .identifier =>
      inventory.containsId (resolveEscapes (SimpleSelector.behindMark body))
  | .universal | .attributeName | .unknown => true

/-- Whether a body asks for something that a page may lack. -/
def AsksPage (body : Text) : Prop :=
  Kind.ofText body = .element ∨ Kind.ofText body = .className ∨
    Kind.ofText body = .identifier

/-- Only marks and letters ask for something, unless they make a marker. -/
theorem not_asksPage_of_not_isMark {c : Char} {rest : Text}
    (hmark : SimpleSelector.isMark c = false)
    (h : Kind.isKeyframeMarker (c :: rest) = true ∨ c.isAlpha = false) :
    ¬ AsksPage (c :: rest) := by
  simp only [SimpleSelector.isMark, Bool.or_eq_false_iff,
    decide_eq_false_iff_not] at hmark
  obtain ⟨⟨hdot, hhash⟩, hbracket⟩ := hmark
  have hkind : Kind.ofText (c :: rest) = .universal ∨
      Kind.ofText (c :: rest) = .unknown := by
    by_cases hat : c = '@'
    · subst hat
      rw [Kind.ofText]
      split
      · exact .inl rfl
      · exact .inr rfl
    · rw [Kind.ofText]
      · split
        · exact .inl rfl
        · rcases h with h | h <;> simp [h]
      · exact hdot
      · exact hhash
      · exact hbracket
      · exact hat
  rw [AsksPage]
  rcases hkind with hkind | hkind <;> simp [hkind]

variable {inventory : Inventory} {body : Text}

theorem meets_of_not_asksPage (h : ¬ AsksPage body) :
    inventory.meets body = true := by
  rw [Inventory.meets]
  cases hkind : Kind.ofText body with
  | element =>
      exact absurd (.inl hkind) h
  | className =>
      exact absurd (.inr (.inl hkind)) h
  | identifier =>
      exact absurd (.inr (.inr hkind)) h
  | universal =>
      rfl
  | attributeName =>
      rfl
  | unknown =>
      rfl

/-- A page without any content meets what asks for nothing. -/
theorem meets_empty_iff :
    Inventory.empty.meets body = true ↔ ¬ AsksPage body := by
  constructor
  · rintro h (hkind | hkind | hkind) <;>
      simp [Inventory.meets, hkind, Inventory.empty,
        Inventory.containsElement, Inventory.containsClass,
        Inventory.containsId] at h
  · exact meets_of_not_asksPage

end Meeting

namespace SimpleSelector

variable {inventory : Inventory} {position : Nat} {text : Text}

/-- A simple selector is decided by its body. -/
theorem canMatch_of_ofText? {part : SimpleSelector}
    (h : ofText? position text = some part) :
    part.canMatch inventory = inventory.meets (bodyOf text) := by
  simp only [ofText?] at h
  rw [Inventory.meets, bodyOf]
  generalize breakExposed (fun c => c = ':') (trimmed text) = broken at h ⊢
  obtain ⟨body, suffix⟩ := broken
  split at h
  · cases h
  · obtain rfl := Option.some.inj h
    simp only [canMatch, valueOf]
    cases Kind.ofText body <;> rfl

/-- A suffix alone asks for nothing. -/
theorem meets_of_ofText?_eq_none (h : ofText? position text = none) :
    inventory.meets (bodyOf text) = true := by
  simp only [ofText?] at h
  rw [bodyOf]
  split at h
  · next hempty =>
      rw [List.isEmpty_iff.mp hempty]
      rfl
  · cases h

theorem all_canMatch_ofTexts (position : Nat) (texts : List Text) :
    (ofTexts position texts).all (fun part => part.canMatch inventory) =
      texts.all (fun text => inventory.meets (bodyOf text)) := by
  induction texts generalizing position with
  | nil =>
      rfl
  | cons text texts ih =>
      rw [ofTexts, List.all_cons]
      cases hpart : ofText? position text with
      | none =>
          rw [meets_of_ofText?_eq_none hpart]
          exact ih position
      | some part =>
          rw [← canMatch_of_ofText? hpart, ← ih (position + 1)]
          rfl

end SimpleSelector

section Verdicts

/-- What happens to a rule, by the text of its selector list. -/
def listVerdict (inventory : Inventory) (list : Text) (offset : Nat) : Verdict :=
  Judgement.verdict
    (Judgement.judge inventory
      (Selector.readList (Masking.ofText list).masked
        (Masking.ofText list).uncommented offset))

/-- The bodies of all simple selectors of a list. -/
def bodiesOf (list : Text) : List Text :=
  (splitExposed (fun c => c = ',') list).flatMap
    (fun member => (Selector.textsOf (trimmed member)).map bodyOf)

variable {list : Text}

/-- A list that nothing masks is kept when the page meets each of its bodies. -/
theorem listVerdict_eq_keep_iff
    (hmasked : (Masking.ofText list).masked = list)
    (huncommented : (Masking.ofText list).uncommented = list)
    (hlist : list.all isSpace = false) (inventory : Inventory) (offset : Nat) :
    listVerdict inventory list offset = .keep ↔
      ∀ body ∈ bodiesOf list, inventory.meets body = true := by
  have hmembers : (Selector.piecesOf list).map Piece.text =
      splitExposed (fun c => c = ',') list :=
    Piece.map_text_place 1 0 _
  have hmember : ∀ piece : Piece,
      (Selector.ofText offset piece).canMatch inventory = true ↔
        ∀ text ∈ Selector.textsOf (trimmed piece.text),
          inventory.meets (bodyOf text) = true := by
    intro piece
    rw [Selector.canMatch, Selector.ofText, Selector.partsOf,
      SimpleSelector.all_canMatch_ofTexts,
      List.all_eq_true]
  rw [listVerdict, hmasked, huncommented, Judgement.verdict_eq_keep_iff,
    Selector.readList_self hlist, Judgement.judge, List.map_map,
    List.forall_mem_map, bodiesOf, List.forall_mem_flatMap,
    ← hmembers, List.forall_mem_map]
  simp only [List.forall_mem_map]
  exact forall₂_congr (fun piece _ => hmember piece)

/-- Every page meets bodies that ask for nothing. -/
theorem forall_meets_iff {bodies : List Text} :
    (∀ inventory : Inventory, ∀ body ∈ bodies, inventory.meets body = true) ↔
      ∀ body ∈ bodies, ¬ AsksPage body := by
  constructor
  · intro hmeets body hbody
    exact meets_empty_iff.mp (hmeets Inventory.empty body hbody)
  · intro hbodies inventory body hbody
    exact meets_of_not_asksPage (hbodies body hbody)

end Verdicts

section Beginnings

variable {p : Char → Bool} {c : Char}

theorem map_consFirst {α β : Type} (f : α → β) (item : α)
    (parts : List (List α)) :
    (consFirst item parts).map (List.map f) =
      consFirst (f item) (parts.map (List.map f)) := by
  cases parts <;> rfl

theorem exists_consFirst_eq {α : Type} (item : α) (parts : List (List α)) :
    ∃ first others, consFirst item parts = (item :: first) :: others := by
  cases parts with
  | nil =>
      exact ⟨[], [], rfl⟩
  | cons first others =>
      exact ⟨first, others, rfl⟩

/-- A character that separates nothing begins the first part. -/
theorem splitExposed_cons (hturn : Walk.isTurn c = false) (hc : p c = false)
    (rest : Text) :
    splitExposed p (c :: rest) = consFirst c (splitExposed p rest) := by
  have hshows : Glyph.shows p ⟨c, true⟩ = false := by
    simp [Glyph.shows, hc]
  rw [splitExposed, glyphs_cons hturn, splitWhere_cons, hshows,
    if_neg Bool.false_ne_true, map_consFirst]
  rfl

theorem cutExposed_cons (hturn : Walk.isTurn c = false) (hc : p c = false)
    (rest : Text) :
    cutExposed p (c :: rest) = consFirst c (cutExposed p rest) := by
  have hshows : Glyph.shows p ⟨c, true⟩ = false := by
    simp [Glyph.shows, hc]
  rw [cutExposed, glyphs_cons hturn, cutWhere_cons, hshows,
    if_neg Bool.false_ne_true, map_consFirst]
  rfl

theorem fst_breakExposed_cons (hturn : Walk.isTurn c = false) (hc : p c = false)
    (rest : Text) :
    (breakExposed p (c :: rest)).1 = c :: (breakExposed p rest).1 := by
  have hshows : Glyph.shows p ⟨c, true⟩ = false := by
    simp [Glyph.shows, hc]
  simp only [breakExposed, glyphs_cons hturn]
  rw [List.takeWhile_cons_of_pos (by simp [hshows])]
  rfl

/-- Text that separates nothing stays in front of the first part. -/
theorem exists_splitExposed_append {front : Text}
    (h : ∀ c ∈ front, Walk.isTurn c = false ∧ p c = false) (rest : Text) :
    ∃ first others, splitExposed p (front ++ rest) =
      (front ++ first) :: others := by
  induction front with
  | nil =>
      exact List.exists_cons_of_ne_nil (splitExposed_ne_nil p rest)
  | cons c front ih =>
      obtain ⟨hturn, hc⟩ := h c (by simp)
      obtain ⟨first, others, hparts⟩ := ih (fun d hd => h d (by simp [hd]))
      refine ⟨first, others, ?_⟩
      rw [List.cons_append, splitExposed_cons hturn hc, hparts]
      rfl

/-- A character that ends nothing in a selector list but maybe a member of a
compound. -/
structure Ordinary (c : Char) : Prop where
  turn : Walk.isTurn c = false
  space : isSpace c = false
  comma : c ≠ ','
  combinator : SimpleSelector.isCombinator c = false
  colon : c ≠ ':'

/-- A list begins with its first body. -/
theorem exists_bodiesOf_eq_cons
    (hc : Ordinary c) (hmark : SimpleSelector.isMark c = false)
    {front : Text} (hfront : ∀ d ∈ front, isSpace d = true) (rest : Text) :
    ∃ body others, bodiesOf (front ++ c :: rest) = (c :: body) :: others := by
  have hplain : ∀ d ∈ front ++ [c], Walk.isTurn d = false ∧
      decide (d = ',') = false := by
    intro d hd
    rcases List.mem_append.mp hd with hd | hd
    · have hspace := hfront d hd
      simp only [isSpace, Bool.or_eq_true, decide_eq_true_eq] at hspace
      rcases hspace with (((rfl | rfl) | rfl) | rfl) | rfl <;> exact ⟨rfl, rfl⟩
    · rw [List.mem_singleton.mp hd]
      exact ⟨hc.turn, decide_eq_false hc.comma⟩
  obtain ⟨first, members, hmembers⟩ := exists_splitExposed_append hplain rest
  have htrim : trimmed (front ++ [c] ++ first) = c :: trimEnd first := by
    rw [List.append_assoc, List.singleton_append, trimmed,
      List.dropWhile_append_of_pos hfront, ← trimmed, trimmed_cons hc.space]
  obtain ⟨compound, compounds, hcompounds⟩ := exists_consFirst_eq c
    (splitExposed SimpleSelector.isCombinator (trimEnd first))
  obtain ⟨text, texts, htexts⟩ := exists_consFirst_eq c
    (cutExposed SimpleSelector.isMark compound)
  have hfirst : Selector.textsOf (c :: trimEnd first) =
      (c :: text) :: (texts ++ compounds.flatMap
        (cutExposed SimpleSelector.isMark)) := by
    rw [Selector.textsOf, splitExposed_cons hc.turn hc.combinator, hcompounds,
      List.flatMap_cons, cutExposed_cons hc.turn hmark, htexts]
    rfl
  have hbody : bodyOf (c :: text) =
      c :: (breakExposed (fun c => c = ':') (trimEnd text)).1 := by
    rw [bodyOf, trimmed_cons hc.space,
      fst_breakExposed_cons hc.turn (decide_eq_false hc.colon)]
  rw [List.append_assoc, List.singleton_append] at hmembers
  rw [bodiesOf, hmembers, List.flatMap_cons, htrim, hfirst, List.map_cons,
    hbody]
  exact ⟨_, _, rfl⟩

end Beginnings

end StylesheetPruning
