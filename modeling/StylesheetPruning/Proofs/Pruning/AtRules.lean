import Mathlib.Data.List.TakeWhile
import StylesheetPruning.Proofs.Pruning.FixedPoint
import StylesheetPruning.Proofs.Selector.Bodies

/-!
# Preludes of at-rules

What stands between an at-keyword and its block is read like a selector list:
it is cut at its commas, its combinators and its marks before anything looks at
the keyword. The keyword itself asks a page for nothing. The words behind it
are judged like any others.

**Bare text.** Where there is no quote and no comment, the lexing machine finds
nothing but structure, so both texts of a masking are the text itself.

**Results.**
* `listVerdict_atPrelude`: the rule is kept as it is exactly when the page meets
  every body behind the keyword, and by every page exactly when none of them
  asks for an element, a class or an identifier.
* `listVerdict_counterStyle`: the name of a counter style is judged as an
  element name.
-/

namespace StylesheetPruning

section Bare

/-- A machine that meets no quote and no comment gives one role to all. -/
theorem annotate_of_unquoted {state : Lexing} {text : Text}
    (hstate : state = .plain ∨ state = .escaped)
    (hquote : text.any Lexing.isQuote = false)
    (hstart : ∀ cell ∈ (annotate state text).2, cell.role ≠ .commentStart) :
    (annotate state text).2 = text.map codeCell := by
  induction text generalizing state with
  | nil =>
      rfl
  | cons c rest ih =>
      rw [List.any_cons, Bool.or_eq_false_iff] at hquote
      rw [annotate_cons] at hstart ⊢
      obtain ⟨hc, hrest⟩ := List.forall_mem_cons.mp hstart
      have hstep : (state.step c rest.head?).2 = .code ∧
          ((state.step c rest.head?).1 = .plain ∨
            (state.step c rest.head?).1 = .escaped) := by
        rcases hstate with rfl | rfl
        · simp only [Lexing.step] at hc ⊢
          split at hc
          · exact absurd rfl hc
          · next hcomment =>
              rw [if_neg hcomment, hquote.1, if_neg Bool.false_ne_true]
              split
              · exact ⟨rfl, .inr rfl⟩
              · exact ⟨rfl, .inl rfl⟩
        · exact ⟨rfl, .inl rfl⟩
      have hcells := ih hstep.2 hquote.2 hrest
      simp only [hcells, hstep.1, List.map_cons]
      rfl

/-- A text without quotes and comments. -/
structure Bare (text : Text) : Prop where
  unquoted : text.any Lexing.isQuote = false
  uncommented : (Masking.ofText text).comments = []

namespace Bare

variable {text : Text}

theorem annotate_eq (h : Bare text) :
    (annotate .plain text).2 = text.map codeCell :=
  annotate_of_unquoted (.inl rfl) h.unquoted
    ((commentSpans_eq_nil_iff _).mp h.uncommented)

theorem masked_eq (h : Bare text) : (Masking.ofText text).masked = text := by
  rw [Masking.ofText]
  simp only [h.annotate_eq, flatMap_masked_map_codeCell]

theorem uncommented_eq (h : Bare text) :
    (Masking.ofText text).uncommented = text :=
  uncommented_eq_self h.uncommented

end Bare

end Bare

section Preludes

/-- The text of an at-rule in front of its block. -/
structure IsAtPrelude (text : Text) : Prop where
  at_first : (text.dropWhile isSpace).head? = some '@'
  bare : Bare text

theorem ordinary_at : Ordinary '@' where
  turn := rfl
  space := rfl
  comma := by decide
  combinator := rfl
  colon := by decide

/-- An at-rule is judged by what stands behind its keyword. -/
theorem listVerdict_atPrelude {prelude : Text} (h : IsAtPrelude prelude)
    (offset : Nat) :
    ∃ name others, bodiesOf prelude = ('@' :: name) :: others ∧
      (∀ inventory, listVerdict inventory prelude offset = .keep ↔
        ∀ body ∈ others, inventory.meets body = true) ∧
      ((∀ inventory, listVerdict inventory prelude offset = .keep) ↔
        ∀ body ∈ others, ¬ AsksPage body) := by
  have happend := List.takeWhile_append_dropWhile (p := isSpace) (l := prelude)
  obtain ⟨rest, hrest⟩ := List.head?_eq_some_iff.mp h.at_first
  rw [hrest] at happend
  have hfront : ∀ c ∈ prelude.takeWhile isSpace, isSpace c = true :=
    fun c hc => List.mem_takeWhile_imp hc
  obtain ⟨name, others, hbodies⟩ :=
    exists_bodiesOf_eq_cons ordinary_at rfl hfront rest
  rw [happend] at hbodies
  have hspace : prelude.all isSpace = false := by
    rw [← happend, List.all_append, List.all_cons, ordinary_at.space,
      Bool.false_and, Bool.and_false]
  have hkeyword : ¬ AsksPage ('@' :: name) :=
    not_asksPage_of_not_isMark rfl (.inr rfl)
  have hkeep : ∀ inventory, listVerdict inventory prelude offset = .keep ↔
      ∀ body ∈ others, inventory.meets body = true := by
    intro inventory
    rw [listVerdict_eq_keep_iff h.bare.masked_eq h.bare.uncommented_eq hspace,
      hbodies, List.forall_mem_cons]
    exact and_iff_right (meets_of_not_asksPage hkeyword)
  refine ⟨name, others, hbodies, hkeep, ?_⟩
  rw [← forall_meets_iff]
  exact forall_congr' hkeep

theorem listVerdict_atPrelude_page :
    ∃ name others, bodiesOf "@page toc:first".toList = ('@' :: name) :: others ∧
      (∀ inventory, listVerdict inventory "@page toc:first".toList 0 = .keep ↔
        ∀ body ∈ others, inventory.meets body = true) ∧
      ((∀ inventory, listVerdict inventory "@page toc:first".toList 0 = .keep) ↔
        ∀ body ∈ others, ¬ AsksPage body) :=
  listVerdict_atPrelude
    ⟨rfl, by decide, by decide⟩ 0

/-- The name of a counter style is taken for the name of an element. -/
theorem listVerdict_counterStyle :
    IsAtPrelude "@counter-style thumbs".toList ∧
      "@counter-style thumbs".toList.any isBrace = false ∧
      listVerdict (Inventory.ofPage "<p></p>".toList)
        "@counter-style thumbs".toList 0 = .drop := by
  exact ⟨⟨rfl, by decide, by decide⟩, by decide, by decide +kernel⟩

end Preludes

end StylesheetPruning
