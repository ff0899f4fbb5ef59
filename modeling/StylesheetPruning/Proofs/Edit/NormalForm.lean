import StylesheetPruning.Proofs.Edit.Respacing

/-!
# The normal form of spacing

**Loop.** Closing up repeats a round until one keeps the number of bytes. It
is run with a bound on the number of rounds. `ClosesTo` describes the loop
without a bound, so a derivation is a run that ends.

**Bytes.** Every change of spacing takes as many bytes as characters away, so
a round that keeps the number of bytes keeps the text.

**Results.**
* `closesTo_iff`: the loop ends on every text, and the bound is never reached
  before it does.
* `normalSpacing_eq_self_iff`: normal spacing leaves exactly the texts in
  normal spacing as they are.
* `normalSpacing_normalForm`: normal spacing reaches the normal form and touches
  nothing but spaces and line breaks.
-/

namespace StylesheetPruning

section Loop

/-- Runs of the loop that repeats a round until it keeps the number of bytes. -/
inductive ClosesTo (table : List Substitution) : Text → Text → Prop
  /-- The round changed nothing about the length. -/
  | last {text : Text} :
      byteLength (closeRound table text) = byteLength text →
      ClosesTo table text (closeRound table text)
  /-- The round made the text shorter, so there is another one. -/
  | again {text result : Text} :
      byteLength (closeRound table text) ≠ byteLength text →
      ClosesTo table (closeRound table text) result →
      ClosesTo table text result

variable {text result result' : Text}

/-- A run has one result. -/
theorem ClosesTo.unique {table : List Substitution}
    (h : ClosesTo table text result) (h' : ClosesTo table text result') :
    result = result' := by
  induction h with
  | last hlength =>
      cases h' with
      | last =>
          rfl
      | again hne _ =>
          exact absurd hlength hne
  | again hne _ ih =>
      cases h' with
      | last hlength =>
          exact absurd hlength hne
      | again _ hrest =>
          exact ih hrest

/-- A change of spacing takes as many bytes as characters away. -/
theorem RespacedOnce.byteLength_add (h : RespacedOnce text result) :
    byteLength result + text.length = byteLength text + result.length := by
  obtain ⟨front, old, new, back, hchange, rfl, rfl⟩ := h
  have hnew : byteLength new + old.length = byteLength old + new.length := by
    have hspace : ' '.utf8Size = 1 := rfl
    cases hchange with
    | @gap c hc =>
        have hsize : c.utf8Size = 1 := by
          simp only [isGap, isLineBreak, Bool.or_eq_true, decide_eq_true_eq] at hc
          rcases hc with rfl | rfl | rfl <;> rfl
        simp [hsize, hspace]
    | behind =>
        simp [hspace, Nat.add_assoc]
    | before =>
        simp only [byteLength_cons, byteLength_nil, hspace, List.length_cons,
          List.length_nil]
        omega
  simp only [byteLength_append, List.length_append]
  omega

theorem Respaced.byteLength_add (h : Respaced text result) :
    byteLength result + text.length = byteLength text + result.length := by
  induction h with
  | refl =>
      rfl
  | tail _ honce ih =>
      have hstep := honce.byteLength_add
      omega

/-- A round keeps the number of bytes exactly when it keeps the length. -/
theorem byteLength_closeRound_eq_iff (text : Text) :
    byteLength (closeRound looseSpaces text) = byteLength text ↔
      (closeRound looseSpaces text).length = text.length := by
  have hbytes := (respaced_closeRound (fun s hs => hs) text).byteLength_add
  omega

/-- A number of rounds that bounds the length is enough for the loop. -/
theorem closesTo_closeRounds {n : Nat} (h : text.length ≤ n) :
    ClosesTo looseSpaces text (closeRounds looseSpaces n text) := by
  induction n generalizing text with
  | zero =>
      have hnil : text = [] := List.length_eq_zero_iff.mp (by omega)
      subst hnil
      exact .last rfl
  | succ n ih =>
      have hbytes := byteLength_closeRound_eq_iff text
      simp only [closeRounds]
      split
      · next hlength =>
          exact .last (hbytes.mpr hlength)
      · next hlength =>
          have hle := length_closeRound_le looseSpaces text
          refine .again (mt hbytes.mp hlength) (ih ?_)
          omega

/-- The loop ends on every text, with what closing up gives. -/
theorem closesTo_iff :
    ClosesTo looseSpaces text result ↔ result = closeUp looseSpaces text := by
  have hcloses : ClosesTo looseSpaces text (closeUp looseSpaces text) :=
    closesTo_closeRounds (Nat.le_refl text.length)
  constructor
  · exact fun h => h.unique hcloses
  · rintro rfl
    exact hcloses

end Loop

section NormalForm

/-- Normal spacing leaves exactly the texts in normal spacing as they are. -/
theorem normalSpacing_eq_self_iff {text : Text} :
    normalSpacing text = text ↔ NormalSpaced text := by
  constructor
  · intro h
    rw [← h]
    exact normalSpaced_normalSpacing text
  · exact NormalSpaced.eq_self

/--
On the text whose gaps are collapsed, the loop of substitutions ends, with
normal spacing as its one result. That has no line break, no two spaces in a
row and no pattern of a substitution, normal spacing leaves it as it is, and
all other characters are those of the text.
-/
theorem normalSpacing_normalForm (text : Text) :
    (∀ result, ClosesTo looseSpaces (collapseGaps text) result ↔
      result = normalSpacing text) ∧
    NormalSpaced (normalSpacing text) ∧
    normalSpacing (normalSpacing text) = normalSpacing text ∧
    ungapped (normalSpacing text) = ungapped text := by
  have hform := normalSpaced_normalSpacing text
  exact ⟨fun _ => closesTo_iff, hform, normalSpacing_eq_self_iff.mpr hform,
    (respaced_normalSpacing text).ungapped_eq⟩

/-- Of two matches that share a space, the first one leaves no pattern behind. -/
example :
    normalSpacing "a :\r\n \x7bb + + c,\n (d)\x7d".toList =
      "a :\x7bb++ c,(d)\x7d".toList := by
  decide

end NormalForm

end StylesheetPruning
