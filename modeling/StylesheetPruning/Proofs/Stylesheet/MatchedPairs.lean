import StylesheetPruning.Proofs.Stylesheet.Braces

/-!
# Matching braces

Two braces of a text match when the text between them is balanced. An opening
brace has at most one partner: the first brace behind it that closes a block
which was not opened since.

**Offsets.** `MatchedFrom` says which braces of a text match when the text
starts at some offset, so the parts of a text can be treated on their own.

**Results.**
* `exists_of_depthAfter?_eq_none`: where the depth is lost, a block that was
  opened in front of the text ends.
* `matchedFrom_append`: no pair leads out of balanced text.
* `matchedFrom_block`, `matchedFrom_unclosed`: the pairs of a text that begins
  with an opening brace.
-/

namespace StylesheetPruning

section Depth

theorem depthAfter?_cons (depth : Nat) (c : Char) (rest : Text) :
    depthAfter? depth (c :: rest) =
      (depthStep? depth c).bind (fun d => depthAfter? d rest) := rfl

theorem depthAfter?_cons_open (depth : Nat) (rest : Text) :
    depthAfter? depth ('{' :: rest) = depthAfter? (depth + 1) rest := rfl

theorem depthAfter?_cons_close (depth : Nat) (rest : Text) :
    depthAfter? (depth + 1) ('}' :: rest) = depthAfter? depth rest := rfl

theorem depthAfter?_zero_cons_close (rest : Text) :
    depthAfter? 0 ('}' :: rest) = none := rfl

theorem depthAfter?_cons_of_ne
    {c : Char} (hopen : c ≠ '{') (hclose : c ≠ '}')
    (depth : Nat) (rest : Text) :
    depthAfter? depth (c :: rest) = depthAfter? depth rest := by
  rw [depthAfter?_cons, depthStep?, if_neg hopen, if_neg hclose]
  rfl

/-- Open blocks around a text do not matter to it. -/
theorem depthAfter?_add
    {depth depth' : Nat} {text : Text}
    (h : depthAfter? depth text = some depth') (k : Nat) :
    depthAfter? (depth + k) text = some (depth' + k) := by
  induction text generalizing depth with
  | nil =>
      obtain rfl : depth = depth' := Option.some.inj h
      rfl
  | cons c rest ih =>
      by_cases hopen : c = '{'
      · subst hopen
        rw [depthAfter?_cons_open] at h ⊢
        rw [Nat.add_right_comm]
        exact ih h
      · by_cases hclose : c = '}'
        · subst hclose
          cases depth with
          | zero =>
              rw [depthAfter?_zero_cons_close] at h
              cases h
          | succ depth =>
              rw [depthAfter?_cons_close] at h
              rw [Nat.add_right_comm, depthAfter?_cons_close]
              exact ih h
        · rw [depthAfter?_cons_of_ne hopen hclose] at h ⊢
          exact ih h

/-- Where the depth is lost, the last block in front of the text has ended. -/
theorem exists_of_depthAfter?_eq_none
    {depth : Nat} {text : Text} (h : depthAfter? depth text = none) :
    ∃ inner after, text = inner ++ '}' :: after ∧
      depthAfter? depth inner = some 0 := by
  induction text generalizing depth with
  | nil =>
      cases h
  | cons c rest ih =>
      by_cases hopen : c = '{'
      · subst hopen
        obtain ⟨inner, after, rfl, hinner⟩ := ih h
        exact ⟨'{' :: inner, after, rfl, hinner⟩
      · by_cases hclose : c = '}'
        · subst hclose
          cases depth with
          | zero =>
              exact ⟨[], rest, rfl, rfl⟩
          | succ depth =>
              obtain ⟨inner, after, rfl, hinner⟩ := ih h
              exact ⟨'}' :: inner, after, rfl, hinner⟩
        · rw [depthAfter?_cons_of_ne hopen hclose] at h
          obtain ⟨inner, after, rfl, hinner⟩ := ih h
          refine ⟨c :: inner, after, rfl, ?_⟩
          rw [depthAfter?_cons_of_ne hopen hclose, hinner]

namespace Balanced

variable {text inner : Text}

/-- Balanced text keeps the depth. -/
theorem depthAfter?_eq (h : Balanced text) (depth : Nat) :
    depthAfter? depth text = some depth := by
  have hadd := depthAfter?_add h depth
  rwa [Nat.zero_add] at hadd

theorem depthAfter?_append (h : Balanced text) (depth : Nat) (rest : Text) :
    depthAfter? depth (text ++ rest) = depthAfter? depth rest := by
  rw [StylesheetPruning.depthAfter?_append, h.depthAfter?_eq]
  rfl

/-- A closing brace behind balanced text closes nothing in it. -/
theorem depthAfter?_append_close (h : Balanced inner) (after : Text) :
    depthAfter? 0 (inner ++ '}' :: after) = none := by
  rw [h.depthAfter?_append]
  rfl

/-- A block is passed over like balanced text. -/
theorem depthAfter?_block (h : Balanced inner) (depth : Nat) (rest : Text) :
    depthAfter? depth ('{' :: (inner ++ '}' :: rest)) =
      depthAfter? depth rest := by
  rw [depthAfter?_cons_open, h.depthAfter?_append]
  rfl

/-- An opening brace in balanced text closes in it. -/
theorem depthAfter?_eq_none_of_open {front back : Text}
    (h : Balanced (front ++ '{' :: back)) : depthAfter? 0 back = none := by
  cases hback : depthAfter? 0 back with
  | none =>
      rfl
  | some depth =>
      rw [Balanced, StylesheetPruning.depthAfter?_append] at h
      obtain ⟨d, -, hopen⟩ := Option.bind_eq_some_iff.mp h
      have hadd := depthAfter?_add hback (d + 1)
      rw [Nat.zero_add, ← depthAfter?_cons_open, hopen] at hadd
      simp at hadd

/-- A block ends at one brace. -/
theorem append_close_inj {inner' after after' : Text}
    (h : Balanced inner) (h' : Balanced inner')
    (heq : inner ++ '}' :: after = inner' ++ '}' :: after') :
    inner = inner' ∧ after = after' := by
  -- A text that runs past its closing brace would lose its depth there.
  have hpast : ∀ {text more : Text}, Balanced text →
      ¬ Balanced (text ++ '}' :: more) := by
    intro text more htext hmore
    rw [Balanced, htext.depthAfter?_append_close] at hmore
    cases hmore
  rcases List.append_eq_append_iff.mp heq with
    ⟨more, rfl, hmore⟩ | ⟨more, rfl, hmore⟩
  · cases more with
    | nil =>
        simpa using hmore
    | cons c more =>
        obtain ⟨rfl, -⟩ := List.cons.inj hmore
        exact absurd h' (hpast h)
  · cases more with
    | nil =>
        simpa [eq_comm] using hmore
    | cons c more =>
        obtain ⟨rfl, -⟩ := List.cons.inj hmore
        exact absurd h (hpast h')

end Balanced

end Depth

/-- The offsets of an opening and of a closing brace. -/
structure BracePair where
  opening : Nat
  closing : Nat
deriving Repr, DecidableEq

/-- Whether the braces of one pair stand between those of another. -/
def BracePair.Encloses (outer inner : BracePair) : Prop :=
  outer.opening < inner.opening ∧ inner.closing < outer.closing

/-- Whether two braces of a text match that starts at an offset. -/
def MatchedFrom (offset : Nat) (text : Text) (pair : BracePair) : Prop :=
  ∃ front inner back, text = front ++ '{' :: (inner ++ '}' :: back) ∧
    Balanced inner ∧
    pair.opening = offset + byteLength front ∧
    pair.closing = offset + byteLength front + 1 + byteLength inner

/-- Whether two braces of a text match: what is between them is balanced. -/
def Matched (text : Text) (pair : BracePair) : Prop :=
  MatchedFrom 0 text pair

section Pairs

variable {pair : BracePair}

theorem not_matchedFrom_nil (offset : Nat) : ¬ MatchedFrom offset [] pair := by
  rintro ⟨front, inner, back, htext, -⟩
  simp at htext

/-- The pairs of a text are those of its rest, and that of its first brace. -/
theorem matchedFrom_cons (offset : Nat) (c : Char) (rest : Text) :
    MatchedFrom offset (c :: rest) pair ↔
      (c = '{' ∧ ∃ inner back, rest = inner ++ '}' :: back ∧
        Balanced inner ∧ pair = ⟨offset, offset + 1 + byteLength inner⟩) ∨
      MatchedFrom (offset + c.utf8Size) rest pair := by
  constructor
  · rintro ⟨front, inner, back, htext, hinner, hopening, hclosing⟩
    cases front with
    | nil =>
        obtain ⟨rfl, rfl⟩ := List.cons.inj htext
        refine .inl ⟨rfl, inner, back, rfl, hinner, ?_⟩
        obtain ⟨opening, closing⟩ := pair
        simp_all
    | cons d front =>
        obtain ⟨rfl, rfl⟩ := List.cons.inj htext
        rw [byteLength_cons, ← Nat.add_assoc] at hopening hclosing
        exact .inr ⟨front, inner, back, rfl, hinner, hopening, hclosing⟩
  · rintro (⟨rfl, inner, back, rfl, hinner, rfl⟩ |
      ⟨front, inner, back, rfl, hinner, hopening, hclosing⟩)
    · exact ⟨[], inner, back, rfl, hinner, rfl, rfl⟩
    · refine ⟨c :: front, inner, back, rfl, hinner, ?_, ?_⟩
      · rw [hopening, byteLength_cons]
        omega
      · rw [hclosing, byteLength_cons]
        omega

theorem matchedFrom_cons_of_ne {c : Char} (h : c ≠ '{')
    (offset : Nat) (rest : Text) :
    MatchedFrom offset (c :: rest) pair ↔
      MatchedFrom (offset + c.utf8Size) rest pair := by
  rw [matchedFrom_cons]
  simp [h]

/-- The pairs behind a text are pairs of the whole. -/
theorem MatchedFrom.append_left {offset : Nat} {front text : Text}
    (h : MatchedFrom (offset + byteLength front) text pair) :
    MatchedFrom offset (front ++ text) pair := by
  obtain ⟨left, inner, back, rfl, hinner, hopening, hclosing⟩ := h
  refine ⟨front ++ left, inner, back, ?_, hinner, ?_, ?_⟩
  · rw [List.append_assoc]
  · rw [hopening, byteLength_append]
    omega
  · rw [hclosing, byteLength_append]
    omega

/-- So are the pairs in front of one. -/
theorem MatchedFrom.append_right {offset : Nat} {text : Text}
    (h : MatchedFrom offset text pair) (rest : Text) :
    MatchedFrom offset (text ++ rest) pair := by
  obtain ⟨front, inner, back, rfl, hinner, hpair⟩ := h
  refine ⟨front, inner, back ++ rest, ?_, hinner, hpair⟩
  simp

/-- No pair leads out of balanced text. -/
theorem matchedFrom_append {text : Text} (h : Balanced text)
    (offset : Nat) (rest : Text) :
    MatchedFrom offset (text ++ rest) pair ↔
      MatchedFrom offset text pair ∨
        MatchedFrom (offset + byteLength text) rest pair := by
  constructor
  · rintro ⟨front, inner, back, htext, hinner, hopening, hclosing⟩
    -- An opening brace of the text has its partner in the text.
    have hclosed : ∀ {behind}, text = front ++ '{' :: behind →
        behind ++ rest = inner ++ '}' :: back →
        MatchedFrom offset text pair := by
      rintro behind rfl hbehind
      obtain ⟨inner', after, rfl, hinner'⟩ :=
        exists_of_depthAfter?_eq_none h.depthAfter?_eq_none_of_open
      rw [List.append_assoc] at hbehind
      obtain ⟨rfl, -⟩ := Balanced.append_close_inj hinner' hinner hbehind
      exact ⟨front, inner', after, rfl, hinner, hopening, hclosing⟩
    rcases List.append_eq_append_iff.mp htext with
      ⟨more, rfl, rfl⟩ | ⟨more, rfl, hmore⟩
    · refine .inr ⟨more, inner, back, rfl, hinner, ?_, ?_⟩
      · rw [hopening, byteLength_append]
        omega
      · rw [hclosing, byteLength_append]
        omega
    · cases more with
      | nil =>
          refine .inr ⟨[], inner, back, hmore.symm, hinner, ?_, ?_⟩
          · simpa using hopening
          · simpa using hclosing
      | cons c more =>
          obtain ⟨rfl, hbehind⟩ := List.cons.inj hmore
          exact .inl (hclosed rfl hbehind.symm)
  · rintro (hpair | hpair)
    · exact hpair.append_right rest
    · exact hpair.append_left

/-- The pairs of a text that begins with a block. -/
theorem matchedFrom_block {inner : Text} (h : Balanced inner)
    (offset : Nat) (rest : Text) :
    MatchedFrom offset ('{' :: (inner ++ '}' :: rest)) pair ↔
      pair = ⟨offset, offset + 1 + byteLength inner⟩ ∨
        MatchedFrom (offset + 1) inner pair ∨
        MatchedFrom (offset + byteLength inner + 2) rest pair := by
  have hfirst : (∃ inner' back, inner ++ '}' :: rest = inner' ++ '}' :: back ∧
        Balanced inner' ∧ pair = ⟨offset, offset + 1 + byteLength inner'⟩) ↔
      pair = ⟨offset, offset + 1 + byteLength inner⟩ := by
    constructor
    · rintro ⟨inner', back, heq, hinner', rfl⟩
      obtain ⟨rfl, -⟩ := h.append_close_inj hinner' heq
      rfl
    · intro hpair
      exact ⟨inner, rest, rfl, h, hpair⟩
  have hopen : ('{' : Char).utf8Size = 1 := rfl
  have hclose : ('}' : Char).utf8Size = 1 := rfl
  have hoffset : offset + 1 + byteLength inner + 1 =
      offset + byteLength inner + 2 := by
    omega
  rw [matchedFrom_cons, hfirst, hopen, matchedFrom_append h,
    matchedFrom_cons_of_ne (by decide), hclose, hoffset]
  simp

/-- A brace that opens a block without an end is in no pair. -/
theorem matchedFrom_unclosed {rest : Text} (h : depthAfter? 0 rest ≠ none)
    (offset : Nat) :
    MatchedFrom offset ('{' :: rest) pair ↔
      MatchedFrom (offset + 1) rest pair := by
  have hopen : ('{' : Char).utf8Size = 1 := rfl
  rw [matchedFrom_cons, hopen, or_iff_right]
  rintro ⟨-, inner, back, rfl, hinner, -⟩
  exact h (hinner.depthAfter?_append_close back)

end Pairs

end StylesheetPruning
