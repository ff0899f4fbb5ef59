import StylesheetPruning.Proofs.Text.Parting
import StylesheetPruning.Selector.TopLevel

/-!
# Walks over texts that were put together

A text is closed when a walk leaves it where it began, outside of brackets and
escapes, whatever follows. What is put behind a closed text is walked over as
if it stood alone.

**Escapes.** `hexTail` reads an escape one character at a time. An escape at
the end of a text may grow when the text goes on, but no other character is
touched by that, so a walk over the first part of a text finds what the walk
over the whole text finds there.

**Results.**
* `glyphs_take_append`: what follows a text does not change its glyphs.
* `splitExposed_append_cons`, `cutExposed_append`, `breakExposed_append_cons`:
  closed texts are what splitting, cutting and breaking give back.
-/

namespace StylesheetPruning

section Escapes

/-- The rest of an escape behind digits, when `n` more digits may follow. -/
def hexTail : Nat → Text → Text
  | _, [] => []
  | 0, c :: _ => if isSpace c then [c] else []
  | n + 1, c :: rest =>
      if isHexDigit c then c :: hexTail n rest
      else if isSpace c then [c]
      else []

theorem isSpace_of_isHexDigit {c : Char} (h : isHexDigit c = true) :
    isSpace c = false := by
  rw [Bool.eq_false_iff]
  intro hspace
  simp only [isSpace, Bool.or_eq_true, decide_eq_true_eq] at hspace
  rcases hspace with (((rfl | rfl) | rfl) | rfl) | rfl <;>
    exact absurd h (by decide)

theorem hexTail_eq (n : Nat) (rest : Text) :
    hexTail n rest =
      (rest.take n).takeWhile isHexDigit ++
        ((rest.drop ((rest.take n).takeWhile isHexDigit).length).take 1).filter
          isSpace := by
  induction n generalizing rest with
  | zero =>
      cases rest with
      | nil =>
          rfl
      | cons c rest =>
          by_cases hc : isSpace c = true <;> simp [hexTail, hc]
  | succ n ih =>
      cases rest with
      | nil =>
          rfl
      | cons c rest =>
          by_cases hhex : isHexDigit c = true
          · simp [hexTail, hhex, ih]
          · by_cases hc : isSpace c = true <;> simp [hexTail, hhex, hc]

@[simp] theorem escapeTail_nil : escapeTail [] = [] := rfl

theorem escapeTail_cons (c : Char) (rest : Text) :
    escapeTail (c :: rest) =
      if isHexDigit c then c :: hexTail 5 rest else [c] := by
  by_cases hc : isHexDigit c = true
  · simp [escapeTail, hc, hexTail_eq]
  · simp [escapeTail, hc]

/-- A space ends an escape. -/
theorem hexTail_append_space
    {n : Nat} {digits : Text} (hlength : digits.length ≤ n)
    (hdigits : ∀ c ∈ digits, isHexDigit c = true) (rest : Text) :
    hexTail n (digits ++ ' ' :: rest) = digits ++ [' '] := by
  induction digits generalizing n with
  | nil =>
      cases n <;> rfl
  | cons c digits ih =>
      cases n with
      | zero =>
          simp at hlength
      | succ n =>
          have hc : isHexDigit c = true := hdigits c (by simp)
          have htail := ih (by simpa using hlength)
            (fun d hd => hdigits d (by simp [hd]))
          simp [hexTail, hc, htail]

/-- Of an escape, a shorter text holds as much as it can. -/
theorem min_length_hexTail (n : Nat) (text rest : Text) :
    min (hexTail n (text ++ rest)).length text.length =
      (hexTail n text).length := by
  induction text generalizing n with
  | nil =>
      simp [hexTail]
  | cons c text ih =>
      cases n with
      | zero =>
          by_cases hc : isSpace c = true <;> simp [hexTail, hc]
      | succ n =>
          by_cases hhex : isHexDigit c = true
          · have htail := ih n
            simp only [List.cons_append, hexTail, hhex, if_true,
              List.length_cons]
            omega
          · by_cases hc : isSpace c = true <;> simp [hexTail, hhex, hc]

theorem min_length_escapeTail (text rest : Text) :
    min (escapeTail (text ++ rest)).length text.length =
      (escapeTail text).length := by
  cases text with
  | nil =>
      simp
  | cons c text =>
      have htail := min_length_hexTail 5 text rest
      rw [List.cons_append, escapeTail_cons, escapeTail_cons]
      by_cases hc : isHexDigit c = true
      · simp only [hc, if_true, List.length_cons]
        omega
      · simp [hc]

end Escapes

namespace Walk

section Prefixes

/-- Walks that pass the same part of an escape agree on a text. -/
theorem take_glyphs
    {depth skip skip' : Nat} {text : Text}
    (hskip : min skip text.length = min skip' text.length) (rest : Text) :
    (glyphs ⟨depth, skip'⟩ (text ++ rest)).take text.length =
      glyphs ⟨depth, skip⟩ text := by
  induction text generalizing depth skip skip' with
  | nil =>
      rfl
  | cons c text ih =>
      rw [List.length_cons] at hskip
      rw [List.cons_append, List.length_cons, glyphs, glyphs,
        List.take_succ_cons]
      cases skip with
      | succ skip =>
          cases skip' with
          | zero =>
              simp at hskip
          | succ skip' =>
              have htail :
                  (glyphs ⟨depth, skip'⟩ (text ++ rest)).take text.length =
                    glyphs ⟨depth, skip⟩ text :=
                ih (by omega)
              simp only [step, htail]
      | zero =>
          cases skip' with
          | succ skip' =>
              simp at hskip
          | zero =>
              have htail : ∀ depth,
                  (glyphs ⟨depth, 0⟩ (text ++ rest)).take text.length =
                    glyphs ⟨depth, 0⟩ text :=
                fun depth => ih rfl
              have hescape :
                  (glyphs ⟨depth, (escapeTail (text ++ rest)).length⟩
                      (text ++ rest)).take text.length =
                    glyphs ⟨depth, (escapeTail text).length⟩ text := by
                have hlength := min_length_escapeTail text rest
                exact ih (by omega)
              by_cases hslash : c = '\\'
              · simp [step, hslash, hescape]
              · by_cases hopen : c = '(' ∨ c = '['
                · simp [step, hslash, hopen, htail]
                · by_cases hclose : c = ')' ∨ c = ']'
                  · simp [step, hslash, hopen, hclose, htail]
                  · simp [step, hslash, hopen, hclose, htail]

/-- What follows a text does not change its glyphs. -/
theorem glyphs_take_append (walk : Walk) (text rest : Text) :
    (walk.glyphs (text ++ rest)).take text.length = walk.glyphs text :=
  take_glyphs rfl rest

theorem mem_glyphs_append
    {walk : Walk} {text : Text} {glyph : Glyph}
    (h : glyph ∈ walk.glyphs text) (rest : Text) :
    glyph ∈ walk.glyphs (text ++ rest) := by
  rw [← glyphs_take_append walk text rest] at h
  exact List.mem_of_mem_take h

end Prefixes

section Passing

/-- A walk over a text with anything behind it. -/
def Passes (walk : Walk) (text : Text) (found : List Glyph) (walk' : Walk) :
    Prop :=
  ∀ rest, walk.glyphs (text ++ rest) = found ++ walk'.glyphs rest

theorem Passes.append
    {walk walk' walk'' : Walk} {text text' : Text} {found found' : List Glyph}
    (h : walk.Passes text found walk')
    (h' : walk'.Passes text' found' walk'') :
    walk.Passes (text ++ text') (found ++ found') walk'' := by
  intro rest
  rw [List.append_assoc, h, h', List.append_assoc]

theorem Passes.glyphs_eq
    {walk walk' : Walk} {text : Text} {found : List Glyph}
    (h : walk.Passes text found walk') : walk.glyphs text = found := by
  simpa [glyphs] using h []

/-- Whether a character matters to the state of a walk. -/
def isTurn (c : Char) : Bool :=
  c = '\\' || c = '(' || c = '[' || c = ')' || c = ']'

theorem passes_of_not_isTurn
    {c : Char} (h : isTurn c = false) (depth : Nat) :
    Passes ⟨depth, 0⟩ [c] [⟨c, depth = 0⟩] ⟨depth, 0⟩ := by
  simp only [isTurn, Bool.or_eq_false_iff, decide_eq_false_iff_not] at h
  obtain ⟨⟨⟨⟨hslash, hround⟩, hsquare⟩, hround'⟩, hsquare'⟩ := h
  intro rest
  simp [glyphs, step, hslash, hround, hsquare, hround', hsquare']

/-- Nothing is exposed in brackets. -/
theorem passes_inner
    {text : Text} (h : ∀ c ∈ text, isTurn c = false) (depth : Nat) :
    Passes ⟨depth + 1, 0⟩ text (text.map (fun c => ⟨c, false⟩))
      ⟨depth + 1, 0⟩ := by
  induction text with
  | nil =>
      intro rest
      rfl
  | cons c text ih =>
      have hc : isTurn c = false := h c (by simp)
      have hfirst := passes_of_not_isTurn hc (depth + 1)
      have hrest := ih (fun d hd => h d (by simp [hd]))
      exact hfirst.append hrest

/-- Of a text in brackets only the opening bracket is exposed. -/
theorem passes_bracketed
    {left right : Char} (hleft : left = '(' ∨ left = '[')
    (hright : right = ')' ∨ right = ']')
    {text : Text} (h : ∀ c ∈ text, isTurn c = false) :
    start.Passes ([left] ++ text ++ [right])
      ([⟨left, true⟩] ++ text.map (fun c => ⟨c, false⟩) ++ [⟨right, false⟩])
      start := by
  have hopen : start.Passes [left] [⟨left, true⟩] ⟨1, 0⟩ := by
    intro rest
    rcases hleft with rfl | rfl <;> rfl
  have hclose : Passes ⟨1, 0⟩ [right] [⟨right, false⟩] start := by
    intro rest
    rcases hright with rfl | rfl <;> rfl
  exact (hopen.append (passes_inner h 0)).append hclose

theorem glyphs_skip (depth : Nat) (tail rest : Text) :
    glyphs ⟨depth, tail.length⟩ (tail ++ rest) =
      tail.map (fun c => ⟨c, false⟩) ++ glyphs ⟨depth, 0⟩ rest := by
  induction tail with
  | nil =>
      rfl
  | cons c tail ih =>
      rw [List.cons_append, glyphs, List.length_cons]
      simp only [step, ih]
      rfl

/-- Nothing is exposed in an escape that does not grow. -/
theorem passes_escape
    {tail : Text} (h : ∀ rest, escapeTail (tail ++ rest) = tail) :
    start.Passes ('\\' :: tail) (('\\' :: tail).map (fun c => ⟨c, false⟩))
      start := by
  intro rest
  have hskip := glyphs_skip 0 tail rest
  rw [List.cons_append, glyphs]
  simp only [start, step, h, if_true]
  rw [hskip]
  rfl

end Passing

end Walk

section Closed

/-- A walk leaves the text where it began, whatever follows. -/
def Closed (text : Text) : Prop :=
  ∀ rest, Walk.start.glyphs (text ++ rest) =
    Walk.start.glyphs text ++ Walk.start.glyphs rest

theorem Walk.Passes.closed
    {text : Text} {found : List Glyph}
    (h : Walk.start.Passes text found Walk.start) : Closed text := by
  intro rest
  rw [h, h.glyphs_eq]

theorem closed_nil : Closed [] := by
  intro rest
  rfl

theorem Closed.append {text text' : Text} (h : Closed text) (h' : Closed text') :
    Closed (text ++ text') := by
  intro rest
  rw [List.append_assoc, h, h', h, List.append_assoc]

/-- Outside of brackets and escapes, a character stands for itself. -/
theorem glyphs_cons {c : Char} (h : Walk.isTurn c = false) (rest : Text) :
    Walk.start.glyphs (c :: rest) = ⟨c, true⟩ :: Walk.start.glyphs rest :=
  Walk.passes_of_not_isTurn h 0 rest

theorem closed_singleton {c : Char} (h : Walk.isTurn c = false) : Closed [c] :=
  (Walk.passes_of_not_isTurn h 0).closed

theorem closed_of_forall {text : Text} (h : ∀ c ∈ text, Walk.isTurn c = false) :
    Closed text := by
  induction text with
  | nil =>
      exact closed_nil
  | cons c text ih =>
      have hc : Closed [c] := closed_singleton (h c (by simp))
      exact hc.append (ih (fun d hd => h d (by simp [hd])))

theorem glyphs_flatten_append
    {texts : List Text} (h : ∀ text ∈ texts, Closed text) (rest : Text) :
    Walk.start.glyphs (texts.flatten ++ rest) =
      (texts.map Walk.start.glyphs).flatten ++ Walk.start.glyphs rest := by
  induction texts with
  | nil =>
      rfl
  | cons text texts ih =>
      have htext : Closed text := h text (by simp)
      have htexts := ih (fun d hd => h d (by simp [hd]))
      rw [List.flatten_cons, List.append_assoc, htext, htexts]
      simp

end Closed

section Hiding

variable {p : Char → Bool}

/-- No exposed character of a text satisfies a condition. -/
def Hides (p : Char → Bool) (text : Text) : Prop :=
  ∀ glyph ∈ Walk.start.glyphs text, glyph.shows p = false

theorem hides_nil : Hides p [] := by
  intro glyph hglyph
  cases hglyph

theorem Hides.append
    {text text' : Text} (hclosed : Closed text)
    (h : Hides p text) (h' : Hides p text') : Hides p (text ++ text') := by
  intro glyph hglyph
  rw [hclosed, List.mem_append] at hglyph
  rcases hglyph with hglyph | hglyph
  · exact h glyph hglyph
  · exact h' glyph hglyph

/-- What is hidden in a text is hidden in what it begins with. -/
theorem Hides.left {text rest : Text} (h : Hides p (text ++ rest)) :
    Hides p text := by
  intro glyph hglyph
  exact h glyph (Walk.mem_glyphs_append hglyph rest)

/-- Behind a text there may be anything that does not satisfy the condition. -/
theorem Hides.append_of_forall
    {text back : Text} (h : Hides p text) (hback : ∀ c ∈ back, p c = false) :
    Hides p (text ++ back) := by
  have htake := Walk.glyphs_take_append Walk.start text back
  have hdrop : ∀ glyph ∈ (Walk.start.glyphs (text ++ back)).drop text.length,
      glyph.char ∈ back := by
    intro glyph hglyph
    have hmem := List.mem_map_of_mem (f := Glyph.char) hglyph
    rwa [List.map_drop, Walk.map_char_glyphs, List.drop_left] at hmem
  intro glyph hglyph
  rw [← List.take_append_drop text.length (Walk.start.glyphs (text ++ back)),
    List.mem_append, htake] at hglyph
  rcases hglyph with hglyph | hglyph
  · exact h glyph hglyph
  · simp [Glyph.shows, hback glyph.char (hdrop glyph hglyph)]

theorem hides_of_found
    {text : Text} {found : List Glyph}
    (hfound : Walk.start.Passes text found Walk.start)
    (h : ∀ glyph ∈ found, glyph.exposed = true → p glyph.char = false) :
    Hides p text := by
  intro glyph hglyph
  rw [hfound.glyphs_eq] at hglyph
  cases hexposed : glyph.exposed with
  | false =>
      simp [Glyph.shows, hexposed]
  | true =>
      simp [Glyph.shows, h glyph hglyph hexposed]

theorem hides_cons
    {c : Char} (hturn : Walk.isTurn c = false) (hc : p c = false)
    {rest : Text} (h : Hides p rest) : Hides p (c :: rest) := by
  intro glyph hglyph
  rw [glyphs_cons hturn] at hglyph
  rcases List.mem_cons.mp hglyph with rfl | hglyph
  · simp [Glyph.shows, hc]
  · exact h glyph hglyph

theorem hides_of_forall
    {text : Text} (h : ∀ c ∈ text, Walk.isTurn c = false ∧ p c = false) :
    Hides p text := by
  induction text with
  | nil =>
      exact hides_nil
  | cons c text ih =>
      obtain ⟨hturn, hc⟩ := h c (by simp)
      exact hides_cons hturn hc (ih (fun d hd => h d (by simp [hd])))

/-- In brackets only the opening one can be seen. -/
theorem hides_bracketed
    {left right : Char} (hleft : left = '(' ∨ left = '[')
    (hright : right = ')' ∨ right = ']')
    {text : Text} (h : ∀ c ∈ text, Walk.isTurn c = false)
    (hp : p left = false) : Hides p ([left] ++ text ++ [right]) := by
  refine hides_of_found (Walk.passes_bracketed hleft hright h) ?_
  intro glyph hglyph hexposed
  simp only [List.mem_append, List.mem_singleton, List.mem_map] at hglyph
  rcases hglyph with (rfl | ⟨c, -, rfl⟩) | rfl
  · exact hp
  · cases hexposed
  · cases hexposed

end Hiding

section Cutting

variable {p : Char → Bool}

theorem splitExposed_of_hides {text : Text} (h : Hides p text) :
    splitExposed p text = [text] := by
  rw [splitExposed, splitWhere_of_forall_not h, List.map_singleton,
    Walk.map_char_glyphs]

/-- An exposed separator ends the text in front of it. -/
theorem splitExposed_append_cons
    {text : Text} (hclosed : Closed text) (h : Hides p text)
    {c : Char} (hturn : Walk.isTurn c = false) (hc : p c = true)
    (rest : Text) :
    splitExposed p (text ++ c :: rest) = text :: splitExposed p rest := by
  have hmark : Glyph.shows p ⟨c, true⟩ = true := by
    simp [Glyph.shows, hc]
  rw [splitExposed, hclosed, glyphs_cons hturn,
    splitWhere_append_cons h hmark, List.map_cons, Walk.map_char_glyphs]
  rfl

theorem cutExposed_of_hides {text : Text} (h : Hides p text) :
    cutExposed p text = [text] := by
  have hnone : ∀ part ∈ ([] : List (List Glyph)),
      Marked (Glyph.shows p) part := by
    simp
  have hcut := cutWhere_append_flatten h hnone
  rw [List.flatten_nil, List.append_nil] at hcut
  rw [cutExposed, hcut, List.map_singleton, Walk.map_char_glyphs]

/-- A text that begins at an exposed mark and shows no other. -/
def Begins (p : Char → Bool) (text : Text) : Prop :=
  Marked (Glyph.shows p) (Walk.start.glyphs text)

theorem begins_cons
    {c : Char} (hturn : Walk.isTurn c = false) (hc : p c = true)
    {rest : Text} (h : Hides p rest) : Begins p (c :: rest) := by
  refine ⟨⟨c, true⟩, Walk.start.glyphs rest, glyphs_cons hturn rest, ?_, h⟩
  simp [Glyph.shows, hc]

theorem begins_bracketed
    {left right : Char} (hleft : left = '(' ∨ left = '[')
    (hright : right = ')' ∨ right = ']')
    {text : Text} (h : ∀ c ∈ text, Walk.isTurn c = false)
    (hp : p left = true) : Begins p ([left] ++ text ++ [right]) := by
  have hfound := (Walk.passes_bracketed hleft hright h).glyphs_eq
  refine ⟨_, _, hfound, ?_, ?_⟩
  · simp [Glyph.shows, hp]
  · intro glyph hglyph
    rcases List.mem_append.mp hglyph with hglyph | hglyph
    · obtain ⟨c, -, rfl⟩ := List.mem_map.mp hglyph
      rfl
    · rw [List.mem_singleton.mp hglyph]
      rfl

theorem Begins.append
    {text rest : Text} (hclosed : Closed text)
    (h : Begins p text) (hrest : Hides p rest) : Begins p (text ++ rest) := by
  obtain ⟨mark, found, heq, hmark, hfound⟩ := h
  refine ⟨mark, found ++ Walk.start.glyphs rest, ?_, hmark, ?_⟩
  · rw [hclosed, heq]
    rfl
  · intro glyph hglyph
    rcases List.mem_append.mp hglyph with hglyph | hglyph
    · exact hfound glyph hglyph
    · exact hrest glyph hglyph

theorem Begins.left
    {text rest : Text} (h : Begins p (text ++ rest)) (htext : text ≠ []) :
    Begins p text := by
  obtain ⟨mark, found, heq, hmark, hfound⟩ := h
  cases text with
  | nil =>
      exact absurd rfl htext
  | cons c text =>
      have htake := Walk.glyphs_take_append Walk.start (c :: text) rest
      rw [heq, List.length_cons, List.take_succ_cons] at htake
      refine ⟨mark, found.take text.length, htake.symm, hmark, ?_⟩
      intro glyph hglyph
      exact hfound glyph (List.mem_of_mem_take hglyph)

/-- Cutting gives back closed texts that begin at marks. -/
theorem cutExposed_append
    {front last : Text} {texts : List Text}
    (hclosed : Closed front) (hfront : Hides p front)
    (htexts : ∀ text ∈ texts, Closed text ∧ Begins p text)
    (hlast : Begins p last) :
    cutExposed p (front ++ (texts.flatten ++ last)) =
      front :: (texts ++ [last]) := by
  have hglyphs : Walk.start.glyphs (front ++ (texts.flatten ++ last)) =
      Walk.start.glyphs front ++
        ((texts ++ [last]).map Walk.start.glyphs).flatten := by
    rw [hclosed,
      glyphs_flatten_append (fun text htext => (htexts text htext).1)]
    simp
  have hparts : ∀ part ∈ (texts ++ [last]).map Walk.start.glyphs,
      Marked (Glyph.shows p) part := by
    intro part hpart
    obtain ⟨text, htext, rfl⟩ := List.mem_map.mp hpart
    rcases List.mem_append.mp htext with htext | htext
    · exact (htexts text htext).2
    · rw [List.mem_singleton.mp htext]
      exact hlast
  have hchars : (fun text : Text =>
      (Walk.start.glyphs text).map Glyph.char) = id := by
    funext text
    exact Walk.map_char_glyphs Walk.start text
  rw [cutExposed, hglyphs, cutWhere_append_flatten hfront hparts,
    List.map_cons, Walk.map_char_glyphs, List.map_map]
  simp [Function.comp_def, hchars]

theorem breakExposed_of_hides {text : Text} (h : Hides p text) :
    breakExposed p text = (text, []) := by
  have hall : (Walk.start.glyphs text).takeWhile
      (fun glyph => !glyph.shows p) = Walk.start.glyphs text := by
    have hkeep : ∀ glyph ∈ Walk.start.glyphs text,
        (!glyph.shows p) = true := by
      intro glyph hglyph
      simp [h glyph hglyph]
    have htake := @List.takeWhile_append_of_pos _ _ _ [] hkeep
    rwa [List.append_nil, List.takeWhile_nil, List.append_nil] at htake
  have hlength : (Walk.start.glyphs text).length = text.length := by
    simpa using congrArg List.length (Walk.map_char_glyphs Walk.start text)
  simp only [breakExposed, hall, Walk.map_char_glyphs, hlength,
    List.drop_length]

/-- A text is broken at the first mark that is exposed. -/
theorem breakExposed_append_cons
    {text : Text} (hclosed : Closed text) (h : Hides p text)
    {c : Char} (hturn : Walk.isTurn c = false) (hc : p c = true)
    (rest : Text) :
    breakExposed p (text ++ c :: rest) = (text, c :: rest) := by
  have hmark : Glyph.shows p ⟨c, true⟩ = true := by
    simp [Glyph.shows, hc]
  have hfront : (Walk.start.glyphs (text ++ c :: rest)).takeWhile
      (fun glyph => !glyph.shows p) = Walk.start.glyphs text := by
    rw [hclosed, glyphs_cons hturn, List.takeWhile_append_of_pos]
    · simp [hmark]
    · intro glyph hglyph
      simp [h glyph hglyph]
  have hlength : (Walk.start.glyphs text).length = text.length := by
    simpa using congrArg List.length (Walk.map_char_glyphs Walk.start text)
  simp only [breakExposed, hfront, Walk.map_char_glyphs, hlength,
    List.drop_left]

end Cutting

end StylesheetPruning
