import Mathlib.Data.Bool.AllAny
import StylesheetPruning.Proofs.Selector.Pieces
import StylesheetPruning.Proofs.Stylesheet.Block

/-!
# Serialization of identifiers

`serialize` writes a name as an identifier. Control characters and a digit
that would begin the identifier, also behind a leading hyphen, are written as
code points; a hyphen alone and all other ASCII characters that a name may not
hold are written behind a backslash.

**Readers.** Every reader of selectors and stylesheets has its own idea of an
escape. `Spells` says how an identifier spells a name, and each reader is
taken through it by induction.

**Results.**
* `spells_serialize`: the serialization of a name spells it.
* `Spells.closed`, `Spells.hides`: no character of it is read as a separator.
* `Spells.coded`: it opens neither a comment nor a string.
* `Spells.resolveEscapes_eq`, `Spells.resolveEscapes_trimEnd`: it stands for
  the name, also when the space that ends its last escape is missing.
-/

namespace StylesheetPruning

section Serialization

/-- The characters that an identifier holds as they are. -/
def isNameChar (c : Char) : Bool :=
  0x80 ≤ c.toNat || c = '-' || c = '_' || c.isAlphanum

/-- The control characters of ASCII. -/
def isControl (c : Char) : Bool :=
  c.toNat ≤ 0x1F || c.toNat = 0x7F

/-- A character by its code point, with the space that ends the escape. -/
def codeEscape (c : Char) : Text :=
  '\\' :: (Nat.toDigits 16 c.toNat ++ [' '])

/-- A character inside an identifier. -/
def serializeChar (c : Char) : Text :=
  if c = '\x00' then [replacementChar]
  else if isControl c then codeEscape c
  else if isNameChar c then [c]
  else ['\\', c]

/-- A character where no digit may stand. -/
def serializeLead (c : Char) : Text :=
  if c.isDigit then codeEscape c else serializeChar c

/-- The identifier that stands for a name. -/
def serialize : Text → Text
  | [] => []
  | ['-'] => ['\\', '-']
  | '-' :: c :: rest => '-' :: (serializeLead c ++ rest.flatMap serializeChar)
  | c :: rest => serializeLead c ++ rest.flatMap serializeChar

/-- How an identifier spells a name. -/
inductive Spells : Text → Text → Prop
  | nil : Spells [] []
  | plain {c : Char} {text name : Text} (h : isNameChar c = true) :
      Spells text name → Spells (c :: text) (c :: name)
  | literal {c : Char} {text name : Text}
      (hhex : isHexDigit c = false) (hspace : isSpace c = false) :
      Spells text name → Spells ('\\' :: c :: text) (c :: name)
  | code {c : Char} {digits text name : Text}
      (hne : digits ≠ []) (hlength : digits.length ≤ 6)
      (hdigits : ∀ d ∈ digits, isHexDigit d = true)
      (hvalue : charOfCodePoint (ofDigits 16 digits) = c)
      (hkind : isControl c = true ∨ isNameChar c = true) :
      Spells text name → Spells ('\\' :: (digits ++ ' ' :: text)) (c :: name)

theorem charOfCodePoint_toNat (c : Char) : charOfCodePoint c.toNat = c := by
  have hvalid : c.toNat.isValidChar := c.valid
  rw [charOfCodePoint, if_pos hvalid, Char.ofNat_toNat]

/-- The digits of the code points of ASCII. -/
theorem toDigits_of_lt {n : Nat} (h : n < 128) :
    Nat.toDigits 16 n ≠ [] ∧ (Nat.toDigits 16 n).length ≤ 6 ∧
      (∀ d ∈ Nat.toDigits 16 n, isHexDigit d = true) ∧
      ofDigits 16 (Nat.toDigits 16 n) = n := by
  have hchecked : ∀ n < 128,
      Nat.toDigits 16 n ≠ [] ∧ (Nat.toDigits 16 n).length ≤ 6 ∧
        (Nat.toDigits 16 n).all isHexDigit = true ∧
        ofDigits 16 (Nat.toDigits 16 n) = n := by
    decide +kernel
  obtain ⟨hne, hlength, hdigits, hvalue⟩ := hchecked n h
  exact ⟨hne, hlength, List.all_eq_true.mp hdigits, hvalue⟩

theorem Spells.codeEscape_append
    {text name : Text} (h : Spells text name) {c : Char} (hc : c.toNat < 128)
    (hkind : isControl c = true ∨ isNameChar c = true) :
    Spells (codeEscape c ++ text) (c :: name) := by
  obtain ⟨hne, hlength, hdigits, hvalue⟩ := toDigits_of_lt hc
  have hcode := Spells.code hne hlength hdigits
    (by rw [hvalue, charOfCodePoint_toNat]) hkind h
  simpa [codeEscape] using hcode

/-- Whether an identifier can spell a character. -/
def isSpelled (c : Char) : Bool :=
  c ≠ '\x00' && c ≠ ' '

theorem lt_of_isControl {c : Char} (h : isControl c = true) : c.toNat < 128 := by
  simp only [isControl, Bool.or_eq_true, decide_eq_true_eq] at h
  omega

theorem lt_of_isDigit {c : Char} (h : c.isDigit = true) : c.toNat < 128 := by
  have hrange := isDigit_iff.mp h
  omega

/-- Hexadecimal digits can stand in an identifier. -/
theorem isNameChar_of_isHexDigit {c : Char} (h : isHexDigit c = true) :
    isNameChar c = true := by
  have hupper : 'A' ≤ c → c ≤ 'F' → c.isUpper = true := by
    intro hlow hhigh
    have hhigh' : c ≤ 'Z' := Char.le_trans hhigh (by decide)
    exact decide_eq_true ⟨hlow, hhigh'⟩
  have hlower : 'a' ≤ c → c ≤ 'f' → c.isLower = true := by
    intro hlow hhigh
    have hhigh' : c ≤ 'z' := Char.le_trans hhigh (by decide)
    exact Bool.and_eq_true_iff.mpr ⟨decide_eq_true hlow, decide_eq_true hhigh'⟩
  have halphanum : c.isUpper = true ∨ c.isLower = true ∨ c.isDigit = true →
      isNameChar c = true := by
    rintro (hc | hc | hc)
    · have halpha : c.isAlpha = true := Bool.or_eq_true_iff.mpr (.inl hc)
      simp [isNameChar, Char.isAlphanum, halpha]
    · have halpha : c.isAlpha = true := Bool.or_eq_true_iff.mpr (.inr hc)
      simp [isNameChar, Char.isAlphanum, halpha]
    · simp [isNameChar, Char.isAlphanum, hc]
  simp only [isHexDigit, Bool.or_eq_true, Bool.and_eq_true,
    decide_eq_true_eq] at h
  rcases h with (hdigit | ⟨hlow, hhigh⟩) | ⟨hlow, hhigh⟩
  · exact halphanum (.inr (.inr hdigit))
  · exact halphanum (.inr (.inl (hlower hlow hhigh)))
  · exact halphanum (.inl (hupper hlow hhigh))

/-- The only character of ASCII whitespace that is no control is the space. -/
theorem isSpace_eq_false
    {c : Char} (hcontrol : isControl c = false) (hc : c ≠ ' ') :
    isSpace c = false := by
  rw [Bool.eq_false_iff]
  intro hspace
  simp only [isSpace, Bool.or_eq_true, decide_eq_true_eq] at hspace
  rcases hspace with (((rfl | rfl) | rfl) | rfl) | rfl
  · exact hc rfl
  all_goals
    exact absurd hcontrol (by decide)

theorem Spells.serializeChar_append
    {text name : Text} (h : Spells text name)
    {c : Char} (hc : isSpelled c = true) :
    Spells (serializeChar c ++ text) (c :: name) := by
  obtain ⟨hnul, hspace⟩ : c ≠ '\x00' ∧ c ≠ ' ' := by
    simpa [isSpelled] using hc
  rw [serializeChar, if_neg hnul]
  split
  · next hcontrol =>
      exact h.codeEscape_append (lt_of_isControl hcontrol) (.inl hcontrol)
  · next hcontrol =>
      split
      · next hname =>
          exact .plain hname h
      · next hname =>
          refine .literal ?_ ?_ h
          · rw [Bool.eq_false_iff]
            exact fun hhex => hname (isNameChar_of_isHexDigit hhex)
          · exact isSpace_eq_false (by simpa using hcontrol) hspace

theorem Spells.serializeLead_append
    {text name : Text} (h : Spells text name)
    {c : Char} (hc : isSpelled c = true) :
    Spells (serializeLead c ++ text) (c :: name) := by
  rw [serializeLead]
  split
  · next hdigit =>
      have hname : isNameChar c = true := by
        simp [isNameChar, Char.isAlphanum, hdigit]
      exact h.codeEscape_append (lt_of_isDigit hdigit) (.inr hname)
  · exact h.serializeChar_append hc

theorem spells_flatMap_serializeChar
    {name : Text} (h : ∀ c ∈ name, isSpelled c = true) :
    Spells (name.flatMap serializeChar) name := by
  induction name with
  | nil =>
      exact .nil
  | cons c name ih =>
      rw [List.flatMap_cons]
      exact (ih (fun d hd => h d (by simp [hd]))).serializeChar_append
        (h c (by simp))

/-- The serialization of a name spells it. -/
theorem spells_serialize
    {name : Text} (h : ∀ c ∈ name, isSpelled c = true) :
    Spells (serialize name) name := by
  fun_cases serialize name with
  | case1 =>
      exact .nil
  | case2 =>
      exact .literal rfl rfl .nil
  | case3 c rest =>
      have hrest : Spells (rest.flatMap serializeChar) rest :=
        spells_flatMap_serializeChar (fun d hd => h d (by simp [hd]))
      exact .plain rfl (hrest.serializeLead_append (h c (by simp)))
  | case4 c rest =>
      have hrest : Spells (rest.flatMap serializeChar) rest :=
        spells_flatMap_serializeChar (fun d hd => h d (by simp [hd]))
      exact hrest.serializeLead_append (h c (by simp))

end Serialization

section Characters

/-- What cannot stand in an identifier is written where the name has it. -/
theorem Spells.mem_iff
    {text name : Text} (h : Spells text name)
    {d : Char} (hname : isNameChar d = false) (hcontrol : isControl d = false)
    (hslash : d ≠ '\\') (hspace : d ≠ ' ') : d ∈ text ↔ d ∈ name := by
  induction h with
  | nil =>
      rfl
  | plain _ _ ih =>
      simp [ih]
  | literal _ _ _ ih =>
      simp [ih, hslash]
  | @code c digits text name hne hlength hdigits hvalue hkind _ ih =>
      have hc : d ≠ c := by
        rintro rfl
        rcases hkind with hkind | hkind
        · exact absurd hkind (by simp [hcontrol])
        · exact absurd hkind (by simp [hname])
      have hdigit : d ∉ digits := by
        intro hd
        exact absurd (isNameChar_of_isHexDigit (hdigits d hd)) (by simp [hname])
      simp [ih, hslash, hspace, hc, hdigit]

/-- No line break is written as it is. -/
theorem Spells.isLineBreak_eq_false
    {text name : Text} (h : Spells text name) :
    ∀ d ∈ text, isLineBreak d = false := by
  have hname : ∀ d, isNameChar d = true → isLineBreak d = false := by
    intro d hd
    rw [Bool.eq_false_iff]
    intro hbreak
    simp only [isLineBreak, Bool.or_eq_true, decide_eq_true_eq] at hbreak
    rcases hbreak with rfl | rfl <;> exact absurd hd (by decide)
  induction h with
  | nil =>
      simp
  | plain hc _ ih =>
      exact List.forall_mem_cons.mpr ⟨hname _ hc, ih⟩
  | @literal c text name _ hspace _ ih =>
      have hc : isLineBreak c = false := by
        rw [Bool.eq_false_iff]
        intro hbreak
        simp only [isLineBreak, Bool.or_eq_true, decide_eq_true_eq] at hbreak
        rcases hbreak with rfl | rfl <;> exact absurd hspace (by decide)
      exact List.forall_mem_cons.mpr ⟨rfl, List.forall_mem_cons.mpr ⟨hc, ih⟩⟩
  | code _ _ hdigits _ _ _ ih =>
      refine List.forall_mem_cons.mpr ⟨rfl, ?_⟩
      intro d hd
      rcases List.mem_append.mp hd with hd | hd
      · exact hname d (isNameChar_of_isHexDigit (hdigits d hd))
      · rcases List.mem_cons.mp hd with rfl | hd
        · rfl
        · exact ih d hd

end Characters

section Walking

variable {p : Char → Bool}

theorem isTurn_of_isNameChar {c : Char} (h : isNameChar c = true) :
    Walk.isTurn c = false := by
  rw [Bool.eq_false_iff]
  intro hturn
  simp only [Walk.isTurn, Bool.or_eq_true, decide_eq_true_eq] at hturn
  rcases hturn with (((rfl | rfl) | rfl) | rfl) | rfl <;>
    exact absurd h (by decide)

theorem passes_literal {c : Char} (h : isHexDigit c = false) :
    Walk.start.Passes ['\\', c] [⟨'\\', false⟩, ⟨c, false⟩] Walk.start := by
  refine Walk.passes_escape ?_
  intro rest
  rw [List.singleton_append, escapeTail_cons, h]
  rfl

theorem passes_code
    {digits : Text} (hne : digits ≠ []) (hlength : digits.length ≤ 6)
    (hdigits : ∀ d ∈ digits, isHexDigit d = true) :
    Walk.start.Passes ('\\' :: (digits ++ [' ']))
      (('\\' :: (digits ++ [' '])).map (fun c => ⟨c, false⟩)) Walk.start := by
  refine Walk.passes_escape ?_
  intro rest
  cases digits with
  | nil =>
      exact absurd rfl hne
  | cons d digits =>
      have hd : isHexDigit d = true := hdigits d (by simp)
      have hle : digits.length ≤ 5 := by
        rw [List.length_cons] at hlength
        omega
      have htail := hexTail_append_space hle
        (fun c hc => hdigits c (List.mem_cons_of_mem d hc)) rest
      rw [List.append_assoc, List.singleton_append, List.cons_append,
        escapeTail_cons, if_pos hd, htail]
      rfl

/-- No character of an identifier is read as a separator. -/
theorem Spells.closed_hides
    {text name : Text} (h : Spells text name)
    (hp : ∀ c, isNameChar c = true → p c = false) :
    Closed text ∧ Hides p text := by
  induction h with
  | nil =>
      exact ⟨closed_nil, hides_nil⟩
  | plain hname _ ih =>
      have hturn := isTurn_of_isNameChar hname
      exact ⟨(closed_singleton hturn).append ih.1,
        hides_cons hturn (hp _ hname) ih.2⟩
  | literal hhex _ _ ih =>
      have hpasses := passes_literal hhex
      have hhides : Hides p ['\\', _] :=
        hides_of_found hpasses (by simp)
      exact ⟨hpasses.closed.append ih.1, hhides.append hpasses.closed ih.2⟩
  | @code c digits text name hne hlength hdigits _ _ _ ih =>
      have hpasses := passes_code hne hlength hdigits
      have hhides : Hides p ('\\' :: (digits ++ [' '])) := by
        refine hides_of_found hpasses ?_
        intro glyph hglyph hexposed
        obtain ⟨d, -, rfl⟩ := List.mem_map.mp hglyph
        cases hexposed
      have htext : '\\' :: (digits ++ ' ' :: text) =
          '\\' :: (digits ++ [' ']) ++ text := by
        simp
      rw [htext]
      exact ⟨hpasses.closed.append ih.1, hhides.append hpasses.closed ih.2⟩

theorem Spells.closed {text name : Text} (h : Spells text name) : Closed text :=
  (@closed_hides (fun _ => false) text name h (fun _ _ => rfl)).1

theorem Spells.hides
    {text name : Text} (h : Spells text name)
    (hp : ∀ c, isNameChar c = true → p c = false) : Hides p text :=
  (h.closed_hides hp).2

end Walking

section Lexing

theorem lexingIsTurn_of_isNameChar {c : Char} (h : isNameChar c = true) :
    Lexing.isTurn c = false := by
  rw [Bool.eq_false_iff]
  intro hturn
  simp only [Lexing.isTurn, Lexing.isQuote, Bool.or_eq_true,
    decide_eq_true_eq] at hturn
  rcases hturn with (rfl | rfl | rfl) | rfl <;> exact absurd h (by decide)

/-- An identifier opens neither a comment nor a string. -/
theorem Spells.coded {text name : Text} (h : Spells text name) : Coded text := by
  induction h with
  | nil =>
      exact coded_nil
  | plain hname _ ih =>
      exact (coded_singleton (lexingIsTurn_of_isNameChar hname)).append ih
  | literal _ _ _ ih =>
      exact (coded_escape _).append ih
  | @code c digits text name hne hlength hdigits _ _ _ ih =>
      cases digits with
      | nil =>
          exact absurd rfl hne
      | cons d digits =>
          have hrest : Coded digits := by
            refine coded_of_forall ?_
            intro c hc
            exact lexingIsTurn_of_isNameChar
              (isNameChar_of_isHexDigit (hdigits c (by simp [hc])))
          have hspace : Coded [' '] := coded_singleton rfl
          have hcoded := (coded_escape d).append
            (hrest.append (hspace.append ih))
          simpa using hcoded

end Lexing

section Resolving

/-- Up to six digits are added to the value of an escape. -/
theorem run_digits
    {value count : Nat} {digits : Text} (hlength : count + digits.length ≤ 6)
    (hdigits : ∀ d ∈ digits, isHexDigit d = true) (rest : Text) :
    (Resolving.digits value count).run (digits ++ rest) =
      (Resolving.digits
        (digits.foldl (fun value c => value * 16 + hexValue c) value)
        (count + digits.length)).run rest := by
  induction digits generalizing value count with
  | nil =>
      rfl
  | cons d digits ih =>
      have hd : isHexDigit d = true := hdigits d (by simp)
      rw [List.length_cons] at hlength
      have hstep : (Resolving.digits value count).step d =
          (.digits (value * 16 + hexValue d) (count + 1), []) := by
        rw [Resolving.step, if_pos ⟨by omega, hd⟩]
      have hrest := @ih (value * 16 + hexValue d) (count + 1) (by omega)
        (fun c hc => hdigits c (by simp [hc]))
      have hcount : count + 1 + digits.length =
          count + (d :: digits).length := by
        rw [List.length_cons]
        omega
      simp only [List.cons_append, Resolving.run, hstep, hrest, hcount,
        List.nil_append, List.foldl_cons]

/-- A space ends the digits of an escape. -/
theorem run_digits_space (value count : Nat) (rest : Text) :
    (Resolving.digits value count).run (' ' :: rest) =
      charOfCodePoint value :: Resolving.plain.run rest := by
  have hspace : ¬ (count < 6 ∧ isHexDigit ' ' = true) :=
    fun h => absurd h.2 (by decide)
  have hstep : (Resolving.digits value count).step ' ' =
      (.plain, [charOfCodePoint value]) := by
    rw [Resolving.step, if_neg hspace]
    rfl
  simp only [Resolving.run, hstep, List.singleton_append]

theorem run_opened_cons {d : Char} (h : isHexDigit d = true) (rest : Text) :
    Resolving.plain.run ('\\' :: d :: rest) =
      (Resolving.digits (0 * 16 + hexValue d) 1).run rest := by
  simp [Resolving.run, Resolving.step, Resolving.stepPlain, h]

theorem run_literal {c : Char} (h : isHexDigit c = false) (rest : Text) :
    Resolving.plain.run ('\\' :: c :: rest) =
      c :: Resolving.plain.run rest := by
  simp [Resolving.run, Resolving.step, Resolving.stepPlain, h]

theorem run_plain {c : Char} (h : c ≠ '\\') (rest : Text) :
    Resolving.plain.run (c :: rest) = c :: Resolving.plain.run rest := by
  simp [Resolving.run, Resolving.step, Resolving.stepPlain, h]

theorem run_code
    {digits : Text} (hne : digits ≠ []) (hlength : digits.length ≤ 6)
    (hdigits : ∀ d ∈ digits, isHexDigit d = true) :
    Resolving.plain.run ('\\' :: digits) =
        [charOfCodePoint (ofDigits 16 digits)] ∧
      ∀ rest, Resolving.plain.run ('\\' :: (digits ++ ' ' :: rest)) =
        charOfCodePoint (ofDigits 16 digits) :: Resolving.plain.run rest := by
  cases digits with
  | nil =>
      exact absurd rfl hne
  | cons d digits =>
      have hd : isHexDigit d = true := hdigits d (by simp)
      have hcount : 1 + digits.length ≤ 6 := by
        rw [List.length_cons] at hlength
        omega
      have hrest : ∀ c ∈ digits, isHexDigit c = true :=
        fun c hc => hdigits c (by simp [hc])
      constructor
      · have hrun :=
          @run_digits (0 * 16 + hexValue d) 1 digits hcount hrest []
        rw [List.append_nil] at hrun
        rw [run_opened_cons hd, hrun]
        rfl
      · intro rest
        rw [List.cons_append, run_opened_cons hd, run_digits hcount hrest,
          run_digits_space]
        rfl

theorem ne_backslash_of_isNameChar {c : Char} (h : isNameChar c = true) :
    c ≠ '\\' := by
  rintro rfl
  exact absurd h (by decide)

/-- An identifier stands for the name that it spells. -/
theorem Spells.resolveEscapes_eq {text name : Text} (h : Spells text name) :
    resolveEscapes text = name := by
  rw [resolveEscapes]
  induction h with
  | nil =>
      rfl
  | plain hname _ ih =>
      rw [run_plain (ne_backslash_of_isNameChar hname), ih]
  | literal hhex _ _ ih =>
      rw [run_literal hhex, ih]
  | code hne hlength hdigits hvalue _ _ ih =>
      rw [(run_code hne hlength hdigits).2, ih, hvalue]

theorem isSpace_of_isNameChar {c : Char} (h : isNameChar c = true) :
    isSpace c = false := by
  rw [Bool.eq_false_iff]
  intro hspace
  simp only [isSpace, Bool.or_eq_true, decide_eq_true_eq] at hspace
  rcases hspace with (((rfl | rfl) | rfl) | rfl) | rfl <;>
    exact absurd h (by decide)

theorem Spells.trimEnd_ne_nil
    {text name : Text} (h : Spells text name) (hne : name ≠ []) :
    trimEnd text ≠ [] := by
  cases h with
  | nil =>
      exact absurd rfl hne
  | plain hname _ =>
      rw [trimEnd_cons_of_not_isSpace (isSpace_of_isNameChar hname)]
      simp
  | literal _ _ _ =>
      rw [trimEnd_cons_of_not_isSpace rfl]
      simp
  | code _ _ _ _ _ _ =>
      rw [trimEnd_cons_of_not_isSpace rfl]
      simp

/-- The space that ends the last escape may be missing. -/
theorem Spells.resolveEscapes_trimEnd
    {text name : Text} (h : Spells text name) :
    resolveEscapes (trimEnd text) = name := by
  rw [resolveEscapes]
  induction h with
  | nil =>
      rfl
  | plain hname _ ih =>
      rw [trimEnd_cons_of_not_isSpace (isSpace_of_isNameChar hname),
        run_plain (ne_backslash_of_isNameChar hname), ih]
  | literal hhex hspace _ ih =>
      rw [trimEnd_cons_of_not_isSpace rfl, trimEnd_cons_of_not_isSpace hspace,
        run_literal hhex, ih]
  | @code c digits text name hne hlength hdigits hvalue _ hspells ih =>
      have hrun := run_code hne hlength hdigits
      rw [trimEnd_cons_of_not_isSpace rfl]
      by_cases hname : name = []
      · subst hname
        cases hspells
        have hspace : ∀ d ∈ digits, isSpace d = false :=
          fun d hd => isSpace_of_isHexDigit (hdigits d hd)
        rw [trimEnd_append_of_forall (List.all_iff_forall_prop.mp rfl),
          trimEnd_of_forall hspace,
          hrun.1, hvalue]
      · have htext : trimEnd (digits ++ ' ' :: text) =
            digits ++ ' ' :: trimEnd text := by
          have htail := trimEnd_append (hspells.trimEnd_ne_nil hname)
            (digits ++ [' '])
          simpa using htail
        rw [htext, hrun.2, ih, hvalue]

end Resolving

end StylesheetPruning
