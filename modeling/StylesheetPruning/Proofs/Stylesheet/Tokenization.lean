import StylesheetPruning.Proofs.Stylesheet.TokenImages

/-!
# The masking overwrites tokens

The lexing machine reads characters and looks at the next one. Its cells are
those of the tokens into which the bytes of the stylesheet can be cut, and the
masking is made of the images of these tokens.

**Tokens one by one.** Outside of comments and strings, the machine reads on
to the next place outside of them, or to the end of the text. What it reads on
its way is one token, or one character that escapes and single bytes make up.

**Results.**
* `commentRun`, `stringRun`: how the machine leaves a comment or a string.
* `firstToken`: what the machine does from one token to the next.
* `Masking.ofText_isImage`: the masking of a stylesheet is the image of its
  tokens.
-/

namespace StylesheetPruning

section Comments

theorem closing_infix_cons_iff {c : Char} {text : Text} :
    ['*', '/'] <:+: c :: text ↔
      (c = '*' ∧ text.head? = some '/') ∨ ['*', '/'] <:+: text := by
  rw [List.infix_cons_iff, List.cons_prefix_cons]
  cases text with
  | nil =>
      simp
  | cons d rest =>
      simp [List.cons_prefix_cons, eq_comm]

/-- How the machine leaves a comment, if it does. -/
inductive CommentRun (text : Text) : Prop
  | closed {inside rest : Text} (htext : text = inside ++ '*' :: '/' :: rest)
      (hinside : ¬ ['*', '/'] <:+: inside)
      (hread : annotate .comment text =
        ((annotate .plain rest).1,
          cellsOf .commentBody (inside ++ ['*', '/']) ++
            (annotate .plain rest).2))
  | unclosed (htext : ¬ ['*', '/'] <:+: text)
      (hread : annotate .comment text = (.comment, cellsOf .commentBody text))

/-- From inside a comment the machine goes to the first closing mark. -/
theorem commentRun (text : Text) : CommentRun text := by
  induction text with
  | nil =>
      exact .unclosed (by simp) rfl
  | cons c text ih =>
      by_cases hclose : c = '*' ∧ text.head? = some '/'
      · obtain ⟨rfl, hhead⟩ := hclose
        obtain ⟨rest, rfl⟩ := List.head?_eq_some_iff.mp hhead
        refine @CommentRun.closed _ [] rest rfl (by simp) ?_
        simp [annotate_cons, Lexing.step]
      · have hstep : annotate .comment (c :: text) =
            ((annotate .comment text).1,
              ⟨c, .commentBody⟩ :: (annotate .comment text).2) := by
          simp only [annotate_cons, Lexing.step, if_neg hclose]
        cases ih with
        | @closed inside rest htext hinside hread =>
            subst htext
            refine .closed (List.cons_append ..).symm ?_ ?_
            · rw [closing_infix_cons_iff]
              rintro (⟨rfl, hhead⟩ | h)
              · exact hclose ⟨rfl, by simp [hhead]⟩
              · exact hinside h
            · rw [hstep, hread]
              rfl
        | unclosed htext hread =>
            refine .unclosed ?_ ?_
            · rw [closing_infix_cons_iff]
              rintro (h | h)
              · exact hclose h
              · exact htext h
            · rw [hstep, hread]
              rfl

/-- A closing mark among the bytes is one among the characters. -/
theorem closing_infix_of_bytes
    {text : Text} (h : Token.closingMark <:+: bytes text) :
    ['*', '/'] <:+: text := by
  obtain ⟨before, behind, htext⟩ := h
  have hstar : bytes text =
      before ++ '*'.toUInt8 :: '/'.toUInt8 :: behind := by
    simpa [Token.closingMark] using htext.symm
  obtain ⟨left, rest, rfl, -, hrest⟩ :=
    exists_split_of_bytes (by decide) hstar
  have hslash : rest.head? = some '/' := by
    apply head?_eq_some_of_bytes (by decide)
    rw [hrest]
    rfl
  obtain ⟨right, rfl⟩ := List.head?_eq_some_iff.mp hslash
  exact ⟨left, right, by simp⟩

end Comments

section Characters

variable {b : UInt8} {c : Char}

theorem toNat_lt_of_isLineBreak (h : isLineBreak c = true) : c.toNat < 128 := by
  simp only [isLineBreak, Bool.or_eq_true, decide_eq_true_eq] at h
  rcases h with rfl | rfl <;> decide

theorem toNat_lt_of_isQuote (h : Lexing.isQuote c = true) : c.toNat < 128 := by
  simp only [Lexing.isQuote, Bool.or_eq_true, decide_eq_true_eq] at h
  rcases h with rfl | rfl <;> decide

theorem isQuote_toUInt8 (h : Lexing.isQuote c = true) :
    Token.IsQuote c.toUInt8 := by
  simp only [Lexing.isQuote, Bool.or_eq_true, decide_eq_true_eq] at h
  rcases h with rfl | rfl
  · exact .inl rfl
  · exact .inr rfl

theorem isLineBreak_toUInt8 (h : isLineBreak c = true) :
    Token.IsLineBreak c.toUInt8 := by
  simp only [isLineBreak, Bool.or_eq_true, decide_eq_true_eq] at h
  rcases h with rfl | rfl
  · exact .inl rfl
  · exact .inr rfl

/-- The bytes of a character that ends no line end none. -/
theorem isLineBreak_of_mem
    (hb : b ∈ String.utf8EncodeChar c) (h : Token.IsLineBreak b) :
    isLineBreak c = true := by
  rcases h with rfl | rfl
  · rw [(mem_utf8EncodeChar_iff (by decide)).mp hb]
    rfl
  · rw [(mem_utf8EncodeChar_iff (by decide)).mp hb]
    rfl

theorem isQuote_of_mem
    (hb : b ∈ String.utf8EncodeChar c) (h : Token.IsQuote b) :
    Lexing.isQuote c = true := by
  rcases h with rfl | rfl
  · rw [(mem_utf8EncodeChar_iff (by decide)).mp hb]
    rfl
  · rw [(mem_utf8EncodeChar_iff (by decide)).mp hb]
    rfl

/-- A byte above those of ASCII ends no line. -/
theorem not_isLineBreak_of_le (hb : 128 ≤ b.toNat) : ¬ Token.IsLineBreak b := by
  rintro (h | h)
  · exact ne_toUInt8_of_le (by decide) hb h
  · exact ne_toUInt8_of_le (by decide) hb h

theorem not_isQuote_of_le (hb : 128 ≤ b.toNat) : ¬ Token.IsQuote b := by
  rintro (h | h)
  · exact ne_toUInt8_of_le (by decide) hb h
  · exact ne_toUInt8_of_le (by decide) hb h

end Characters

section Strings

variable {c : Char}

theorem Token.Inside.bytes_append
    {quote : UInt8} {inside others : List UInt8} {ending : Option UInt8}
    (h : Token.Inside quote inside ending)
    (hothers : ∀ b ∈ others,
      b ≠ quote ∧ b ≠ '\\'.toUInt8 ∧ ¬ Token.IsLineBreak b) :
    Token.Inside quote (others ++ inside) ending := by
  induction others with
  | nil =>
      exact h
  | cons b others ih =>
      obtain ⟨⟨hquote, hbackslash, hbreak⟩, hrest⟩ :=
        List.forall_mem_cons.mp hothers
      exact .byte hquote hbackslash hbreak (ih hrest)

/-- A character that neither ends a string nor escapes stands for itself. -/
theorem Token.Inside.cons
    {quote : Char} (hquote : Lexing.isQuote quote = true)
    (hc : ¬ (c = quote ∨ isLineBreak c = true)) (hbackslash : c ≠ '\\')
    {inside : List UInt8} {ending : Option UInt8}
    (h : Token.Inside quote.toUInt8 inside ending) :
    Token.Inside quote.toUInt8 (String.utf8EncodeChar c ++ inside) ending := by
  apply h.bytes_append
  intro b hb
  refine ⟨?_, ?_, ?_⟩
  · rintro rfl
    exact hc (.inl
      ((mem_utf8EncodeChar_iff (toNat_lt_of_isQuote hquote)).mp hb))
  · rintro rfl
    exact hbackslash ((mem_utf8EncodeChar_iff (by decide)).mp hb)
  · intro hbreak
    exact hc (.inr (isLineBreak_of_mem hb hbreak))

/-- A backslash takes the whole character behind it into the string. -/
theorem Token.Inside.cons_pair
    {quote : Char} (hquote : Lexing.isQuote quote = true)
    (hc : isLineBreak c = false)
    {inside : List UInt8} {ending : Option UInt8}
    (h : Token.Inside quote.toUInt8 inside ending) :
    Token.Inside quote.toUInt8
      ('\\'.toUInt8 :: (String.utf8EncodeChar c ++ inside)) ending := by
  obtain ⟨b, others, hbytes, hothers⟩ := exists_utf8EncodeChar_eq_cons c
  rw [hbytes]
  refine .pair ?_ (h.bytes_append ?_)
  · intro hbreak
    have htrue := isLineBreak_of_mem (by rw [hbytes]; simp) hbreak
    rw [hc] at htrue
    cases htrue
  · intro b' hb'
    have hle := hothers b' hb'
    exact ⟨ne_toUInt8_of_le (toNat_lt_of_isQuote hquote) hle,
      ne_toUInt8_of_le (by decide) hle, not_isLineBreak_of_le hle⟩

/-- How the machine leaves a string, if it does. -/
inductive StringRun (quote : Char) (text : Text) : Prop
  | ended {inside rest : Text} {c : Char} (htext : text = inside ++ c :: rest)
      (hc : c.toNat < 128)
      (hinside : Token.Inside quote.toUInt8 (bytes inside) (some c.toUInt8))
      (hread : annotate (.quoted quote) text =
        ((annotate .plain rest).1,
          cellsOf .quoted inside ++ ⟨c, .code⟩ :: (annotate .plain rest).2))
  | unended (hinside : Token.Inside quote.toUInt8 (bytes text) none)
      (hread : annotate (.quoted quote) text =
        (.quoted quote, cellsOf .quoted text))

/-- What stands inside a string may also stand in front. -/
theorem StringRun.append
    {quote : Char} {text : Text} (h : StringRun quote text) (front : Text)
    (hfront : ∀ inside ending, Token.Inside quote.toUInt8 inside ending →
      Token.Inside quote.toUInt8 (bytes front ++ inside) ending)
    (hread : annotate (.quoted quote) (front ++ text) =
      ((annotate (.quoted quote) text).1,
        cellsOf .quoted front ++ (annotate (.quoted quote) text).2)) :
    StringRun quote (front ++ text) := by
  cases h with
  | @ended inside rest c htext hc hinside hrun =>
      subst htext
      refine .ended (List.append_assoc ..).symm hc ?_ ?_
      · rw [bytes_append]
        exact hfront _ _ hinside
      · rw [hread, hrun, cellsOf_append, List.append_assoc]
  | unended hinside hrun =>
      refine .unended ?_ ?_
      · rw [bytes_append]
        exact hfront _ _ hinside
      · rw [hread, hrun, cellsOf_append]

/-- From inside a string the machine goes to the character that ends it. -/
theorem stringRun
    {quote : Char} (hquote : Lexing.isQuote quote = true) (text : Text) :
    StringRun quote text := by
  -- A backslash takes two characters, so the induction is on the length.
  induction hlength : text.length using Nat.strongRecOn generalizing text with
  | ind n ih =>
  cases text with
  | nil =>
      exact .unended (by simpa using .stop (by simp)) rfl
  | cons c text =>
      have hshort : text.length < n := by
        rw [← hlength]
        exact Nat.lt_succ_self _
      by_cases hc : c = quote ∨ isLineBreak c = true
      · have hascii : c.toNat < 128 := by
          rcases hc with rfl | hbreak
          · exact toNat_lt_of_isQuote hquote
          · exact toNat_lt_of_isLineBreak hbreak
        refine @StringRun.ended _ _ [] text c rfl hascii ?_ ?_
        · rw [bytes_nil]
          refine .stop ?_
          rintro b ⟨⟩
          exact hc.imp (congrArg Char.toUInt8) isLineBreak_toUInt8
        · simp only [annotate_cons, Lexing.step, if_pos hc, cellsOf_nil,
            List.nil_append]
      · by_cases hbackslash : c = '\\'
        · subst hbackslash
          have hbyte : String.utf8EncodeChar '\\' = ['\\'.toUInt8] :=
            utf8EncodeChar_of_lt (by decide)
          cases text with
          | nil =>
              refine .unended ?_ ?_
              · simpa [hbyte] using .lone (by simp)
              · simp [annotate_cons, Lexing.step, hc]
          | cons d text =>
              cases hd : isLineBreak d with
              | true =>
                  refine @StringRun.ended _ _ ['\\'] text d rfl
                    (toNat_lt_of_isLineBreak hd) ?_ ?_
                  · have hbreak : ∀ b ∈ some d.toUInt8, Token.IsLineBreak b := by
                      rintro b ⟨⟩
                      exact isLineBreak_toUInt8 hd
                    simpa [hbyte] using .lone hbreak
                  · simp [annotate_cons, Lexing.step, hc, hd]
              | false =>
                  have hrest := ih text.length
                    (Nat.lt_of_succ_lt hshort) text rfl
                  refine hrest.append ['\\', d] ?_ ?_
                  · intro inside ending hinside
                    simpa [hbyte] using hinside.cons_pair hquote hd
                  · simp [annotate_cons, Lexing.step, hc, hd]
        · have hrest := ih text.length hshort text rfl
          refine hrest.append [c] ?_ ?_
          · intro inside ending hinside
            simpa using hinside.cons hquote hc hbackslash
          · simp [annotate_cons, Lexing.step, hc, hbackslash]

end Strings

section FirstToken

/-- How the machine reads a text up to where it stands outside again. -/
inductive FirstToken (css : Text) : Prop
  /-- The text is one token, which lacks its end. -/
  | last {cells : List Cell} {t : Token} {state : Lexing}
      (hread : annotate .plain css = (state, cells))
      (hopen : state.isOpen = true) (hshows : Shows cells [t])
      (hbefore : t.Before []) (hunfinished : t.isUnfinished = true)
  /-- Tokens that have their ends stand in front of the rest. -/
  | more {cells : List Cell} {tokens : List Token} {rest : Text}
      (hne : cells ≠ [])
      (hread : annotate .plain css =
        ((annotate .plain rest).1, cells ++ (annotate .plain rest).2))
      (hshows : Shows cells tokens)
      (hcut : ∀ tail, Cut (bytes rest) tail →
        Cut (bytes (chars cells) ++ bytes rest) (tokens ++ tail))
      (hfinished : ∀ t ∈ tokens, t.isUnfinished = false)

theorem FirstToken.of_before
    {css rest : Text} {cells : List Cell} {t : Token} (hne : cells ≠ [])
    (hread : annotate .plain css =
      ((annotate .plain rest).1, cells ++ (annotate .plain rest).2))
    (hshows : Shows cells [t]) (hbefore : t.Before (bytes rest))
    (hfinished : t.isUnfinished = false) : FirstToken css := by
  refine .more hne hread hshows ?_ (by simpa using hfinished)
  intro tail htail
  rw [hshows.source, List.flatMap_singleton]
  exact .token hbefore htail

theorem firstToken_comment (text : Text) :
    FirstToken ('/' :: '*' :: text) := by
  have hslash : String.utf8EncodeChar '/' = ['/'.toUInt8] :=
    utf8EncodeChar_of_lt (by decide)
  have hstar : String.utf8EncodeChar '*' = ['*'.toUInt8] :=
    utf8EncodeChar_of_lt (by decide)
  have hopen : annotate .plain ('/' :: '*' :: text) =
      ((annotate .comment text).1,
        ⟨'/', .commentStart⟩ :: ⟨'*', .commentBody⟩ ::
          (annotate .comment text).2) := by
    simp [annotate_cons, Lexing.step]
  cases commentRun text with
  | @closed inside rest htext hinside hread =>
      have hshows : Shows
          (⟨'/', .commentStart⟩ ::
            cellsOf .commentBody ('*' :: (inside ++ ['*', '/'])))
          [.comment (bytes inside) true] := by
        apply shows_comment
        · simp [hslash, hstar, Token.bytes, Token.openingMark,
            Token.closingMark]
        · rfl
      have hcells : annotate .plain ('/' :: '*' :: text) =
          ((annotate .plain rest).1,
            (⟨'/', .commentStart⟩ ::
              cellsOf .commentBody ('*' :: (inside ++ ['*', '/']))) ++
                (annotate .plain rest).2) := by
        rw [hopen, hread]
        rfl
      have hmark : ¬ Token.closingMark <:+: bytes inside :=
        fun h => hinside (closing_infix_of_bytes h)
      exact .of_before (by simp) hcells hshows (.closed hmark) rfl
  | unclosed htext hread =>
      have hshows : Shows
          (⟨'/', .commentStart⟩ :: cellsOf .commentBody ('*' :: text))
          [.comment (bytes text) false] := by
        apply shows_comment
        · simp [hslash, hstar, Token.bytes, Token.openingMark]
        · rfl
      have hcells : annotate .plain ('/' :: '*' :: text) =
          (.comment,
            ⟨'/', .commentStart⟩ :: cellsOf .commentBody ('*' :: text)) := by
        rw [hopen, hread]
        rfl
      have hmark : ¬ Token.closingMark <:+: bytes text :=
        fun h => htext (closing_infix_of_bytes h)
      exact .last hcells rfl hshows (.unclosed hmark) rfl

theorem firstToken_string
    {quote : Char} (hquote : Lexing.isQuote quote = true) (text : Text) :
    FirstToken (quote :: text) := by
  have hslash : quote ≠ '/' := by
    rintro rfl
    cases hquote
  have hopen : annotate .plain (quote :: text) =
      ((annotate (.quoted quote) text).1,
        ⟨quote, .code⟩ :: (annotate (.quoted quote) text).2) := by
    simp [annotate_cons, Lexing.step, hslash, hquote]
  have hascii := toNat_lt_of_isQuote hquote
  cases stringRun hquote text with
  | @ended inside rest c htext hc hinside hread =>
      have hshows := shows_string hascii inside (some c) (by simpa using hc)
      have hcells : annotate .plain (quote :: text) =
          ((annotate .plain rest).1,
            (⟨quote, .code⟩ :: cellsOf .quoted inside ++
              cellsOf .code (some c).toList) ++ (annotate .plain rest).2) := by
        rw [hopen, hread]
        simp
      exact .of_before (by simp) hcells hshows
        (.ended (isQuote_toUInt8 hquote) hinside) rfl
  | unended hinside hread =>
      have hshows := shows_string hascii text none (by simp)
      have hcells : annotate .plain (quote :: text) =
          (.quoted quote,
            ⟨quote, .code⟩ :: cellsOf .quoted text ++
              cellsOf .code none.toList) := by
        rw [hopen, hread]
        simp
      exact .last hcells rfl hshows
        (.unended (isQuote_toUInt8 hquote) hinside) rfl

/-- A byte that begins no other token. -/
def Token.IsOrdinary (b : UInt8) : Prop :=
  ¬ Token.IsQuote b ∧ b ≠ '\\'.toUInt8 ∧ b ≠ '/'.toUInt8

theorem Cut.bytes_append
    {text others : List UInt8} {tokens : List Token} (h : Cut text tokens)
    (hothers : ∀ b ∈ others, Token.IsOrdinary b) :
    Cut (others ++ text) (others.map Token.byte ++ tokens) := by
  induction others with
  | nil =>
      exact h
  | cons b others ih =>
      obtain ⟨⟨hquote, hbackslash, hslash⟩, hrest⟩ :=
        List.forall_mem_cons.mp hothers
      exact .token (t := .byte b)
        (.byte hquote (absurd · hbackslash) (absurd · hslash)) (ih hrest)

theorem isOrdinary_of_le {b : UInt8} (hb : 128 ≤ b.toNat) :
    Token.IsOrdinary b :=
  ⟨not_isQuote_of_le hb, ne_toUInt8_of_le (by decide) hb,
    ne_toUInt8_of_le (by decide) hb⟩

/-- Bytes that stand alone are the bytes of their tokens. -/
theorem flatMap_bytes_map_byte (others : List UInt8) :
    (others.map Token.byte).flatMap Token.bytes = others := by
  induction others with
  | nil =>
      rfl
  | cons b others ih =>
      rw [List.map_cons, List.flatMap_cons, ih]
      rfl

/-- An escape takes the first byte of a character, and its others stand alone. -/
theorem firstToken_escape (c : Char) (text : Text) :
    FirstToken ('\\' :: c :: text) := by
  obtain ⟨b, others, hbytes, hothers⟩ := exists_utf8EncodeChar_eq_cons c
  have hbackslash : String.utf8EncodeChar '\\' = ['\\'.toUInt8] :=
    utf8EncodeChar_of_lt (by decide)
  have hcells : annotate .plain ('\\' :: c :: text) =
      ((annotate .plain text).1,
        cellsOf .code ['\\', c] ++ (annotate .plain text).2) := by
    simp [annotate_cons, Lexing.step, Lexing.isQuote]
  have hshows : Shows (cellsOf .code ['\\', c])
      (.escape b :: others.map .byte) := by
    apply shows_code
    · simp [hbackslash, hbytes, flatMap_bytes_map_byte, Token.bytes]
    · simp [Token.masked, Token.uncommented, Token.isComment]
  refine .more (by simp) hcells hshows ?_ (by simp [Token.isUnfinished])
  intro tail htail
  have hcut := htail.bytes_append fun b' hb' => isOrdinary_of_le (hothers b' hb')
  simpa [hbackslash, hbytes, Token.bytes] using
    Cut.token (t := .escape b) .escape hcut

/-- The bytes of a character that begins no other token stand alone. -/
theorem cut_other
    {c : Char} {text : Text} {tail : List Token}
    (hcomment : ¬ (c = '/' ∧ text.head? = some '*'))
    (hquote : Lexing.isQuote c = false)
    (hescape : ¬ (c = '\\' ∧ text.head?.isSome = true))
    (htail : Cut (bytes text) tail) :
    Cut (String.utf8EncodeChar c ++ bytes text)
      ((String.utf8EncodeChar c).map .byte ++ tail) := by
  by_cases hspecial : c = '/' ∨ c = '\\'
  · have hascii : c.toNat < 128 := by
      rcases hspecial with rfl | rfl <;> decide
    have hunquoted : ¬ Token.IsQuote c.toUInt8 := by
      rcases hspecial with rfl | rfl <;> decide
    rw [utf8EncodeChar_of_lt hascii]
    refine Cut.token (t := .byte c.toUInt8) (.byte hunquoted ?_ ?_) htail
    · intro hbackslash
      rcases hspecial with rfl | rfl
      · cases hbackslash
      · rw [bytes_eq_nil_iff]
        cases text with
        | nil =>
            rfl
        | cons d rest =>
            exact absurd ⟨rfl, rfl⟩ hescape
    · intro hslash hstar
      rcases hspecial with rfl | rfl
      · exact hcomment ⟨rfl, head?_eq_some_of_bytes (by decide) hstar⟩
      · cases hslash
  · apply htail.bytes_append
    intro b hb
    refine ⟨?_, ?_, ?_⟩
    · intro h
      rw [isQuote_of_mem hb h] at hquote
      cases hquote
    · rintro rfl
      exact hspecial (.inr ((mem_utf8EncodeChar_iff (by decide)).mp hb))
    · rintro rfl
      exact hspecial (.inl ((mem_utf8EncodeChar_iff (by decide)).mp hb))

theorem firstToken_other
    {c : Char} {text : Text}
    (hcomment : ¬ (c = '/' ∧ text.head? = some '*'))
    (hquote : Lexing.isQuote c = false)
    (hescape : ¬ (c = '\\' ∧ text.head?.isSome = true)) :
    FirstToken (c :: text) := by
  have hcells : annotate .plain (c :: text) =
      ((annotate .plain text).1,
        cellsOf .code [c] ++ (annotate .plain text).2) := by
    simp only [annotate_cons, Lexing.step, if_neg hcomment, hquote,
      if_neg hescape]
    rfl
  have hshows : Shows (cellsOf .code [c])
      ((String.utf8EncodeChar c).map .byte) := by
    apply shows_code
    · simp [flatMap_bytes_map_byte]
    · simp [Token.masked, Token.uncommented, Token.isComment]
  refine .more (by simp) hcells hshows ?_ (by simp [Token.isUnfinished])
  intro tail htail
  simpa using cut_other hcomment hquote hescape htail

/-- What the machine does from one token to the next. -/
theorem firstToken (c : Char) (text : Text) : FirstToken (c :: text) := by
  by_cases hcomment : c = '/' ∧ text.head? = some '*'
  · obtain ⟨rfl, hhead⟩ := hcomment
    obtain ⟨rest, rfl⟩ := List.head?_eq_some_iff.mp hhead
    exact firstToken_comment rest
  · cases hquote : Lexing.isQuote c with
    | true =>
        exact firstToken_string hquote text
    | false =>
        by_cases hescape : c = '\\' ∧ text.head?.isSome = true
        · obtain ⟨rfl, hhead⟩ := hescape
          obtain ⟨d, hd⟩ := Option.isSome_iff_exists.mp hhead
          obtain ⟨rest, rfl⟩ := List.head?_eq_some_iff.mp hd
          exact firstToken_escape d rest
        · exact firstToken_other hcomment hquote hescape

end FirstToken

section Masking

theorem any_getLast?_append
    {tokens tail : List Token} (h : ∀ t ∈ tokens, t.isUnfinished = false) :
    (tokens ++ tail).getLast?.any Token.isUnfinished =
      tail.getLast?.any Token.isUnfinished := by
  rw [List.getLast?_append]
  cases tail.getLast? with
  | some t =>
      rfl
  | none =>
      cases hlast : tokens.getLast? with
      | none =>
          rfl
      | some t =>
          exact h t (List.mem_of_getLast? hlast)

/-- What a cut of a stylesheet says of its reading. -/
structure ReadAs (css : Text) (tokens : List Token) : Prop where
  cut : Cut (bytes css) tokens
  shows : Shows (annotate .plain css).2 tokens
  isOpen : (annotate .plain css).1.isOpen =
    tokens.getLast?.any Token.isUnfinished

theorem exists_readAs (css : Text) : ∃ tokens, ReadAs css tokens := by
  induction hlength : css.length using Nat.strongRecOn generalizing css with
  | ind n ih =>
  cases css with
  | nil =>
      refine ⟨[], ?_, shows_nil, rfl⟩
      rw [bytes_nil]
      exact .done
  | cons c css =>
      have hchars := chars_annotate .plain (c :: css)
      cases firstToken c css with
      | @last cells t state hread hopen hshows hbefore hunfinished =>
          rw [hread] at hchars
          refine ⟨[t], ?_, ?_, ?_⟩
          · have hsource : bytes (c :: css) = t.bytes ++ [] := by
              rw [← hchars, hshows.source, List.flatMap_singleton,
                List.append_nil]
            rw [hsource]
            exact .token hbefore .done
          · rw [hread]
            exact hshows
          · rw [hread, hopen]
            exact hunfinished.symm
      | @more cells tokens rest hne hread hshows hcut hfinished =>
          rw [hread, chars_append, chars_annotate] at hchars
          have hshort : rest.length < n := by
            rw [← hlength, ← hchars, List.length_append]
            have hpos := List.length_pos_iff.mpr hne
            simp only [chars, List.length_map]
            omega
          obtain ⟨tail, htail⟩ := ih rest.length hshort rest rfl
          refine ⟨tokens ++ tail, ?_, ?_, ?_⟩
          · rw [← hchars, bytes_append]
            exact hcut tail htail.cut
          · rw [hread]
            exact hshows.append htail.shows
          · rw [hread, any_getLast?_append hfinished]
            exact htail.isOpen

/-- The images of tokens, as the parts of a masking. -/
structure Masking.IsImage (masking : Masking) (tokens : List Token) : Prop where
  /-- The masked text is made of masked tokens. -/
  masked : bytes masking.masked = tokens.flatMap Token.masked
  /-- The uncommented text is made of uncommented tokens. -/
  uncommented : bytes masking.uncommented = tokens.flatMap Token.uncommented
  /-- The masked tokens are valid UTF-8, and nothing in them is replaced. -/
  decode_masked :
    decodeUtf8 (tokens.flatMap Token.masked).toByteArray = .ok masking.masked
  /-- So are the uncommented tokens. -/
  decode_uncommented :
    decodeUtf8 (tokens.flatMap Token.uncommented).toByteArray =
      .ok masking.uncommented
  /-- The comments are those among the tokens, in order. -/
  comments : masking.comments = Token.commentSpans 0 tokens
  /-- The text ends open exactly when its last token lacks its end. -/
  endsOpen : masking.endsOpen = tokens.getLast?.any Token.isUnfinished

theorem ReadAs.isImage {css : Text} {tokens : List Token}
    (h : ReadAs css tokens) : (Masking.ofText css).IsImage tokens := by
  have hcomments := h.shows.comments 0 [] []
  simp only [List.append_nil] at hcomments
  constructor
  · exact h.shows.masked
  · exact h.shows.uncommented
  · rw [← h.shows.masked]
    exact decodeUtf8_bytes _
  · rw [← h.shows.uncommented]
    exact decodeUtf8_bytes _
  · refine hcomments.trans ?_
    rw [commentSpans.go, List.reverse_reverse]
  · exact h.isOpen

/--
The bytes of a stylesheet can be cut into tokens in exactly one way, and its
masking is the image of these tokens, as long as the stylesheet.
-/
theorem Masking.ofText_isImage (css : Text) :
    ∃ tokens, (∀ tokens', Cut (bytes css) tokens' ↔ tokens' = tokens) ∧
      (Masking.ofText css).IsImage tokens ∧
      (tokens.flatMap Token.masked).length = (bytes css).length ∧
      (tokens.flatMap Token.uncommented).length = (bytes css).length := by
  obtain ⟨tokens, hread⟩ := exists_readAs css
  have himage := hread.isImage
  refine ⟨tokens, ?_, himage, ?_, ?_⟩
  · intro tokens'
    constructor
    · exact fun h => h.unique hread.cut
    · rintro rfl
      exact hread.cut
  · rw [← himage.masked, length_bytes, length_bytes, Masking.byteLength_masked]
  · rw [← himage.uncommented, length_bytes, length_bytes,
      Masking.byteLength_uncommented]

end Masking

end StylesheetPruning
