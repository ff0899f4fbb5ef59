import StylesheetPruning.Text.Basic

/-!
# Tokens of a stylesheet

The bytes of a stylesheet are cut, from left to right, into comments, strings,
escapes and single bytes. The grammar here knows neither characters nor the
lexing machine.

**Cutting.** `Token.Before` says which token a text begins with, given what
stands behind the token. `Cut` repeats it up to the end.

**Images.** A comment can be overwritten with spaces, and the inside of a
string with filler, one byte for each.

**Results.** `Cut.unique`: a text can be cut in one way only.
-/

namespace StylesheetPruning

/-- A part of a stylesheet, as the bytes that it is made of. -/
inductive Token where
  /-- A comment: what stands between its marks, and whether it is closed. -/
  | comment (inside : List UInt8) (closed : Bool)
  /-- A string: its quote, what stands behind it, and the byte that ends it. -/
  | string (quote : UInt8) (inside : List UInt8) (ending : Option UInt8)
  /-- A backslash with the byte behind it. -/
  | escape (b : UInt8)
  /-- Any other byte. -/
  | byte (b : UInt8)
deriving Repr, DecidableEq

namespace Token

section Grammar

/-- The two bytes that open a comment. -/
def openingMark : List UInt8 :=
  ['/'.toUInt8, '*'.toUInt8]

/-- The two bytes that close a comment. -/
def closingMark : List UInt8 :=
  ['*'.toUInt8, '/'.toUInt8]

/-- Whether a byte opens a string. -/
def IsQuote (b : UInt8) : Prop :=
  b = '"'.toUInt8 ∨ b = '\''.toUInt8

/-- Whether a byte ends a line. -/
def IsLineBreak (b : UInt8) : Prop :=
  b = '\n'.toUInt8 ∨ b = '\r'.toUInt8

/-- The bytes of a token. -/
def bytes : Token → List UInt8
  | comment inside closed =>
      openingMark ++ inside ++ (if closed then closingMark else [])
  | string quote inside ending => quote :: inside ++ ending.toList
  | escape b => ['\\'.toUInt8, b]
  | byte b => [b]

/--
What may stand between the quote of a string and the byte that ends it. Where
no byte ends the string, it runs to the end of the text.
-/
inductive Inside (quote : UInt8) : List UInt8 → Option UInt8 → Prop
  /-- The quote and the line breaks end a string. -/
  | stop {ending : Option UInt8}
      (hending : ∀ b ∈ ending, b = quote ∨ IsLineBreak b) :
      Inside quote [] ending
  /-- A backslash has no effect on a line break, or at the end of the text. -/
  | lone {ending : Option UInt8} (hending : ∀ b ∈ ending, IsLineBreak b) :
      Inside quote ['\\'.toUInt8] ending
  /-- A backslash takes any other byte with it. -/
  | pair {b : UInt8} {inside : List UInt8} {ending : Option UInt8}
      (hbreak : ¬ IsLineBreak b) (hinside : Inside quote inside ending) :
      Inside quote ('\\'.toUInt8 :: b :: inside) ending
  /-- A byte that is none of these stands for itself. -/
  | byte {b : UInt8} {inside : List UInt8} {ending : Option UInt8}
      (hquote : b ≠ quote) (hbackslash : b ≠ '\\'.toUInt8)
      (hbreak : ¬ IsLineBreak b) (hinside : Inside quote inside ending) :
      Inside quote (b :: inside) ending

/-- Which token a text begins with, what is behind the token being given. -/
inductive Before : Token → List UInt8 → Prop
  /-- The first closing mark closes a comment. -/
  | closed {inside rest : List UInt8} (hinside : ¬ closingMark <:+: inside) :
      Before (comment inside true) rest
  /-- Without a closing mark a comment runs to the end. -/
  | unclosed {inside : List UInt8} (hinside : ¬ closingMark <:+: inside) :
      Before (comment inside false) []
  /-- A string runs to the byte that ends it. -/
  | ended {quote b : UInt8} {inside rest : List UInt8}
      (hquote : IsQuote quote) (hinside : Inside quote inside (some b)) :
      Before (string quote inside (some b)) rest
  /-- Without such a byte a string runs to the end. -/
  | unended {quote : UInt8} {inside : List UInt8}
      (hquote : IsQuote quote) (hinside : Inside quote inside none) :
      Before (string quote inside none) []
  /-- A backslash escapes whatever byte is behind it. -/
  | escape {b : UInt8} {rest : List UInt8} :
      Before (escape b) rest
  /-- A byte stands alone where nothing else begins. -/
  | byte {b : UInt8} {rest : List UInt8}
      (hquote : ¬ IsQuote b) (hbackslash : b = '\\'.toUInt8 → rest = [])
      (hslash : b = '/'.toUInt8 → rest.head? ≠ some '*'.toUInt8) :
      Before (byte b) rest

end Grammar

section Images

/-- The bytes of a token, a comment overwritten with spaces. -/
def uncommented : Token → List UInt8
  | comment inside closed =>
      List.replicate (comment inside closed).bytes.length ' '.toUInt8
  | t => t.bytes

/-- The same, and the inside of a string overwritten with filler. -/
def masked : Token → List UInt8
  | string quote inside ending =>
      quote :: List.replicate inside.length 'X'.toUInt8 ++ ending.toList
  | t => t.uncommented

/-- Whether a token is a comment. -/
def isComment : Token → Bool
  | comment _ _ => true
  | _ => false

/-- Whether a token is a comment or a string that lacks its end. -/
def isUnfinished : Token → Bool
  | comment _ closed => !closed
  | string _ _ ending => ending.isNone
  | _ => false

/-- Spans of the comments among tokens, the first of which is at an offset. -/
def commentSpans (offset : Nat) : List Token → List Span
  | [] => []
  | t :: rest =>
      let next := offset + t.bytes.length
      if t.isComment then ⟨offset, next⟩ :: commentSpans next rest
      else commentSpans next rest

end Images

end Token

/-- The cuts of a text into tokens, from left to right. -/
inductive Cut : List UInt8 → List Token → Prop
  | done : Cut [] []
  | token {t : Token} {rest : List UInt8} {tokens : List Token}
      (hfirst : t.Before rest) (hrest : Cut rest tokens) :
      Cut (t.bytes ++ rest) (t :: tokens)

section Uniqueness

namespace Token

/-- A byte that ends a string is no backslash. -/
theorem IsQuote.backslash_ne
    {quote : UInt8} (h : IsQuote quote) :
    ¬ ('\\'.toUInt8 = quote ∨ IsLineBreak '\\'.toUInt8) := by
  rintro (rfl | hbreak | hbreak)
  · rcases h with h | h <;> cases h
  · cases hbreak
  · cases hbreak

/-- A closing mark cannot begin in one of its own halves. -/
theorem prefix_of_closingMark
    {inside between rest rest' : List UInt8}
    (h : ¬ closingMark <:+: inside ++ between)
    (heq : closingMark ++ rest = between ++ (closingMark ++ rest')) :
    between = [] ∧ rest = rest' := by
  match between with
  | [] =>
      simpa using heq
  | [b] =>
      simp only [closingMark, List.cons_append, List.nil_append,
        List.cons.injEq] at heq
      exact absurd heq.2.1 (by decide)
  | b :: b' :: between =>
      simp only [closingMark, List.cons_append, List.cons.injEq] at heq
      obtain ⟨rfl, rfl, -⟩ := heq
      exact absurd ⟨inside, between, by simp [closingMark]⟩ h

/-- The first closing mark can be in one place only. -/
theorem eq_of_append_closingMark
    {inside inside' rest rest' : List UInt8}
    (h : ¬ closingMark <:+: inside) (h' : ¬ closingMark <:+: inside')
    (heq : inside ++ (closingMark ++ rest) = inside' ++ (closingMark ++ rest')) :
    inside = inside' ∧ rest = rest' := by
  rcases List.append_eq_append_iff.mp heq with
    ⟨between, rfl, hrest⟩ | ⟨between, rfl, hrest⟩
  · obtain ⟨rfl, rfl⟩ := prefix_of_closingMark h' hrest
    simp
  · obtain ⟨rfl, rfl⟩ := prefix_of_closingMark h hrest
    simp

section Strings

variable {quote : UInt8} {inside inside' rest rest' : List UInt8}
variable {ending ending' : Option UInt8}

/-- A byte behind the inside of a string is the one that ends it. -/
theorem of_ending_append
    {p : UInt8 → Prop} {b : UInt8} {tail : List UInt8}
    (hending : ∀ b ∈ ending, p b) (hrest : ending = none → rest = [])
    (heq : ending.toList ++ rest = b :: tail) : p b := by
  cases ending with
  | none =>
      simp [hrest rfl] at heq
  | some b' =>
      simp only [Option.toList_some, List.singleton_append,
        List.cons.injEq] at heq
      exact heq.1 ▸ hending b' rfl

theorem ending_unique
    (hrest : ending = none → rest = []) (hrest' : ending' = none → rest' = [])
    (heq : ending.toList ++ rest = ending'.toList ++ rest') :
    ending = ending' ∧ rest = rest' := by
  cases ending with
  | none =>
      cases ending' with
      | none =>
          simpa using heq
      | some b =>
          simp [hrest rfl] at heq
  | some b =>
      cases ending' with
      | none =>
          simp [hrest' rfl] at heq
      | some b' =>
          simpa using heq

/-- The byte that ends a string is the first one that can. -/
theorem Inside.unique
    (hquote : IsQuote quote)
    (h : Inside quote inside ending) (h' : Inside quote inside' ending')
    (hrest : ending = none → rest = []) (hrest' : ending' = none → rest' = [])
    (heq : inside ++ (ending.toList ++ rest) =
      inside' ++ (ending'.toList ++ rest')) :
    inside = inside' ∧ ending = ending' ∧ rest = rest' := by
  induction h generalizing inside' with
  | stop hending =>
      cases h' with
      | stop =>
          exact ⟨rfl, ending_unique hrest hrest' heq⟩
      | lone =>
          exact absurd (of_ending_append hending hrest heq) hquote.backslash_ne
      | pair =>
          exact absurd (of_ending_append hending hrest heq) hquote.backslash_ne
      | byte hne _ hbreak =>
          rcases of_ending_append hending hrest heq with hb | hb
          · exact absurd hb hne
          · exact absurd hb hbreak
  | lone hending =>
      cases h' with
      | stop hending' =>
          exact absurd (of_ending_append hending' hrest' heq.symm)
            hquote.backslash_ne
      | lone =>
          exact ⟨rfl, ending_unique hrest hrest' (List.cons.inj heq).2⟩
      | pair hbreak =>
          exact absurd (of_ending_append hending hrest (List.cons.inj heq).2)
            hbreak
      | byte _ hbackslash =>
          exact absurd (List.cons.inj heq).1.symm hbackslash
  | pair hbreak _ ih =>
      cases h' with
      | stop hending' =>
          exact absurd (of_ending_append hending' hrest' heq.symm)
            hquote.backslash_ne
      | lone hending' =>
          exact absurd
            (of_ending_append hending' hrest' (List.cons.inj heq).2.symm) hbreak
      | pair _ hinside' =>
          simp only [List.cons_append, List.cons.injEq, true_and] at heq
          obtain ⟨rfl, heq⟩ := heq
          obtain ⟨rfl, hends⟩ := ih hinside' hrest heq
          exact ⟨rfl, hends⟩
      | byte _ hbackslash =>
          exact absurd (List.cons.inj heq).1.symm hbackslash
  | byte hne hbackslash hbreak _ ih =>
      cases h' with
      | stop hending' =>
          rcases of_ending_append hending' hrest' heq.symm with hb | hb
          · exact absurd hb hne
          · exact absurd hb hbreak
      | lone =>
          exact absurd (List.cons.inj heq).1 hbackslash
      | pair =>
          exact absurd (List.cons.inj heq).1 hbackslash
      | byte _ _ _ hinside' =>
          simp only [List.cons_append, List.cons.injEq] at heq
          obtain ⟨rfl, heq⟩ := heq
          obtain ⟨rfl, hends⟩ := ih hinside' hrest heq
          exact ⟨rfl, hends⟩

end Strings

section Kinds

instance (b : UInt8) : Decidable (IsQuote b) :=
  inferInstanceAs (Decidable (_ ∨ _))

/-- The four kinds of tokens. -/
inductive Kind where
  | comment
  | string
  | escape
  | byte
deriving DecidableEq

/-- The kind of a token. -/
def kind : Token → Kind
  | comment _ _ => .comment
  | string _ _ _ => .string
  | escape _ => .escape
  | byte _ => .byte

/-- The kind of the token that a text begins with, read off two bytes. -/
def Kind.ofBytes : List UInt8 → Kind
  | [] => .byte
  | b :: rest =>
      if IsQuote b then .string
      else if b = '\\'.toUInt8 ∧ rest ≠ [] then .escape
      else if b = '/'.toUInt8 ∧ rest.head? = some '*'.toUInt8 then .comment
      else .byte

variable {t t' : Token} {rest rest' : List UInt8}

theorem Before.kind_ofBytes (h : t.Before rest) :
    Kind.ofBytes (t.bytes ++ rest) = t.kind := by
  cases h with
  | closed =>
      rfl
  | unclosed =>
      rfl
  | ended hquote =>
      exact if_pos hquote
  | unended hquote =>
      exact if_pos hquote
  | escape =>
      rfl
  | byte hquote hbackslash hslash =>
      have hescape : ¬ (_ ∧ rest ≠ []) := fun h => h.2 (hbackslash h.1)
      have hcomment : ¬ (_ ∧ rest.head? = some '*'.toUInt8) :=
        fun h => hslash h.1 h.2
      simp only [bytes, List.singleton_append, Kind.ofBytes, if_neg hquote,
        if_neg hescape, if_neg hcomment, kind]

theorem Before.of_comment
    {inside : List UInt8} {closed : Bool}
    (h : (comment inside closed).Before rest) :
    ¬ closingMark <:+: inside ∧ (closed = false → rest = []) := by
  cases h with
  | closed hinside =>
      exact ⟨hinside, by simp⟩
  | unclosed hinside =>
      exact ⟨hinside, fun _ => rfl⟩

theorem Before.of_string
    {quote : UInt8} {inside : List UInt8} {ending : Option UInt8}
    (h : (string quote inside ending).Before rest) :
    IsQuote quote ∧ Inside quote inside ending ∧
      (ending = none → rest = []) := by
  cases h with
  | ended hquote hinside =>
      exact ⟨hquote, hinside, by simp⟩
  | unended hquote hinside =>
      exact ⟨hquote, hinside, fun _ => rfl⟩

theorem Before.unique_comment
    {inside inside' : List UInt8} {closed closed' : Bool}
    (h : (comment inside closed).Before rest)
    (h' : (comment inside' closed').Before rest')
    (heq : (comment inside closed).bytes ++ rest =
      (comment inside' closed').bytes ++ rest') :
    comment inside closed = comment inside' closed' ∧ rest = rest' := by
  obtain ⟨hinside, hrest⟩ := h.of_comment
  obtain ⟨hinside', hrest'⟩ := h'.of_comment
  simp only [bytes, List.append_assoc, List.append_cancel_left_eq] at heq
  cases closed with
  | true =>
      cases closed' with
      | true =>
          obtain ⟨rfl, rfl⟩ := eq_of_append_closingMark hinside hinside' heq
          simp
      | false =>
          refine absurd ⟨inside, rest, ?_⟩ hinside'
          simpa [hrest' rfl] using heq
  | false =>
      cases closed' with
      | true =>
          refine absurd ⟨inside', rest', ?_⟩ hinside
          simpa [hrest rfl] using heq.symm
      | false =>
          simpa [hrest rfl, hrest' rfl] using heq

/-- What is behind its first token is also known of a text. -/
theorem Before.unique
    (h : t.Before rest) (h' : t'.Before rest')
    (heq : t.bytes ++ rest = t'.bytes ++ rest') :
    t = t' ∧ rest = rest' := by
  have hkind : t.kind = t'.kind := by
    rw [← h.kind_ofBytes, heq, h'.kind_ofBytes]
  match t, t', hkind with
  | .comment _ _, .comment _ _, _ =>
      exact h.unique_comment h' heq
  | .string quote inside ending, .string quote' inside' ending', _ =>
      obtain ⟨hquote, hinside, hrest⟩ := h.of_string
      obtain ⟨-, hinside', hrest'⟩ := h'.of_string
      simp only [bytes, List.cons_append, List.append_assoc,
        List.cons.injEq] at heq
      obtain ⟨rfl, heq⟩ := heq
      obtain ⟨rfl, rfl, rfl⟩ := hinside.unique hquote hinside' hrest hrest' heq
      simp
  | .escape b, .escape b', _ =>
      simpa [bytes] using heq
  | .byte b, .byte b', _ =>
      simpa [bytes] using heq

end Kinds

theorem bytes_ne_nil (t : Token) : t.bytes ≠ [] := by
  cases t <;> simp [bytes, openingMark]

end Token

theorem cut_nil_iff {text : List UInt8} : Cut text [] ↔ text = [] := by
  constructor
  · rintro ⟨⟩
    rfl
  · rintro rfl
    exact .done

theorem cut_cons_iff {text : List UInt8} {t : Token} {tokens : List Token} :
    Cut text (t :: tokens) ↔
      ∃ rest, text = t.bytes ++ rest ∧ t.Before rest ∧ Cut rest tokens := by
  constructor
  · rintro ⟨⟩
    next rest hfirst hrest => exact ⟨rest, rfl, hfirst, hrest⟩
  · rintro ⟨rest, rfl, hfirst, hrest⟩
    exact .token hfirst hrest

/-- A text can be cut in one way only. -/
theorem Cut.unique
    {text : List UInt8} {tokens tokens' : List Token}
    (h : Cut text tokens) (h' : Cut text tokens') : tokens = tokens' := by
  induction h generalizing tokens' with
  | done =>
      cases tokens' with
      | nil =>
          rfl
      | cons t' tokens' =>
          obtain ⟨rest', htext, -⟩ := cut_cons_iff.mp h'
          simp [t'.bytes_ne_nil] at htext
  | @token t rest tokens hfirst _ ih =>
      cases tokens' with
      | nil =>
          have htext := cut_nil_iff.mp h'
          simp [t.bytes_ne_nil] at htext
      | cons t' tokens' =>
          obtain ⟨rest', htext, hfirst', hrest'⟩ := cut_cons_iff.mp h'
          obtain ⟨rfl, rfl⟩ := hfirst.unique hfirst' htext
          rw [ih hrest']

end Uniqueness

end StylesheetPruning
