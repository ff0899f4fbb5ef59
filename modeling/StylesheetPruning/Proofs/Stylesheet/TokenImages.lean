import StylesheetPruning.Proofs.Stylesheet.Lexing
import StylesheetPruning.Proofs.Stylesheet.Tokens
import StylesheetPruning.Proofs.Text.Encoding

/-!
# Images of cells and of tokens

A masking overwrites cells, which are characters with roles; the grammar of
tokens speaks of bytes. `Shows` relates cells to the tokens that they make up,
and to both of their images. A character of more than one byte can be part of
several tokens, an escape among them, so cells and tokens do not match one by
one.

**Results.**
* `Shows.append`: what is shown in two parts is shown.
* `shows_code`, `shows_comment`, `shows_string`: how the cells of tokens look.
-/

namespace StylesheetPruning

section Roles

/-- Characters that have the same role. -/
def cellsOf (role : Role) (text : Text) : List Cell :=
  text.map (fun c => ⟨c, role⟩)

@[simp] theorem cellsOf_nil (role : Role) : cellsOf role [] = [] := rfl

@[simp] theorem cellsOf_cons (role : Role) (c : Char) (rest : Text) :
    cellsOf role (c :: rest) = ⟨c, role⟩ :: cellsOf role rest := rfl

@[simp] theorem cellsOf_append (role : Role) (text text' : Text) :
    cellsOf role (text ++ text') = cellsOf role text ++ cellsOf role text' :=
  List.map_append

@[simp] theorem chars_cellsOf (role : Role) (text : Text) :
    chars (cellsOf role text) = text := by
  simp [cellsOf, chars, Function.comp_def]

theorem role_of_mem_cellsOf
    {role : Role} {text : Text} {cell : Cell} (h : cell ∈ cellsOf role text) :
    cell.role = role := by
  obtain ⟨c, -, rfl⟩ := List.mem_map.mp h
  rfl

/-- Overwriting cells with an ASCII character leaves a byte for each byte. -/
theorem bytes_flatMap_replicate
    {c : Char} (hc : c.toNat < 128) {image : Cell → Text} {cells : List Cell}
    (himage : ∀ cell ∈ cells, image cell = List.replicate cell.char.utf8Size c) :
    bytes (cells.flatMap image) =
      List.replicate (bytes (chars cells)).length c.toUInt8 := by
  induction cells with
  | nil =>
      simp
  | cons cell rest ih =>
      obtain ⟨hcell, hrest⟩ := List.forall_mem_cons.mp himage
      rw [List.flatMap_cons, bytes_append, hcell, bytes_replicate hc, ih hrest,
        chars_cons, bytes_cons, List.length_append, String.length_utf8EncodeChar,
        List.replicate_append_replicate]

/-- Leaving cells as they are leaves their bytes. -/
theorem bytes_flatMap_singleton
    {image : Cell → Text} {cells : List Cell}
    (himage : ∀ cell ∈ cells, image cell = [cell.char]) :
    bytes (cells.flatMap image) = bytes (chars cells) := by
  induction cells with
  | nil =>
      simp
  | cons cell rest ih =>
      obtain ⟨hcell, hrest⟩ := List.forall_mem_cons.mp himage
      rw [List.flatMap_cons, bytes_append, hcell, ih hrest, chars_cons,
        bytes_cons, bytes_cons, bytes_nil, List.append_nil]

end Roles

section Shown

/-- Whether cells are made and overwritten as tokens are. -/
structure Shows (cells : List Cell) (tokens : List Token) : Prop where
  source : bytes (chars cells) = tokens.flatMap Token.bytes
  masked : bytes (cells.flatMap Cell.masked) = tokens.flatMap Token.masked
  uncommented :
    bytes (cells.flatMap Cell.uncommented) = tokens.flatMap Token.uncommented
  comments : ∀ offset found rest,
    commentSpans.go (cells ++ rest) offset found =
      commentSpans.go rest (offset + byteLength (chars cells))
        ((Token.commentSpans offset tokens).reverse ++ found)

theorem Token.commentSpans_append (offset : Nat) (tokens tokens' : List Token) :
    Token.commentSpans offset (tokens ++ tokens') =
      Token.commentSpans offset tokens ++
        Token.commentSpans (offset + (tokens.flatMap Token.bytes).length)
          tokens' := by
  induction tokens generalizing offset with
  | nil =>
      rfl
  | cons t rest ih =>
      simp only [List.cons_append, Token.commentSpans, ih, List.flatMap_cons,
        List.length_append, Nat.add_assoc]
      split
      · rfl
      · rfl

theorem shows_nil : Shows [] [] := by
  constructor
  · rfl
  · rfl
  · rfl
  · intro offset found rest
    rfl

theorem Shows.append
    {cells cells' : List Cell} {tokens tokens' : List Token}
    (h : Shows cells tokens) (h' : Shows cells' tokens') :
    Shows (cells ++ cells') (tokens ++ tokens') := by
  constructor
  · rw [chars_append, bytes_append, h.source, h'.source, List.flatMap_append]
  · rw [List.flatMap_append, bytes_append, h.masked, h'.masked,
      List.flatMap_append]
  · rw [List.flatMap_append, bytes_append, h.uncommented, h'.uncommented,
      List.flatMap_append]
  · intro offset found rest
    rw [List.append_assoc, h.comments, h'.comments, chars_append,
      byteLength_append, Token.commentSpans_append, ← h.source, length_bytes,
      List.reverse_append, List.append_assoc, Nat.add_assoc]

/-- Cells outside of comments leave the spans of the comments as they are. -/
theorem commentSpans_go_append
    {cells : List Cell}
    (h : ∀ cell ∈ cells, cell.role = .code ∨ cell.role = .quoted)
    (offset : Nat) (found : List Span) (rest : List Cell) :
    commentSpans.go (cells ++ rest) offset found =
      commentSpans.go rest (offset + byteLength (chars cells)) found := by
  induction cells generalizing offset with
  | nil =>
      rfl
  | cons cell cells ih =>
      obtain ⟨hcell, hcells⟩ := List.forall_mem_cons.mp h
      have hstep : commentSpans.go (cell :: (cells ++ rest)) offset found =
          commentSpans.go (cells ++ rest) (offset + cell.char.utf8Size)
            found := by
        rcases hcell with hrole | hrole <;> simp [commentSpans.go, hrole]
      rw [List.cons_append, hstep, ih hcells, chars_cons, byteLength_cons,
        Nat.add_assoc]

/-- The later characters of a comment extend its span. -/
theorem commentSpans_go_commentBody
    (text : Text) (start offset : Nat) (found : List Span) (rest : List Cell) :
    commentSpans.go (cellsOf .commentBody text ++ rest) offset
        (⟨start, offset⟩ :: found) =
      commentSpans.go rest (offset + byteLength text)
        (⟨start, offset + byteLength text⟩ :: found) := by
  induction text generalizing offset with
  | nil =>
      rfl
  | cons c text ih =>
      have hstep : commentSpans.go
            (⟨c, .commentBody⟩ :: (cellsOf .commentBody text ++ rest)) offset
            (⟨start, offset⟩ :: found) =
          commentSpans.go (cellsOf .commentBody text ++ rest)
            (offset + c.utf8Size) (⟨start, offset + c.utf8Size⟩ :: found) := rfl
      rw [cellsOf_cons, List.cons_append, hstep, ih, byteLength_cons,
        Nat.add_assoc]

theorem Token.commentSpans_eq_nil
    {tokens : List Token} (h : ∀ t ∈ tokens, t.isComment = false)
    (offset : Nat) : Token.commentSpans offset tokens = [] := by
  induction tokens generalizing offset with
  | nil =>
      rfl
  | cons t rest ih =>
      obtain ⟨ht, hrest⟩ := List.forall_mem_cons.mp h
      simp [Token.commentSpans, ht, ih hrest]

/-- Structure is left as it is, whatever tokens it makes up. -/
theorem shows_code
    {text : Text} {tokens : List Token}
    (hsource : bytes text = tokens.flatMap Token.bytes)
    (hplain : ∀ t ∈ tokens,
      t.masked = t.bytes ∧ t.uncommented = t.bytes ∧ t.isComment = false) :
    Shows (cellsOf .code text) tokens := by
  have hcode : ∀ cell ∈ cellsOf .code text, cell.role = .code :=
    fun _ h => role_of_mem_cellsOf h
  have himage : ∀ cell ∈ cellsOf .code text,
      cell.masked = [cell.char] ∧ cell.uncommented = [cell.char] := by
    intro cell hcell
    simp [Cell.masked, Cell.uncommented, hcode cell hcell]
  constructor
  · rw [chars_cellsOf, hsource]
  · rw [bytes_flatMap_singleton fun cell h => (himage cell h).1, chars_cellsOf,
      hsource]
    exact congrArg List.flatten
      (List.map_congr_left fun t ht => (hplain t ht).1.symm)
  · rw [bytes_flatMap_singleton fun cell h => (himage cell h).2, chars_cellsOf,
      hsource]
    exact congrArg List.flatten
      (List.map_congr_left fun t ht => (hplain t ht).2.1.symm)
  · intro offset found rest
    rw [commentSpans_go_append fun cell h => .inl (hcode cell h),
      Token.commentSpans_eq_nil fun t ht => (hplain t ht).2.2]
    rfl

/-- A comment becomes spaces. -/
theorem shows_comment
    {c : Char} {text : Text} {t : Token}
    (hsource : bytes (c :: text) = t.bytes) (ht : t.isComment = true) :
    Shows (⟨c, .commentStart⟩ :: cellsOf .commentBody text) [t] := by
  have himage :
      ∀ cell ∈ (⟨c, .commentStart⟩ :: cellsOf .commentBody text : List Cell),
        cell.masked = List.replicate cell.char.utf8Size ' ' ∧
          cell.uncommented = List.replicate cell.char.utf8Size ' ' := by
    refine List.forall_mem_cons.mpr ⟨⟨rfl, rfl⟩, ?_⟩
    intro cell hcell
    simp [Cell.masked, Cell.uncommented, spaces, role_of_mem_cellsOf hcell]
  have hspaces :
      t.masked = List.replicate t.bytes.length ' '.toUInt8 ∧
        t.uncommented = List.replicate t.bytes.length ' '.toUInt8 := by
    cases t with
    | comment =>
        exact ⟨rfl, rfl⟩
    | _ =>
        cases ht
  have hbytes : bytes (chars (⟨c, .commentStart⟩ :: cellsOf .commentBody text)) =
      t.bytes := by
    rw [chars_cons, chars_cellsOf, hsource]
  constructor
  · rw [hbytes, List.flatMap_singleton]
  · rw [bytes_flatMap_replicate (by decide) fun cell h => (himage cell h).1,
      hbytes, List.flatMap_singleton, hspaces.1]
  · rw [bytes_flatMap_replicate (by decide) fun cell h => (himage cell h).2,
      hbytes, List.flatMap_singleton, hspaces.2]
  · intro offset found rest
    have hlength : t.bytes.length = c.utf8Size + byteLength text := by
      rw [← hsource, length_bytes, byteLength_cons]
    have hstep : commentSpans.go
          (⟨c, .commentStart⟩ :: (cellsOf .commentBody text ++ rest)) offset
          found =
        commentSpans.go (cellsOf .commentBody text ++ rest)
          (offset + c.utf8Size) (⟨offset, offset + c.utf8Size⟩ :: found) := rfl
    rw [List.cons_append, hstep, commentSpans_go_commentBody, chars_cons,
      chars_cellsOf, byteLength_cons]
    simp [Token.commentSpans, ht, hlength, Nat.add_assoc]

/-- The inside of a string becomes filler. -/
theorem shows_string
    {c : Char} (hc : c.toNat < 128) (inside : Text) (ending : Option Char)
    (hending : ∀ c ∈ ending, c.toNat < 128) :
    Shows
      (⟨c, .code⟩ :: cellsOf .quoted inside ++ cellsOf .code ending.toList)
      [.string c.toUInt8 (bytes inside) (ending.map Char.toUInt8)] := by
  have hinside : ∀ cell ∈ cellsOf .quoted inside,
      cell.masked = List.replicate cell.char.utf8Size 'X' ∧
        cell.uncommented = [cell.char] := by
    intro cell hcell
    simp [Cell.masked, Cell.uncommented, role_of_mem_cellsOf hcell]
  have hend : bytes ending.toList = (ending.map Char.toUInt8).toList := by
    cases ending with
    | none =>
        exact bytes_nil
    | some d =>
        simp [utf8EncodeChar_of_lt (hending d rfl)]
  have hcode : ∀ image : Cell → Text,
      (∀ cell, cell.role = .code → image cell = [cell.char]) →
        bytes ((cellsOf .code ending.toList).flatMap image) =
          (ending.map Char.toUInt8).toList := by
    intro image himage
    rw [bytes_flatMap_singleton fun cell h =>
      himage cell (role_of_mem_cellsOf h), chars_cellsOf, hend]
  constructor
  · simp [hend, utf8EncodeChar_of_lt hc, Token.bytes]
  · rw [List.cons_append, List.flatMap_cons, List.flatMap_append, bytes_append,
      bytes_append, hcode _ (by simp +contextual [Cell.masked]),
      bytes_flatMap_replicate (by decide) fun cell h => (hinside cell h).1]
    simp [Cell.masked, utf8EncodeChar_of_lt hc, Token.masked]
  · rw [List.cons_append, List.flatMap_cons, List.flatMap_append, bytes_append,
      bytes_append, hcode _ (by simp +contextual [Cell.uncommented]),
      bytes_flatMap_singleton fun cell h => (hinside cell h).2]
    simp [Cell.uncommented, utf8EncodeChar_of_lt hc, Token.uncommented,
      Token.bytes]
  · intro offset found rest
    rw [commentSpans_go_append]
    · rfl
    · intro cell hcell
      simp only [List.cons_append, List.mem_cons, List.mem_append] at hcell
      rcases hcell with rfl | hcell | hcell
      · exact .inl rfl
      · exact .inr (role_of_mem_cellsOf hcell)
      · exact .inl (role_of_mem_cellsOf hcell)

end Shown

end StylesheetPruning
