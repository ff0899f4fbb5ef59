import StylesheetPruning.Stylesheet.Masking

/-!
# Rules and their nesting

A rule is a selector list with a block behind it. A block that holds no
other block makes the rule a leaf; the selector list of a leaf is the one
that has to match elements.

**Scan.** The masked stylesheet is read once, with a stack of the blocks that
are open. A selector list begins behind the last brace or semicolon. A closing
brace without an open block is passed over. Blocks that are never closed are
dropped, and the rules found in them are kept.
-/

namespace StylesheetPruning

/-- A selector list with its block. All offsets are into the stylesheet. -/
structure Rule where
  /-- Start of the selector list, leading whitespace included. -/
  start : Nat
  /-- Offset of the opening brace. -/
  brace : Nat
  /-- One past the closing brace. -/
  stop : Nat
  /-- The rules inside the block, in source order. -/
  children : List Rule
deriving Repr

namespace Rule

/-- The whole rule. -/
def span (r : Rule) : Span :=
  ⟨r.start, r.stop⟩

/-- What stands in front of the block. -/
def selectorList (r : Rule) : Span :=
  ⟨r.start, r.brace⟩

/-- The braces and everything between them. -/
def declarations (r : Rule) : Span :=
  ⟨r.brace, r.stop⟩

/-- A leaf has no rules inside its block. -/
def isLeaf (r : Rule) : Bool :=
  r.children.isEmpty

mutual

/-- The leaves of a rule, in source order. -/
def leaves : Rule → List Rule
  | ⟨start, brace, stop, []⟩ => [⟨start, brace, stop, []⟩]
  | ⟨_, _, _, child :: children⟩ => child.leaves ++ leavesOf children

/-- The leaves of several rules, in source order. -/
def leavesOf : List Rule → List Rule
  | [] => []
  | r :: rest => r.leaves ++ leavesOf rest

end

mutual

/-- A rule at some depth, and those inside it, each with its depth. -/
def preorder (depth : Nat) : Rule → List (Nat × Rule)
  | ⟨start, brace, stop, children⟩ =>
      (depth, ⟨start, brace, stop, children⟩) :: preorderOf (depth + 1) children

/-- Several rules at some depth, each followed by those inside it. -/
def preorderOf (depth : Nat) : List Rule → List (Nat × Rule)
  | [] => []
  | r :: rest => preorder depth r ++ preorderOf depth rest

end

/-- A block that was opened and not yet closed. -/
structure OpenBlock where
  /-- Start of the selector list in front of the block. -/
  start : Nat
  /-- Offset of the opening brace. -/
  brace : Nat
  /-- The rules found in the block so far, last first. -/
  children : List Rule

/-- What is known between two characters of the scan. -/
structure Scan where
  /-- Offset of the next character. -/
  offset : Nat
  /-- One past the last brace or semicolon. -/
  boundary : Nat
  /-- The open blocks, innermost first. -/
  opened : List OpenBlock
  /-- The rules found outside every open block, last first. -/
  found : List Rule

namespace Scan

/-- Nothing was read. -/
def start : Scan :=
  { offset := 0, boundary := 0, opened := [], found := [] }

/-- Close the innermost open block; the boundary is the end of its rule. -/
def close (scan : Scan) (stop : Nat) : Scan :=
  match scan.opened with
  | [] => { scan with boundary := stop }
  | block :: outer =>
      let r : Rule :=
        ⟨block.start, block.brace, stop, block.children.reverse⟩
      match outer with
      | [] =>
          { scan with
            boundary := stop, opened := [], found := r :: scan.found }
      | parent :: others =>
          { scan with
            boundary := stop
            opened := { parent with children := r :: parent.children } :: others }

/-- Read one character. -/
def step (scan : Scan) (c : Char) : Scan :=
  let next := scan.offset + c.utf8Size
  let scan' :=
    if c = '{' then
      { scan with
        boundary := next
        opened := ⟨scan.boundary, scan.offset, []⟩ :: scan.opened }
    else if c = '}' then scan.close next
    else if c = ';' then { scan with boundary := next }
    else scan
  { scan' with offset := next }

/--
The rules of a finished scan. Those in unclosed blocks come after those
outside of them, the outermost block first, which is their source order.
-/
def rules (scan : Scan) : List Rule :=
  scan.found.reverse ++
    scan.opened.reverse.flatMap (fun block => block.children.reverse)

end Scan

/-- The rules of a masked stylesheet, in source order. -/
def ofMasked (masked : Text) : List Rule :=
  (masked.foldl Scan.step Scan.start).rules

/-- The leaves among the rules of a masked stylesheet, in source order. -/
def leavesIn (masked : Text) : List Rule :=
  leavesOf (ofMasked masked)

theorem leavesOf_append (rs rs' : List Rule) :
    leavesOf (rs ++ rs') = leavesOf rs ++ leavesOf rs' := by
  induction rs with
  | nil => rfl
  | cons r rest ih => simp [leavesOf, ih]

end Rule

end StylesheetPruning
