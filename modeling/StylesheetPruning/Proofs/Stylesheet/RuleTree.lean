import StylesheetPruning.Proofs.Stylesheet.LeafScan
import StylesheetPruning.Proofs.Stylesheet.MatchedPairs

/-!
# The tree of rules is the tree of matching braces

The scan for rules keeps a stack of open blocks. What it finds can be said
without it: the rules of a text are its pairs of matching braces, and a rule
is inside another when its pair is.

**Trees.** `Rule.TreeOf` builds the rules of a text by its first character. A
brace opens a rule when it has a partner, and is passed over otherwise.

**Forests.** `Rule.Forest` collects what holds of rules in an interval of
offsets. It is kept when forests are put side by side, and when a rule is put
around one.

**Results.**
* `ofMasked_of_treeOf`: the scan finds the tree.
* `TreeOf.mem_pairs_iff`: the rules of the tree are the pairs of the text.
* `TreeOf.forest`: the tree is a forest.
* `ofMasked_isBraceTree`: the rules of a masked text, their order, their
  nesting and their spans.
-/

namespace StylesheetPruning

/-- One past the last brace or semicolon of a text, or zero without any. -/
def lastFence (text : Text) : Nat :=
  byteLength (text.reverse.dropWhile (fun c => !isFence c)).reverse

theorem lastFence_append_singleton (text : Text) (c : Char) :
    lastFence (text ++ [c]) =
      if isFence c then byteLength (text ++ [c]) else lastFence text := by
  cases hc : isFence c <;> simp [lastFence, hc]

theorem lastFence_append_fence {c : Char} (hc : isFence c = true) (text : Text) :
    lastFence (text ++ [c]) = byteLength (text ++ [c]) := by
  rw [lastFence_append_singleton, if_pos hc]

theorem lastFence_le (text : Text) : lastFence text ≤ byteLength text := by
  have h := congrArg byteLength
    (List.takeWhile_append_dropWhile
      (p := fun c => !isFence c) (l := text.reverse))
  rw [byteLength_append, byteLength_reverse] at h
  rw [lastFence, byteLength_reverse]
  omega

theorem lastFence_le_append (text : Text) (c : Char) :
    lastFence text ≤ lastFence (text ++ [c]) := by
  have h := lastFence_le text
  rw [lastFence_append_singleton]
  split
  · rw [byteLength_append]
    omega
  · exact Nat.le_refl _

theorem byteLength_append_open (front : Text) :
    byteLength (front ++ ['{']) = byteLength front + 1 :=
  byteLength_append front ['{']

theorem byteLength_append_block (front inner : Text) :
    byteLength (front ++ '{' :: (inner ++ ['}'])) =
      byteLength front + byteLength inner + 2 := by
  have hopen : ('{' : Char).utf8Size = 1 := rfl
  have hclose : ('}' : Char).utf8Size = 1 := rfl
  simp only [byteLength_append, byteLength_cons, byteLength_nil, hopen, hclose]
  omega

theorem lastFence_append_block (front inner : Text) :
    lastFence (front ++ '{' :: (inner ++ ['}'])) =
      byteLength front + byteLength inner + 2 := by
  have hlast := @lastFence_append_fence '}' rfl (front ++ '{' :: inner)
  rwa [List.append_assoc, List.cons_append, byteLength_append_block] at hlast

namespace Rule

/-- The braces of a rule. -/
def pair (r : Rule) : BracePair :=
  ⟨r.brace, r.stop - 1⟩

/-- Rules and those inside them, each in front of those inside it. -/
def listing (rules : List Rule) : List Rule :=
  (preorderOf 0 rules).map Prod.snd

section Listing

mutual

theorem map_snd_preorder (depth depth' : Nat) :
    (r : Rule) → (preorder depth r).map Prod.snd =
      (preorder depth' r).map Prod.snd
  | ⟨_, _, _, children⟩ => by
      simp only [preorder, List.map_cons]
      rw [map_snd_preorderOf (depth + 1) (depth' + 1) children]

theorem map_snd_preorderOf (depth depth' : Nat) :
    (rules : List Rule) → (preorderOf depth rules).map Prod.snd =
      (preorderOf depth' rules).map Prod.snd
  | [] => rfl
  | r :: rest => by
      simp only [preorderOf, List.map_append]
      rw [map_snd_preorder depth depth' r, map_snd_preorderOf depth depth' rest]

end

@[simp] theorem listing_nil : listing [] = [] := rfl

theorem listing_cons (r : Rule) (rest : List Rule) :
    listing (r :: rest) = r :: (listing r.children ++ listing rest) := by
  obtain ⟨start, brace, stop, children⟩ := r
  simp only [listing, preorderOf, preorder, List.map_append, List.map_cons,
    List.cons_append]
  rw [map_snd_preorderOf (0 + 1) 0 children]

theorem listing_append (rules rules' : List Rule) :
    listing (rules ++ rules') = listing rules ++ listing rules' := by
  induction rules with
  | nil =>
      rfl
  | cons r rest ih =>
      rw [List.cons_append, listing_cons, listing_cons, ih]
      simp

theorem mem_listing_of_mem {r : Rule} {rules : List Rule} (h : r ∈ rules) :
    r ∈ listing rules := by
  obtain ⟨front, back, rfl⟩ := List.append_of_mem h
  rw [listing_append, listing_cons]
  simp

end Listing

section Trees

/-- The rule of a block, by what stands in front of it and in it. -/
def ofBlock (front inner : Text) (children : List Rule) : Rule :=
  ⟨lastFence front, byteLength front, byteLength front + byteLength inner + 2,
    children⟩

/--
The rules that a text adds to what stands in front of it. A brace opens a rule
when balanced text and a closing brace follow.
-/
inductive TreeOf : Text → Text → List Rule → Prop
  | nil (front : Text) : TreeOf front [] []
  | pass {front rest : Text} {c : Char} {rules : List Rule} :
      c ≠ '{' → TreeOf (front ++ [c]) rest rules →
      TreeOf front (c :: rest) rules
  | unclosed {front rest : Text} {rules : List Rule} :
      depthAfter? 0 rest ≠ none → TreeOf (front ++ ['{']) rest rules →
      TreeOf front ('{' :: rest) rules
  | block {front inner rest : Text} {children rules : List Rule} :
      Balanced inner → TreeOf (front ++ ['{']) inner children →
      TreeOf (front ++ '{' :: (inner ++ ['}'])) rest rules →
      TreeOf front ('{' :: (inner ++ '}' :: rest))
        (ofBlock front inner children :: rules)

/-- Every text has a tree. -/
theorem exists_treeOf (front text : Text) : ∃ rules, TreeOf front text rules := by
  -- The inside of a block and what follows it are both shorter than the text.
  induction hlength : text.length using Nat.strongRecOn
    generalizing front text with
  | ind n ih =>
      subst hlength
      cases text with
      | nil =>
          exact ⟨[], .nil front⟩
      | cons c rest =>
          by_cases hopen : c = '{'
          · subst hopen
            by_cases hdepth : depthAfter? 0 rest = none
            · obtain ⟨inner, after, rfl, hinner⟩ :=
                exists_of_depthAfter?_eq_none hdepth
              have hlength : ('{' :: (inner ++ '}' :: after)).length =
                  inner.length + after.length + 2 := by
                simp only [List.length_cons, List.length_append]
                omega
              obtain ⟨children, hchildren⟩ := ih inner.length
                (by omega) (front ++ ['{']) inner rfl
              obtain ⟨rules, hrules⟩ := ih after.length
                (by omega) (front ++ '{' :: (inner ++ ['}'])) after rfl
              exact ⟨_, .block hinner hchildren hrules⟩
            · obtain ⟨rules, hrules⟩ := ih rest.length
                (by simp) (front ++ ['{']) rest rfl
              exact ⟨rules, .unclosed hdepth hrules⟩
          · obtain ⟨rules, hrules⟩ := ih rest.length
              (by simp) (front ++ [c]) rest rfl
            exact ⟨rules, .pass hopen hrules⟩

variable {front text : Text} {rules : List Rule}

/-- The rules of a tree are the pairs of its text. -/
theorem TreeOf.mem_pairs_iff (h : TreeOf front text rules) (pair : BracePair) :
    pair ∈ (listing rules).map Rule.pair ↔
      MatchedFrom (byteLength front) text pair := by
  induction h with
  | nil front =>
      simp [not_matchedFrom_nil]
  | @pass front rest c rules hc _ ih =>
      rw [ih, matchedFrom_cons_of_ne hc, byteLength_append]
      simp
  | @unclosed front rest rules hdepth _ ih =>
      rw [ih, matchedFrom_unclosed hdepth, byteLength_append_open]
  | @block front inner rest children rules hinner _ _ ihinner ihrest =>
      have hpair : (ofBlock front inner children).pair =
          ⟨byteLength front, byteLength front + 1 + byteLength inner⟩ := by
        have hclosing : byteLength front + byteLength inner + 2 - 1 =
            byteLength front + 1 + byteLength inner := by
          omega
        simp only [Rule.pair, ofBlock, hclosing]
      rw [byteLength_append_open] at ihinner
      rw [byteLength_append_block] at ihrest
      rw [matchedFrom_block hinner, ← ihinner, ← ihrest, listing_cons,
        List.map_cons, List.map_append, List.mem_cons, List.mem_append, hpair]
      rfl

/-- A selector list begins behind the last fence in front of its brace. -/
theorem TreeOf.start_eq (h : TreeOf front text rules) :
    ∀ r ∈ listing rules, ∃ left back, front ++ text = left ++ '{' :: back ∧
      r.brace = byteLength left ∧ r.start = lastFence left := by
  induction h with
  | nil front =>
      simp
  | pass _ _ ih =>
      simpa using ih
  | unclosed _ _ ih =>
      simpa using ih
  | @block front inner rest children rules _ _ _ ihinner ihrest =>
      intro r hr
      rw [listing_cons, List.mem_cons, List.mem_append] at hr
      rcases hr with rfl | hr | hr
      · exact ⟨front, inner ++ '}' :: rest, rfl, rfl, rfl⟩
      · obtain ⟨left, back, heq, hbrace, hstart⟩ := ihinner r hr
        refine ⟨left, back ++ '}' :: rest, ?_, hbrace, hstart⟩
        have hcongr := congrArg (· ++ '}' :: rest) heq
        simpa using hcongr
      · obtain ⟨left, back, heq, hbrace, hstart⟩ := ihrest r hr
        refine ⟨left, back, ?_, hbrace, hstart⟩
        simpa using heq

end Trees

section Forests

/-- Rules that stand one behind the other. -/
def Apart (rules : List Rule) : Prop :=
  rules.Pairwise (fun r r' => r.span.stop ≤ r'.span.start)

/-- Rules of the text between two offsets, with the rules inside them. -/
structure Forest (lo hi : Nat) (rules : List Rule) : Prop where
  within : ∀ r ∈ listing rules,
    lo ≤ r.start ∧ r.start ≤ r.brace ∧ r.brace + 2 ≤ r.stop ∧ r.stop ≤ hi
  ascending : (listing rules).Pairwise (fun r r' => r.brace < r'.brace)
  apart : Apart rules
  outermost : ∀ r ∈ rules, ∀ q ∈ listing rules, ¬ q.pair.Encloses r.pair
  listed : ∀ p ∈ listing rules, ∀ r ∈ p.children, r ∈ listing rules
  apartInside : ∀ p ∈ listing rules, Apart p.children
  inside : ∀ p ∈ listing rules, ∀ r ∈ p.children,
    p.brace < r.start ∧ r.stop < p.stop
  parent : ∀ p ∈ listing rules, ∀ r ∈ p.children, ∀ q ∈ listing rules,
    q.pair.Encloses r.pair → q = p ∨ q.pair.Encloses p.pair

namespace Forest

variable {lo mid hi : Nat} {rules rules' : List Rule}

theorem nil (lo hi : Nat) : Forest lo hi [] := by
  constructor <;> simp [Apart]

theorem mono {lo' : Nat} (h : Forest lo hi rules) (hlo : lo' ≤ lo) :
    Forest lo' hi rules :=
  { h with
    within := by
      intro r hr
      have hwithin := h.within r hr
      omega }

/-- Of two rules that stand apart, none encloses the other. -/
theorem not_encloses
    (h : Forest lo mid rules) (h' : Forest mid hi rules')
    {r q : Rule} (hr : r ∈ listing rules) (hq : q ∈ listing rules') :
    ¬ r.pair.Encloses q.pair ∧ ¬ q.pair.Encloses r.pair := by
  have hwithin := h.within r hr
  have hwithin' := h'.within q hq
  simp only [BracePair.Encloses, pair]
  omega

/-- Forests can be put side by side. -/
theorem append (h : Forest lo mid rules) (h' : Forest mid hi rules')
    (hlo : lo ≤ mid) (hhi : mid ≤ hi) : Forest lo hi (rules ++ rules') := by
  have hmem : ∀ r, r ∈ listing (rules ++ rules') ↔
      r ∈ listing rules ∨ r ∈ listing rules' := by
    intro r
    rw [listing_append, List.mem_append]
  constructor
  case within =>
    intro r hr
    rcases (hmem r).mp hr with hr | hr
    · have hwithin := h.within r hr
      omega
    · have hwithin := h'.within r hr
      omega
  case ascending =>
    rw [listing_append, List.pairwise_append]
    refine ⟨h.ascending, h'.ascending, ?_⟩
    intro r hr r' hr'
    have hwithin := h.within r hr
    have hwithin' := h'.within r' hr'
    omega
  case apart =>
    refine List.pairwise_append.mpr ⟨h.apart, h'.apart, ?_⟩
    intro r hr r' hr'
    have hwithin := h.within r (mem_listing_of_mem hr)
    have hwithin' := h'.within r' (mem_listing_of_mem hr')
    simp only [span]
    omega
  case outermost =>
    intro r hr q hq
    rcases List.mem_append.mp hr with hr | hr <;>
      rcases (hmem q).mp hq with hq | hq
    · exact h.outermost r hr q hq
    · exact (h.not_encloses h' (mem_listing_of_mem hr) hq).2
    · exact (h.not_encloses h' hq (mem_listing_of_mem hr)).1
    · exact h'.outermost r hr q hq
  case listed =>
    intro p hp r hr
    rcases (hmem p).mp hp with hp | hp
    · exact (hmem r).mpr (.inl (h.listed p hp r hr))
    · exact (hmem r).mpr (.inr (h'.listed p hp r hr))
  case apartInside =>
    intro p hp
    rcases (hmem p).mp hp with hp | hp
    · exact h.apartInside p hp
    · exact h'.apartInside p hp
  case inside =>
    intro p hp
    rcases (hmem p).mp hp with hp | hp
    · exact h.inside p hp
    · exact h'.inside p hp
  case parent =>
    intro p hp r hr q hq hencloses
    rcases (hmem p).mp hp with hp | hp <;>
      rcases (hmem q).mp hq with hq | hq
    · exact h.parent p hp r hr q hq hencloses
    · exact absurd hencloses (h.not_encloses h' (h.listed p hp r hr) hq).2
    · exact absurd hencloses (h.not_encloses h' hq (h'.listed p hp r hr)).1
    · exact h'.parent p hp r hr q hq hencloses

/-- A rule can be put around a forest. -/
theorem around {start brace stop : Nat} {children : List Rule}
    (h : Forest (brace + 1) (stop - 1) children)
    (hstart : start ≤ brace) (hstop : brace + 2 ≤ stop) :
    Forest start stop [⟨start, brace, stop, children⟩] := by
  have hlisting : listing [⟨start, brace, stop, children⟩] =
      ⟨start, brace, stop, children⟩ :: listing children := by
    rw [listing_cons]
    simp
  -- The rule encloses all others and is enclosed by none of them.
  have hencloses : ∀ r ∈ listing children,
      (pair ⟨start, brace, stop, children⟩).Encloses r.pair := by
    intro r hr
    have hwithin := h.within r hr
    simp only [BracePair.Encloses, pair]
    omega
  constructor
  case within =>
    rw [hlisting, List.forall_mem_cons]
    refine ⟨⟨Nat.le_refl _, hstart, hstop, Nat.le_refl _⟩, ?_⟩
    intro r hr
    have hwithin := h.within r hr
    omega
  case ascending =>
    rw [hlisting, List.pairwise_cons]
    exact ⟨fun r hr => (hencloses r hr).1, h.ascending⟩
  case apart =>
    exact List.pairwise_singleton _ _
  case outermost =>
    rw [hlisting]
    intro r hr q hq
    rw [List.mem_singleton.mp hr]
    rcases List.mem_cons.mp hq with rfl | hq
    · exact fun hself => absurd hself.1 (Nat.lt_irrefl _)
    · exact fun hback => absurd (hencloses q hq).1 (Nat.lt_asymm hback.1)
  case listed =>
    rw [hlisting, List.forall_mem_cons]
    constructor
    · exact fun r hr => List.mem_cons_of_mem _ (mem_listing_of_mem hr)
    · exact fun p hp r hr => List.mem_cons_of_mem _ (h.listed p hp r hr)
  case apartInside =>
    rw [hlisting, List.forall_mem_cons]
    exact ⟨h.apart, h.apartInside⟩
  case inside =>
    rw [hlisting, List.forall_mem_cons]
    refine ⟨?_, h.inside⟩
    intro r hr
    have hwithin := h.within r (mem_listing_of_mem hr)
    simp only
    omega
  case parent =>
    rw [hlisting, List.forall_mem_cons]
    constructor
    · intro r hr q hq hinner
      rcases List.mem_cons.mp hq with rfl | hq
      · exact .inl rfl
      · exact absurd hinner (h.outermost r hr q hq)
    · intro p hp r hr q hq hinner
      rcases List.mem_cons.mp hq with rfl | hq
      · exact .inr (hencloses p hp)
      · exact h.parent p hp r hr q hq hinner

end Forest

/-- The rules of a tree are a forest. -/
theorem TreeOf.forest {front text : Text} {rules : List Rule}
    (h : TreeOf front text rules) :
    Forest (lastFence front) (byteLength (front ++ text)) rules := by
  induction h with
  | nil front =>
      exact .nil _ _
  | @pass front rest c rules _ _ ih =>
      rw [List.append_assoc, List.singleton_append] at ih
      exact ih.mono (lastFence_le_append front c)
  | @unclosed front rest rules _ _ ih =>
      rw [List.append_assoc, List.singleton_append] at ih
      exact ih.mono (lastFence_le_append front '{')
  | @block front inner rest children rules _ _ _ ihinner ihrest =>
      have hlength : byteLength (front ++ '{' :: (inner ++ '}' :: rest)) =
          byteLength front + byteLength inner + 2 + byteLength rest := by
        rw [← byteLength_append_block, ← byteLength_append]
        simp
      have hlast := lastFence_le front
      rw [lastFence_append_fence rfl, byteLength_append (front ++ ['{']),
        byteLength_append_open] at ihinner
      rw [lastFence_append_block, byteLength_append,
        byteLength_append_block] at ihrest
      rw [hlength]
      refine Forest.append (.around ?_ hlast (by omega)) ihrest
        (by omega) (by omega)
      have hstop : byteLength front + byteLength inner + 2 - 1 =
          byteLength front + 1 + byteLength inner := by
        omega
      rwa [hstop]

end Forests

section Scanning

namespace Scan

/-- The scan behind a text, as to its offset and its boundary. -/
def behind (scan : Scan) (text : Text) : Scan :=
  { scan with offset := byteLength text, boundary := lastFence text }

/-- Put a block on the stack whose opening brace is behind a text. -/
def push (scan : Scan) (text : Text) : Scan :=
  { scan with
    opened := ⟨lastFence text, byteLength text, []⟩ :: scan.opened }

/-- Find rules in the innermost open block, or outside of all. -/
def add (scan : Scan) (rules : List Rule) : Scan :=
  match scan.opened with
  | [] => { scan with found := rules.reverse ++ scan.found }
  | block :: outer =>
      { scan with
        opened :=
          { block with children := rules.reverse ++ block.children } :: outer }

theorem add_nil (scan : Scan) : scan.add [] = scan := by
  obtain ⟨offset, boundary, opened, found⟩ := scan
  cases opened <;> rfl

theorem add_append (scan : Scan) (rules rules' : List Rule) :
    scan.add (rules ++ rules') = (scan.add rules).add rules' := by
  obtain ⟨offset, boundary, opened, found⟩ := scan
  cases opened <;> simp [add]

theorem opened_add_eq_nil_iff (scan : Scan) (rules : List Rule) :
    (scan.add rules).opened = [] ↔ scan.opened = [] := by
  obtain ⟨offset, boundary, opened, found⟩ := scan
  cases opened <;> simp [add]

theorem rules_add (scan : Scan) (rules : List Rule) :
    (scan.add rules).rules = scan.rules ++ rules := by
  obtain ⟨offset, boundary, opened, found⟩ := scan
  cases opened <;> simp [add, Scan.rules]

theorem rules_push (scan : Scan) (text : Text) :
    (scan.push text).rules = scan.rules := by
  simp [push, Scan.rules]

theorem step_pass (scan : Scan) (text : Text) {c : Char}
    (hopen : c ≠ '{') (hclose : c ≠ '}') :
    (scan.behind text).step c = scan.behind (text ++ [c]) := by
  rw [Rule.step_pass _ hopen hclose]
  by_cases hsemicolon : c = ';'
  · subst hsemicolon
    simp [behind, lastFence_append_fence (c := ';') rfl]
  · have hfence : isFence c = false := by
      simp [isFence, hopen, hclose, hsemicolon]
    simp [behind, hsemicolon, lastFence_append_singleton, hfence]

theorem step_open (scan : Scan) (text : Text) :
    (scan.behind text).step '{' = (scan.push text).behind (text ++ ['{']) := by
  rw [behind, behind, lastFence_append_fence rfl, byteLength_append_open]
  rfl

theorem step_stray {scan : Scan} (h : scan.opened = []) (text : Text) :
    (scan.behind text).step '}' = scan.behind (text ++ ['}']) := by
  obtain ⟨offset, boundary, opened, found⟩ := scan
  obtain rfl : opened = [] := h
  rw [behind, behind, lastFence_append_fence rfl, byteLength_append]
  rfl

theorem step_close (scan : Scan) (front inner : Text) (children : List Rule) :
    (((scan.push front).add children).behind (front ++ '{' :: inner)).step '}' =
      (scan.add [ofBlock front inner children]).behind
        (front ++ '{' :: (inner ++ ['}'])) := by
  have hopen : ('{' : Char).utf8Size = 1 := rfl
  have hclose : ('}' : Char).utf8Size = 1 := rfl
  have hstop : byteLength front + (1 + byteLength inner) + 1 =
      byteLength front + byteLength inner + 2 := by
    omega
  obtain ⟨offset, boundary, opened, found⟩ := scan
  rw [behind, behind, lastFence_append_block, byteLength_append_block,
    byteLength_append, byteLength_cons, hopen]
  cases opened with
  | nil =>
      simp only [push, add, step, close, ofBlock, hclose, hstop]
      simp
  | cons block outer =>
      simp only [push, add, step, close, ofBlock, hclose, hstop]
      simp

end Scan

variable {front text : Text} {rules : List Rule}

/-- A block adds its rule, with those found in it. -/
theorem foldl_step_block {inner : Text} {children : List Rule} {scan : Scan}
    (h : inner.foldl Scan.step ((scan.push front).behind (front ++ ['{'])) =
      ((scan.push front).add children).behind (front ++ ['{'] ++ inner))
    (rest : Text) :
    ('{' :: (inner ++ '}' :: rest)).foldl Scan.step (scan.behind front) =
      rest.foldl Scan.step
        ((scan.add [ofBlock front inner children]).behind
          (front ++ '{' :: (inner ++ ['}']))) := by
  rw [List.append_assoc, List.singleton_append] at h
  rw [List.foldl_cons, scan.step_open, List.foldl_append, h, List.foldl_cons,
    scan.step_close]

/-- Balanced text only adds its rules. -/
theorem TreeOf.foldl_step_of_balanced (h : TreeOf front text rules)
    (hbalanced : Balanced text) (scan : Scan) :
    text.foldl Scan.step (scan.behind front) =
      (scan.add rules).behind (front ++ text) := by
  induction h generalizing scan with
  | nil front =>
      rw [scan.add_nil, List.append_nil]
      rfl
  | @pass front rest c rules hopen _ ih =>
      have hclose : c ≠ '}' := by
        rintro rfl
        cases hbalanced
      rw [Balanced, depthAfter?_cons_of_ne hopen hclose] at hbalanced
      rw [List.foldl_cons, scan.step_pass front hopen hclose, ih hbalanced,
        List.append_assoc, List.singleton_append]
  | @unclosed front rest rules hdepth _ _ =>
      have hopened : Balanced ([] ++ '{' :: rest) := hbalanced
      exact absurd hopened.depthAfter?_eq_none_of_open hdepth
  | @block front inner rest children rules hinner _ _ ihinner ihrest =>
      rw [Balanced, hinner.depthAfter?_block] at hbalanced
      rw [foldl_step_block (ihinner hinner _), ihrest hbalanced,
        ← scan.add_append]
      simp

/--
The scan finds the tree. A closing brace without a partner is passed over when
no block is open; behind an unclosed block there is none.
-/
theorem TreeOf.rules_foldl_step (h : TreeOf front text rules) (scan : Scan)
    (hclosed : scan.opened = [] ∨ depthAfter? 0 text ≠ none) :
    (text.foldl Scan.step (scan.behind front)).rules = scan.rules ++ rules := by
  induction h generalizing scan with
  | nil front =>
      rw [List.append_nil]
      rfl
  | @pass front rest c rules hopen _ ih =>
      rw [List.foldl_cons]
      by_cases hclose : c = '}'
      · subst hclose
        have hopened := hclosed.resolve_right (fun hdepth => hdepth rfl)
        rw [Scan.step_stray hopened, ih scan (.inl hopened)]
      · rw [depthAfter?_cons_of_ne hopen hclose] at hclosed
        rw [scan.step_pass front hopen hclose, ih scan hclosed]
  | @unclosed front rest rules hdepth _ ih =>
      rw [List.foldl_cons, scan.step_open, ih _ (.inr hdepth), scan.rules_push]
  | @block front inner rest children rules hinner htree _ _ ihrest =>
      rw [hinner.depthAfter?_block] at hclosed
      rw [foldl_step_block (htree.foldl_step_of_balanced hinner _),
        ihrest _ (by rwa [Scan.opened_add_eq_nil_iff]), Scan.rules_add,
        List.append_assoc, List.singleton_append]

theorem ofMasked_of_treeOf {masked : Text} (h : TreeOf [] masked rules) :
    ofMasked masked = rules :=
  h.rules_foldl_step Scan.start (.inl rfl)

end Scanning

/-- The rules of a text are its pairs of matching braces. -/
structure IsBraceTree (text : Text) (rules : List Rule) : Prop where
  /-- The rules come in the order of their opening braces, each once. -/
  ascending : (listing rules).Pairwise (fun r r' => r.brace < r'.brace)
  /-- There is one for every pair, and for no other braces. -/
  pairs : ∀ pair, pair ∈ (listing rules).map Rule.pair ↔ Matched text pair
  /-- A selector list begins behind the last fence in front of its block. -/
  spans : ∀ r ∈ listing rules, ∃ front back, text = front ++ '{' :: back ∧
    r.pair.opening = byteLength front ∧
    r.span = ⟨lastFence front, r.pair.closing + 1⟩ ∧
    r.selectorList = ⟨lastFence front, r.pair.opening⟩ ∧
    r.declarations = ⟨r.pair.opening, r.pair.closing + 1⟩
  /-- No pair encloses a rule at top level. -/
  outermost : ∀ r ∈ rules, ∀ pair, Matched text pair → ¬ pair.Encloses r.pair
  /-- The parent is the smallest pair that encloses a rule. -/
  parent : ∀ p ∈ listing rules, ∀ r ∈ p.children,
    p.pair.Encloses r.pair ∧
      ∀ pair, Matched text pair → pair.Encloses r.pair →
        pair = p.pair ∨ pair.Encloses p.pair
  /-- The rules of one level follow each other. -/
  apart : Apart rules ∧ ∀ p ∈ listing rules, Apart p.children
  /-- They stay between the braces of their parent. -/
  inside : ∀ p ∈ listing rules, ∀ r ∈ p.children,
    p.pair.opening < r.span.start ∧ r.span.stop ≤ p.pair.closing

/-- The rules of a masked text are its pairs of matching braces. -/
theorem ofMasked_isBraceTree (masked : Text) :
    IsBraceTree masked (ofMasked masked) := by
  obtain ⟨rules, htree⟩ := exists_treeOf [] masked
  rw [ofMasked_of_treeOf htree]
  have hforest := htree.forest
  have hpairs : ∀ pair,
      pair ∈ (listing rules).map Rule.pair ↔ Matched masked pair :=
    htree.mem_pairs_iff
  have hrule : ∀ pair, Matched masked pair →
      ∃ q ∈ listing rules, q.pair = pair := by
    intro pair hpair
    exact List.mem_map.mp ((hpairs pair).mpr hpair)
  constructor
  case ascending =>
    exact hforest.ascending
  case pairs =>
    exact hpairs
  case spans =>
    intro r hr
    obtain ⟨front, back, heq, hbrace, hstart⟩ := htree.start_eq r hr
    have hwithin := hforest.within r hr
    have hstop : r.stop - 1 + 1 = r.stop := by
      omega
    refine ⟨front, back, heq, hbrace, ?_, ?_, ?_⟩
    · rw [span, pair, hstart, hstop]
    · rw [selectorList, pair, hstart]
    · rw [declarations, pair, hstop]
  case outermost =>
    intro r hr pair hpair
    obtain ⟨q, hq, rfl⟩ := hrule pair hpair
    exact hforest.outermost r hr q hq
  case parent =>
    intro p hp r hr
    have hinside := hforest.inside p hp r hr
    have hwithin := hforest.within r (hforest.listed p hp r hr)
    refine ⟨⟨?_, ?_⟩, ?_⟩
    · simp only [pair]
      omega
    · simp only [pair]
      omega
    · intro pair hpair hencloses
      obtain ⟨q, hq, rfl⟩ := hrule pair hpair
      rcases hforest.parent p hp r hr q hq hencloses with rfl | houter
      · exact .inl rfl
      · exact .inr houter
  case apart =>
    exact ⟨hforest.apart, hforest.apartInside⟩
  case inside =>
    intro p hp r hr
    have hinside := hforest.inside p hp r hr
    simp only [pair, span]
    omega

-- Both blocks in the unclosed one are found.
example : (ofMasked ['}', 'a', '{', 'b', '{', '}', 'c', '{', '}']).map Rule.pair =
    [⟨4, 5⟩, ⟨7, 8⟩] := by
  decide

end Rule

end StylesheetPruning
