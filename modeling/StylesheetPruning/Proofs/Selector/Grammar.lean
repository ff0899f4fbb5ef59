import StylesheetPruning.Proofs.Selector.Serialization
import StylesheetPruning.Selector.Judgement

/-!
# A grammar of selector lists

Selector lists as data, how they are printed, and what a reader should find in
them. The data carries the proofs that it is well formed, so every value can be
printed.

**Syntax.** A list has members with whitespace around them, a member has
compounds with combinators between them, and a compound is an optional head
with conditions and pseudo selectors in any order.

**Printing.** `print` writes a list. Names are serialized; everything else is
written as it is.

**Reading.** The pseudo selectors behind a head or a condition are its suffix.
Pseudo selectors with nothing in front of them ask for nothing. `selectors`
lists what should be read, and `verdict` what a page should decide.
-/

namespace StylesheetPruning
namespace Grammar

section Syntax

/-- A name of a class or an element, in any characters but three. -/
structure Name where
  text : Text
  ne_nil : text ≠ []
  spelled : ∀ c ∈ text, isSpelled c = true
  starless : '*' ∉ text

/-- A name of elements, which is no keyframe marker. -/
structure ElementName where
  first : Char
  rest : Text
  isAlpha_first : first.isAlpha = true
  rest_plain : ∀ c ∈ rest, c.isAlphanum || c = '-'
  unmarked : Kind.isKeyframeMarker (first :: rest) = false

/-- What a compound may begin with. -/
inductive Head where
  | universal
  | element (name : ElementName)

/-- Whether a character may stand between the brackets of an attribute. -/
def isContentChar (c : Char) : Bool :=
  c ∉ ['[', ']', '(', ')', '\\', '"', '\'', '/', '*']

/-- What stands between the brackets of an attribute. -/
structure Content where
  text : Text
  plain : ∀ c ∈ text, isContentChar c = true

/-- A condition that a mark begins. -/
inductive Condition where
  | className (name : Name)
  | identifier (name : Name)
  | bracketed (content : Content)

/-- Whether a character may stand in the arguments of a pseudo selector. -/
def isArgumentChar (c : Char) : Bool :=
  c ∉ ['[', ']', '(', ')', '\\', '"', '\'', '/']

/-- A pseudo class or a pseudo element, with or without arguments. -/
structure Pseudo where
  double : Bool
  word : Text
  arguments : Option Text
  word_plain : ∀ c ∈ word, c.isAlpha || c = '-'
  arguments_plain : ∀ text ∈ arguments, ∀ c ∈ text, isArgumentChar c = true

/-- What may follow the head of a compound. -/
inductive Item where
  | condition (c : Condition)
  | pseudo (p : Pseudo)

/-- What is asked of one element. -/
structure Compound where
  head : Option Head
  items : List Item
  nonempty : head.isSome ∨ items ≠ []

/-- ASCII whitespace, possibly none. -/
structure Gap where
  text : Text
  blank : ∀ c ∈ text, isSpace c = true

/-- What stands between two compounds. -/
inductive Combinator where
  | descendant (gap : Gap) (h : gap.text ≠ [])
  | symbol (before : Gap) (c : Char) (h : c ∈ ['>', '+', '~', '|'])
      (after : Gap)

/-- Compounds with combinators between them. -/
structure Complex where
  first : Compound
  rest : List (Combinator × Compound)

/-- A member of a list, with the whitespace around it. -/
structure Member where
  before : Gap
  complex : Complex
  after : Gap

/-- A selector list. -/
structure SelectorList where
  members : List Member
  ne_nil : members ≠ []

end Syntax

section Printing

def Head.print : Head → Text
  | universal => ['*']
  | element name => name.first :: name.rest

def Condition.print : Condition → Text
  | className name => '.' :: serialize name.text
  | identifier name => '#' :: serialize name.text
  | bracketed content => ['['] ++ content.text ++ [']']

def Pseudo.print (pseudo : Pseudo) : Text :=
  (if pseudo.double then [':', ':'] else [':']) ++ (pseudo.word ++
    match pseudo.arguments with
    | none => []
    | some text => ['('] ++ text ++ [')'])

def Item.print : Item → Text
  | .condition c => c.print
  | .pseudo p => p.print

def Compound.print (compound : Compound) : Text :=
  (compound.head.elim [] Head.print) ++ compound.items.flatMap Item.print

def Combinator.print : Combinator → Text
  | descendant gap _ => gap.text
  | symbol before c _ after => before.text ++ c :: after.text

/-- The rest of a selector behind its first compound. -/
def Complex.printRest (rest : List (Combinator × Compound)) : Text :=
  rest.flatMap (fun next => next.1.print ++ next.2.print)

def Complex.print (complex : Complex) : Text :=
  complex.first.print ++ printRest complex.rest

def Member.print (member : Member) : Text :=
  member.before.text ++ (member.complex.print ++ member.after.text)

def SelectorList.print (list : SelectorList) : Text :=
  List.intercalate [','] (list.members.map Member.print)

end Printing

section Grouping

/-- What a simple selector begins with. -/
inductive Base where
  | head (h : Head)
  | condition (c : Condition)

/-- A head or a condition with the pseudo selectors behind it. -/
structure Simple where
  base : Base
  pseudos : List Pseudo

def Base.print : Base → Text
  | .head h => h.print
  | .condition c => c.print

def Simple.print (simple : Simple) : Text :=
  simple.base.print ++ simple.pseudos.flatMap Pseudo.print

def Base.kind : Base → Kind
  | head .universal => .universal
  | head (.element _) => .element
  | condition (.className _) => .className
  | condition (.identifier _) => .identifier
  | condition (.bracketed _) => .attributeName

/-- What a base is compared by: its name, or its text. -/
def Base.value : Base → Text
  | head h => h.print
  | condition (.className name) => name.text
  | condition (.identifier name) => name.text
  | condition (.bracketed content) => (Condition.bracketed content).print

/-- The pseudo selectors before all conditions, and the conditions. -/
def group : List Item → List Pseudo × List Simple
  | [] => ([], [])
  | .pseudo p :: rest =>
      let (pseudos, simples) := group rest
      (p :: pseudos, simples)
  | .condition c :: rest =>
      let (pseudos, simples) := group rest
      ([], ⟨.condition c, pseudos⟩ :: simples)

/-- The simple selectors of a compound. -/
def Compound.simples (compound : Compound) : List Simple :=
  let (pseudos, simples) := group compound.items
  match compound.head with
  | none => simples
  | some head => ⟨.head head, pseudos⟩ :: simples

/-- The simple selectors of all compounds, in order. -/
def Complex.simples (complex : Complex) : List Simple :=
  complex.first.simples ++ complex.rest.flatMap (fun next => next.2.simples)

end Grouping

section Expectation

/-- What should be read from a simple selector. -/
def Simple.part (simple : Simple) (position : Nat) : SimpleSelector :=
  { position := position
    source := trimEnd simple.print
    value := simple.base.value
    suffix :=
      if simple.pseudos.isEmpty then none
      else some (simple.pseudos.flatMap Pseudo.print)
    kind := simple.base.kind }

/-- Simple selectors by their positions, the first of which is given. -/
def partsFrom (position : Nat) (simples : List Simple) :
    List SimpleSelector :=
  (simples.zipIdx position).map
    (fun numbered => numbered.1.part numbered.2)

/-- What should be read from a member that starts at an offset. -/
def Member.selector (member : Member) (start : Nat) : Selector :=
  { span := ⟨start, start + byteLength member.print⟩
    source := member.print
    trimmed := trimEnd member.complex.print
    parts := partsFrom 0 member.complex.simples }

/-- What should be read from members, the first of which starts at an offset. -/
def selectorsFrom : Nat → List Member → List Selector
  | _, [] => []
  | start, member :: rest =>
      member.selector start ::
        selectorsFrom (start + byteLength member.print + 1) rest

/-- What should be read from a list that starts at an offset. -/
def SelectorList.selectors (list : SelectorList) (offset : Nat) :
    List Selector :=
  selectorsFrom offset list.members

end Expectation

section Pages

variable (inventory : Inventory)

def Head.isOn : Head → Bool
  | universal => true
  | element name =>
      inventory.elements.contains (lowered (name.first :: name.rest))

def Condition.isOn : Condition → Bool
  | className name => inventory.classes.contains name.text
  | identifier name => inventory.ids.contains name.text
  | bracketed _ => true

def Item.isOn : Item → Bool
  | .condition c => c.isOn inventory
  | .pseudo _ => true

/-- Whether a page has all that a compound asks for. -/
def Compound.isOn (compound : Compound) : Bool :=
  compound.head.all (Head.isOn inventory) &&
    compound.items.all (Item.isOn inventory)

/-- Whether a page has all that the compounds of a member ask for. -/
def Member.isOn (member : Member) : Bool :=
  member.complex.first.isOn inventory &&
    member.complex.rest.all (fun next => next.2.isOn inventory)

/-- Positions of the members that a page cannot satisfy. -/
def SelectorList.missing (list : SelectorList) : List Nat :=
  (list.members.zipIdx.filter
    (fun numbered => !numbered.1.isOn inventory)).map Prod.snd

/-- What a page should decide about a rule with a selector list. -/
def SelectorList.verdict (list : SelectorList) : Verdict :=
  if list.members.all (Member.isOn inventory) then .keep
  else if list.members.all (fun member => !member.isOn inventory) then .drop
  else .reduce (list.missing inventory)

end Pages

end Grammar
end StylesheetPruning
