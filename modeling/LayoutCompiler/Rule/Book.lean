import LayoutCompiler.Rule.Document
import LayoutCompiler.Storage.Basic
/-!
# Rule books

All rules in use. Rules are never replaced: each name has a list of rules in order of rank, and
rules of one rank stand in the order in which they were added. The first rule of the list that
accepts what is asked is the answer.
-/

namespace LayoutCompiler

/-- The rules in use, by tag and by attribute. -/
structure RuleBook where
  elements : SortedMap (List ElementRule) := SortedMap.empty
  attributes : SortedMap (List AttributeRule) := SortedMap.empty

/-- A list in descending order of rank with one more member, behind those of the same rank. -/
def insertRanked {β : Type} (rank : β → Nat) (x : β) : List β → List β
  | [] => [x]
  | y :: ys => if rank y < rank x then x :: y :: ys else y :: insertRanked rank x ys

namespace RuleBook

/-! ## Adding -/

/-- The book with one more element rule. -/
def addElement (book : RuleBook) (r : ElementRule) : RuleBook :=
  { book with
    elements := book.elements.insert r.id
      (insertRanked ElementRule.priority r ((book.elements.get? r.id).getD [])) }

/-- The book with one more attribute rule. -/
def addAttribute (book : RuleBook) (r : AttributeRule) : RuleBook :=
  { book with
    attributes := book.attributes.insert r.id
      (insertRanked AttributeRule.priority r ((book.attributes.get? r.id).getD [])) }

/-- The book with the rules of a document added in order. -/
def add (book : RuleBook) (document : RuleDocument) : RuleBook :=
  document.attributes.foldl addAttribute (document.elements.foldl addElement book)

/-- Reads a text, puts its rules one by one into the book in use, and hands back how many those are.
No rule is put there before the whole document has passed the checks. -/
def loadText (format : DataFormat) (origin text : String) : Session (StateM RuleBook) Nat := do
  let document ← Session.ofOutcome (RuleDocument.read format origin text)
  document.elements.forM fun r => Session.perform (modify (·.addElement { r with origin }))
  document.attributes.forM fun r => Session.perform (modify (·.addAttribute { r with origin }))
  pure document.size

/-- The book with the rules of a text, and how many those are. -/
def load (book : RuleBook) (format : DataFormat) (origin text : String) :
    Outcome (Nat × RuleBook) :=
  let (count, loaded) := (loadText format origin text).run book
  count.map fun n => (n, loaded)

/-! ## Listing -/

/-- The element rules, by tag and rank. -/
def elementRules (book : RuleBook) : List ElementRule := book.elements.values.flatten

/-- The attribute rules, by attribute and rank. -/
def attributeRules (book : RuleBook) : List AttributeRule := book.attributes.values.flatten

/-- The tags that have rules. -/
def tags (book : RuleBook) : List String := book.elements.keys

/-! ## Asking -/

/-- The best rule for an element. -/
def matchElement? (book : RuleBook) (tag : String) (attributes : Attributes) :
    Option ElementRule :=
  (book.elements.get? tag).bind fun rules => rules.find? fun r => r.accepts attributes

/-- The rules after one in its chain. Each names its parent by tag; a tag that has been met before
ends the chain, so that it has at most as many rules as there are tags. -/
def chainFrom (book : RuleBook) (attributes : Attributes) :
    Nat → List String → ElementRule → List ElementRule
  | 0, _, _ => []
  | steps + 1, seen, r =>
    match r.parent with
    | none => []
    | some parent =>
      if seen.contains parent then []
      else match book.matchElement? parent attributes with
        | none => []
        | some next => next :: chainFrom book attributes steps (parent :: seen) next

/-- A rule and those that fill in what it leaves open, nearest first. -/
def chain (book : RuleBook) (r : ElementRule) (attributes : Attributes) : List ElementRule :=
  r :: book.chainFrom attributes book.elements.size [r.id] r

/-- Whether there are rules for an attribute. -/
def knows (book : RuleBook) (name : String) : Bool := book.attributes.contains name

/-- The best rule for an attribute on elements of a tag. -/
def matchAttribute? (book : RuleBook) (element name : String) (kind : ValueKind) (raw : String) :
    Option AttributeRule :=
  (book.attributes.get? name).bind fun rules => rules.find? fun r => r.accepts element kind raw

/-- Whether an attribute on elements of a tag writes nothing but style declarations that do not
depend on the element. -/
def isStyleOnly (book : RuleBook) (element name : String) : Bool :=
  match ((book.attributes.get? name).getD []).filter fun r => r.element == element with
  | [] => false
  | rules => rules.all AttributeRule.isPlainStyle

end RuleBook

end LayoutCompiler
