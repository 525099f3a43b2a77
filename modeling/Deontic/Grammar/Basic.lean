import Deontic.Table
import Deontic.Vocabulary
import Deontic.Binary64.Shortest
import Deontic.Scale

/-! Grammars of norm trees.  A rule offers words; a word stands for a node and lists the rules of
its parts, none for a leaf.  Each rule weighs its words, and each word for leaves weighs their
texts.  The references from one rule to another are names in a grammar that is used, and other
values in one that has only been read, so their type is a parameter. -/

namespace Deontic

/-- Rules by name with the words they offer, the weights of both, the rule of a whole tree, and the
vocabulary that the words belong to. -/
structure Grammar (P : Type) (ρ : Type := String) where
  rules : Table String (Table String (List ρ))
  wordWeights : Table String (Table String P)
  textWeights : Table String (Table String P)
  root : ρ
  vocabulary : Vocabulary
  deriving Inhabited

namespace Grammar

/-- What a table of weights belongs to. -/
inductive Subject where
  | rule (name : String)
  | word (name : String)
  deriving DecidableEq, Inhabited

def Subject.described : Subject → String
  | rule name => "rule " ++ Text.quoted name
  | word name => "terminal parameter " ++ Text.quoted name

/-- Names in ascending order, in quotes between square brackets. -/
def listed (names : List String) : String :=
  let sorted := names.mergeSort fun a b => decide (a ≤ b)
  "[" ++ ", ".intercalate (sorted.map Text.quoted) ++ "]"

end Grammar

/-- Why tables do not form a grammar. -/
inductive GrammarFault where
  | unknownRoot (root : String)
  | noWordWeights (rule : String)
  | wordsDiffer (rule : String) (offered weighed : List String)
  | emptyTable (subject : Grammar.Subject)
  | negativeWeight (subject : Grammar.Subject)
  | wrongTotal (subject : Grammar.Subject) (total : Binary64)
  | weightsForUnknownRule (rule : String)
  | tooManyParts (word rule : String)
  | unknownPart (rule part : String)
  | branchWithoutParts (word : String)
  | noTextWeights (word : String)
  | unknownRegrowth (word : String) (rule : Option String)
  | wrongRegrowth (word rule : String) (offered : List String)
  | leafWithParts (word : String)
  | missingTable (name : String)
  | notAnObject (place : String)
  | tooManyPartsGrown (word : String)
  | noSuchZone (label : String) (zones : Int)
  deriving DecidableEq, Inhabited

def GrammarFault.message : GrammarFault → String
  | unknownRoot root => "Unknown root rule " ++ root
  | noWordWeights rule => "No node-type probabilities for rule " ++ Text.quoted rule
  | wordsDiffer rule offered weighed =>
    "Rule " ++ Text.quoted rule ++ " expands to " ++ Grammar.listed offered ++
      " but has probabilities for " ++ Grammar.listed weighed
  | emptyTable subject => "Empty probability table for " ++ subject.described
  | negativeWeight subject => "Negative probability in table for " ++ subject.described
  | wrongTotal subject total =>
    "Probabilities for " ++ subject.described ++ " sum to " ++ total.toText ++ ", not 1"
  | weightsForUnknownRule rule => "Probabilities given for unknown rule " ++ Text.quoted rule
  | tooManyParts word rule =>
    "Invalid arity for " ++ Text.quoted word ++ " in rule " ++ Text.quoted rule ++
      ": internal nodes support at most two children"
  | unknownPart rule part => "Rule " ++ Text.quoted rule ++ " refers to unknown rule " ++ part
  | branchWithoutParts word =>
    "Internal node type " ++ Text.quoted word ++ " has no child rules"
  | noTextWeights word =>
    "No distribution found for terminal parameter " ++ Text.quoted word
  | unknownRegrowth word rule =>
    "Leaf type " ++ Text.quoted word ++ " regrows under unknown rule " ++
      (rule.map Text.quoted).getD "None"
  | wrongRegrowth word rule offered =>
    "Leaf type " ++ Text.quoted word ++ " regrows under rule " ++ Text.quoted rule ++
      ", which expands to " ++ Grammar.listed offered ++ " instead of only " ++ Text.quoted word
  | leafWithParts word => "Leaf node type " ++ Text.quoted word ++ " cannot have child rules"
  | missingTable name => "Missing configuration table " ++ Text.quoted name
  | notAnObject place => place ++ ": expected a JSON object"
  | tooManyPartsGrown word =>
    "Invalid arity for " ++ Text.quoted word ++ ": internal nodes support at most two children"
  | noSuchZone label zones =>
    "Zone label " ++ Text.quoted label ++ " is not one of 1.." ++ toString zones

/-- Whether all integers in the wording of a fault can be written. -/
def GrammarFault.isWritable : GrammarFault → Bool
  | noSuchZone _ zones => Text.isWritable zones
  | _ => true

namespace Grammar

/-- Whether two grammars have the same tables and root, in any order and with any vocabulary. -/
def agrees {P W : Type} [Scale P W] (a b : Grammar P) : Bool :=
  let equal (p q : P) := Scale.le p q && Scale.le q p
  a.rules.agrees (fun x y => x.agrees (· == ·) y) b.rules &&
    a.wordWeights.agrees (fun x y => x.agrees equal y) b.wordWeights &&
    a.textWeights.agrees (fun x y => x.agrees equal y) b.textWeights && a.root == b.root

end Grammar

end Deontic
