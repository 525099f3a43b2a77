import Deontic.Table
import Deontic.Tree.Basic

/-! The words of a grammar.  A word names a variant of nodes, and a word for leaves also says under
which rule such a leaf is grown again.  Several words may name one variant; a node is read back as
the first of them. -/

namespace Deontic

/-- A word: the variant it names, and the rule under which leaves of that word are regrown. -/
structure Word where
  name : String
  shape : Shape
  regrowth : Option String
  deriving DecidableEq, Inhabited

/-- Words by name, in the order in which they were declared. -/
structure Vocabulary where
  words : Table String Word
  deriving Inhabited

/-- Why a word cannot be used. -/
inductive WordFault where
  | unknown (name : String)
  | notLeaf (name : String)
  | notBranch (name : String)
  | textForEmpty
  | nameless (shape : Shape)
  | noRegrowth (name : String)
  deriving DecidableEq, Inhabited

def WordFault.message : WordFault → String
  | unknown name => "Unregistered node type " ++ Text.quoted name
  | notLeaf name => "Node type " ++ Text.quoted name ++ " is not a leaf"
  | notBranch name => "Node type " ++ Text.quoted name ++ " is not an internal node"
  | textForEmpty => "Empty.__init__() takes 1 positional argument but 2 were given"
  | nameless shape => "No registered node type for " ++ shape.name
  | noRegrowth name => "Node type " ++ Text.quoted name ++ " has no regrowth rule"

namespace Vocabulary

/-- The vocabulary of the given words; of two with one name the later counts, at the place of the
earlier. -/
def ofWords (words : List Word) : Vocabulary :=
  ⟨.ofList (words.map fun word => (word.name, word))⟩

def toList (vocabulary : Vocabulary) : List Word := vocabulary.words.values

def contains (vocabulary : Vocabulary) (name : String) : Bool := vocabulary.words.contains name

def lookup (vocabulary : Vocabulary) (name : String) : Except WordFault Word :=
  match vocabulary.words.get? name with
  | some word => .ok word
  | none => .error (.unknown name)

def buildLeaf (vocabulary : Vocabulary) (name text : String) : Except WordFault Tree := do
  match (← vocabulary.lookup name).shape with
  | .leaf kind => return .ofLeaf kind text
  | .empty => throw .textForEmpty
  | .branch _ => throw (.notLeaf name)

def buildBranch (vocabulary : Vocabulary) (name : String) (left right : Tree) :
    Except WordFault Tree := do
  match (← vocabulary.lookup name).shape with
  | .branch kind => return .ofBranch kind left right
  | _ => throw (.notBranch name)

def wordOf (vocabulary : Vocabulary) (t : Tree) : Except WordFault Word :=
  match vocabulary.toList.find? fun word => word.shape == t.shape with
  | some word => .ok word
  | none => .error (.nameless t.shape)

def regrowthRule (vocabulary : Vocabulary) (t : Tree) : Except WordFault String := do
  let word ← vocabulary.wordOf t
  match word.regrowth with
  | some rule => return rule
  | none => throw (.noRegrowth word.name)

/-- The words for placements: no norm, zones, colours, norms, obligations and prohibitions. -/
def standard : Vocabulary :=
  ofWords
    [⟨"No_norm", .leaf .noNorm, some "NO_NORM"⟩, ⟨"Zone", .leaf .zone, some "ZONE"⟩,
     ⟨"Colour", .leaf .colour, some "COLOUR"⟩, ⟨"Norm", .branch .norm, none⟩,
     ⟨"Obl", .branch .obligation, none⟩, ⟨"Pro", .branch .prohibition, none⟩]

end Vocabulary

end Deontic
