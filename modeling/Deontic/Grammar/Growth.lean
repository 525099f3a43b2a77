import Deontic.Random.Sampler

/-! Growing a tree from a rule.  At each position the rule's words are weighed and one is chosen; a
word for leaves then chooses its text, and any other grows its parts below, the left one first.  The
choices for the position with index `i` stand under the keys `(i, "node_type")` and `(i, word)`. -/

namespace Deontic.Grammar

variable {P : Type}

def key (index : Int) (name : String) : Value := .tuple [.int index, .text name]

/-- The entry of a table, or a failure that names what is missing. -/
def entry {ν : Type} (table : Table String ν) (name : String) : Sampler P ν :=
  match table.get? name with
  | some found => .pure found
  | none => .fail (.noEntry (.text name))

def chooseWord (grammar : Grammar P) (index : Int) (rule : String) : Sampler P String := do
  let weights ← entry grammar.wordWeights rule
  let chosen ← Sampler.sample (key index "node_type") (.ofTexts weights)
  match chosen.text? with
  | some word => return word
  | none => .fail (.noEntry chosen)

def growLeaf (grammar : Grammar P) (index : Int) (word : String) : Sampler P Tree := do
  match grammar.textWeights.get? word with
  | none => .fail (.grammar (.noTextWeights word))
  | some weights =>
    let chosen ← Sampler.sample (key index word) (.ofTexts weights)
    match chosen.text? with
    | some text => (grammar.vocabulary.buildLeaf word text : Except WordFault Tree)
    | none => .fail (.noEntry chosen)

/-- Grows the tree at a position from a rule, in at most as many nested calls as the first number
says. -/
def grow (grammar : Grammar P) : Nat → Int → String → Sampler P Tree
  | 0, _, _ => .fail (.execution .tooDeep)
  | calls + 1, index, rule => do
    let word ← chooseWord grammar index rule
    let parts ← entry (← entry grammar.rules rule) word
    match parts with
    | [] => growLeaf grammar index word
    | [left] =>
      let left ← grow grammar calls (Tree.leftOf index) left
      (grammar.vocabulary.buildBranch word left .missing : Except WordFault Tree)
    | [left, right] =>
      let left ← grow grammar calls (Tree.leftOf index) left
      let right ← grow grammar calls (Tree.rightOf index) right
      (grammar.vocabulary.buildBranch word left right : Except WordFault Tree)
    | _ => .fail (.grammar (.tooManyPartsGrown word))

def growth (grammar : Grammar P) (index : Int) (rule : String) : Program P Tree :=
  fun calls => grammar.grow calls index rule

/-- The program that grows a whole tree, with its choices below the key `"tree"`. -/
def model (grammar : Grammar P) : Program P Tree :=
  fun calls => (grammar.grow calls 1 grammar.root).under (.text "tree")

end Deontic.Grammar
