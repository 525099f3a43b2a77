import Deontic.Document.Parser
import Deontic.Grammar.Validation
import Deontic.Text.Number

/-! Grammars as documents, and the grammar that is used when there is none.  The document is an
object with the tables `rules`, `node_type_probabilities` and `terminal_value_probabilities`, and
perhaps a `root_rule`.  Weights may be numbers, truth values or numerals in quotes; the parts of a
word may be any array, the code points of a text, or the names of an object.  `members` describes a
grammar in this form, and `ofMembers` reads it. -/

namespace Deontic

namespace Document

variable {P W : Type} [Scale P W]

def items : Document P → Except DocumentFault (List (String × Document P))
  | object members => .ok members
  | other => .error (.noItems other.kind)

/-- The values that a document contains, one after the other. -/
def parts : Document P → Except DocumentFault (List (Document P))
  | array items => .ok items
  | text s => .ok ((Text.codePoints s.toList).map fun point => text (String.ofList point.spelling))
  | object members => .ok (members.map fun member => text member.1)
  | other => .error (.notIterable other.kind)

def weight : Document P → Except Fault P
  | bool b => .ok (if b then Scale.one P else Scale.zero P)
  | integer n =>
    if (Binary64.ofInt n).isFinite then .ok (Scale.ofInt n) else .error (.number .tooLarge)
  | real p => .ok p
  | text s =>
    match Text.readReal? s with
    | some x => .ok (Scale.ofDouble x)
    | none => .error (.document (.notNumeral s))
  | other => .error (.document (.notNumber other.kind))

def ofTable {ν : Type} (describe : ν → Document P) (table : Table String ν) : Document P :=
  object (table.entries.map fun entry => (entry.1, describe entry.2))

end Document

namespace Grammar

variable {P W : Type} [Scale P W]

def readTable {ν : Type} (read : Document P → Except Fault ν) (document : Document P) :
    Except Fault (Table String ν) := do
  let members ← document.items
  let entries ← members.mapM fun (name, value) => do return (name, ← read value)
  return .ofList entries

def readRules : Document P → Except Fault (Table String (Table String (List (Document P)))) :=
  readTable (readTable fun document => do return ← document.parts)

def readWeights : Document P → Except Fault (Table String (Table String P)) :=
  readTable (readTable Document.weight)

/-- The member with a name, which must be there. -/
def readField (members : List (String × Document P)) (name : String) :
    Except Fault (Document P) :=
  match Document.member? members name with
  | some document => .ok document
  | none => .error (.grammar (.missingTable name))

def ofMembers (vocabulary : Vocabulary) (members : List (String × Document P)) :
    Except Fault (Grammar P) := do
  let rules ← readField members "rules"
  let wordWeights ← readField members "node_type_probabilities"
  let textWeights ← readField members "terminal_value_probabilities"
  let draft : Grammar P (Document P) := {
    rules := ← readRules rules
    wordWeights := ← readWeights wordWeights
    textWeights := ← readWeights textWeights
    root := (Document.member? members "root_rule").getD (.text "NORMS")
    vocabulary }
  draft.validate
  return draft.named

def members (grammar : Grammar P) : List (String × Document P) :=
  [("rules", .ofTable (.ofTable fun parts => .array (parts.map .text)) grammar.rules),
   ("node_type_probabilities", .ofTable (.ofTable .real) grammar.wordWeights),
   ("terminal_value_probabilities", .ofTable (.ofTable .real) grammar.textWeights),
   ("root_rule", .text grammar.root)]

/-- The grammar that a text describes; `place` names the text in messages. -/
def load (vocabulary : Vocabulary) (place source : String) : Except Fault (Grammar P) := do
  match ← Document.parse source with
  | .object members => ofMembers vocabulary (Document.mapMembers Scale.ofDouble members)
  | _ => throw (.grammar (.notAnObject place))

/-- Obligations and prohibitions for colours in three zones, or no norm. -/
def standard : Grammar P where
  rules := .ofList
    [("NORMS", .ofList
        [("No_norm", []), ("Obl", ["COLOUR", "ZONE"]), ("Pro", ["COLOUR", "ZONE"])]),
     ("ZONE", .ofList [("Zone", [])]), ("COLOUR", .ofList [("Colour", [])]),
     ("NO_NORM", .ofList [("No_norm", [])])]
  wordWeights := .ofList
    [("NORMS", .ofList
        [("No_norm", Scale.ratio 3 10), ("Obl", Scale.ratio 4 10), ("Pro", Scale.ratio 3 10)]),
     ("ZONE", .ofList [("Zone", Scale.one P)]), ("COLOUR", .ofList [("Colour", Scale.one P)]),
     ("NO_NORM", .ofList [("No_norm", Scale.one P)])]
  textWeights := .ofList
    [("Colour", .ofList
        [("red", Scale.ratio 1 6), ("green", Scale.ratio 1 2), ("blue", Scale.ratio 1 6),
         ("any", Scale.ratio 1 6)]),
     ("Zone", .ofList [("1", Scale.ratio 1 2), ("2", Scale.ratio 1 4), ("3", Scale.ratio 1 4)]),
     ("No_norm", .ofList [("true", Scale.one P)])]
  root := "NORMS"
  vocabulary := .standard

end Grammar

end Deontic
