import Deontic.Document.Basic
import Deontic.Fault

/-! Checking a grammar.  The root and every part must be rules, each rule must weigh exactly the
words it offers, weights must be a distribution, and words must be used as what they name: leaves
without parts and with weighed texts, branches with one or two parts.  A leaf must be regrown under
a rule that offers its word alone.  The first fault in the order of the tables is reported. -/

namespace Deontic

/-- What may stand where a rule is named. -/
class Reference (ρ : Type) where
  /-- The rule that is named, if it can be one. -/
  name? : ρ → Option String
  /-- Why the reference cannot be looked up at all. -/
  refused? : ρ → Option DocumentFault
  written : ρ → String

instance : Reference String where
  name? := some
  refused? _ := none
  written := Text.quoted

instance {P W : Type} [Scale P W] : Reference (Document P) where
  name?
    | .text s => some s
    | _ => none
  refused?
    | .array items => some (.notKey (Document.array items).kind)
    | .object members => some (.notKey (Document.object members).kind)
    | _ => none
  written := Document.written Scale.double

namespace Grammar

variable {P W ρ : Type} [Scale P W] [Reference ρ]

def hasRule (grammar : Grammar P ρ) (reference : ρ) : Except Fault Bool :=
  match Reference.refused? reference with
  | some fault => .error (.document fault)
  | none => .ok ((Reference.name? reference).any grammar.rules.contains)

def sameNames (a b : List String) : Bool := a.all b.contains && b.all a.contains

def checkWeights (subject : Subject) (weights : List P) : Except Fault Unit := do
  if weights.isEmpty then throw (.grammar (.emptyTable subject))
  if weights.any fun p => Scale.lt p (Scale.zero P) then
    throw (.grammar (.negativeWeight subject))
  let total ← (Scale.exactSum weights : Except NumberFault P)
  if !Scale.isNearlyOne total then
    throw (.grammar (.wrongTotal subject (Scale.double total)))

def checkLeaf (grammar : Grammar P ρ) (word : Word) : Except Fault Unit := do
  if !word.shape.isTerminal then throw (.grammar (.branchWithoutParts word.name))
  if !grammar.textWeights.contains word.name then throw (.grammar (.noTextWeights word.name))
  match word.regrowth.bind fun rule => (grammar.rules.get? rule).map (rule, ·) with
  | none => throw (.grammar (.unknownRegrowth word.name word.regrowth))
  | some (rule, offered) =>
    if !sameNames offered.keys [word.name] then
      throw (.grammar (.wrongRegrowth word.name rule offered.keys))

def checkParts (grammar : Grammar P ρ) (rule : String) : List ρ → Except Fault Unit
  | [] => .ok ()
  | part :: rest => do
    if !(← grammar.hasRule part) then
      throw (.grammar (.unknownPart rule (Reference.written part)))
    grammar.checkParts rule rest

/-- Checks a word that a rule offers, with its parts. -/
def checkOffer (grammar : Grammar P ρ) (rule name : String) (parts : List ρ) :
    Except Fault Unit := do
  let word ← grammar.vocabulary.lookup name
  if 2 < parts.length then throw (.grammar (.tooManyParts name rule))
  grammar.checkParts rule parts
  if parts.isEmpty then grammar.checkLeaf { word with name }
  else if word.shape.isTerminal then throw (.grammar (.leafWithParts name))

def checkRule (grammar : Grammar P ρ) (rule : String) (offered : Table String (List ρ)) :
    Except Fault Unit := do
  match grammar.wordWeights.get? rule with
  | none => throw (.grammar (.noWordWeights rule))
  | some weights =>
    if !sameNames weights.keys offered.keys then
      throw (.grammar (.wordsDiffer rule offered.keys weights.keys))
    checkWeights (.rule rule) weights.values
    offered.entries.forM fun (name, parts) => grammar.checkOffer rule name parts

def validate (grammar : Grammar P ρ) : Except Fault Unit := do
  if !(← grammar.hasRule grammar.root) then
    throw (.grammar (.unknownRoot (Reference.written grammar.root)))
  grammar.rules.entries.forM fun (rule, offered) => grammar.checkRule rule offered
  grammar.wordWeights.keys.forM fun rule =>
    if grammar.rules.contains rule then .ok ()
    else .error (.grammar (.weightsForUnknownRule rule))
  grammar.textWeights.entries.forM fun (word, weights) =>
    checkWeights (.word word) weights.values

def named (grammar : Grammar P ρ) : Grammar P where
  rules := grammar.rules.mapValues fun offered =>
    offered.mapValues fun parts => parts.filterMap Reference.name?
  wordWeights := grammar.wordWeights
  textWeights := grammar.textWeights
  root := (Reference.name? grammar.root).getD ""
  vocabulary := grammar.vocabulary

end Grammar

end Deontic
