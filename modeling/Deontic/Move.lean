import Deontic.Grammar.Growth
import Deontic.Random.Trace
import Deontic.Tree.Selection

/-! Replacing a part of a tree.  A proposal picks a node, with its choices below `"pick_node"`, and
grows a new tree for its place, with its choices below `"subtree"`.  The replacement puts the grown
choices into the trace of the tree; the choices they displace are those that grow the old part
again, so the replacement is undone by a replacement at the same node. -/

namespace Deontic

/-- A node that was picked, its place, and the tree that is to replace it. -/
structure Proposal where
  node : Tree
  index : Int
  depth : Int
  subtree : Tree
  deriving Inhabited

def Proposal.written (proposal : Proposal) : String :=
  "Proposal(node=" ++ proposal.node.written ++ ", idx=" ++ toString proposal.index ++
    ", depth=" ++ toString proposal.depth ++ ", subtree=" ++ proposal.subtree.written ++ ")"

namespace Grammar

variable {P W : Type} [Scale P W]

/-- The rule under which a node is grown again: that of its word for a leaf, else the root rule. -/
def regrowthRule (grammar : Grammar P) (node : Tree) : Except Fault String :=
  if node.shape.isTerminal then (grammar.vocabulary.regrowthRule node).mapError .vocabulary
  else .ok grammar.root

/-- The program that proposes a replacement in a tree.  A missing part stays missing. -/
def proposal (grammar : Grammar P) (root : Tree) : Program P Proposal := fun calls => do
  let picked ← (root.select false false 1 1).under (.text "pick_node")
  if picked.node.shape == .empty then
    return ⟨picked.node, picked.index, picked.depth, picked.node⟩
  let rule ← (grammar.regrowthRule picked.node : Except Fault String)
  let subtree ← (grammar.grow calls picked.index rule).under (.text "subtree")
  return ⟨picked.node, picked.index, picked.depth, subtree⟩

end Grammar

namespace Trace

variable {P W α : Type} [Scale P W]

/-- Puts the choices of a proposal, shown in records as `shown`, into a trace.  Gives the new trace
if there is one, the choices of the proposal that undoes this one, and the log-weight
of the change. -/
def replace (trace : Trace P W α) (proposed : Choices) (shown : String) :
    Act P (Option (Trace P W α) × Choices × W) := do
  let edits ← (Choices.empty.setUnder (.text "tree") (proposed.under (.text "subtree")) :
    Except AddressFault Choices)
  let (revised, weight, discard) ← trace.update edits
  let picked ← (Choices.empty.setUnder (.text "pick_node")
    (proposed.under (.text "pick_node")) : Except AddressFault Choices)
  let undo ← (picked.setUnder (.text "subtree") (discard.under (.text "tree")) :
    Except AddressFault Choices)
  Act.tell (.replaced shown (Scale.weightDouble P weight))
  return (revised, undo, weight)

end Trace

end Deontic
