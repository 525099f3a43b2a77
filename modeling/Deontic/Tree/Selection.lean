import Deontic.Random.Sampler
import Deontic.Scale
import Deontic.Tree.Position

/-! Picking a node of a tree at random.  The walk starts at the root, stops at a branch with
probability one over its size, and else goes to the left part with the share of that part in the
nodes below.  So every node is picked with the same probability, and no list of nodes is made.  The
walk may be kept from stopping at branches, or at its start. -/

namespace Deontic

/-- A node that was picked, with its index and its level. -/
structure Selection where
  node : Tree
  index : Int
  depth : Int
  deriving Inhabited

def Selection.written (selection : Selection) : String :=
  "Selection(node=" ++ selection.node.written ++ ", idx=" ++ toString selection.index ++
    ", depth=" ++ toString selection.depth ++ ")"

/-- Whether all integers in the written form of a selection can be written. -/
def Selection.isWritable (selection : Selection) : Bool :=
  selection.node.isWritable && Text.isWritable selection.index && Text.isWritable selection.depth

namespace Tree

variable {P W : Type} [Scale P W]

def stopProbability (leafOnly excludeRoot : Bool) : Tree → Except Fault P
  | branch _ _ _ stored =>
    .ok (if excludeRoot || leafOnly then Scale.zero P else Scale.ratio 1 stored.size)
  | t => if excludeRoot then .error (.leafExcluded t) else .ok (Scale.one P)

/-- The probability of going to the left part when the walk does not stop. -/
def leftProbability (left : Tree) (stored : Extent) : P :=
  Scale.ratio left.stored.size (stored.size - 1)

/-- Picks a node of the tree at an index and a level.  Only the start can be excluded. -/
def select (leafOnly : Bool) : Bool → Tree → Int → Int → Sampler P Selection
  | excludeRoot, branch kind left right stored, index, depth => do
    let t := branch kind left right stored
    let stop ← (t.stopProbability leafOnly excludeRoot : Except Fault P)
    let done ← Sampler.sample (.tuple [.text "done", .int depth]) (.bernoulli stop)
    if done.isTrue then return ⟨t, index, depth⟩
    let toLeft ← Sampler.sample (.tuple [.text "recurse_left", .int index])
      (.bernoulli (leftProbability left stored))
    if toLeft.isTrue then select leafOnly false left (leftOf index) (depth + 1)
    else select leafOnly false right (rightOf index) (depth + 1)
  | excludeRoot, t, index, depth => do
    let stop ← (t.stopProbability leafOnly excludeRoot : Except Fault P)
    let done ← Sampler.sample (.tuple [.text "done", .int depth]) (.bernoulli stop)
    if done.isTrue then return ⟨t, index, depth⟩
    .fail (.notABranch t)

end Tree

end Deontic
