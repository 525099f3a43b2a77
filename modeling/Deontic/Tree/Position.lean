import Deontic.Tree.Basic

/-! Positions in a tree.  The root has index 1, and the parts of the node with index `i` have the
indices `2 * i` and `2 * i + 1`, so the binary digits of an index after its leading 1 spell the way
from the root: 0 to the left part, 1 to the right part. -/

namespace Deontic

/-- Why a position cannot be read. -/
inductive PositionFault where
  | notAnIndex (index : Int)
  | noNode (index : Int)
  | staleBranch (kind : BranchKind) (stored expected : Extent)
  | staleLeaf (found : Tree)
  deriving Inhabited

def PositionFault.message : PositionFault → String
  | notAnIndex index => "Invalid tree index " ++ toString index
  | noNode index => "No node at index " ++ toString index
  | staleBranch kind stored expected =>
    (Shape.branch kind).name ++ " caches size=" ++ toString stored.size ++ ", depth=" ++
      toString stored.depth ++ "; expected size=" ++ toString expected.size ++ ", depth=" ++
      toString expected.depth
  | staleLeaf found => "Leaf " ++ found.written ++ " must have size 1 and depth 0"

/-- Whether all integers in the wording of a fault can be written. -/
def PositionFault.isWritable : PositionFault → Bool
  | notAnIndex index | noNode index => Text.isWritable index
  | staleBranch _ stored expected => stored.isWritable && expected.isWritable
  | staleLeaf found => found.isWritable

namespace Tree

/-- One step down. -/
inductive Side where
  | left
  | right
  deriving DecidableEq, Inhabited

def leftOf (index : Int) : Int := 2 * index

def rightOf (index : Int) : Int := 2 * index + 1

def route (index : Nat) : List Side :=
  if index ≤ 1 then []
  else route (index / 2) ++ [if index % 2 = 0 then .left else .right]

/-- Every node with its index and its level, a node before its parts and the left part before the
right one. -/
def walk : Tree → Int → Int → List (Int × Int × Tree)
  | branch kind left right stored, index, level =>
    (index, level, branch kind left right stored) ::
      (left.walk (leftOf index) (level + 1) ++ right.walk (rightOf index) (level + 1))
  | t, index, level => [(index, level, t)]

def follow? : Tree → List Side → Option Tree
  | t, [] => some t
  | branch _ left _ _, .left :: rest => left.follow? rest
  | branch _ _ right _, .right :: rest => right.follow? rest
  | _, _ :: _ => none

/-- The tree with another one in place of the part at the end of a way down.  The nodes on the way
are built anew. -/
def regrow? (new : Tree) : Tree → List Side → Option Tree
  | _, [] => some new
  | branch kind left right _, .left :: rest =>
    (regrow? new left rest).map fun left => ofBranch kind left right
  | branch kind left right _, .right :: rest =>
    (regrow? new right rest).map fun right => ofBranch kind left right
  | _, _ :: _ => none

/-- The tree with another extent stored at the end of a way down, and nothing else changed. -/
def restamp? (size depth : Option Int) : Tree → List Side → Option Tree
  | leaf kind text stored, [] =>
    some (leaf kind text ⟨size.getD stored.size, depth.getD stored.depth⟩)
  | empty stored, [] => some (empty ⟨size.getD stored.size, depth.getD stored.depth⟩)
  | branch kind left right stored, [] =>
    some (branch kind left right ⟨size.getD stored.size, depth.getD stored.depth⟩)
  | branch kind left right stored, .left :: rest =>
    (restamp? size depth left rest).map fun left => branch kind left right stored
  | branch kind left right stored, .right :: rest =>
    (restamp? size depth right rest).map fun right => branch kind left right stored
  | _, _ :: _ => none

/-- What `find` gives for the way to an index. -/
def atIndex (index : Int) (find : List Side → Option Tree) : Except PositionFault Tree :=
  if index < 1 then .error (.notAnIndex index)
  else match find (route index.toNat) with
    | some t => .ok t
    | none => .error (.noNode index)

def subtreeAt (t : Tree) (index : Int) : Except PositionFault Tree := atIndex index t.follow?

def replaceAt (t : Tree) (index : Int) (new : Tree) : Except PositionFault Tree :=
  atIndex index (regrow? new t)

def restampAt (t : Tree) (index : Int) (size depth : Option Int) : Except PositionFault Tree :=
  atIndex index (restamp? size depth t)

/-- Derives every stored extent from the parts below and compares; parts before their node. -/
def checkStored : Tree → Except PositionFault Unit
  | branch kind left right stored => do
    left.checkStored
    right.checkStored
    let expected := Extent.join left.stored right.stored
    if stored = expected then .ok () else .error (.staleBranch kind stored expected)
  | t => if t.stored = .single then .ok () else .error (.staleLeaf t)

@[simp] theorem follow?_nil (t : Tree) : t.follow? [] = some t := by
  cases t <;> rfl

@[simp] theorem regrow?_nil (new t : Tree) : regrow? new t [] = some new := by
  cases t <;> rfl

end Tree

end Deontic
