import Deontic.Text.Digit
import Deontic.Text.Quoted

/-! Norm trees.  A leaf names a zone, a colour or the absence of a norm; a branch is a norm, an
obligation or a prohibition with two parts, the second of which may be missing.  Every node stores
the size and the depth of the tree below it, which `ofLeaf`, `missing` and `ofBranch` compute; the
stored numbers are part of the data, so that a tree with wrong ones can be told from a sound one. -/

namespace Deontic

/-- The kinds of leaves that carry a text. -/
inductive LeafKind where
  | noNorm
  | zone
  | colour
  deriving DecidableEq, Inhabited

/-- The kinds of nodes with two parts. -/
inductive BranchKind where
  | norm
  | obligation
  | prohibition
  deriving DecidableEq, Inhabited

/-- What a node is, apart from its content: one of the seven variants. -/
inductive Shape where
  | leaf (kind : LeafKind)
  | empty
  | branch (kind : BranchKind)
  deriving DecidableEq, Inhabited

namespace Shape

def name : Shape → String
  | leaf .noNorm => "NoNorm"
  | leaf .zone => "Zone"
  | leaf .colour => "Colour"
  | empty => "Empty"
  | branch .norm => "Norm"
  | branch .obligation => "Obligation"
  | branch .prohibition => "Prohibition"

/-- All variants, leaves first. -/
def all : List Shape :=
  [leaf .noNorm, leaf .zone, leaf .colour, empty, branch .norm, branch .obligation,
   branch .prohibition]

def ofName? (name : String) : Option Shape := all.find? fun shape => shape.name == name

def isTerminal : Shape → Bool
  | branch _ => false
  | _ => true

theorem ofName?_name (shape : Shape) : ofName? shape.name = some shape := by
  rcases shape with ⟨⟨⟩⟩ | _ | ⟨⟨⟩⟩ <;> decide

theorem name_of_ofName? {name : String} {shape : Shape} (h : ofName? name = some shape) :
    shape.name = name := by
  simpa using List.find?_some h

end Shape

/-- The stored size and depth of a tree. -/
structure Extent where
  size : Int
  depth : Int
  deriving DecidableEq, Inhabited

namespace Extent

def single : Extent := ⟨1, 0⟩

def join (left right : Extent) : Extent :=
  ⟨1 + left.size + right.size, 1 + max left.depth right.depth⟩

def isWritable (extent : Extent) : Bool :=
  Text.isWritable extent.size && Text.isWritable extent.depth

end Extent

/-- A norm tree with the extents stored in its nodes. -/
inductive Tree where
  | leaf (kind : LeafKind) (text : String) (stored : Extent)
  | empty (stored : Extent)
  | branch (kind : BranchKind) (left right : Tree) (stored : Extent)
  deriving Inhabited

namespace Tree

def stored : Tree → Extent
  | leaf _ _ stored => stored
  | empty stored => stored
  | branch _ _ _ stored => stored

def ofLeaf (kind : LeafKind) (text : String) : Tree := leaf kind text .single

def missing : Tree := empty .single

/-- A node above two trees; its extent comes from theirs. -/
def ofBranch (kind : BranchKind) (left right : Tree) : Tree :=
  branch kind left right (.join left.stored right.stored)

def shape : Tree → Shape
  | leaf kind .. => .leaf kind
  | empty _ => .empty
  | branch kind .. => .branch kind

def count : Tree → Nat
  | branch _ left right _ => 1 + left.count + right.count
  | _ => 1

def height : Tree → Nat
  | branch _ left right _ => 1 + max left.height right.height
  | _ => 0

/-- Trees whose nodes were all built by `ofLeaf`, `missing` and `ofBranch`. -/
inductive Sound : Tree → Prop
  | leaf (kind : LeafKind) (text : String) : Sound (ofLeaf kind text)
  | missing : Sound missing
  | branch (kind : BranchKind) {left right : Tree} :
      Sound left → Sound right → Sound (ofBranch kind left right)

/-- A sound tree stores the number of its nodes and its height. -/
theorem Sound.stored_eq {t : Tree} (h : Sound t) : t.stored = ⟨t.count, t.height⟩ := by
  induction h with
  | leaf => rfl
  | missing => rfl
  | @branch kind left right _ _ ihl ihr =>
    rw [show (ofBranch kind left right).stored = .join left.stored right.stored from rfl, ihl, ihr]
    simp only [ofBranch, count, height, Extent.join, Extent.mk.injEq]
    omega

/-- Equality of trees: the same variants and texts, and in branches the same stored extents. -/
def same : Tree → Tree → Bool
  | leaf kind text _, leaf kind' text' _ => kind == kind' && text == text'
  | empty _, empty _ => true
  | branch kind left right stored, branch kind' left' right' stored' =>
    kind == kind' && left.same left' && right.same right' && stored == stored'
  | _, _ => false

instance : BEq Tree := ⟨same⟩

def written : Tree → String
  | leaf kind text _ => (Shape.leaf kind).name ++ "(value=" ++ Text.quoted text ++ ")"
  | empty _ => "Empty()"
  | branch kind left right stored =>
    (Shape.branch kind).name ++ "(left=" ++ left.written ++ ", right=" ++ right.written ++
      ", size=" ++ toString stored.size ++ ", depth=" ++ toString stored.depth ++ ")"

/-- Whether all numbers in the written form of a tree can be written. -/
def isWritable : Tree → Bool
  | branch _ left right stored => left.isWritable && right.isWritable && stored.isWritable
  | _ => true

end Tree

end Deontic
