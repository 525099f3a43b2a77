import Deontic.Tree.Basic

/-! Where and why a text is not that of a tree.  Positions count code points; a negative one counts
from the end, as in every slice of a text. -/

namespace Deontic

/-- A stretch of a text. -/
structure Span where
  start : Int
  stop : Int
  deriving DecidableEq, Inhabited

namespace Span

def offset (length : Nat) (position : Int) : Nat :=
  min (if position < 0 then (length + position).toNat else position.toNat) length

def isWritable (span : Span) : Bool := Text.isWritable span.start && Text.isWritable span.stop

def extract {α : Type} (span : Span) (source : List α) : List α :=
  let start := offset source.length span.start
  let stop := offset source.length span.stop
  (source.take stop).drop start

def snippet (span : Span) (source : List Char) : String :=
  String.ofList (Text.spell (span.extract (Text.codePoints source)))

end Span

namespace Tree

/-- What is wrong with a text. -/
inductive Problem where
  | unexpected (point : Text.CodePoint)
  | unexpectedToken
  | unexpectedEnd
  | unknownName (name : String)
  | needsNothing
  | needsText (kind : LeafKind)
  | needsParts (kind : BranchKind)
  | noted (text : String)
  deriving DecidableEq, Inhabited

def Problem.message : Problem → String
  | unexpected point => "Unexpected character " ++ Text.quoted (String.ofList point.spelling)
  | unexpectedToken => "Unexpected token"
  | unexpectedEnd => "Unexpected end of input"
  | unknownName name => "Unknown node type " ++ name
  | needsNothing => "Empty takes no arguments"
  | needsText kind => (Shape.leaf kind).name ++ " takes exactly one value"
  | needsParts kind => (Shape.branch kind).name ++ " takes exactly two nodes"
  | noted text => text

/-- A problem with the stretch of the source that has it, and the source if it is at hand. -/
structure Misread where
  problem : Problem
  span : Span
  source : Option (List Char)
  deriving Inhabited

/-- The problem, its position, and the text there if it is known. -/
def Misread.message (misread : Misread) : String :=
  let place := misread.problem.message ++ " @ " ++ toString misread.span.start ++ ":" ++
    toString misread.span.stop
  match misread.source with
  | none => place
  | some source => place ++ ": " ++ Text.quoted (misread.span.snippet source)

end Tree

end Deontic
