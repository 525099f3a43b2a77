import Deontic.Choices.Basic
import Deontic.Document.Basic
import Deontic.Grammar.Basic
import Deontic.Place
import Deontic.Random.Distribution
import Deontic.Tree.Misread
import Deontic.Tree.Position
import Deontic.Tree.Printer

/-! Everything that can go wrong, by cause, with its wording.  Each part of the library has its own
faults; this is their sum, with those of executions, of moves and of documents.  A fault whose
wording needs an integer that is too long to be written is reported as that. -/

namespace Deontic

/-- Why an execution of a random program cannot go on. -/
inductive ExecutionFault where
  | repeated (address : Path)
  | unvalued (address : Path)
  | unvisited (address : Path)
  | ruledOut (address : Path)
  | tooDeep
  deriving Inhabited

def ExecutionFault.message : ExecutionFault → String
  | repeated address => "Address " ++ address.written ++ " visited twice"
  | unvalued address => "No value provided for address " ++ address.written
  | unvisited address => "Constraint at address " ++ address.written ++ " was not visited"
  | ruledOut address => "Choice at address " ++ address.written ++ " has probability zero"
  | tooDeep => "Nested calls outnumber the choices they can make"

/-- Whether all integers in the wording of a fault can be written. -/
def ExecutionFault.isWritable : ExecutionFault → Bool
  | repeated address | unvalued address | unvisited address | ruledOut address =>
    address.isWritable
  | tooDeep => true

/-- How a move fails to be undone by itself.  States are given as they are shown. -/
inductive UndoFault where
  | state (before : String) (after : Option String)
  | choices (before after : Choices)
  | weight (back forth : Binary64)
  deriving Inhabited

def UndoFault.message : UndoFault → String
  | state before after =>
    "Involution did not restore the model state:\n  before = " ++ before ++
      "\n  after  = " ++ after.getD "None"
  | choices before after =>
    "Involution did not restore the proposal choices:\n  before = " ++ before.written ++
      "\n  after  = " ++ after.written
  | weight back forth =>
    "Reverse weight " ++ back.toText ++ " is not the negation of " ++ forth.toText

/-- Whether all integers in the wording of a fault can be written. -/
def UndoFault.isWritable : UndoFault → Bool
  | choices before after => before.isWritable && after.isWritable
  | state .. | weight .. => true

/-- Why a document cannot be used. -/
inductive DocumentFault where
  | malformed
  | noItems (type : String)
  | notIterable (type : String)
  | notKey (type : String)
  | notNumber (type : String)
  | notNumeral (text : String)
  deriving DecidableEq, Inhabited

def DocumentFault.message : DocumentFault → String
  | malformed => "the document is malformed"
  | noItems type => "'" ++ type ++ "' object has no attribute 'items'"
  | notIterable type => "'" ++ type ++ "' object is not iterable"
  | notKey type => "unhashable type: '" ++ type ++ "'"
  | notNumber type => "float() argument must be a string or a real number, not '" ++ type ++ "'"
  | notNumeral text => "could not convert string to float: " ++ Text.quoted text

/-- The cause of a failure. -/
inductive Fault where
  | choices (fault : AddressFault)
  | tree (fault : PositionFault)
  | misread (fault : Tree.Misread)
  | vocabulary (fault : WordFault)
  | grammar (fault : GrammarFault)
  | number (fault : NumberFault)
  | supply (fault : SupplyFault)
  | execution (fault : ExecutionFault)
  | undo (fault : UndoFault)
  | document (fault : DocumentFault)
  | place (fault : PlaceFault)
  | noEntry (key : Value)
  | leafExcluded (leaf : Tree)
  | notABranch (leaf : Tree)
  | notATree (shown : String)
  | notInteger (text : String)
  | tooManyDigits (digits : Nat)
  | tooLongToWrite
  | notACount
  deriving Inhabited

namespace Fault

def shownLength : Nat := 200

def ofMisread : Document.Misread → Fault
  | .malformed => .document .malformed
  | .tooLong digits => .tooManyDigits digits

def limitMessage (detail : String) : String :=
  "Exceeds the limit (" ++ toString Text.maxDigits ++ " digits) for integer string conversion" ++
    detail ++ "; use sys.set_int_max_str_digits() to increase the limit"

def message : Fault → String
  | choices fault => fault.message
  | tree fault => fault.message
  | misread fault => fault.message
  | vocabulary fault => fault.message
  | grammar fault => fault.message
  | number fault => fault.message
  | supply fault => fault.message
  | execution fault => fault.message
  | undo fault => fault.message
  | document fault => fault.message
  | place fault => fault.message
  | noEntry key => key.text?.getD key.written
  | leafExcluded leaf => "Impossible selection: cannot exclude the root of leaf " ++ leaf.pretty
  | notABranch leaf => "Unexpected node in select_random_node: " ++ leaf.written
  | notATree shown => "Unexpected node in stop_probability: " ++ shown
  | notInteger text =>
    "invalid literal for int() with base 10: " ++
      String.ofList ((Text.quoted text).toList.take shownLength)
  | tooManyDigits digits => limitMessage (": value has " ++ toString digits ++ " digits")
  | tooLongToWrite => limitMessage ""
  | notACount => "'list' object cannot be interpreted as an integer"

/-- Whether all integers in the wording of a failure can be written. -/
def isWritable : Fault → Bool
  | choices fault => fault.isWritable
  | tree fault => fault.isWritable
  | misread fault => fault.span.isWritable
  | grammar fault => fault.isWritable
  | execution fault => fault.isWritable
  | undo fault => fault.isWritable
  | noEntry key => key.isWritable
  | notABranch leaf => leaf.isWritable
  | _ => true

def reported (fault : Fault) : Fault := if fault.isWritable then fault else tooLongToWrite

end Fault

instance : MonadLift (Except AddressFault) (Except Fault) := ⟨Except.mapError .choices⟩
instance : MonadLift (Except PositionFault) (Except Fault) := ⟨Except.mapError .tree⟩
instance : MonadLift (Except Tree.Misread) (Except Fault) := ⟨Except.mapError .misread⟩
instance : MonadLift (Except WordFault) (Except Fault) := ⟨Except.mapError .vocabulary⟩
instance : MonadLift (Except GrammarFault) (Except Fault) := ⟨Except.mapError .grammar⟩
instance : MonadLift (Except NumberFault) (Except Fault) := ⟨Except.mapError .number⟩
instance : MonadLift (Except SupplyFault) (Except Fault) := ⟨Except.mapError .supply⟩
instance : MonadLift (Except DocumentFault) (Except Fault) := ⟨Except.mapError .document⟩
instance : MonadLift (Except PlaceFault) (Except Fault) := ⟨Except.mapError .place⟩
instance : MonadLift (Except Document.Misread) (Except Fault) := ⟨Except.mapError .ofMisread⟩

end Deontic
