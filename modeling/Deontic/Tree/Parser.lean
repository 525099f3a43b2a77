import Deontic.Tree.Misread
import Deontic.Tree.Token
import Deontic.Vocabulary

/-! Reading trees.  A `Reader` takes one token after the other and says what may come next; the
first token that it refuses is the error.  When the tokens end in a complete call, `Call.build`
makes the tree, with the names of the variants and, for other names, those of a vocabulary. -/

namespace Deontic.Tree

/-- A node as written: a name with nothing, a text, or two nodes in brackets. -/
inductive Call where
  | bare (name : List Char) (span : Span)
  | text (name content : List Char) (span : Span)
  | pair (name : List Char) (left right : Call) (span : Span)
  deriving Inhabited

/-- A call that is waiting for its first or its second node. -/
inductive Pending where
  | first (name : List Char) (start : Nat)
  | second (name : List Char) (start : Nat) (left : Call)
  deriving Inhabited

/-- What has been read and what may come next. -/
inductive Reader where
  | node (above : List Pending)
  | bracket (name : List Char) (start : Nat) (above : List Pending)
  | content (name : List Char) (start : Nat) (above : List Pending)
  | word (name : List Char) (start : Nat) (above : List Pending) (inner : List Char)
      (innerStart : Nat)
  | close (name : List Char) (start : Nat) (above : List Pending) (inner : List Char)
  | complete (call : Call) (above : List Pending)
  deriving Inhabited

namespace Reader

/-- Nothing has been read, and a node may start. -/
def start : Reader := node []

/-- The reader after one more token, if the token may come next. -/
def step : Reader → Token → Option Reader
  | node above, ⟨.name name, start, _⟩ => some (bracket name start above)
  | bracket name start above, ⟨.opening, _, _⟩ => some (content name start above)
  | content name start above, ⟨.closing, _, stop⟩ =>
    some (complete (.bare name ⟨start, stop⟩) above)
  | content name start above, ⟨.name inner, innerStart, _⟩ =>
    some (word name start above inner innerStart)
  | content name start above, ⟨.numeral inner, _, _⟩ => some (close name start above inner)
  | content name start above, ⟨.quoted inner, _, _⟩ => some (close name start above inner)
  | word name start above inner _, ⟨.closing, _, stop⟩ =>
    some (complete (.text name inner ⟨start, stop⟩) above)
  | word name start above inner innerStart, ⟨.opening, _, _⟩ =>
    some (content inner innerStart (.first name start :: above))
  | close name start above inner, ⟨.closing, _, stop⟩ =>
    some (complete (.text name inner ⟨start, stop⟩) above)
  | complete call (.first name start :: above), ⟨.comma, _, _⟩ =>
    some (node (.second name start call :: above))
  | complete call (.second name start left :: above), ⟨.closing, _, stop⟩ =>
    some (complete (.pair name left call ⟨start, stop⟩) above)
  | _, _ => none

/-- The call that has been read, if the text may end here. -/
def result? : Reader → Option Call
  | complete call [] => some call
  | _ => none

def run (reader : Reader) (source : List Char) (refused : Option (Nat × Text.CodePoint)) :
    List Token → Except Misread Call
  | [] =>
    match refused, reader.result? with
    | some (place, point), _ => .error ⟨.unexpected point, ⟨place, place + 1⟩, source⟩
    | none, some call => .ok call
    | none, none =>
      .error ⟨.unexpectedEnd, ⟨Text.length source, Text.length source⟩, source⟩
  | token :: rest =>
    match reader.step token with
    | some reader => reader.run source refused rest
    | none => .error ⟨.unexpectedToken, ⟨token.start, token.stop⟩, source⟩

end Reader

/-- The variant that a name means: its own, or else that of a word. -/
def shapeOf? (vocabulary : Vocabulary) (name : String) : Option Shape :=
  match Shape.ofName? name with
  | some shape => some shape
  | none => (vocabulary.words.get? name).map Word.shape

namespace Call

def name : Call → List Char
  | bare name _ => name
  | text name _ _ => name
  | pair name _ _ _ => name

/-- The stretch of the source from the name to the closing bracket. -/
def span : Call → Span
  | bare _ span => span
  | text _ _ span => span
  | pair _ _ _ span => span

/-- The tree that a call denotes.  The name comes first, then what the brackets hold, then the parts
from left to right. -/
def build (vocabulary : Vocabulary) (source : List Char) (call : Call) : Except Misread Tree :=
  match shapeOf? vocabulary (String.ofList call.name), call with
  | none, call =>
    .error ⟨.unknownName (String.ofList call.name), call.span, source⟩
  | some .empty, bare .. => .ok missing
  | some .empty, call => .error ⟨.needsNothing, call.span, source⟩
  | some (.leaf kind), text _ content _ => .ok (ofLeaf kind (String.ofList content))
  | some (.leaf kind), call => .error ⟨.needsText kind, call.span, source⟩
  | some (.branch kind), pair _ left right _ => do
    let left ← left.build vocabulary source
    let right ← right.build vocabulary source
    return ofBranch kind left right
  | some (.branch kind), call => .error ⟨.needsParts kind, call.span, source⟩

end Call

def readCall (source : List Char) : Except Misread Call :=
  let scan := scan source
  Reader.start.run source scan.refused scan.tokens

/-- The tree that a source spells.  Every fault of the spelling comes before those of the calls. -/
def parse (vocabulary : Vocabulary) (source : String) : Except Misread Tree := do
  let chars := source.toList
  (← readCall chars).build vocabulary chars

end Deontic.Tree
