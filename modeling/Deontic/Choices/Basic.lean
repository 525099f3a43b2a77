import Deontic.Table
import Deontic.Value

/-! Choices by address.  Each level holds values and nested choices under keys, and the address of a
value is the list of keys that lead to it.  A key never holds both a value and nested choices, which
the operations here keep.  Nested choices may be empty: such a level has no entry, but its key is
taken. -/

namespace Deontic

/-- Values and nested choices under keys, in order of arrival. -/
inductive Choices where
  | empty
  | value (key chosen : Value) (rest : Choices)
  | nested (key : Value) (inner rest : Choices)
  deriving Inhabited

/-- Why choices cannot be read or written at an address. -/
inductive AddressFault where
  | noAddress
  | holdsValue (key : Value)
  | holdsNested (key : Value)
  | noKey (key : Value)
  | noValue (path : Path)
  | notKey
  deriving Inhabited

def AddressFault.message : AddressFault → String
  | noAddress => "tuple index out of range"
  | holdsValue key => "Address " ++ key.written ++ " already holds a value"
  | holdsNested key => "Address " ++ key.written ++ " already holds a submap"
  | noKey key => key.text?.getD key.written
  | noValue path => "No value at address " ++ path.written
  | notKey => "unhashable type: 'list'"

/-- Whether all integers in the wording of a fault can be written. -/
def AddressFault.isWritable : AddressFault → Bool
  | holdsValue key | holdsNested key | noKey key => key.isWritable
  | noValue path => path.isWritable
  | noAddress | notKey => true

def Value.checkKey (key : Value) : Except AddressFault Unit :=
  if key.isKey then .ok () else .error .notKey

def Path.check (path : Path) : Except AddressFault Unit := path.forM Value.checkKey

namespace Choices

instance : EmptyCollection Choices := ⟨empty⟩

def value? : Choices → Value → Option Value
  | empty, _ => none
  | value key chosen rest, wanted => if key == wanted then some chosen else rest.value? wanted
  | nested _ _ rest, wanted => rest.value? wanted

def nested? : Choices → Value → Option Choices
  | empty, _ => none
  | value _ _ rest, wanted => rest.nested? wanted
  | nested key inner rest, wanted => if key == wanted then some inner else rest.nested? wanted

def contains (choices : Choices) (key : Value) : Except AddressFault Bool := do
  key.checkKey
  return (choices.value? key).isSome || (choices.nested? key).isSome

/-- Writes a value under a key, in place if the key holds one. -/
def put : Choices → Value → Value → Choices
  | empty, key, chosen => value key chosen empty
  | value old was rest, key, chosen =>
    if old == key then value old chosen rest else value old was (rest.put key chosen)
  | nested old inner rest, key, chosen => nested old inner (rest.put key chosen)

/-- Writes nested choices under a key, in place if the key holds some. -/
def graft : Choices → Value → Choices → Choices
  | empty, key, inner => nested key inner empty
  | value old was rest, key, inner => value old was (rest.graft key inner)
  | nested old was rest, key, inner =>
    if old == key then nested old inner rest else nested old was (rest.graft key inner)

def prune : Choices → Value → Choices
  | empty, _ => empty
  | value old was rest, key => value old was (rest.prune key)
  | nested old was rest, key => if old == key then rest else nested old was (rest.prune key)

def size : Choices → Nat
  | empty => 0
  | value _ _ rest => rest.size + 1
  | nested _ inner rest => inner.size + rest.size

def isEmpty : Choices → Bool
  | empty => true
  | value .. => false
  | nested _ inner rest => inner.isEmpty && rest.isEmpty

/-- The entries of the values here, and those of the nested choices, each with its path. -/
def parts : Choices → List (Path × Value) × List (Path × Value)
  | empty => ([], [])
  | value key chosen rest => (([key], chosen) :: rest.parts.1, rest.parts.2)
  | nested key inner rest =>
    let below := inner.parts.1 ++ inner.parts.2
    (rest.parts.1, below.map (fun entry => (key :: entry.1, entry.2)) ++ rest.parts.2)

/-- Every value with its path: at each level the values before the nested choices. -/
def entries (choices : Choices) : List (Path × Value) :=
  choices.parts.1 ++ choices.parts.2

def flatten (choices : Choices) : Table Path Value := .ofList choices.entries

def values : Choices → List (Value × Value)
  | empty => []
  | value key chosen rest => (key, chosen) :: rest.values
  | nested _ _ rest => rest.values

def nestings : Choices → List (Value × Choices)
  | empty => []
  | value _ _ rest => rest.nestings
  | nested key inner rest => (key, inner) :: rest.nestings

def tidy : Choices → Choices
  | empty => empty
  | value key chosen rest => value key chosen rest.tidy
  | nested key inner rest => if inner.isEmpty then rest.tidy else nested key inner.tidy rest.tidy

def setItem (choices : Choices) (key chosen : Value) : Except AddressFault Choices := do
  key.checkKey
  if (choices.nested? key).isSome then throw (.holdsNested key)
  return choices.put key chosen

/-- Writes a value at a path, with the levels that lead there. -/
def set (choices : Choices) : Path → Value → Except AddressFault Choices
  | [], _ => .error .noAddress
  | [key], chosen => choices.setItem key chosen
  | key :: rest, chosen => do
    key.checkKey
    match choices.nested? key with
    | some inner => return choices.graft key (← inner.set rest chosen)
    | none =>
      if (choices.value? key).isSome then throw (.holdsValue key)
      return choices.graft key (← empty.set rest chosen)

/-- The value at a path, if there is one.  The empty path is no address; of the other paths only the
keys up to the first that holds nothing are looked at. -/
def find (choices : Choices) : Path → Except AddressFault (Option Value)
  | [] => .error .noAddress
  | [key] => do
    key.checkKey
    return choices.value? key
  | key :: rest => do
    key.checkKey
    match choices.nested? key with
    | some inner => inner.find rest
    | none => return none

def get (choices : Choices) (path : Path) : Except AddressFault Value := do
  match ← choices.find path with
  | some chosen => return chosen
  | none => throw (.noValue path)

def has (choices : Choices) (path : Path) : Except AddressFault Bool := do
  return (← choices.find path).isSome

def getItem (choices : Choices) (key : Value) : Except AddressFault Value := do
  key.checkKey
  match choices.value? key with
  | some chosen => return chosen
  | none => throw (.noKey key)

/-- The nested choices under a key, or none at all. -/
def under (choices : Choices) (key : Value) : Choices :=
  (choices.nested? key).getD empty

def getUnder (choices : Choices) (key : Value) : Except AddressFault Choices := do
  key.checkKey
  return choices.under key

/-- Puts choices under a key.  Choices without an entry clear the key. -/
def setUnder (choices : Choices) (key : Value) (inner : Choices) :
    Except AddressFault Choices := do
  key.checkKey
  if (choices.value? key).isSome then throw (.holdsValue key)
  return if inner.isEmpty then choices.prune key else choices.graft key inner.tidy

/-- The choices with the given entries.  The entries are first put into a table, so that of two with
one path the later counts, and then written one after the other. -/
def ofEntries (entries : List (Path × Value)) : Except AddressFault Choices := do
  entries.forM fun entry => entry.1.check
  (Table.ofList entries).entries.foldlM (fun choices entry => choices.set entry.1 entry.2) empty

/-- The entries with their paths below another path, which is looked at only if there is one. -/
def flattenBelow (choices : Choices) (front : Path) :
    Except AddressFault (Table Path Value) := do
  let entries := choices.flatten.entries.map fun entry => (front ++ entry.1, entry.2)
  entries.forM fun entry => entry.1.check
  return .ofList entries

/-- Whether two choices have the same entries, in any order. -/
def agrees (a b : Choices) : Bool :=
  a.flatten.agrees (· == ·) b.flatten

instance : BEq Choices := ⟨agrees⟩

def written (choices : Choices) : String :=
  "ChoiceMap(\x7b" ++
    ", ".intercalate (choices.flatten.entries.map fun entry =>
      entry.1.written ++ ": " ++ entry.2.written) ++ "\x7d)"

/-- One line for each value: the keys of its address, a colon and the value. -/
def listing (choices : Choices) : String :=
  "\n".intercalate (choices.flatten.entries.map fun entry =>
    " => ".intercalate (entry.1.map Value.written) ++ " : " ++ entry.2.written)

def isWritable (choices : Choices) : Bool :=
  choices.entries.all fun entry => Path.isWritable entry.1 && entry.2.isWritable

end Choices

end Deontic
