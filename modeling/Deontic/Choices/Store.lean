import Deontic.Choices.Basic

/-! Choices as objects that several names can hold.  A store is a row of cells; the number of a cell
is its handle.  A cell keeps its own values and the handles of the cells nested in it, which are
always later in the row, so no cell is reachable from itself.  `read` gives the choices that a
handle shows.  Handing out nested choices hands out the cell itself; putting choices under a key
stores a copy.  An edit that fails leaves the store as far as it came. -/

namespace Deontic.Choices

/-- The values of one level and the handles of the levels nested in it. -/
structure Cell where
  values : Table Value Value
  nested : Table Value Nat

def Cell.empty : Cell := ⟨.empty, .empty⟩

/-- Cells in the order in which they were made. -/
structure Store where
  cells : List Cell := []
  deriving Inhabited

namespace Store

/-- The cell with a handle; a handle that was never given out has no entries. -/
def cell (store : Store) (handle : Nat) : Cell := store.cells[handle]?.getD .empty

def update (store : Store) (handle : Nat) (change : Cell → Cell) : Store :=
  ⟨store.cells.modify handle change⟩

/-- The store with one more cell, without entries, and its handle. -/
def fresh (store : Store) : Store × Nat :=
  (⟨store.cells ++ [.empty]⟩, store.cells.length)

/-- Choices from a cell's values and what its nested handles show. -/
def assemble (cell : Cell) (view : Nat → Choices) : Choices :=
  cell.values.entries.foldr (fun entry rest => .value entry.1 entry.2 rest)
    (cell.nested.entries.foldr (fun entry rest => .nested entry.1 (view entry.2) rest) .empty)

/-- What a handle shows, down to a number of levels. -/
def readTo (store : Store) : Nat → Nat → Choices
  | 0, _ => .empty
  | depth + 1, handle => assemble (store.cell handle) (store.readTo depth)

/-- What a handle shows.  No path through the store is longer than the store. -/
def read (store : Store) (handle : Nat) : Choices :=
  store.readTo store.cells.length handle

/-- Adds the entries of choices to the cell with a handle, in new cells below it. -/
def fill : Choices → Nat → Store → Store
  | .empty, _, store => store
  | .value key chosen rest, handle, store =>
    fill rest handle
      (store.update handle fun cell => { cell with values := cell.values.insert key chosen })
  | .nested key inner rest, handle, store =>
    let (store, child) := store.fresh
    let store := fill inner child store
    fill rest handle
      (store.update handle fun cell => { cell with nested := cell.nested.insert key child })

def add (store : Store) (choices : Choices) : Store × Nat :=
  let (store, handle) := store.fresh
  (fill choices handle store, handle)

end Store

/-- A change of a store, which may fail on the way. -/
abbrev Edit := ExceptT AddressFault (StateM Store)

namespace Edit

def require (check : Except AddressFault Unit) : Edit Unit :=
  match check with
  | .ok () => pure ()
  | .error fault => throw fault

def cell (handle : Nat) : Edit Cell := do return (← getThe Store).cell handle

def read (handle : Nat) : Edit Choices := do return (← getThe Store).read handle

def fresh : Edit Nat := modifyGet fun store =>
  let (store, handle) := store.fresh
  (handle, store)

def add (choices : Choices) : Edit Nat := modifyGet fun store =>
  let (store, handle) := store.add choices
  (handle, store)

def update (handle : Nat) (change : Cell → Cell) : Edit Unit :=
  modify fun store => store.update handle change

def setItem (handle : Nat) (key chosen : Value) : Edit Unit := do
  require key.checkKey
  if (← cell handle).nested.contains key then throw (.holdsNested key)
  update handle fun cell => { cell with values := cell.values.insert key chosen }

/-- Writes a value at a path from a cell, in new cells where the path leaves the store. -/
def set (handle : Nat) : Path → Value → Edit Unit
  | [], _ => throw .noAddress
  | [key], chosen => setItem handle key chosen
  | key :: rest, chosen => do
    require key.checkKey
    match (← cell handle).nested.get? key with
    | some child => set child rest chosen
    | none =>
      if (← cell handle).values.contains key then throw (.holdsValue key)
      let child ← fresh
      update handle fun cell => { cell with nested := cell.nested.insert key child }
      set child rest chosen

/-- Makes a cell that shows the given entries. -/
def ofEntries (entries : List (Path × Value)) : Edit Nat :=
  match Choices.ofEntries entries with
  | .ok choices => add choices
  | .error fault => throw fault

/-- Makes a cell that shows the entries of what another one shows. -/
def copy (handle : Nat) : Edit Nat := do
  ofEntries (← read handle).flatten.entries

/-- The cell nested under a key.  A cell that shows no value is not handed out; a new one stands in,
which nothing refers to. -/
def getUnder (handle : Nat) (key : Value) : Edit Nat := do
  require key.checkKey
  match (← cell handle).nested.get? key with
  | some child => if (← read child).size = 0 then fresh else return child
  | none => fresh

/-- Puts a copy of what `source` shows under a key.  Choices without an entry clear the key. -/
def setUnder (handle : Nat) (key : Value) (source : Nat) : Edit Unit := do
  require key.checkKey
  if (← cell handle).values.contains key then throw (.holdsValue key)
  let inner ← read source
  if inner.isEmpty then
    update handle fun cell => { cell with nested := cell.nested.erase key }
  else
    let child ← add inner.tidy
    update handle fun cell => { cell with nested := cell.nested.insert key child }

end Edit

end Deontic.Choices
