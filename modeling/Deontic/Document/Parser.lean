import Deontic.Document.Basic
import Deontic.Table

/-! Reading documents.  The notation is that of JSON with three more numbers: `NaN`, `Infinity` and
`-Infinity`.  Integers are exact, all other numbers are rounded to doubles.  Every reader takes the
characters that are left and gives what it read with the characters after it; the first fault in the
order of the text is reported. -/

namespace Deontic.Document

def skipBlanks (chars : List Char) : List Char :=
  chars.dropWhile fun c => c == ' ' || c == '\t' || c == '\n' || c == '\r'

def skipWord? : List Char → List Char → Option (List Char)
  | [], chars => some chars
  | w :: word, c :: chars => if w == c then skipWord? word chars else none
  | _ :: _, [] => none

def hexDigit? (c : Char) : Option Nat :=
  if '0' ≤ c ∧ c ≤ '9' then some (c.toNat - '0'.toNat)
  else if 'a' ≤ c ∧ c ≤ 'f' then some (c.toNat - 'a'.toNat + 10)
  else if 'A' ≤ c ∧ c ≤ 'F' then some (c.toNat - 'A'.toNat + 10)
  else none

def hexFour? (a b c d : Char) : Option Nat := do
  return ((← hexDigit? a) * 16 + (← hexDigit? b)) * 256 + (← hexDigit? c) * 16 + (← hexDigit? d)

def escaped? (c : Char) : Option Char :=
  if c == '"' || c == '\\' || c == '/' then some c
  else if c == 'b' then some '\x08'
  else if c == 'f' then some '\x0c'
  else if c == 'n' then some '\n'
  else if c == 'r' then some '\r'
  else if c == 't' then some '\t'
  else none

/-- Whether a code unit is the first or the second half of a pair. -/
def isHalf (first : Bool) (unit : Nat) : Bool :=
  if first then 0xd800 ≤ unit && unit < 0xdc00 else 0xdc00 ≤ unit && unit < 0xe000

/-- A piece of the content of a text: a character that stands for itself, or the number of a code
unit. -/
inductive Piece where
  | char (c : Char)
  | unit (number : Nat)
  deriving DecidableEq, Inhabited

/-- The characters that pieces spell: two halves in a row make one character. -/
def joinPieces : List Piece → List Char
  | [] => []
  | .char c :: rest => c :: joinPieces rest
  | .unit first :: .unit second :: rest =>
    if isHalf true first && isHalf false second then
      let code := 0x10000 + (first - 0xd800) * 0x400 + (second - 0xdc00)
      (Text.CodePoint.ofCode code).spelling ++ joinPieces rest
    else (Text.CodePoint.ofCode first).spelling ++ joinPieces (.unit second :: rest)
  | .unit number :: rest => (Text.CodePoint.ofCode number).spelling ++ joinPieces rest

def readPieces : List Char → Option (List Piece × List Char)
  | [] => none
  | '"' :: rest => some ([], rest)
  | '\\' :: 'u' :: a :: b :: c :: d :: rest => do
    let number ← hexFour? a b c d
    let (pieces, rest) ← readPieces rest
    return (.unit number :: pieces, rest)
  | '\\' :: c :: rest => do
    let c ← escaped? c
    let (pieces, rest) ← readPieces rest
    return (.char c :: pieces, rest)
  | c :: rest =>
    if c.toNat < 0x20 || c == '\\' then none
    else do
      let (pieces, rest) ← readPieces rest
      return (.char c :: pieces, rest)

def readText (chars : List Char) : Option (String × List Char) :=
  (readPieces chars).map fun (pieces, rest) => (String.ofList (joinPieces pieces), rest)

def takeDigits (chars : List Char) : List Char × List Char :=
  (chars.takeWhile Char.isDigit, chars.dropWhile Char.isDigit)

def number (digits : List Char) : Nat :=
  digits.foldl (fun n c => 10 * n + (c.toNat - '0'.toNat)) 0

/-- The digits after a point, if there are any. -/
def takeFraction : List Char → Option (List Char × List Char)
  | '.' :: rest =>
    match takeDigits rest with
    | ([], _) => none
    | found => some found
  | _ => none

/-- The exponent of a number, if there is one. -/
def takeExponent : List Char → Option (Int × List Char)
  | c :: rest =>
    if c == 'e' || c == 'E' then
      let (negative, rest) :=
        match rest with
        | '-' :: rest => (true, rest)
        | '+' :: rest => (false, rest)
        | rest => (false, rest)
      match takeDigits rest with
      | ([], _) => none
      | (digits, rest) =>
        some (if negative then -(number digits : Int) else number digits, rest)
    else none
  | [] => none

/-- The digits before a point: a zero alone, or digits that do not start with one. -/
def takeWhole : List Char → Option (List Char × List Char)
  | '0' :: rest => some (['0'], rest)
  | chars =>
    match takeDigits chars with
    | ([], _) => none
    | found => some found

/-- What was read, or the fault that there is nothing to read. -/
def orMalformed {α : Type} : Option α → Except Misread α
  | some found => .ok found
  | none => .error .malformed

/-- A number.  An integer may only have so many digits. -/
def readNumber (negative : Bool) (chars : List Char) :
    Except Misread (Document × List Char) := do
  let (whole, rest) ← orMalformed (takeWhole chars)
  let (fraction, rest) := (takeFraction rest).getD ([], rest)
  match takeExponent rest with
  | some (exponent, rest) =>
    return (real (.ofDecimal negative (number (whole ++ fraction)) (exponent - fraction.length)),
      rest)
  | none =>
    if !fraction.isEmpty then
      return (real (.ofDecimal negative (number (whole ++ fraction)) (-(fraction.length : Int))),
        rest)
    else if Text.maxDigits < whole.length then throw (.tooLong whole.length)
    else return (integer (if negative then -(number whole : Int) else number whole), rest)

def readWord (word : List Char) (meant : Document) (chars : List Char) :
    Except Misread (Document × List Char) :=
  orMalformed ((skipWord? word chars).map (meant, ·))

def readScalar : List Char → Except Misread (Document × List Char)
  | 'n' :: rest => readWord ['u', 'l', 'l'] null rest
  | 't' :: rest => readWord ['r', 'u', 'e'] (bool true) rest
  | 'f' :: rest => readWord ['a', 'l', 's', 'e'] (bool false) rest
  | 'N' :: rest => readWord ['a', 'N'] (real .nan) rest
  | 'I' :: rest => readWord ['n', 'f', 'i', 'n', 'i', 't', 'y'] (real (.infinite false)) rest
  | '-' :: 'I' :: rest =>
    readWord ['n', 'f', 'i', 'n', 'i', 't', 'y'] (real (.infinite true)) rest
  | '-' :: rest => readNumber true rest
  | chars => readNumber false chars

mutual

/-- A value, with at most as many steps of reading as the number says. -/
def readValue : Nat → List Char → Except Misread (Document × List Char)
  | 0, _ => .error .malformed
  | _ + 1, '"' :: rest => do
    let (s, rest) ← orMalformed (readText rest)
    return (text s, rest)
  | steps + 1, '[' :: rest =>
    match skipBlanks rest with
    | ']' :: rest => .ok (array [], rest)
    | rest => do
      let (items, rest) ← readItems steps rest
      return (array items, rest)
  | steps + 1, '\x7b' :: rest =>
    match skipBlanks rest with
    | '\x7d' :: rest => .ok (object [], rest)
    | rest => do
      let (members, rest) ← readMembers steps rest
      return (object (Table.ofList members).entries, rest)
  | _ + 1, chars => readScalar chars

def readItems : Nat → List Char → Except Misread (List Document × List Char)
  | 0, _ => .error .malformed
  | steps + 1, chars => do
    let (item, rest) ← readValue steps chars
    match skipBlanks rest with
    | ']' :: rest => return ([item], rest)
    | ',' :: rest =>
      let (items, rest) ← readItems steps (skipBlanks rest)
      return (item :: items, rest)
    | _ => throw .malformed

def readMembers : Nat → List Char → Except Misread (List (String × Document) × List Char)
  | 0, _ => .error .malformed
  | steps + 1, '"' :: rest => do
    let (name, rest) ← orMalformed (readText rest)
    match skipBlanks rest with
    | ':' :: rest =>
      let (value, rest) ← readValue steps (skipBlanks rest)
      match skipBlanks rest with
      | '\x7d' :: rest => return ([(name, value)], rest)
      | ',' :: rest =>
        let (members, rest) ← readMembers steps (skipBlanks rest)
        return ((name, value) :: members, rest)
      | _ => throw .malformed
    | _ => throw .malformed
  | _ + 1, _ => .error .malformed

end

/-- The document that a text spells.  Every step of reading takes a character, except that an array
or an object and its first item begin together.  Nesting has no limit here: where a machine's stack
ends depends on how much of it the caller has taken, so that it is no function of the text, and all
recursion here is without that limit. -/
def parse (source : String) : Except Misread Document := do
  let chars := source.toList
  let (document, rest) ← readValue (2 * chars.length + 2) (skipBlanks chars)
  if (skipBlanks rest).isEmpty then return document else throw .malformed

end Deontic.Document
