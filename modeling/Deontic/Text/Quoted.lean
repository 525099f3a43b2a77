import Deontic.Text.CodePoint
import Deontic.Text.Printable

/-! Quoted text, as messages and records show it: between single quotes, or between double quotes if
the text holds a single quote and no double one.  The quote in use, the backslash and every
character that does not print are escaped. -/

namespace Deontic.Text

/-- A number in at least `width` hexadecimal digits. -/
def hexadecimal (width n : Nat) : List Char :=
  let digits := Nat.toDigits 16 n
  List.replicate (width - digits.length) '0' ++ digits

def escapeCode (code : Nat) : List Char :=
  if code < 0x100 then '\\' :: 'x' :: hexadecimal 2 code
  else if code < 0x10000 then '\\' :: 'u' :: hexadecimal 4 code
  else '\\' :: 'U' :: hexadecimal 8 code

def escape (quote : Char) : CodePoint → List Char
  | .char c =>
    if c == quote || c == '\\' then ['\\', c]
    else if c == '\n' then ['\\', 'n']
    else if c == '\r' then ['\\', 'r']
    else if c == '\t' then ['\\', 't']
    else if isPrintable c then [c]
    else escapeCode c.toNat
  | half => escapeCode half.code

def quoted (text : String) : String :=
  let points := codePoints text.toList
  let quote := if points.contains (.char '\'') && !points.contains (.char '"') then '"' else '\''
  String.ofList (quote :: (points.flatMap (escape quote) ++ [quote]))

/-- The characters of a text, with halves by their numbers. -/
def plain (text : String) : String :=
  String.ofList ((codePoints text.toList).flatMap fun point =>
    match point with
    | .char c => [c]
    | half => escapeCode half.code)

end Deontic.Text
