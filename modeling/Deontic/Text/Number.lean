import Deontic.Text.Digit
import Deontic.Binary64.Basic

/-! Numerals as people type them.  Blanks around a numeral and single underscores between its digits
are skipped, and the digits may come from any script.  An integer has an optional sign and digits; a
real number may have a point, an exponent, or be one of the words `inf`, `infinity` and `nan`. -/

namespace Deontic.Text

/-- Why a text is no integer. -/
inductive NumeralFault where
  | notNumeral
  | tooLong (digits : Nat)
  deriving DecidableEq, Inhabited

def isBlank (c : Char) : Bool :=
  inRanges [(0x9, 0xd), (0x20, 0x20), (0x85, 0x85), (0xa0, 0xa0), (0x1680, 0x1680),
    (0x2000, 0x200a), (0x2028, 0x2029), (0x202f, 0x202f), (0x205f, 0x205f), (0x3000, 0x3000)]
    c.toNat

def trim (chars : List Char) : List Char :=
  ((chars.dropWhile isBlank).reverse.dropWhile isBlank).reverse

/-- The digits at the start of a text and what follows them.  An underscore counts as part of the
digits if one stands on either side of it. -/
def takeDigits : List Char → List Nat × List Char
  | [] => ([], [])
  | c :: rest =>
    match digitValue? c, rest with
    | none, _ => ([], c :: rest)
    | some d, '_' :: next :: more =>
      if isDecimal next then
        let (digits, left) := takeDigits (next :: more)
        (d :: digits, left)
      else ([d], rest)
    | some d, rest =>
      let (digits, left) := takeDigits rest
      (d :: digits, left)

/-- An optional sign: whether it is a minus, and what follows it. -/
def takeSign : List Char → Bool × List Char
  | '-' :: rest => (true, rest)
  | '+' :: rest => (false, rest)
  | chars => (false, chars)

/-- Reads an integer.  The digits are counted before what follows them is looked at, but an
underscore that is not between two digits is seen first. -/
def readInteger (source : String) : Except NumeralFault Int :=
  let (negative, body) := takeSign (trim source.toList)
  match takeDigits body with
  | ([], _) => .error .notNumeral
  | (_, '_' :: _) => .error .notNumeral
  | (digits, rest) =>
    if maxDigits < digits.length then .error (.tooLong digits.length)
    else if rest.isEmpty then .ok (if negative then -(ofDigits digits : Int) else ofDigits digits)
    else .error .notNumeral

/-- The exponent that ends a real number; an absent one is zero. -/
def readExponent? : List Char → Option Int
  | [] => some 0
  | c :: rest =>
    if c == 'e' || c == 'E' then
      let (negative, body) := takeSign rest
      match takeDigits body with
      | ([], _) => none
      | (digits, []) => some (if negative then -(ofDigits digits : Int) else ofDigits digits)
      | (_, _ :: _) => none
    else none

def readReal? (source : String) : Option Binary64 :=
  let (negative, body) := takeSign (trim source.toList)
  let word := body.map Char.toLower
  if word = ['i', 'n', 'f'] || word = ['i', 'n', 'f', 'i', 'n', 'i', 't', 'y'] then
    some (.infinite negative)
  else if word = ['n', 'a', 'n'] then some .nan
  else
    let (whole, rest) := takeDigits body
    let (fraction, rest) :=
      match rest with
      | '.' :: rest => takeDigits rest
      | rest => ([], rest)
    if whole.isEmpty && fraction.isEmpty then none
    else
      (readExponent? rest).map fun exponent =>
        .ofDecimal negative (ofDigits (whole ++ fraction)) (exponent - fraction.length)

end Deontic.Text
