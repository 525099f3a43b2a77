/-! Decimal digits of all scripts.  A script's ten digits are consecutive code points, so the zeros
determine them.  Other characters count as digits in a wider sense, such as superscripts and circled
digits, but have no place in a decimal numeral. -/

namespace Deontic.Text

/-- The code points of the zeros of all scripts, in ascending order. -/
def zeros : List Nat :=
  [0x30, 0x660, 0x6f0, 0x7c0, 0x966, 0x9e6, 0xa66, 0xae6, 0xb66, 0xbe6, 0xc66, 0xce6, 0xd66, 0xde6,
   0xe50, 0xed0, 0xf20, 0x1040, 0x1090, 0x17e0, 0x1810, 0x1946, 0x19d0, 0x1a80, 0x1a90, 0x1b50,
   0x1bb0, 0x1c40, 0x1c50, 0xa620, 0xa8d0, 0xa900, 0xa9d0, 0xa9f0, 0xaa50, 0xabf0, 0xff10, 0x104a0,
   0x10d30, 0x11066, 0x110f0, 0x11136, 0x111d0, 0x112f0, 0x11450, 0x114d0, 0x11650, 0x116c0,
   0x11730, 0x118e0, 0x11950, 0x11c50, 0x11d50, 0x11da0, 0x16a60, 0x16ac0, 0x16b50, 0x1d7ce,
   0x1d7d8, 0x1d7e2, 0x1d7ec, 0x1d7f6, 0x1e140, 0x1e2f0, 0x1e950, 0x1fbf0]

/-- Ranges of the characters that are digits without a place in a numeral. -/
def otherDigits : List (Nat × Nat) :=
  [(0xb2, 0xb3), (0xb9, 0xb9), (0x1369, 0x1371), (0x19da, 0x19da), (0x2070, 0x2070),
   (0x2074, 0x2079), (0x2080, 0x2089), (0x2460, 0x2468), (0x2474, 0x247c), (0x2488, 0x2490),
   (0x24ea, 0x24ea), (0x24f5, 0x24fd), (0x24ff, 0x24ff), (0x2776, 0x277e), (0x2780, 0x2788),
   (0x278a, 0x2792), (0x10a40, 0x10a43), (0x10e60, 0x10e68), (0x11052, 0x1105a),
   (0x1f100, 0x1f10a)]

def inRanges (ranges : List (Nat × Nat)) (code : Nat) : Bool :=
  ranges.any fun range => range.1 ≤ code && code ≤ range.2

def digitValue? (c : Char) : Option Nat :=
  (zeros.find? fun start => start ≤ c.toNat && c.toNat < start + 10).map (c.toNat - ·)

def isDecimal (c : Char) : Bool := (digitValue? c).isSome

def isDigit (c : Char) : Bool := isDecimal c || inRanges otherDigits c.toNat

/-- Every digit is less than ten. -/
theorem digitValue?_lt {c : Char} {d : Nat} (h : digitValue? c = some d) : d < 10 := by
  obtain ⟨start, hfind, rfl⟩ := Option.map_eq_some_iff.mp h
  have hstart := List.find?_some hfind
  simp only [Bool.and_eq_true, decide_eq_true_eq] at hstart
  omega

def ofDigits (digits : List Nat) : Nat := digits.foldl (fun n d => 10 * n + d) 0

/-- The greatest number of digits that an integer may be written with. -/
def maxDigits : Nat := 4300

def isWritable (n : Int) : Bool := n.natAbs < Nat.pow 10 maxDigits

/-- The sign of an integer does not count as a digit. -/
theorem isWritable_iff {n : Int} :
    isWritable n = true ↔ (Nat.toDigits 10 n.natAbs).length ≤ maxDigits := by
  rw [isWritable, decide_eq_true_iff, Nat.pow_eq,
    Nat.length_toDigits_le_iff (by decide) (by decide)]

/-- ASCII letters and the underscore, which start a name. -/
def startsName (c : Char) : Bool := c.isAlpha || c == '_'

def continuesName (c : Char) : Bool := c.isAlphanum || c == '_'

/-- A superscript is a digit, but not a decimal one. -/
theorem superscript_not_decimal : isDigit '²' = true ∧ isDecimal '²' = false := by decide

end Deontic.Text
