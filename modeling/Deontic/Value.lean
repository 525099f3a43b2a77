import Deontic.Binary64.Shortest
import Deontic.Text.Digit
import Deontic.Text.Quoted

/-! The values of choices and the keys of their addresses.  Numbers of all kinds compare by what
they stand for, so `True`, `1` and `1.0` are one key; every NaN carries a mark and equals only the
NaN with the same mark.  `Value.standing` maps a value to what it stands for; two values are `==`
exactly when they stand for the same thing, which makes `==` an equivalence. -/

namespace Deontic

/-- A scalar, a list, or a tuple.  A NaN has a mark that tells it from the others. -/
inductive Value where
  | null
  | bool (b : Bool)
  | int (n : Int)
  | float (x : Binary64)
  | nan (mark : Nat)
  | text (s : String)
  | list (items : List Value)
  | tuple (items : List Value)
  deriving Inhabited

/-- What a value stands for.  Sequences are chains of `link`, closed by `close` of their kind. -/
inductive Standing where
  | null
  | number (q : Rat)
  | infinity (negative : Bool)
  | nan (mark : Nat)
  | text (s : String)
  | close (isTuple : Bool)
  | link (head tail : Standing)
  deriving DecidableEq

namespace Value

/-- What a double stands for; an unmarked NaN has the mark zero. -/
def ofDouble : Binary64 → Standing
  | .finite negative mantissa exponent => .number (Binary64.exactly negative mantissa exponent)
  | .infinite negative => .infinity negative
  | .nan => .nan 0

mutual

def standing : Value → Standing
  | null => .null
  | bool b => .number (if b then 1 else 0)
  | int n => .number n
  | float x => ofDouble x
  | nan mark => .nan (mark + 1)
  | text s => .text s
  | list items => standings false items
  | tuple items => standings true items

def standings (isTuple : Bool) : List Value → Standing
  | [] => .close isTuple
  | item :: rest => .link item.standing (standings isTuple rest)

end

instance : BEq Value := ⟨fun a b => decide (a.standing = b.standing)⟩

theorem beq_iff {a b : Value} : (a == b) = true ↔ a.standing = b.standing :=
  decide_eq_true_iff

instance : EquivBEq Value where
  rfl := beq_iff.mpr rfl
  symm h := beq_iff.mpr (beq_iff.mp h).symm
  trans h k := beq_iff.mpr ((beq_iff.mp h).trans (beq_iff.mp k))

/-- A text equals a value only if the value is that text. -/
theorem text_beq {s : String} {v : Value} (h : (text s == v) = true) : v = text s := by
  have h := beq_iff.mp h
  cases v with
  | text t => rw [standing, standing] at h; rw [Standing.text.inj h]
  | float x =>
    cases x <;> (rw [standing, standing, ofDouble] at h; cases h)
  | list items => rw [standing, standing] at h; cases items <;> (rw [standings] at h; cases h)
  | tuple items => rw [standing, standing] at h; cases items <;> (rw [standings] at h; cases h)
  | _ => rw [standing, standing] at h; cases h

mutual

/-- Whether a value can be a key: lists cannot, and tuples only if all their items can. -/
def isKey : Value → Bool
  | list _ => false
  | tuple items => areKeys items
  | _ => true

def areKeys : List Value → Bool
  | [] => true
  | item :: rest => item.isKey && areKeys rest

end

/-- Whether a value counts as true: zero, the empty text, the empty sequence and null do not. -/
def isTrue : Value → Bool
  | null => false
  | bool b => b
  | int n => n != 0
  | float x => !x.isZero
  | nan _ => true
  | text s => s != ""
  | list items => !items.isEmpty
  | tuple items => !items.isEmpty

def text? : Value → Option String
  | text s => some s
  | _ => none

mutual

def written : Value → String
  | null => "None"
  | bool b => if b then "True" else "False"
  | int n => toString n
  | float x => x.toText
  | nan _ => "nan"
  | text s => Text.quoted s
  | list items => "[" ++ writtenItems items ++ "]"
  | tuple [item] => "(" ++ item.written ++ ",)"
  | tuple items => "(" ++ writtenItems items ++ ")"

/-- The written forms of a sequence, with commas between them. -/
def writtenItems : List Value → String
  | [] => ""
  | [item] => item.written
  | item :: rest => item.written ++ ", " ++ writtenItems rest

end

mutual

def isWritable : Value → Bool
  | int n => Text.isWritable n
  | list items => areWritable items
  | tuple items => areWritable items
  | _ => true

/-- Whether all integers in a sequence of values can be written. -/
def areWritable : List Value → Bool
  | [] => true
  | item :: rest => item.isWritable && areWritable rest

end

end Value

/-- The address of a value: the keys that lead to it, outermost first. -/
abbrev Path := List Value

namespace Path

def written (path : Path) : String := (Value.tuple path).written

def isWritable (path : Path) : Bool := (Value.tuple path).isWritable

/-- Comparing lists entry by entry is an equivalence if comparing entries is one. -/
instance {α : Type} [BEq α] [EquivBEq α] : EquivBEq (List α) where
  rfl {a} := by
    induction a with
    | nil => rfl
    | cons x r => simp
  symm {a b} h := by
    induction a generalizing b with
    | nil => cases b with
      | nil => rfl
      | cons => cases h
    | cons x r ih => cases b with
      | nil => cases h
      | cons y s =>
        simp only [List.cons_beq_cons, Bool.and_eq_true] at h ⊢
        exact ⟨BEq.symm h.1, ih h.2⟩
  trans {a b c} h k := by
    induction a generalizing b c with
    | nil => cases b with
      | nil => exact k
      | cons => cases h
    | cons x r ih => cases b with
      | nil => cases h
      | cons y s => cases c with
        | nil => cases k
        | cons z t =>
          simp only [List.cons_beq_cons, Bool.and_eq_true] at h k ⊢
          exact ⟨BEq.trans h.1 k.1, ih h.2 k.2⟩

end Path

end Deontic
