import Deontic.Binary64.Shortest
import Deontic.Text.Quoted

/-! Documents of nested values.  An object keeps its members in the order of the text; a repeated
name keeps its first place and takes its last value.  The type of the numbers that are not integers
is a parameter: doubles in a document that was read, weights in one that describes a grammar. -/

namespace Deontic

/-- A scalar, an array, or an object with named members. -/
inductive Document (ν : Type := Binary64) where
  | null
  | bool (b : Bool)
  | integer (n : Int)
  | real (x : ν)
  | text (s : String)
  | array (items : List (Document ν))
  | object (members : List (String × Document ν))
  deriving Inhabited

namespace Document

/-- Why a text spells no document. -/
inductive Misread where
  | malformed
  | tooLong (digits : Nat)
  deriving DecidableEq, Inhabited

variable {ν μ : Type}

def kind : Document ν → String
  | null => "NoneType"
  | bool _ => "bool"
  | integer _ => "int"
  | real _ => "float"
  | text _ => "str"
  | array _ => "list"
  | object _ => "dict"

/-- The written form of a scalar; arrays and objects are never written. -/
def written (double : ν → Binary64) : Document ν → String
  | null => "None"
  | bool b => if b then "True" else "False"
  | integer n => toString n
  | real x => (double x).toText
  | text s => Text.quoted s
  | array _ => "[...]"
  | object _ => "\x7b...\x7d"

def member? (members : List (String × Document ν)) (name : String) : Option (Document ν) :=
  members.lookup name

mutual

/-- The document with `f` applied to its numbers. -/
def mapReals (f : ν → μ) : Document ν → Document μ
  | null => null
  | bool b => bool b
  | integer n => integer n
  | real x => real (f x)
  | text s => text s
  | array items => array (mapItems f items)
  | object members => object (mapMembers f members)

/-- Items with `f` applied to their numbers. -/
def mapItems (f : ν → μ) : List (Document ν) → List (Document μ)
  | [] => []
  | item :: rest => item.mapReals f :: mapItems f rest

/-- Members with `f` applied to their numbers. -/
def mapMembers (f : ν → μ) : List (String × Document ν) → List (String × Document μ)
  | [] => []
  | (name, value) :: rest => (name, value.mapReals f) :: mapMembers f rest

end

end Document

end Deontic
