import Deontic.Tree.Basic
import Deontic.Text.Digit

/-! The text of a tree: each node as the name of its variant with its text or its parts in brackets.
A text that is a name or a row of decimal digits stands bare; any other is put between double
quotes, with a backslash before every double quote and backslash. -/

namespace Deontic.Tree

/-- Whether a text is a name: a letter or underscore, then letters, digits and underscores. -/
def isName : List Char → Bool
  | [] => false
  | c :: rest => Text.startsName c && rest.all Text.continuesName

def isNumeral (chars : List Char) : Bool := !chars.isEmpty && chars.all Text.isDecimal

def protect (c : Char) : List Char :=
  if c = '"' ∨ c = '\\' then ['\\', c] else [c]

/-- The text of a leaf, bare if it can be. -/
def renderText (chars : List Char) : List Char :=
  if isName chars || isNumeral chars then chars
  else '"' :: (chars.flatMap protect ++ ['"'])

def render : Tree → List Char
  | leaf kind text _ =>
    (Shape.leaf kind).name.toList ++ '(' :: (renderText text.toList ++ [')'])
  | empty _ => Shape.empty.name.toList ++ ['(', ')']
  | branch kind left right _ =>
    (Shape.branch kind).name.toList ++ '(' :: (left.render ++ ',' :: ' ' :: (right.render ++ [')']))

def pretty (t : Tree) : String := String.ofList t.render

instance : ToString Tree := ⟨pretty⟩

end Deontic.Tree
