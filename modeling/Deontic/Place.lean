import Deontic.Text.Quoted

/-! Where a path leads among files.  A path is a row of names and steps upwards.  `Place.tidy` drops
the steps that lead nowhere.  `Folder.find` refuses a path that no system can be asked for, and
follows the steps of any other one by one, so that the first of them that cannot be taken decides
what is wrong. -/

namespace Deontic

/-- Why there is no text at a place. -/
inductive PlaceFault where
  | missing
  | directory
  | belowFile
  | tooLong
  | nullCharacter
  | unwritable (start : Nat) (points : List Text.CodePoint)
  | notGiven
  deriving DecidableEq, Inhabited

def PlaceFault.message : PlaceFault → String
  | missing => "there is no such file"
  | directory => "this is no file but a directory"
  | belowFile => "a part of the path is no directory but a file"
  | tooLong => "the path or a name in it is too long"
  | nullCharacter => "embedded null byte"
  | unwritable start points =>
    "'utf-8' codec can't encode character" ++
      (match points with
      | [point] =>
        " " ++ Text.quoted (String.ofList point.spelling) ++ " in position " ++ toString start
      | points =>
        "s in position " ++ toString start ++ "-" ++ toString (start + points.length - 1)) ++
      ": surrogates not allowed"
  | notGiven => "expected str, bytes or os.PathLike object, not list"

def Place.steps (path : String) : List String :=
  (path.splitOn "/").filter fun step => step != "" && step != "."

/-- What a path starts with if it does not start in the folder.  Two slashes are told from one, and
more are as good as one. -/
def Place.root (path : String) : String :=
  if path.startsWith "//" && !path.startsWith "///" then "//"
  else if path.startsWith "/" then "/"
  else ""

def Place.tidy (path : String) : String :=
  match root path ++ "/".intercalate (steps path) with
  | "" => "."
  | tidied => tidied

/-- Whether a code point can be written in a path.  Of the halves only those can that stand for
single bytes. -/
def Place.isWritable : Text.CodePoint → Bool
  | .char _ => true
  | .half number => 0x480 ≤ number.val && number.val < 0x500

def Place.size (path : String) : Nat :=
  (Text.codePoints path.toList).foldl (fun bytes point =>
    bytes + match point with
      | .char c => c.utf8Size
      | .half _ => 1) 0

/-- The first code point of a text that is not accepted, as a fault.  The halves right after it are
part of the fault. -/
def Place.unwritable? (accepts : Text.CodePoint → Bool) (text : String) : Option PlaceFault :=
  let points := Text.codePoints text.toList
  let start := (points.takeWhile accepts).length
  let refused := (points.drop start).takeWhile Text.CodePoint.isHalf
  if refused.isEmpty then none else some (.unwritable start refused)

/-- The texts of files by path, seen from a folder that lies some directories below the root.  There
is a directory wherever a path of a file leads through. -/
structure Folder where
  files : List (String × String)
  depth : Nat
  deriving Inhabited

namespace Folder

def maxName : Nat := 255

def maxPath : Nat := 4095

def hasDirectory (folder : Folder) (path : String) : Bool :=
  folder.files.any fun file => (path ++ "/").isPrefixOf file.1

/-- Follows steps from a directory, given by the names that lead to it and the number of directories
it lies above the folder.  Between the folder and the root only the way further up is known. -/
def follow (folder : Folder) : Nat → List String → List String → Except PlaceFault String
  | _, _, [] => .error .directory
  | above, names, step :: rest =>
    if step == ".." then
      match names with
      | [] =>
        if above + 1 < folder.depth then folder.follow (above + 1) [] rest
        else folder.follow 0 [""] rest
      | [""] => folder.follow above [""] rest
      | names => folder.follow above names.dropLast rest
    else if maxName < Place.size step then .error .tooLong
    else if 0 < above then .error .missing
    else
      let path := "/".intercalate (names ++ [step])
      match folder.files.lookup path with
      | some text => if rest.isEmpty then .ok text else .error .belowFile
      | none =>
        if folder.hasDirectory path then folder.follow above (names ++ [step]) rest
        else .error .missing

/-- The text at a path.  A path that starts with a slash does not start in the folder. -/
def find (folder : Folder) (path : String) : Except PlaceFault String :=
  match Place.unwritable? Place.isWritable path with
  | some fault => .error fault
  | none =>
    if path.contains '\x00' then .error .nullCharacter
    else if maxPath < Place.size path then .error .tooLong
    else folder.follow 0 (if path.startsWith "/" then [""] else []) (Place.steps path)

end Folder

end Deontic
