import Deontic.Text.Quoted

/-! Command-line arguments.  Options may stand anywhere and take at most one value, which follows as
the next argument, after `=`, or directly after a short name; short names without a value may be run
together, and long names may be cut short.  All after `--` is plain, and so are negative numbers.  A
value `--` that is attached to its option says that the value is nothing.  A plain argument may open
a command, which takes all that follows it.  Arguments that fit nowhere are kept apart, in order.
Reading ends early when an option asks for help or an argument is refused. -/

namespace Deontic.CommandLine

/-- What an option is given: a value, or expressly nothing. -/
inductive Given (α : Type) where
  | nothing
  | value (a : α)
  deriving DecidableEq, Inhabited

/-- What is given, read in a way that may fail. -/
def Given.read {α β : Type} (f : α → Except String β) : Given α → Except String (Given β)
  | nothing => .ok nothing
  | value a => (f a).map value

/-- What is given, unless it is nothing. -/
def Given.value? {α : Type} : Given α → Option α
  | nothing => none
  | value a => some a

/-- Why reading ends early. -/
inductive Stop where
  | help
  | refused (reason : String)
  deriving DecidableEq, Inhabited

abbrev Use (σ : Type) := σ → Except Stop σ

/-- What an option does by itself, or with the value that it takes, which it may refuse. -/
inductive Effect (σ : Type) where
  | bare (use : Use σ)
  | value (set : Given String → σ → Except String σ)

def Effect.switch {σ : Type} (set : σ → σ) : Effect σ := bare fun settings => .ok (set settings)

/-- An option with its names. -/
structure Flag (σ : Type) where
  names : List String
  effect : Effect σ

def Flag.help {σ : Type} : Flag σ := ⟨["-h", "--help"], .bare fun _ => .error .help⟩

/-- An option as an argument spells it: by a name, and perhaps with a value attached. -/
structure Spelled (σ : Type) where
  flag : Flag σ
  name : String
  attached : Option (List Char)

/-- How an argument looks to a list of options. -/
inductive Mark (σ : Type) where
  | plain
  | dashes
  | flag (spelled : Spelled σ)
  | unknown

abbrev Marked (σ : Type) := List (String × Mark σ)

/-- Settings, the command with its arguments, and the arguments that fit nowhere. -/
structure Arguments (σ : Type) where
  settings : σ
  command : Option (List String)
  extras : List String

variable {σ : Type}

def findFlag (flags : List (Flag σ)) (name : String) : Option (Flag σ) :=
  flags.find? fun flag => flag.names.contains name

/-- Whether a text is a number with a minus, in digits of any script, and perhaps a line end. -/
def isNegativeNumber : List Char → Bool
  | '-' :: rest =>
    let body := if rest.getLast? == some '\n' then rest.dropLast else rest
    let whole := body.takeWhile Text.isDecimal
    match body.dropWhile Text.isDecimal with
    | [] => !whole.isEmpty
    | '.' :: fraction => !fraction.isEmpty && fraction.all Text.isDecimal
    | _ => false
  | _ => false

/-- A text up to its first `=`, and what follows that sign. -/
def splitAtEquals (arg : List Char) : String × Option (List Char) :=
  (String.ofList (arg.takeWhile (· != '=')), (arg.dropWhile (· != '=')).tail?)

/-- The options that an argument may spell.  A name in full is that of one option only; else the
argument spells every long name that begins like it, or the short name that it begins with. -/
def spellings (flags : List (Flag σ)) (arg : List Char) : List (Spelled σ) :=
  let (name, value) := splitAtEquals arg
  match findFlag flags name, arg with
  | some flag, _ => [⟨flag, name, value⟩]
  | none, '-' :: '-' :: _ =>
    flags.flatMap fun flag =>
      (flag.names.filter name.isPrefixOf).map fun whole => ⟨flag, whole, value⟩
  | none, '-' :: letter :: rest =>
    let name := String.ofList ['-', letter]
    (findFlag flags name).toList.map fun flag => ⟨flag, name, some rest⟩
  | none, _ => []

/-- How an argument before `--` looks. -/
def mark (flags : List (Flag σ)) (arg : String) : Except Stop (Mark σ) :=
  let chars := arg.toList
  if arg == "--" then .ok .dashes
  else if chars.head? != some '-' || chars.length == 1 then .ok .plain
  else match spellings flags chars with
    | [spelled] => .ok (.flag spelled)
    | [] => .ok (if isNegativeNumber chars || chars.contains ' ' then .plain else .unknown)
    | several =>
      .error (.refused ("ambiguous option: " ++ arg ++ " could match " ++
        ", ".intercalate (several.map Spelled.name)))

/-- How all arguments look; those after `--` are plain. -/
def markAll (flags : List (Flag σ)) : List String → Except Stop (Marked σ)
  | [] => .ok []
  | arg :: rest => do
    match ← mark flags arg with
    | .dashes => return (arg, .dashes) :: rest.map fun arg => (arg, .plain)
    | seen => return (arg, seen) :: (← markAll flags rest)

def complaint (flag : Flag σ) (text : String) : String :=
  "argument " ++ "/".intercalate flag.names ++ ": " ++ text

/-- An option without a value refuses what is attached to it. -/
def ignored (flag : Flag σ) (text : List Char) : Stop :=
  .refused (complaint flag ("ignored explicit argument " ++ Text.quoted (String.ofList text)))

def given (text : List Char) : Given String :=
  if text == ['-', '-'] then .nothing else .value (String.ofList text)

def useValue (flag : Flag σ) (set : Given String → σ → Except String σ) (value : Given String) :
    Use σ :=
  fun settings => (set value settings).mapError fun reason => .refused (complaint flag reason)

/-- The use of an option that takes its value from the arguments that follow, and those left. -/
def takeValue (flag : Flag σ) (set : Given String → σ → Except String σ) :
    Marked σ → Except Stop (List (Use σ) × Marked σ)
  | (value, .plain) :: rest => .ok ([useValue flag set (.value value)], rest)
  | _ => .error (.refused (complaint flag "expected one argument"))

/-- The uses of an option without a value and of the letters attached to it, which are options of
their own.  A letter that takes a value takes the rest of the letters, or the next argument if it is
the last of them; one that is no option is refused with all that follow it. -/
def joinedUses (flags : List (Flag σ)) (rest : Marked σ) (flag : Flag σ) (use : Use σ) :
    List Char → Except Stop (List (Use σ) × Marked σ)
  | [] => .error (ignored flag [])
  | letter :: letters => do
    match findFlag flags (String.ofList ['-', letter]) with
    | none => .error (ignored flag (letter :: letters))
    | some next =>
      let (uses, rest) ← match next.effect, letters.isEmpty with
        | .bare use, true => .ok ([use], rest)
        | .bare use, false => joinedUses flags rest next use letters
        | .value set, true => takeValue next set rest
        | .value set, false => .ok ([useValue next set (given letters)], rest)
      return (use :: uses, rest)

/-- The uses of options that an argument spells, and the arguments that are left. -/
def Spelled.uses (flags : List (Flag σ)) (spelled : Spelled σ) (rest : Marked σ) :
    Except Stop (List (Use σ) × Marked σ) :=
  let flag := spelled.flag
  match flag.effect, spelled.attached with
  | .value set, some text => .ok ([useValue flag set (given text)], rest)
  | .value set, none => takeValue flag set rest
  | .bare use, none => .ok ([use], rest)
  | .bare use, some text =>
    if "--".isPrefixOf spelled.name then .error (ignored flag text)
    else joinedUses flags rest flag use text

/-- Reads marked arguments.  All uses in one argument are known before the first of them counts.
`opens` says whether plain arguments may open a command. -/
def read (flags : List (Flag σ)) (opens : Bool) :
    Nat → σ → List String → Marked σ → Except Stop (Arguments σ)
  | 0, settings, extras, rest => .ok ⟨settings, none, extras ++ rest.map Prod.fst⟩
  | _ + 1, settings, extras, [] => .ok ⟨settings, none, extras⟩
  | steps + 1, settings, extras, (arg, seen) :: rest =>
    match seen with
    | .flag spelled => do
      let (uses, rest) ← spelled.uses flags rest
      let settings ← uses.foldlM (fun settings use => use settings) settings
      read flags opens steps settings extras rest
    | .unknown => read flags opens steps settings (extras ++ [arg]) rest
    | .plain =>
      if opens then .ok ⟨settings, some (arg :: rest.map Prod.fst), extras⟩
      else read flags opens steps settings (extras ++ [arg]) rest
    | .dashes =>
      if opens && !rest.isEmpty then .ok ⟨settings, some (arg :: rest.map Prod.fst), extras⟩
      else read flags opens steps settings (extras ++ [arg]) rest

/-- Reads arguments; each step takes at least one. -/
def parse (flags : List (Flag σ)) (opens : Bool) (settings : σ) (args : List String) :
    Except Stop (Arguments σ) := do
  read flags opens args.length settings [] (← markAll flags args)

end Deontic.CommandLine
