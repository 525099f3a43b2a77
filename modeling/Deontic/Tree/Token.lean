import Deontic.Tree.Printer

/-! The tokens of the text of a tree: names, numerals, quoted texts, brackets and commas, each with
the positions where it starts and stops.  Blanks, tabs and line feeds separate tokens and are
skipped.  A backslash in a quoted text takes the next character as it stands, which must not be a
line feed. `scan` gives the tokens up to the first character that starts none. -/

namespace Deontic.Tree

/-- What a token says. -/
inductive Lexeme where
  | name (text : List Char)
  | numeral (text : List Char)
  | quoted (text : List Char)
  | opening
  | closing
  | comma
  deriving DecidableEq, Inhabited

/-- A lexeme with the positions where it starts and stops. -/
structure Token where
  lexeme : Lexeme
  start : Nat
  stop : Nat
  deriving DecidableEq, Inhabited

/-- The tokens of a source, and the first code point that starts no token, with its position. -/
structure Scan where
  tokens : List Token
  refused : Option (Nat × Text.CodePoint)
  deriving Inhabited

def isSeparator (c : Char) : Bool := c == ' ' || c == '\t' || c == '\n'

/-- The content of a quoted text after its opening quote, and what follows the closing one. -/
def readQuoted : List Char → Option (List Char × List Char)
  | [] => none
  | '"' :: rest => some ([], rest)
  | ['\\'] => none
  | '\\' :: c :: rest =>
    if c = '\n' then none else (readQuoted rest).map fun (text, rest) => (c :: text, rest)
  | c :: rest => (readQuoted rest).map fun (text, rest) => (c :: text, rest)

/-- The lexeme at the start of a source, and what follows it. -/
def readLexeme : List Char → Option (Lexeme × List Char)
  | [] => none
  | c :: rest =>
    if c = '"' then (readQuoted rest).map fun (text, rest) => (.quoted text, rest)
    else if Text.isDecimal c then
      some (.numeral (c :: rest.takeWhile Text.isDecimal), rest.dropWhile Text.isDecimal)
    else if Text.startsName c then
      some (.name (c :: rest.takeWhile Text.continuesName), rest.dropWhile Text.continuesName)
    else if c = '(' then some (.opening, rest)
    else if c = ')' then some (.closing, rest)
    else if c = ',' then some (.comma, rest)
    else none

theorem length_of_readQuoted {chars text rest : List Char}
    (h : readQuoted chars = some (text, rest)) : rest.length < chars.length := by
  fun_induction readQuoted chars generalizing text rest with
  | case1 => cases h
  | case2 r => cases h; simp
  | case3 => cases h
  | case4 => cases h
  | case5 c r _ ih =>
    obtain ⟨⟨t, s⟩, hs, he⟩ := Option.map_eq_some_iff.mp h
    cases he
    have := ih hs
    simp only [List.length_cons]; omega
  | case6 c r _ _ _ ih =>
    obtain ⟨⟨t, s⟩, hs, he⟩ := Option.map_eq_some_iff.mp h
    cases he
    have := ih hs
    simp only [List.length_cons]; omega

/-- Every lexeme takes at least one character. -/
theorem length_of_readLexeme {chars rest : List Char} {lexeme : Lexeme}
    (h : readLexeme chars = some (lexeme, rest)) : rest.length < chars.length := by
  cases chars with
  | nil => cases h
  | cons c r =>
    have hdrop (p : Char → Bool) : (r.dropWhile p).length < (c :: r).length := by
      have := (List.dropWhile_sublist (l := r) p).length_le
      simp only [List.length_cons]; omega
    rw [readLexeme] at h
    split at h
    · obtain ⟨⟨t, s⟩, hs, he⟩ := Option.map_eq_some_iff.mp h
      cases he
      have := length_of_readQuoted hs
      simp only [List.length_cons]; omega
    · repeat' split at h
      all_goals first
        | cases h; exact hdrop _
        | cases h; simp
        | cases h

/-- The scan of a source whose whole text has `total` code points. -/
def scanFrom (total : Nat) (chars : List Char) : Scan :=
  match chars with
  | [] => ⟨[], none⟩
  | c :: rest =>
    let start := total - Text.length (c :: rest)
    if isSeparator c then scanFrom total rest
    else
      match _h : readLexeme (c :: rest) with
      | none => ⟨[], some (start, (Text.codePoints (c :: rest)).headD (.char c))⟩
      | some (lexeme, rest) =>
        let scan := scanFrom total rest
        ⟨⟨lexeme, start, total - Text.length rest⟩ :: scan.tokens, scan.refused⟩
termination_by chars.length
decreasing_by
  · simp
  · exact length_of_readLexeme _h

def scan (source : List Char) : Scan := scanFrom (Text.length source) source

end Deontic.Tree
