import Deontic.Proofs.Spelling

/-! Where the tokens of a text stand.  A text is cut at code points, and no token ends inside the
spelling of one (`Text.exists_cut`).  `Starts` says with which lexemes a text starts and what
follows them; `Scans` gives the scan of a text code point by code point.  Every token of a scan
cuts the text (`Scans.cut`), and the tokens end where the text ends or where a code point starts no
token (`Scans.stop`). -/

namespace Deontic

namespace Text

/-! ### Characters and code points -/

/-- Whether a character is always the whole spelling of a code point. -/
def Whole (c : Char) : Prop := c.toNat < 0xe000 ∨ 0xe800 < c.toNat

theorem Whole.ne_mark {c : Char} (h : Whole c) : c ≠ mark := by
  rw [ne_mark_iff]
  unfold Whole at h
  omega

@[simp] theorem spell_nil : spell [] = [] := rfl

theorem spell_cons (point : CodePoint) (points : List CodePoint) :
    spell (point :: points) = point.spelling ++ spell points := rfl

@[simp] theorem spell_append (front rest : List CodePoint) :
    spell (front ++ rest) = spell front ++ spell rest :=
  List.flatMap_append

theorem spell_char {c : Char} (h : c ≠ mark) (points : List CodePoint) :
    spell (.char c :: points) = c :: spell points := by
  rw [spell_cons, CodePoint.spelling, if_neg h]
  rfl

theorem spell_inj {front rest : List CodePoint} (h : spell front = spell rest) : front = rest := by
  rw [← codePoints_spell front, h, codePoints_spell]

/-- A code point is spelled with one character, or with the mark and one that numbers a half. -/
theorem CodePoint.spelling_cases (point : CodePoint) :
    (∃ c, point = .char c ∧ point.spelling = [c]) ∨
      ∃ d, point.spelling = [mark, d] ∧ ¬Whole d := by
  cases point with
  | half number =>
    refine .inr ⟨_, rfl, ?_⟩
    rw [Whole, toNat_numbering]
    omega
  | char c =>
    by_cases h : c = mark
    · exact .inr ⟨'\ue800', by rw [CodePoint.spelling, if_pos h], by unfold Whole; decide⟩
    · exact .inl ⟨c, rfl, by rw [CodePoint.spelling, if_neg h]⟩

/-- A character that is always a code point of its own is one in every spelling. -/
theorem exists_cut {points : List CodePoint} {front after : List Char} {c : Char} (hc : Whole c)
    (h : spell points = front ++ c :: after) :
    ∃ before rest, points = before ++ .char c :: rest ∧ spell before = front ∧
      spell rest = after := by
  induction points generalizing front with
  | nil => simp at h
  | cons point points ih =>
    rw [spell_cons] at h
    rcases point.spelling_cases with ⟨d, rfl, hd⟩ | ⟨d, hd, hwhole⟩
    · rw [hd] at h
      cases front with
      | nil =>
        obtain ⟨rfl, rfl⟩ := List.cons.inj h
        exact ⟨[], points, rfl, rfl, rfl⟩
      | cons e front =>
        obtain ⟨rfl, htail⟩ := List.cons.inj h
        obtain ⟨before, rest, rfl, rfl, rfl⟩ := ih htail
        exact ⟨.char d :: before, rest, rfl, by rw [spell_cons, hd]; rfl, rfl⟩
    · -- neither the mark nor what follows it can be the character
      rw [hd] at h
      match front, h with
      | [], h => exact absurd (List.cons.inj h).1.symm hc.ne_mark
      | [_], h => exact absurd ((List.cons.inj (List.cons.inj h).2).1 ▸ hc) hwhole
      | e :: e' :: front, h =>
        obtain ⟨hfirst, htail⟩ := List.cons.inj h
        obtain ⟨hsecond, htail⟩ := List.cons.inj htail
        obtain ⟨before, rest, rfl, rfl, rfl⟩ := ih htail
        exact ⟨point :: before, rest, rfl, by rw [spell_cons, hd, hfirst, hsecond]; rfl, rfl⟩

theorem whole_of_isDecimal {c : Char} (h : isDecimal c = true) : Whole c := by
  have hzeros : ∀ start ∈ zeros, start + 10 ≤ 0xe000 ∨ 0xe800 < start := by decide
  rw [isDecimal, digitValue?, Option.isSome_map, List.find?_isSome] at h
  obtain ⟨start, hmem, hstart⟩ := h
  have := hzeros start hmem
  simp only [Bool.and_eq_true, decide_eq_true_eq] at hstart
  unfold Whole
  omega

theorem continuesName_of_startsName {c : Char} (h : startsName c = true) :
    continuesName c = true := by
  unfold startsName at h
  unfold continuesName Char.isAlphanum
  rcases Bool.or_eq_true_iff.mp h with h | h
  · simp [h]
  · simp [h]

theorem whole_of_continuesName {c : Char} (h : continuesName c = true) : Whole c := by
  have hcode : c.toNat ≤ 122 := by
    change (((decide (c.val ≥ 65 ∧ c.val ≤ 90) || (decide (c.val ≥ 97) && decide (c.val ≤ 122))) ||
      (decide (c.val ≥ 48) && decide (c.val ≤ 57))) || c == '_') = true at h
    simp only [Bool.or_eq_true, Bool.and_eq_true, decide_eq_true_eq, beq_iff_eq,
      UInt32.le_iff_toNat_le, ge_iff_le] at h
    change (((65 ≤ c.toNat ∧ c.toNat ≤ 90) ∨ (97 ≤ c.toNat ∧ c.toNat ≤ 122)) ∨
      (48 ≤ c.toNat ∧ c.toNat ≤ 57)) ∨ c = '_' at h
    rcases h with ((h | h) | h) | rfl
    · omega
    · omega
    · omega
    · decide
  unfold Whole
  omega

end Text

namespace Tree

open Text (CodePoint Whole spell)

/-! ### Lexemes in a text -/

theorem not_isSeparator {p : Char → Bool}
    (hp : p ' ' = false ∧ p '\t' = false ∧ p '\n' = false) {c : Char} (h : p c = true) :
    isSeparator c = false := by
  rw [Bool.eq_false_iff]
  intro hc
  simp only [isSeparator, Bool.or_eq_true, beq_iff_eq] at hc
  rcases hc with (rfl | rfl) | rfl
  · simp [hp.1] at h
  · simp [hp.2.1] at h
  · simp [hp.2.2] at h

/-- Every lexeme ends in a whole code point that is no separator. -/
theorem Lexeme.Spelled.exists_last {lexeme : Lexeme} {front : List Char}
    (h : lexeme.Spelled front) :
    ∃ body c, front = body ++ [c] ∧ Whole c ∧ isSeparator c = false := by
  have hall {front : List Char} (hne : front ≠ [])
      (hwhole : ∀ c ∈ front, Whole c ∧ isSeparator c = false) :
      ∃ body c, front = body ++ [c] ∧ Whole c ∧ isSeparator c = false :=
    ⟨_, _, (List.dropLast_concat_getLast hne).symm, hwhole _ (List.getLast_mem hne)⟩
  cases h with
  | name h =>
    cases front with
    | nil => cases h
    | cons c front =>
      obtain ⟨hfirst, hrest⟩ := Bool.and_eq_true_iff.mp h
      refine hall (List.cons_ne_nil _ _) fun d hd => ?_
      have hd : Text.continuesName d = true := by
        rcases List.mem_cons.mp hd with rfl | hd
        · exact Text.continuesName_of_startsName hfirst
        · exact List.all_eq_true.mp hrest d hd
      exact ⟨Text.whole_of_continuesName hd, not_isSeparator (by decide) hd⟩
  | numeral h =>
    obtain ⟨hne, hdigits⟩ := Bool.and_eq_true_iff.mp h
    refine hall (by simpa using hne) fun d hd => ?_
    have hd := List.all_eq_true.mp hdigits d hd
    exact ⟨Text.whole_of_isDecimal hd, not_isSeparator (by decide) hd⟩
  | @quoted body => exact ⟨'"' :: body, '"', rfl, by unfold Whole; decide, by decide⟩
  | opening => exact ⟨[], '(', rfl, by unfold Whole; decide, by decide⟩
  | closing => exact ⟨[], ')', rfl, by unfold Whole; decide, by decide⟩
  | comma => exact ⟨[], ',', rfl, by unfold Whole; decide, by decide⟩

/-- A text is cut at a code point after every lexeme that it starts with. -/
theorem Lexeme.Spelled.exists_own {lexeme : Lexeme} {front after : List Char}
    {points : List CodePoint} (h : lexeme.Spelled front) (hpoints : spell points = front ++ after) :
    ∃ own rest, points = own ++ rest ∧ spell own = front ∧ spell rest = after := by
  obtain ⟨body, c, rfl, hc, -⟩ := h.exists_last
  rw [List.append_assoc] at hpoints
  obtain ⟨before, rest, rfl, rfl, rfl⟩ := Text.exists_cut hc hpoints
  refine ⟨before ++ [.char c], rest, by simp, ?_, rfl⟩
  rw [Text.spell_append, Text.spell_char hc.ne_mark]
  rfl

theorem Lexeme.Spelled.own_ne_nil {lexeme : Lexeme} {own : List CodePoint}
    (h : lexeme.Spelled (spell own)) : own ≠ [] := by
  rintro rfl
  obtain ⟨body, c, hbody, -⟩ := h.exists_last
  simp at hbody

/-- The lexemes that a text starts with, and what follows them.  Every lexeme is the longest that
what is left of the text starts with. -/
inductive Starts : List CodePoint → List Lexeme → List CodePoint → Prop
  | nil {rest : List CodePoint} : Starts rest [] rest
  | skip {c : Char} {points rest : List CodePoint} {lexemes : List Lexeme} :
      isSeparator c = true → Starts points lexemes rest → Starts (.char c :: points) lexemes rest
  | lexeme {lexeme : Lexeme} {own points rest : List CodePoint} {lexemes : List Lexeme} :
      lexeme.Spelled (spell own) → Longest (spell own) (spell (own ++ points)) →
      Starts points lexemes rest → Starts (own ++ points) (lexeme :: lexemes) rest

theorem ne_mark_of_isSeparator {c : Char} (h : isSeparator c = true) : c ≠ Text.mark := by
  rintro rfl
  exact absurd h (by decide)

theorem Longest.mono {front source longer : List Char} (h : Longest front longer)
    (hfront : source <+: longer) : Longest front source :=
  fun lexeme other hother hstart => h lexeme other hother (hstart.trans hfront)

namespace Starts

variable {points middle rest : List CodePoint} {lexemes later : List Lexeme}

theorem append (h : Starts points lexemes middle) (hlater : Starts middle later rest) :
    Starts points (lexemes ++ later) rest := by
  induction h with
  | nil => exact hlater
  | skip hc _ ih => exact .skip hc (ih hlater)
  | lexeme hown hlongest _ ih => exact .lexeme hown hlongest (ih hlater)

/-- The lexemes are those of a front of the text alone. -/
theorem exists_front (h : Starts points lexemes rest) :
    ∃ front, points = front ++ rest ∧ Starts front lexemes [] := by
  induction h with
  | nil => exact ⟨[], rfl, .nil⟩
  | @skip c _ _ _ hc _ ih =>
    obtain ⟨front, rfl, hfront⟩ := ih
    exact ⟨.char c :: front, rfl, .skip hc hfront⟩
  | @lexeme _ own _ rest _ hown hlongest _ ih =>
    obtain ⟨front, rfl, hfront⟩ := ih
    refine ⟨own ++ front, by simp, .lexeme hown (hlongest.mono ?_) hfront⟩
    simp

theorem alone (h : Starts (points ++ rest) lexemes rest) : Starts points lexemes [] := by
  obtain ⟨front, hfront, hstarts⟩ := h.exists_front
  exact List.append_cancel_right hfront ▸ hstarts

/-- A text that is nothing but lexemes is split into them. -/
theorem splits (h : Starts points lexemes []) : Splits (spell points) lexemes := by
  generalize hrest : ([] : List CodePoint) = rest at h
  induction h with
  | nil =>
    subst hrest
    exact .nil
  | skip hc _ ih =>
    rw [Text.spell_char (ne_mark_of_isSeparator hc)]
    exact .skip hc (ih hrest)
  | lexeme hown hlongest _ ih =>
    rw [Text.spell_append] at hlongest ⊢
    exact .lexeme hown hlongest (ih hrest)

/-- Where no lexeme is read, only separators are skipped. -/
theorem exists_separators (h : Starts points [] rest) :
    ∃ chars : List Char, points = chars.map .char ++ rest ∧
      ∀ c ∈ chars, isSeparator c = true := by
  generalize hnone : ([] : List Lexeme) = none at h
  induction h with
  | nil => exact ⟨[], rfl, nofun⟩
  | @skip c _ _ _ hc _ ih =>
    obtain ⟨chars, rfl, hchars⟩ := ih hnone
    exact ⟨c :: chars, rfl, List.forall_mem_cons.mpr ⟨hc, hchars⟩⟩
  | lexeme => cases hnone

end Starts

/-! ### The scan of a text -/

/-- A code point that separates nothing and starts no lexeme of the text. -/
structure Stray (point : CodePoint) (rest : List CodePoint) : Prop where
  separates : ∀ c, point = .char c → isSeparator c = false
  starts : ∀ (lexeme : Lexeme) (own after : List CodePoint),
    point :: rest = own ++ after → ¬lexeme.Spelled (spell own)

/-- The scan of what is left of a text of `total` code points. -/
inductive Scans (total : Nat) : List CodePoint → Scan → Prop
  | nil : Scans total [] ⟨[], none⟩
  | skip {c : Char} {points : List CodePoint} {scan : Scan} :
      isSeparator c = true → Scans total points scan → Scans total (.char c :: points) scan
  | token {lexeme : Lexeme} {own points : List CodePoint} {scan : Scan} :
      lexeme.Spelled (spell own) → Longest (spell own) (spell (own ++ points)) →
      Scans total points scan →
      Scans total (own ++ points)
        ⟨⟨lexeme, total - (own ++ points).length, total - points.length⟩ :: scan.tokens,
          scan.refused⟩
  | refused {point : CodePoint} {points : List CodePoint} : Stray point points →
      Scans total (point :: points) ⟨[], some (total - (point :: points).length, point)⟩

theorem length_spell (points : List CodePoint) : Text.length (spell points) = points.length := by
  rw [Text.length, Text.codePoints_spell]

theorem scanFrom_refused {c : Char} {chars : List Char} (hc : isSeparator c = false)
    (h : readLexeme (c :: chars) = none) (total : Nat) :
    scanFrom total (c :: chars) =
      ⟨[], some (total - Text.length (c :: chars),
        (Text.codePoints (c :: chars)).headD (.char c))⟩ := by
  rw [scanFrom, if_neg (by simp [hc])]
  split
  · rfl
  · next hsome => rw [h] at hsome; cases hsome

/-- What starts no lexeme and is no separator is stray. -/
theorem stray_of_readLexeme {point : CodePoint} {points : List CodePoint}
    (hpoint : ∀ c, point = .char c → isSeparator c = false)
    (h : readLexeme (spell (point :: points)) = none) : Stray point points := by
  refine ⟨hpoint, fun lexeme own after hpoints hown => ?_⟩
  obtain ⟨found, rest, hread, -⟩ := hown.exists_readLexeme (spell after)
  rw [← Text.spell_append, ← hpoints, h] at hread
  cases hread

theorem exists_spell_cons {point : CodePoint} (points : List CodePoint)
    (hpoint : ∀ c, point = .char c → isSeparator c = false) :
    ∃ c chars, spell (point :: points) = c :: chars ∧ isSeparator c = false := by
  rw [Text.spell_cons]
  rcases point.spelling_cases with ⟨c, hc, hspelling⟩ | ⟨d, hspelling, -⟩
  · exact ⟨c, spell points, by rw [hspelling]; rfl, hpoint c hc⟩
  · exact ⟨Text.mark, d :: spell points, by rw [hspelling]; rfl, by decide⟩

/-- Scanning cuts a text at code points. -/
theorem scans_scanFrom (total : Nat) (points : List CodePoint) :
    Scans total points (scanFrom total (spell points)) := by
  match points with
  | [] =>
    rw [Text.spell_nil, scanFrom]
    exact .nil
  | point :: points =>
    by_cases hskip : ∃ c, point = .char c ∧ isSeparator c = true
    · obtain ⟨c, rfl, hc⟩ := hskip
      rw [Text.spell_char (ne_mark_of_isSeparator hc), scanFrom_separator hc]
      exact .skip hc (scans_scanFrom total points)
    · have hpoint (c : Char) (h : point = .char c) : isSeparator c = false := by
        simpa using fun hc => hskip ⟨c, h, hc⟩
      cases hread : readLexeme (spell (point :: points)) with
      | none =>
        obtain ⟨c, chars, hspell, hc⟩ := exists_spell_cons points hpoint
        have hscan := scanFrom_refused hc (hspell ▸ hread) total
        rw [← hspell, length_spell, Text.codePoints_spell] at hscan
        rw [hscan]
        exact .refused (stray_of_readLexeme hpoint hread)
      | some found =>
        obtain ⟨lexeme, after⟩ := found
        obtain ⟨front, hsplit, hfront, hlongest⟩ := readLexeme_eq_some_iff.mp hread
        obtain ⟨own, rest, hown, rfl, rfl⟩ := hfront.exists_own hsplit
        have hshorter : rest.length < (point :: points).length := by
          have := List.length_pos_iff.mpr hfront.own_ne_nil
          rw [hown, List.length_append]
          omega
        rw [scanFrom_lexeme hread, length_spell, length_spell]
        rw [hown] at hlongest ⊢
        exact .token hfront hlongest (scans_scanFrom total rest)
termination_by points.length
decreasing_by
  · simp
  · exact hshorter

/-- A token stands at the text `own`, after which `rest` is left of a text of `total` code
points. -/
structure Token.Stands (token : Token) (total : Nat) (own rest : List CodePoint) : Prop where
  spelled : token.lexeme.Spelled (spell own)
  longest : Longest (spell own) (spell (own ++ rest))
  start : token.start = total - (own ++ rest).length
  stop : token.stop = total - rest.length

namespace Scans

variable {total : Nat} {points : List CodePoint} {scan : Scan} {before middle after : List Token}
  {token first last : Token}

/-- Every token of a scan cuts the text. -/
theorem cut (h : Scans total points scan) (htokens : scan.tokens = before ++ token :: after) :
    ∃ own rest, Starts points (before.map Token.lexeme) (own ++ rest) ∧
      token.Stands total own rest ∧ Scans total rest ⟨after, scan.refused⟩ := by
  induction h generalizing before with
  | nil => simp at htokens
  | skip hc _ ih =>
    obtain ⟨own, rest, hstarts, hstands, hrest⟩ := ih htokens
    exact ⟨own, rest, .skip hc hstarts, hstands, hrest⟩
  | @token lexeme own points scan hown hlongest hscan ih =>
    cases before with
    | nil =>
      obtain ⟨rfl, rfl⟩ := List.cons.inj htokens
      exact ⟨own, points, .nil, ⟨hown, hlongest, rfl, rfl⟩, hscan⟩
    | cons earlier before =>
      obtain ⟨rfl, htail⟩ := List.cons.inj htokens
      obtain ⟨next, rest, hstarts, hstands, hrest⟩ := ih htail
      exact ⟨next, rest, .lexeme hown hlongest hstarts, hstands, hrest⟩
  | refused => simp at htokens

/-- The tokens of a scan end where the text ends or a code point is stray. -/
theorem stop (h : Scans total points scan) :
    ∃ rest, Starts points (scan.tokens.map Token.lexeme) rest ∧
      (rest = [] ∧ scan.refused = none ∨
        ∃ point later, rest = point :: later ∧ Stray point later ∧
          scan.refused = some (total - rest.length, point)) := by
  induction h with
  | nil => exact ⟨[], .nil, .inl ⟨rfl, rfl⟩⟩
  | skip hc _ ih =>
    obtain ⟨rest, hstarts, hend⟩ := ih
    exact ⟨rest, .skip hc hstarts, hend⟩
  | token hown hlongest _ ih =>
    obtain ⟨rest, hstarts, hend⟩ := ih
    exact ⟨rest, .lexeme hown hlongest hstarts, hend⟩
  | @refused point points hstray => exact ⟨_, .nil, .inr ⟨point, points, rfl, hstray, rfl⟩⟩

end Scans

/-! ### Runs of tokens -/

/-- A text that neither starts nor ends with a separator. -/
structure Trimmed (points : List CodePoint) : Prop where
  head : ∀ c, points.head? = some (.char c) → isSeparator c = false
  last : ∀ c, points.getLast? = some (.char c) → isSeparator c = false

theorem Lexeme.Spelled.trimmed {lexeme : Lexeme} {own : List CodePoint}
    (h : lexeme.Spelled (spell own)) : Trimmed own := by
  constructor
  · intro c hc
    obtain ⟨rest, rfl⟩ := List.head?_eq_some_iff.mp hc
    rw [Bool.eq_false_iff]
    intro hseparator
    rw [Text.spell_char (ne_mark_of_isSeparator hseparator)] at h
    obtain ⟨found, after, hread, -⟩ := h.exists_readLexeme []
    rw [List.append_nil, readLexeme_separator hseparator] at hread
    cases hread
  · intro c hc
    obtain ⟨body, d, hbody, hd, hseparator⟩ := h.exists_last
    obtain ⟨front, rest, rfl, -, hrest⟩ := Text.exists_cut hd hbody
    have hnil : rest = [] := Text.spell_inj hrest
    subst hnil
    simp only [List.getLast?_append, List.getLast?_singleton, Option.some_or, Option.some.injEq,
      CodePoint.char.injEq] at hc
    exact hc ▸ hseparator

theorem Trimmed.append {front own : List CodePoint} (hfront : Trimmed front) (hown : Trimmed own)
    (hfirst : front ≠ []) (hlast : own ≠ []) (middle : List CodePoint) :
    Trimmed (front ++ middle ++ own) := by
  constructor
  · intro c hc
    obtain ⟨point, front, rfl⟩ := List.exists_cons_of_ne_nil hfirst
    exact hfront.head c hc
  · intro c hc
    have hown' := List.getLast?_eq_some_getLast hlast
    rw [List.getLast?_append, hown', Option.some_or] at hc
    exact hown.last c (hown'.trans hc)

namespace Scans

variable {total : Nat} {points : List CodePoint} {scan : Scan} {before middle after : List Token}
  {token first last : Token}

/-- A run of tokens is the text from the start of its first token to the end of its last. -/
theorem cut_run (h : Scans total points scan)
    (htokens : scan.tokens = before ++ first :: (middle ++ last :: after)) :
    ∃ own rest, Starts points (before.map Token.lexeme) (own ++ rest) ∧
      Starts (own ++ rest) ((first :: (middle ++ [last])).map Token.lexeme) rest ∧ Trimmed own ∧
      first.start = total - (own ++ rest).length ∧ last.stop = total - rest.length := by
  obtain ⟨front, later, hbefore, hfirst, hscan⟩ := h.cut htokens
  obtain ⟨back, rest, hmiddle, hlast, -⟩ := hscan.cut rfl
  obtain ⟨inner, rfl, -⟩ := hmiddle.exists_front
  have hend : Starts (back ++ rest) [last.lexeme] rest := .lexeme hlast.spelled hlast.longest .nil
  have hrun : Starts (front ++ (inner ++ (back ++ rest)))
      (first.lexeme :: (middle.map Token.lexeme ++ [last.lexeme])) rest :=
    .lexeme hfirst.spelled hfirst.longest (hmiddle.append hend)
  have htrimmed : Trimmed (front ++ inner ++ back) :=
    hfirst.spelled.trimmed.append hlast.spelled.trimmed hfirst.spelled.own_ne_nil
      hlast.spelled.own_ne_nil inner
  have hassoc : front ++ (inner ++ (back ++ rest)) = front ++ inner ++ back ++ rest := by simp
  refine ⟨front ++ inner ++ back, rest, hassoc ▸ hbefore, ?_, htrimmed, hassoc ▸ hfirst.start,
    hlast.stop⟩
  rw [List.map_cons, List.map_append]
  exact hassoc ▸ hrun

/-- The tokens of a trimmed text start at its start and stop at its end. -/
theorem ends_of_trimmed (h : Scans points.length points ⟨first :: (middle ++ [last]), none⟩)
    (htrimmed : Trimmed points) : first.start = 0 ∧ last.stop = points.length := by
  constructor
  · obtain ⟨own, rest, hstarts, hfirst, -⟩ := h.cut (List.nil_append _).symm
    obtain ⟨chars, hpoints, hchars⟩ := hstarts.exists_separators
    cases chars with
    | nil => rw [hfirst.start, hpoints]; simp
    | cons c chars =>
      have hc := htrimmed.head c (by rw [hpoints]; rfl)
      rw [hchars c List.mem_cons_self] at hc
      cases hc
  · obtain ⟨own, rest, hstarts, hlast, hscan⟩ := h.cut (List.cons_append ..).symm
    obtain ⟨front, hpoints, -⟩ := hstarts.exists_front
    obtain ⟨later, hlater, hend⟩ := hscan.stop
    have hnil : later = [] := by simpa using hend
    subst hnil
    obtain ⟨chars, rfl, hchars⟩ := hlater.exists_separators
    rcases chars.eq_nil_or_concat with rfl | ⟨init, c, rfl⟩
    · rw [hlast.stop]
      simp
    · have hc := htrimmed.last c (by rw [hpoints]; simp)
      rw [hchars c (by simp)] at hc
      cases hc

end Scans

end Tree

end Deontic
