import Deontic.Tree.Token

/-! How a source is split into lexemes.  `Lexeme.Spelled` says which characters spell a lexeme, and
`Splits` cuts a source into separators and lexemes, each of which is the longest that the rest of
the source starts with.  Reading a lexeme finds the longest one (`readLexeme_eq_some_iff`), so
scanning gives the lexemes of a source exactly if it can be split (`Splits.scanFrom`,
`splits_scanFrom`). -/

namespace Deontic.Tree

/-! ### Quoted texts -/

/-- What stands between double quotes, and the text that it means.  A backslash takes the next
character as it stands, unless that is a line feed. -/
inductive Quotes : List Char → List Char → Prop
  | nil : Quotes [] []
  | plain {c : Char} {body text : List Char} :
      c ≠ '"' → c ≠ '\\' → Quotes body text → Quotes (c :: body) (c :: text)
  | escaped {c : Char} {body text : List Char} :
      c ≠ '\n' → Quotes body text → Quotes ('\\' :: c :: body) (c :: text)

theorem Quotes.readQuoted {body text : List Char} (h : Quotes body text) (rest : List Char) :
    readQuoted (body ++ '"' :: rest) = some (text, rest) := by
  induction h with
  | nil => rfl
  | plain hquote hbackslash _ ih =>
    rw [List.cons_append, Tree.readQuoted, ih]
    · rfl
    · exact hquote
    · exact fun h _ => hbackslash h
    · exact fun _ _ h _ => hbackslash h
  | escaped hline _ ih =>
    rw [List.cons_append, List.cons_append, Tree.readQuoted, if_neg hline, ih]
    rfl

theorem quotes_of_readQuoted {chars text rest : List Char}
    (h : readQuoted chars = some (text, rest)) :
    ∃ body, chars = body ++ '"' :: rest ∧ Quotes body text := by
  fun_induction readQuoted chars generalizing text rest with
  | case1 => cases h
  | case2 rest => cases h; exact ⟨[], rfl, .nil⟩
  | case3 => cases h
  | case4 => cases h
  | case5 c after hline ih =>
    obtain ⟨⟨text, rest⟩, hread, he⟩ := Option.map_eq_some_iff.mp h
    cases he
    obtain ⟨body, rfl, hbody⟩ := ih hread
    exact ⟨'\\' :: c :: body, rfl, .escaped hline hbody⟩
  | case6 c after hquote hlast hbackslash ih =>
    obtain ⟨⟨text, rest⟩, hread, he⟩ := Option.map_eq_some_iff.mp h
    cases he
    obtain ⟨body, rfl, hbody⟩ := ih hread
    refine ⟨c :: body, rfl, .plain hquote (fun hc => ?_) hbody⟩
    -- what follows the backslash has at least the closing quote, so it is not the last character
    cases body with
    | nil => exact hbackslash _ _ hc rfl
    | cons => exact hbackslash _ _ hc rfl

/-- Between quotes the protected characters of a text mean the text. -/
theorem quotes_protect (text : List Char) : Quotes (text.flatMap protect) text := by
  induction text with
  | nil => exact .nil
  | cons c text ih =>
    rw [List.flatMap_cons, protect]
    split
    · next h =>
      refine .escaped ?_ ih
      rintro rfl
      exact absurd h (by decide)
    · next h =>
      rw [not_or] at h
      exact .plain h.1 h.2 ih

/-! ### Lexemes -/

/-- The characters that spell a lexeme. -/
inductive Lexeme.Spelled : Lexeme → List Char → Prop
  | name {text : List Char} : isName text = true → Spelled (.name text) text
  | numeral {text : List Char} : isNumeral text = true → Spelled (.numeral text) text
  | quoted {body text : List Char} :
      Quotes body text → Spelled (.quoted text) ('"' :: (body ++ ['"']))
  | opening : Spelled .opening ['(']
  | closing : Spelled .closing [')']
  | comma : Spelled .comma [',']

/-- Whether no front of a source that spells a lexeme is longer than this one. -/
def Longest (front source : List Char) : Prop :=
  ∀ (lexeme : Lexeme) (longer : List Char),
    lexeme.Spelled longer → longer <+: source → longer.length ≤ front.length

/-- A source as separators, which are skipped, and lexemes. -/
inductive Splits : List Char → List Lexeme → Prop
  | nil : Splits [] []
  | skip {c : Char} {rest : List Char} {lexemes : List Lexeme} :
      isSeparator c = true → Splits rest lexemes → Splits (c :: rest) lexemes
  | lexeme {lexeme : Lexeme} {front rest : List Char} {lexemes : List Lexeme} :
      lexeme.Spelled front → Longest front (front ++ rest) → Splits rest lexemes →
      Splits (front ++ rest) (lexeme :: lexemes)

/-- Letters and the underscore are no digits. -/
theorem isDecimal_of_startsName {c : Char} (h : Text.startsName c = true) :
    Text.isDecimal c = false := by
  have hzeros : ∀ start ∈ Text.zeros, start + 10 ≤ 65 ∨ 122 < start := by decide
  have hcode : 65 ≤ c.toNat ∧ c.toNat ≤ 122 := by
    change (decide (c.val ≥ 65 ∧ c.val ≤ 90) || (decide (c.val ≥ 97) && decide (c.val ≤ 122)) ||
      c == '_') = true at h
    simp only [Bool.or_eq_true, Bool.and_eq_true, decide_eq_true_eq, beq_iff_eq,
      UInt32.le_iff_toNat_le, ge_iff_le] at h
    change ((65 ≤ c.toNat ∧ c.toNat ≤ 90) ∨ (97 ≤ c.toNat ∧ c.toNat ≤ 122)) ∨ c = '_' at h
    rcases h with (h | h) | rfl
    · omega
    · omega
    · decide
  rw [Text.isDecimal, Text.digitValue?, Option.isSome_map, Option.isSome_eq_false_iff,
    Option.isNone_iff_eq_none, List.find?_eq_none]
  intro start hstart
  have := hzeros start hstart
  simp only [Bool.and_eq_true, decide_eq_true_eq]
  omega

/-! ### Reading a lexeme -/

theorem readLexeme_quote (rest : List Char) :
    readLexeme ('"' :: rest) = (readQuoted rest).map fun (text, rest) => (.quoted text, rest) := by
  rw [readLexeme, if_pos rfl]

theorem readLexeme_quotes {body text : List Char} (h : Quotes body text) (after : List Char) :
    readLexeme ('"' :: (body ++ ['"']) ++ after) = some (.quoted text, after) := by
  rw [List.cons_append, readLexeme_quote, List.append_assoc, List.cons_append, List.nil_append,
    h.readQuoted]
  rfl

theorem isNumeral_cons {c : Char} {rest : List Char} :
    isNumeral (c :: rest) = true ↔ Text.isDecimal c = true ∧ rest.all Text.isDecimal = true := by
  simp [isNumeral]

theorem readLexeme_decimal {c : Char} (h : Text.isDecimal c = true) (rest : List Char) :
    readLexeme (c :: rest) =
      some (.numeral (c :: rest.takeWhile Text.isDecimal), rest.dropWhile Text.isDecimal) := by
  have hquote : c ≠ '"' := by
    rintro rfl
    exact absurd h (by decide)
  rw [readLexeme, if_neg hquote, if_pos h]

theorem readLexeme_letter {c : Char} (h : Text.startsName c = true) (rest : List Char) :
    readLexeme (c :: rest) =
      some (.name (c :: rest.takeWhile Text.continuesName), rest.dropWhile Text.continuesName) := by
  have hquote : c ≠ '"' := by
    rintro rfl
    exact absurd h (by decide)
  rw [readLexeme, if_neg hquote, if_neg (by simp [isDecimal_of_startsName h]), if_pos h]

theorem readLexeme_separator {c : Char} (h : isSeparator c = true) (rest : List Char) :
    readLexeme (c :: rest) = none := by
  simp only [isSeparator, Bool.or_eq_true, beq_iff_eq] at h
  rcases h with (rfl | rfl) | rfl <;> rfl

/-- A spelled lexeme at the start of a source is read, or a longer one that starts with it. -/
theorem Lexeme.Spelled.exists_readLexeme {lexeme : Lexeme} {front : List Char}
    (h : lexeme.Spelled front) (after : List Char) :
    ∃ found rest, Tree.readLexeme (front ++ after) = some (found, rest) ∧
      rest.length ≤ after.length := by
  have hdrop (p : Char → Bool) {front : List Char} (h : front.all p = true) :
      ((front ++ after).dropWhile p).length ≤ after.length := by
    rw [List.dropWhile_append_of_pos (by simpa using h)]
    exact (List.dropWhile_sublist p).length_le
  cases h with
  | name h =>
    cases front with
    | nil => cases h
    | cons c front =>
      obtain ⟨hfirst, hrest⟩ := Bool.and_eq_true_iff.mp h
      exact ⟨_, _, readLexeme_letter hfirst (front ++ after), hdrop _ hrest⟩
  | numeral h =>
    cases front with
    | nil => cases h
    | cons c front =>
      obtain ⟨hfirst, hrest⟩ := isNumeral_cons.mp h
      exact ⟨_, _, readLexeme_decimal hfirst (front ++ after), hdrop _ hrest⟩
  | quoted h => exact ⟨_, after, readLexeme_quotes h after, Nat.le_refl _⟩
  | opening => exact ⟨.opening, after, rfl, Nat.le_refl _⟩
  | closing => exact ⟨.closing, after, rfl, Nat.le_refl _⟩
  | comma => exact ⟨.comma, after, rfl, Nat.le_refl _⟩

/-- Whether no name and no numeral goes on in what follows it. -/
def Parted (after : List Char) : Prop :=
  ∀ c ∈ after.head?, Text.continuesName c = false ∧ Text.isDecimal c = false

theorem parted_nil : Parted [] := nofun

theorem takeWhile_append_of_stops {p : Char → Bool} {front after : List Char}
    (hfront : front.all p = true) (hafter : ∀ c ∈ after.head?, p c = false) :
    (front ++ after).takeWhile p = front ∧ (front ++ after).dropWhile p = after := by
  rw [List.takeWhile_append_of_pos (by simpa using hfront),
    List.dropWhile_append_of_pos (by simpa using hfront)]
  cases after with
  | nil => simp
  | cons c after => simp [hafter c rfl]

/-- A spelled lexeme is read as it stands if no name and no numeral goes on after it. -/
theorem Lexeme.Spelled.readLexeme {lexeme : Lexeme} {front after : List Char}
    (h : lexeme.Spelled front) (hafter : Parted after) :
    Tree.readLexeme (front ++ after) = some (lexeme, after) := by
  cases h with
  | name h =>
    cases front with
    | nil => cases h
    | cons c front =>
      obtain ⟨hfirst, hrest⟩ := Bool.and_eq_true_iff.mp h
      obtain ⟨htake, hdrop⟩ := takeWhile_append_of_stops hrest fun c hc => (hafter c hc).1
      rw [List.cons_append, readLexeme_letter hfirst, htake, hdrop]
  | numeral h =>
    cases front with
    | nil => cases h
    | cons c front =>
      obtain ⟨hfirst, hrest⟩ := isNumeral_cons.mp h
      obtain ⟨htake, hdrop⟩ := takeWhile_append_of_stops hrest fun c hc => (hafter c hc).2
      rw [List.cons_append, readLexeme_decimal hfirst, htake, hdrop]
  | quoted h => exact readLexeme_quotes h after
  | opening => rfl
  | closing => rfl
  | comma => rfl

/-- What is read is spelled by the characters that it takes. -/
theorem spelled_of_readLexeme {chars rest : List Char} {lexeme : Lexeme}
    (h : readLexeme chars = some (lexeme, rest)) :
    ∃ front, chars = front ++ rest ∧ lexeme.Spelled front := by
  cases chars with
  | nil => cases h
  | cons c after =>
    rw [readLexeme] at h
    split at h
    · next hquote =>
      obtain ⟨⟨text, rest⟩, hread, he⟩ := Option.map_eq_some_iff.mp h
      cases he
      obtain ⟨body, rfl, hbody⟩ := quotes_of_readQuoted hread
      exact ⟨'"' :: (body ++ ['"']), by simp [hquote], .quoted hbody⟩
    · split at h
      · next hdecimal =>
        cases h
        refine ⟨_, by rw [List.cons_append, List.takeWhile_append_dropWhile], .numeral ?_⟩
        simp [isNumeral, hdecimal, List.all_takeWhile]
      · split at h
        · next hletter =>
          cases h
          refine ⟨_, by rw [List.cons_append, List.takeWhile_append_dropWhile], .name ?_⟩
          simp [isName, hletter, List.all_takeWhile]
        · split at h
          · next hc => cases h; exact ⟨['('], by rw [hc]; rfl, .opening⟩
          · split at h
            · next hc => cases h; exact ⟨[')'], by rw [hc]; rfl, .closing⟩
            · split at h
              · next hc => cases h; exact ⟨[','], by rw [hc]; rfl, .comma⟩
              · cases h

/-- Characters spell at most one lexeme. -/
theorem Lexeme.Spelled.unique {a b : Lexeme} {front : List Char} (ha : a.Spelled front)
    (hb : b.Spelled front) : a = b := by
  have h := (ha.readLexeme parted_nil).symm.trans (hb.readLexeme parted_nil)
  cases h
  rfl

/-- Reading takes the longest front that spells a lexeme. -/
theorem readLexeme_eq_some_iff {chars rest : List Char} {lexeme : Lexeme} :
    readLexeme chars = some (lexeme, rest) ↔
      ∃ front, chars = front ++ rest ∧ lexeme.Spelled front ∧ Longest front chars := by
  constructor
  · intro h
    obtain ⟨front, rfl, hfront⟩ := spelled_of_readLexeme h
    refine ⟨front, rfl, hfront, ?_⟩
    rintro other longer hlonger ⟨after, hafter⟩
    obtain ⟨found, rest', hread, hle⟩ := hlonger.exists_readLexeme after
    rw [hafter, h] at hread
    cases hread
    have := congrArg List.length hafter
    simp only [List.length_append] at this
    omega
  · rintro ⟨front, rfl, hfront, hlongest⟩
    obtain ⟨found, rest', hread, hle⟩ := hfront.exists_readLexeme rest
    obtain ⟨front', hsplit, hfront'⟩ := spelled_of_readLexeme hread
    have hshort := hlongest found front' hfront' ⟨rest', hsplit.symm⟩
    have hlength := congrArg List.length hsplit
    simp only [List.length_append] at hlength
    obtain ⟨rfl, rfl⟩ := List.append_inj hsplit (by omega)
    rw [hread, hfront.unique hfront']

/-! ### Scanning -/

theorem scanFrom_separator {c : Char} (h : isSeparator c = true) (total : Nat)
    (rest : List Char) : scanFrom total (c :: rest) = scanFrom total rest := by
  rw [scanFrom, if_pos h]

theorem scanFrom_lexeme {chars rest : List Char} {lexeme : Lexeme}
    (h : readLexeme chars = some (lexeme, rest)) (total : Nat) :
    scanFrom total chars =
      ⟨⟨lexeme, total - Text.length chars, total - Text.length rest⟩ ::
        (scanFrom total rest).tokens, (scanFrom total rest).refused⟩ := by
  cases chars with
  | nil => cases h
  | cons c after =>
    have hseparator : ¬isSeparator c = true := by
      intro hc
      rw [readLexeme_separator hc] at h
      cases h
    rw [scanFrom, if_neg hseparator]
    split
    · next hnone => rw [h] at hnone; cases hnone
    · next found after' hsome => rw [h] at hsome; cases hsome; rfl

/-- What is read at the start of a source is its first lexeme. -/
theorem Splits.read {lexeme : Lexeme} {chars after : List Char} {lexemes : List Lexeme}
    (h : Splits after lexemes) (hread : readLexeme chars = some (lexeme, after)) :
    Splits chars (lexeme :: lexemes) := by
  obtain ⟨front, rfl, hfront, hlongest⟩ := readLexeme_eq_some_iff.mp hread
  exact .lexeme hfront hlongest h

/-- Scanning a source that can be split gives its lexemes and refuses nothing. -/
theorem Splits.scanFrom {chars : List Char} {lexemes : List Lexeme} (h : Splits chars lexemes)
    (total : Nat) : (scanFrom total chars).tokens.map Token.lexeme = lexemes ∧
      (scanFrom total chars).refused = none := by
  induction h with
  | nil => rw [Tree.scanFrom]; exact ⟨rfl, rfl⟩
  | skip hc _ ih => rw [scanFrom_separator hc]; exact ih
  | lexeme hfront hlongest _ ih =>
    rw [scanFrom_lexeme (readLexeme_eq_some_iff.mpr ⟨_, rfl, hfront, hlongest⟩)]
    exact ⟨congrArg _ ih.1, ih.2⟩

/-- A source of which nothing is refused is split into the lexemes of its scan. -/
theorem splits_scanFrom {total : Nat} {chars : List Char}
    (h : (scanFrom total chars).refused = none) :
    Splits chars ((scanFrom total chars).tokens.map Token.lexeme) := by
  fun_induction Tree.scanFrom total chars with
  | case1 => exact .nil
  | case2 c rest hc ih => exact .skip hc (ih h)
  | case3 => cases h
  | case4 c rest start hc lexeme after hread scan ih =>
    obtain ⟨front, hsplit, hfront, hlongest⟩ := readLexeme_eq_some_iff.mp hread
    rw [hsplit] at hlongest ⊢
    exact .lexeme hfront hlongest (ih h)

end Deontic.Tree
