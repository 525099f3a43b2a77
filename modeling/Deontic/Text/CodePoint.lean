/-! The code points of a text.  A document can name half of a pair of code units and leave out the
other half.  Such a half is a code point and yet no character, and a `String` holds nothing but
characters.  So a half is spelled with two of them, a mark and a character that numbers the half.
The mark itself is spelled with two characters too, of which the second numbers no half, and all
other characters stand for themselves.  Hence texts are equal when their spellings are
(`codePoints_spell`), and because the mark is the first character after the halves, spellings are in
the order of the texts (`spell_lt_spell_iff`). -/

namespace Deontic.Text

/-- A character, or half of a pair of code units. -/
inductive CodePoint where
  | char (c : Char)
  | half (number : Fin 0x800)
  deriving DecidableEq, Inhabited

def mark : Char := '\ue000'

namespace CodePoint

def code : CodePoint → Nat
  | char c => c.toNat
  | half number => 0xd800 + number

def isHalf : CodePoint → Bool
  | char _ => false
  | half _ => true

def ofCode (code : Nat) : CodePoint :=
  if h : 0xd800 ≤ code ∧ code < 0xe000 then half ⟨code - 0xd800, by omega⟩
  else char (Char.ofNat code)

def spelling : CodePoint → List Char
  | char c => if c = mark then [mark, '\ue800'] else [c]
  | half number => [mark, Char.ofNat (0xe000 + number)]

/-- The code point that the mark and a character after it stand for. -/
def ofMarked (c : Char) : CodePoint :=
  if h : c.toNat - 0xe000 < 0x800 then half ⟨c.toNat - 0xe000, h⟩ else char mark

end CodePoint

def spell (points : List CodePoint) : List Char := points.flatMap CodePoint.spelling

def codePoints : List Char → List CodePoint
  | [] => []
  | [c] => [.char c]
  | c :: d :: rest =>
    if c = mark then .ofMarked d :: codePoints rest else .char c :: codePoints (d :: rest)

def length (chars : List Char) : Nat := (codePoints chars).length

def ofChars (chars : String) : String := String.ofList (spell (chars.toList.map .char))

theorem toNat_numbering (number : Fin 0x800) :
    (Char.ofNat (0xe000 + number)).toNat = 0xe000 + number := by
  rw [Char.ofNat, dif_pos (Or.inr ⟨by omega, by omega⟩)]
  rfl

theorem CodePoint.ofMarked_half (number : Fin 0x800) :
    CodePoint.ofMarked (Char.ofNat (0xe000 + number)) = .half number := by
  simp [CodePoint.ofMarked, toNat_numbering]

theorem CodePoint.ofMarked_mark : CodePoint.ofMarked '\ue800' = .char mark := dif_neg (by decide)

theorem codePoints_cons_of_ne {c : Char} (h : c ≠ mark) (chars : List Char) :
    codePoints (c :: chars) = .char c :: codePoints chars := by
  cases chars with
  | nil => rfl
  | cons d rest => simp [codePoints, h]

/-- Every text has a spelling of its own. -/
theorem codePoints_spell (points : List CodePoint) : codePoints (spell points) = points := by
  induction points with
  | nil => rfl
  | cons point points ih =>
    simp only [spell, List.flatMap_cons] at ih ⊢
    cases point with
    | half number => simp [CodePoint.spelling, codePoints, CodePoint.ofMarked_half, ih]
    | char c =>
      by_cases h : c = mark
      · subst h
        simp [CodePoint.spelling, codePoints, CodePoint.ofMarked_mark, ih]
      · simp [CodePoint.spelling, h, codePoints_cons_of_ne h, ih]

theorem toNat_mark : mark.toNat = 0xe000 := rfl

theorem lt_iff_toNat {c d : Char} : c < d ↔ c.toNat < d.toNat := Iff.rfl

theorem ne_mark_iff {c : Char} : c ≠ mark ↔ c.toNat ≠ 0xe000 :=
  not_congr ⟨fun h => h ▸ rfl, fun h => Char.toNat_inj.mp h⟩

/-- No character is numbered like a half. -/
theorem toNat_outside_halves (c : Char) : c.toNat < 0xd800 ∨ 0xe000 ≤ c.toNat := by
  have : c.toNat < 0xd800 ∨ 0xdfff < c.toNat ∧ c.toNat < 0x110000 := c.valid
  omega

theorem CodePoint.code_inj {p q : CodePoint} (h : p.code = q.code) : p = q := by
  cases p with
  | char c =>
    have := toNat_outside_halves c
    cases q with
    | char d => exact congrArg char (Char.toNat_inj.mp h)
    | half n => simp only [code] at h; omega
  | half m =>
    cases q with
    | char d =>
      have := toNat_outside_halves d
      simp only [code] at h; omega
    | half n => exact congrArg half (Fin.ext (by simp only [code] at h; omega))

/-- The spellings of two code points are in the order of their numbers, whatever follows them. -/
theorem CodePoint.spelling_lt {p q : CodePoint} (h : p.code < q.code) (xs ys : List Char) :
    p.spelling ++ xs < q.spelling ++ ys := by
  have hmark := toNat_mark
  cases p with
  | half m =>
    cases q with
    | half n =>
      have hm := toNat_numbering m
      have hn := toNat_numbering n
      simp only [code] at h
      exact List.cons_lt_cons_iff.mpr (.inr ⟨rfl, List.cons_lt_cons_iff.mpr (.inl (by
        simp only [lt_iff_toNat]; omega))⟩)
    | char d =>
      have hm := toNat_numbering m
      have hd := toNat_outside_halves d
      simp only [code] at h
      simp only [spelling]
      split
      · have last : ('\ue800' : Char).toNat = 0xe800 := rfl
        exact List.cons_lt_cons_iff.mpr (.inr ⟨rfl, List.cons_lt_cons_iff.mpr (.inl (by
          simp only [lt_iff_toNat]; omega))⟩)
      · next hne =>
        have := ne_mark_iff.mp hne
        exact List.cons_lt_cons_iff.mpr (.inl (by simp only [lt_iff_toNat]; omega))
  | char c =>
    have hc := toNat_outside_halves c
    cases q with
    | half n =>
      simp only [code] at h
      rw [spelling, if_neg (ne_mark_iff.mpr (by omega))]
      exact List.cons_lt_cons_iff.mpr (.inl (by simp only [lt_iff_toNat]; omega))
    | char d =>
      have first (e : Char) : ∃ cs, (char e).spelling = e :: cs := by
        simp only [spelling]
        split
        · next he => exact ⟨_, by rw [he]⟩
        · exact ⟨_, rfl⟩
      obtain ⟨cs, hcs⟩ := first c
      obtain ⟨ds, hds⟩ := first d
      rw [hcs, hds]
      exact List.cons_lt_cons_iff.mpr (.inl h)

theorem append_lt_append_iff (start xs ys : List Char) :
    start ++ xs < start ++ ys ↔ xs < ys := by
  induction start with
  | nil => rfl
  | cons c start ih => simp [ih]

/-- The spellings of texts are in the order of the numbers of their code points. -/
theorem spell_lt_spell_iff (ps qs : List CodePoint) :
    spell ps < spell qs ↔ ps.map CodePoint.code < qs.map CodePoint.code := by
  induction ps generalizing qs with
  | nil =>
    cases qs with
    | nil => simp [spell]
    | cons q qs =>
      have hq : ∃ c cs, q.spelling = c :: cs := by
        cases q with
        | half n => exact ⟨_, _, rfl⟩
        | char c => rw [CodePoint.spelling]; split <;> exact ⟨_, _, rfl⟩
      obtain ⟨c, cs, hq⟩ := hq
      simp [spell, hq]
  | cons p ps ih =>
    cases qs with
    | nil => simp [spell]
    | cons q qs =>
      rw [spell, spell, List.flatMap_cons, List.flatMap_cons, List.map_cons, List.map_cons,
        List.cons_lt_cons_iff, ← ih]
      rcases Nat.lt_trichotomy p.code q.code with h | h | h
      · exact iff_of_true (CodePoint.spelling_lt h _ _) (.inl h)
      · cases CodePoint.code_inj h
        simp only [Nat.lt_irrefl, false_or, true_and]
        exact append_lt_append_iff _ _ _
      · exact iff_of_false (List.lt_asymm (CodePoint.spelling_lt h _ _)) (by omega)

end Deontic.Text
