import Deontic.Proofs.Flattening

/-! Nested choices taken out and put in.  What stands under a key is read at the paths below that
key (`at?_under`), and choices put under a key replace what stood at these paths and nothing else
(`at?_place`).  Dropping levels without entries changes no value (`at?_tidy`), and choices with the
same values are equal (`beq_of_at?`). -/

namespace Deontic.Choices

/-! ### Levels without entries -/

theorem value?_of_isEmpty {choices : Choices} (h : choices.isEmpty = true) (key : Value) :
    choices.value? key = none := by
  induction choices with
  | empty => rfl
  | value => cases h
  | nested old inner rest _ ih => exact ih (Bool.and_eq_true_iff.mp h).2

theorem isEmpty_of_nested? {choices inner : Choices} {key : Value} (h : choices.isEmpty = true)
    (hinner : choices.nested? key = some inner) : inner.isEmpty = true :=
  passed_to_nested (p := fun choices => choices.isEmpty = true) nofun Bool.and_eq_true_iff.mp
    h hinner

theorem at?_of_isEmpty {choices : Choices} (h : choices.isEmpty = true) (path : Path) :
    choices.at? path = none := by
  induction path generalizing choices with
  | nil => exact at?_nil choices
  | cons key rest ih =>
    cases rest with
    | nil => exact value?_of_isEmpty h key
    | cons next rest =>
      rw [at?_cons_cons]
      cases hinner : choices.nested? key with
      | none => rfl
      | some inner => exact ih (isEmpty_of_nested? h hinner)

@[simp] theorem value?_tidy (choices : Choices) (key : Value) :
    choices.tidy.value? key = choices.value? key := by
  induction choices with
  | empty => rfl
  | value old was rest ih => rw [tidy, value?, value?, ih]
  | nested old inner rest _ ih => rw [tidy]; split <;> simp only [value?, ih]

theorem nested?_tidy {choices : Choices} (h : choices.Tidied) (key : Value) :
    choices.tidy.nested? key =
      (choices.nested? key).bind fun inner => if inner.isEmpty then none else some inner.tidy := by
  induction choices with
  | empty => rfl
  | value old was rest ih => exact ih h.2
  | nested old inner rest _ ih =>
    obtain ⟨hnone, -, hrest⟩ := h
    rw [tidy, nested?]
    cases hempty : inner.isEmpty with
    | true =>
      rw [if_pos rfl, ih hrest]
      split
      · next heq => rw [← nested?_congr rest heq, hnone]; simp [hempty]
      · rfl
    | false =>
      rw [if_neg Bool.false_ne_true, nested?, ih hrest]
      split
      · simp [hempty]
      · rfl

/-- Dropping levels without entries changes no value. -/
theorem at?_tidy {choices : Choices} (h : choices.Tidied) (path : Path) :
    choices.tidy.at? path = choices.at? path := by
  induction path generalizing choices with
  | nil => rw [at?_nil, at?_nil]
  | cons key rest ih =>
    cases rest with
    | nil => exact value?_tidy choices key
    | cons next rest =>
      rw [at?_cons_cons, at?_cons_cons, nested?_tidy h]
      cases hinner : choices.nested? key with
      | none => rfl
      | some inner =>
        cases hempty : inner.isEmpty with
        | true => simp [hempty, at?_of_isEmpty hempty]
        | false =>
          simp only [Option.bind_some, hempty, Bool.false_eq_true, if_false]
          exact ih (h.of_nested? hinner)

theorem Tidied.tidy {choices : Choices} (h : choices.Tidied) : choices.tidy.Tidied := by
  induction choices with
  | empty => trivial
  | value old was rest ih => exact ⟨by rw [value?_tidy]; exact h.1, ih h.2⟩
  | nested old inner rest ihi ih =>
    obtain ⟨hnone, hinner, hrest⟩ := h
    rw [Choices.tidy]
    split
    · exact ih hrest
    · exact ⟨by rw [nested?_tidy hrest, hnone]; rfl, ihi hinner, ih hrest⟩

/-! ### Levels under a key -/

theorem nested?_prune {choices : Choices} (h : choices.Tidied) (key wanted : Value) :
    (choices.prune key).nested? wanted =
      if key == wanted then none else choices.nested? wanted := by
  induction choices with
  | empty => simp [prune, nested?]
  | value old was rest ih => exact ih h.2
  | nested old inner rest _ ih =>
    obtain ⟨hnone, -, hrest⟩ := h
    rw [prune]
    cases hold : old == key with
    | true =>
      rw [if_pos rfl, nested?, BEq.congr_left hold]
      cases hkey : key == wanted with
      | true => rw [if_pos rfl, ← nested?_congr rest hkey, ← nested?_congr rest hold, hnone]
      | false => simp
    | false =>
      rw [if_neg Bool.false_ne_true, nested?, nested?, ih hrest]
      cases hwanted : old == wanted with
      | true =>
        have hkey : (key == wanted) = false := by
          rw [Bool.eq_false_iff]
          intro heq
          rw [BEq.trans hwanted (BEq.symm heq)] at hold
          cases hold
        simp [hkey]
      | false => rfl

@[simp] theorem value?_prune (choices : Choices) (key wanted : Value) :
    (choices.prune key).value? wanted = choices.value? wanted := by
  induction choices with
  | empty => rfl
  | value old was rest ih => rw [prune, value?, value?, ih]
  | nested old inner rest _ ih =>
    rw [prune]
    split
    · rfl
    · exact ih

theorem Tidied.prune {choices : Choices} (h : choices.Tidied) (key : Value) :
    (choices.prune key).Tidied := by
  induction choices with
  | empty => trivial
  | value old was rest ih => exact ⟨by rw [value?_prune]; exact h.1, ih h.2⟩
  | nested old inner rest _ ih =>
    obtain ⟨hnone, hinner, hrest⟩ := h
    rw [Choices.prune]
    split
    · exact hrest
    · refine ⟨?_, hinner, ih hrest⟩
      rw [nested?_prune hrest, hnone]
      split <;> rfl

theorem at?_under (choices : Choices) (key next : Value) (rest : Path) :
    (choices.under key).at? (next :: rest) = choices.at? (key :: next :: rest) := by
  rw [at?_cons_cons, under]
  cases choices.nested? key with
  | none => exact at?_empty _
  | some inner => rfl

theorem Tidied.under {choices : Choices} (h : choices.Tidied) (key : Value) :
    (choices.under key).Tidied := by
  rw [Choices.under]
  cases hinner : choices.nested? key with
  | none => trivial
  | some inner => exact h.of_nested? hinner

/-- Choices with others put under a key; without entries these clear the key. -/
def place (choices : Choices) (key : Value) (inner : Choices) : Choices :=
  if inner.isEmpty then choices.prune key else choices.graft key inner.tidy

theorem setUnder_eq_place {choices : Choices} {key : Value} (inner : Choices)
    (hkey : key.checkKey = .ok ()) (hvalue : choices.value? key = none) :
    choices.setUnder key inner = .ok (choices.place key inner) := by
  rw [setUnder, hkey, hvalue]
  rfl

@[simp] theorem value?_place (choices : Choices) (key : Value) (inner : Choices) (wanted : Value) :
    (choices.place key inner).value? wanted = choices.value? wanted := by
  rw [place]
  split
  · exact value?_prune ..
  · exact value?_graft ..

theorem Tidied.place {choices inner : Choices} (h : choices.Tidied) (hinner : inner.Tidied)
    (key : Value) : (choices.place key inner).Tidied := by
  rw [Choices.place]
  split
  · exact h.prune key
  · exact h.graft hinner.tidy key

/-- Choices put under a key are read below that key, and nothing else changes. -/
theorem at?_place {choices inner : Choices} (h : choices.Tidied) (hinner : inner.Tidied)
    (key wanted next : Value) (rest : Path) :
    (choices.place key inner).at? (wanted :: next :: rest) =
      if key == wanted then inner.at? (next :: rest) else choices.at? (wanted :: next :: rest) := by
  rw [place, at?_cons_cons, at?_cons_cons]
  cases hempty : inner.isEmpty with
  | true =>
    rw [if_pos rfl, nested?_prune h, at?_of_isEmpty hempty]
    split <;> rfl
  | false =>
    rw [if_neg Bool.false_ne_true, nested?_graft]
    split
    · exact at?_tidy hinner _
    · rfl

/-- Choices with the same values are equal. -/
theorem beq_of_at? {a b : Choices} (ha : a.Tidied) (hb : b.Tidied)
    (h : ∀ path, a.at? path = b.at? path) : (a == b) = true := by
  refine Table.agrees_of_get? (fun value => BEq.rfl) fun path => ?_
  rw [get?_flatten ha, get?_flatten hb, h]

end Deontic.Choices
