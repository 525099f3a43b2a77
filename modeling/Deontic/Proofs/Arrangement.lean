import Deontic.Proofs.Nesting

/-! Choices without hidden structure.  They are `Unshared` if every level uses no key twice,
`Arranged` if every level also lists its values before its nested levels, and `Filled` if no nested
level is without entries.  The table of the entries of such choices says everything about them: how
many values there are, whether there are any (`Arranged.size_eq`, `isEmpty_eq`), and where there is
room for another one, which is at every path that is compatible with all paths of the table
(`hasRoom_iff`). -/

namespace Deontic

namespace Path

/-- Whether a path leads through the place of another one: that one is a strict beginning of it. -/
def LeadsThrough (path front : Path) : Prop :=
  front.isPrefixOf path = true ∧ front.length < path.length

/-- Of two paths that are not compatible, one leads through the place of the other. -/
theorem compatible_eq_false_iff {p q : Path} :
    p.compatible q = false ↔ p.LeadsThrough q ∨ q.LeadsThrough p := by
  induction p generalizing q with
  | nil => cases q <;> simp [compatible, LeadsThrough]
  | cons a p ih =>
    cases q with
    | nil => simp [compatible, LeadsThrough]
    | cons b q =>
      have hcomm : (b == a) = (a == b) := BEq.comm
      cases hkey : a == b with
      | false => simp [compatible, LeadsThrough, List.isPrefixOf, hcomm, hkey]
      | true => simpa [compatible, LeadsThrough, List.isPrefixOf, hcomm, hkey] using ih

end Path

namespace Choices

/-- A level with its values in front. -/
def level (values : List (Value × Value)) (nestings : List (Value × Choices)) : Choices :=
  values.foldr (fun entry rest => .value entry.1 entry.2 rest)
    (nestings.foldr (fun entry rest => .nested entry.1 entry.2 rest) .empty)

/-- Whether no key of a level is used twice, by values or by nested levels. -/
def Unshared : Choices → Prop
  | empty => True
  | value key _ rest => rest.value? key = none ∧ rest.nested? key = none ∧ rest.Unshared
  | nested key inner rest =>
    rest.value? key = none ∧ rest.nested? key = none ∧ inner.Unshared ∧ rest.Unshared

/-- Whether every level lists its values before its nested levels and uses no key twice. -/
def Arranged : Choices → Prop
  | empty => True
  | value key _ rest => rest.value? key = none ∧ rest.nested? key = none ∧ rest.Arranged
  | nested key inner rest =>
    rest.values = [] ∧ rest.nested? key = none ∧ inner.Arranged ∧ rest.Arranged

/-- Whether every nested level has an entry. -/
def Filled : Choices → Prop
  | empty => True
  | value _ _ rest => rest.Filled
  | nested _ inner rest => inner.isEmpty = false ∧ inner.Filled ∧ rest.Filled

/-! ### Levels -/

theorem value?_eq_find? (choices : Choices) (key : Value) :
    choices.value? key = (choices.values.find? fun entry => entry.1 == key).map Prod.snd := by
  induction choices with
  | empty => rfl
  | value old was rest ih =>
    rw [value?, values, List.find?_cons, ih]
    cases old == key <;> rfl
  | nested old inner rest _ ih => exact ih

theorem nested?_eq_find? (choices : Choices) (key : Value) :
    choices.nested? key = (choices.nestings.find? fun entry => entry.1 == key).map Prod.snd := by
  induction choices with
  | empty => rfl
  | value old was rest ih => exact ih
  | nested old inner rest _ ih =>
    rw [nested?, nestings, List.find?_cons, ih]
    cases old == key <;> rfl

section Level

variable (values : List (Value × Value)) (nestings : List (Value × Choices))

@[simp] theorem values_level : (level values nestings).values = values := by
  induction values with
  | nil =>
    induction nestings with
    | nil => rfl
    | cons first rest ih => exact ih
  | cons first rest ih => exact congrArg (first :: ·) ih

@[simp] theorem nestings_level : (level values nestings).nestings = nestings := by
  induction values with
  | nil =>
    induction nestings with
    | nil => rfl
    | cons first rest ih => exact congrArg (first :: ·) ih
  | cons first rest ih => exact ih

theorem value?_level (key : Value) : (level values nestings).value? key =
    (values.find? fun entry => entry.1 == key).map Prod.snd := by
  rw [value?_eq_find?, values_level]

theorem nested?_level (key : Value) : (level values nestings).nested? key =
    (nestings.find? fun entry => entry.1 == key).map Prod.snd := by
  rw [nested?_eq_find?, nestings_level]

theorem isEmpty_level : (level values nestings).isEmpty =
    (values.isEmpty && nestings.all fun entry => entry.2.isEmpty) := by
  cases values with
  | nil =>
    induction nestings with
    | nil => rfl
    | cons first rest ih => exact congrArg (first.2.isEmpty && ·) ih
  | cons first rest => rfl

end Level

theorem filled_level {values : List (Value × Value)} {nestings : List (Value × Choices)}
    (h : ∀ entry ∈ nestings, entry.2.isEmpty = false ∧ entry.2.Filled) :
    (level values nestings).Filled := by
  induction values with
  | nil =>
    induction nestings with
    | nil => trivial
    | cons first rest ih =>
      obtain ⟨hempty, hfilled⟩ := h first List.mem_cons_self
      exact ⟨hempty, hfilled, ih fun entry hentry => h entry (List.mem_cons_of_mem _ hentry)⟩
  | cons first rest ih => exact ih

theorem find?_eq_none_of_ne {ν : Type} {key : Value} {entries : List (Value × ν)}
    (h : ∀ entry ∈ entries, (key == entry.1) = false) :
    (entries.find? fun entry => entry.1 == key).map Prod.snd = none := by
  rw [Option.map_eq_none_iff, List.find?_eq_none]
  intro entry hentry heq
  have := h entry hentry
  rw [BEq.symm heq] at this
  cases this

theorem arranged_nestings {nestings : List (Value × Choices)}
    (hdistinct : nestings.Pairwise fun a b => (a.1 == b.1) = false)
    (hinner : ∀ entry ∈ nestings, entry.2.Arranged) : (level [] nestings).Arranged := by
  induction nestings with
  | nil => trivial
  | cons first rest ih =>
    obtain ⟨hfirst, hrest⟩ := List.pairwise_cons.mp hdistinct
    exact ⟨values_level [] rest,
      (nested?_level [] rest first.1).trans (find?_eq_none_of_ne hfirst),
      hinner first List.mem_cons_self,
      ih hrest fun entry h => hinner entry (List.mem_cons_of_mem _ h)⟩

theorem arranged_level {values : List (Value × Value)} {nestings : List (Value × Choices)}
    (hvalues : values.Pairwise fun a b => (a.1 == b.1) = false)
    (hnestings : nestings.Pairwise fun a b => (a.1 == b.1) = false)
    (hapart : ∀ entry ∈ values, ∀ other ∈ nestings, (entry.1 == other.1) = false)
    (hinner : ∀ entry ∈ nestings, entry.2.Arranged) : (level values nestings).Arranged := by
  induction values with
  | nil => exact arranged_nestings hnestings hinner
  | cons first rest ih =>
    obtain ⟨hfirst, hrest⟩ := List.pairwise_cons.mp hvalues
    exact ⟨(value?_level rest nestings first.1).trans (find?_eq_none_of_ne hfirst),
      (nested?_level rest nestings first.1).trans
        (find?_eq_none_of_ne (hapart first List.mem_cons_self)),
      ih hrest fun entry h => hapart entry (List.mem_cons_of_mem _ h)⟩

namespace Unshared

variable {choices : Choices}

theorem tidied (h : choices.Unshared) : choices.Tidied := by
  induction choices with
  | empty => trivial
  | value key chosen rest ih => exact ⟨h.1, ih h.2.2⟩
  | nested key inner rest ihinner ih => exact ⟨h.2.1, ihinner h.2.2.1, ih h.2.2.2⟩

/-- No key holds both a value and nested choices. -/
theorem nested?_eq_none (h : choices.Unshared) {key : Value}
    (hvalue : (choices.value? key).isSome) : choices.nested? key = none := by
  induction choices with
  | empty => rfl
  | value old was rest ih =>
    rw [value?] at hvalue
    split at hvalue
    · next heq => exact (nested?_congr rest heq).symm.trans h.2.1
    · exact ih h.2.2 hvalue
  | nested old inner rest _ ih =>
    rw [nested?]
    split
    · next heq =>
      rw [value?, ← value?_congr rest heq, h.1] at hvalue
      cases hvalue
    · exact ih h.2.2.2 hvalue

end Unshared

/-- Keys that the rest of choices uses are not those that were used before. -/
theorem beq_eq_false_of_used {rest : Choices} {key wanted : Value}
    (hvalue : rest.value? key = none) (hnested : rest.nested? key = none)
    (hused : (rest.value? wanted).isSome ∨ (rest.nested? wanted).isSome) :
    (key == wanted) = false := by
  rw [Bool.eq_false_iff]
  intro heq
  rw [← value?_congr rest heq, ← nested?_congr rest heq, hvalue, hnested] at hused
  rcases hused with h | h
  · cases h
  · cases h

namespace Arranged

variable {choices : Choices}

theorem unshared (h : choices.Arranged) : choices.Unshared := by
  induction choices with
  | empty => trivial
  | value key chosen rest ih => exact ⟨h.1, h.2.1, ih h.2.2⟩
  | nested key inner rest ihinner ih =>
    exact ⟨by rw [value?_eq_find?, h.1]; rfl, h.2.1, ihinner h.2.2.1, ih h.2.2.2⟩

theorem tidied (h : choices.Arranged) : choices.Tidied := h.unshared.tidied

/-- Arranged choices are what their values and nested levels make. -/
theorem eq_level (h : choices.Arranged) :
    choices = Choices.level choices.values choices.nestings := by
  induction choices with
  | empty => rfl
  | value key chosen rest ih => exact congrArg (Choices.value key chosen) (ih h.2.2)
  | nested key inner rest _ ih =>
    obtain ⟨hvalues, -, -, hrest⟩ := h
    have hlevel := ih hrest
    rw [hvalues] at hlevel
    show nested key inner rest = Choices.level rest.values ((key, inner) :: rest.nestings)
    rw [hvalues]
    exact congrArg (Choices.nested key inner) hlevel

/-- No key holds both a value and nested choices. -/
theorem nested?_eq_none (h : choices.Arranged) {key : Value}
    (hvalue : (choices.value? key).isSome) : choices.nested? key = none :=
  h.unshared.nested?_eq_none hvalue

theorem of_nested? (h : choices.Arranged) {key : Value} {inner : Choices}
    (hinner : choices.nested? key = some inner) : inner.Arranged :=
  passed_to_nested (fun h => h.2.2) (fun h => h.2.2) h hinner

theorem tidy (h : choices.Arranged) : choices.tidy.Arranged := by
  induction choices with
  | empty => trivial
  | value old was rest ih =>
    obtain ⟨hvalue, hnested, hrest⟩ := h
    exact ⟨by rw [value?_tidy]; exact hvalue,
      by rw [nested?_tidy hrest.tidied, hnested]; rfl, ih hrest⟩
  | nested old inner rest ihinner ih =>
    obtain ⟨hvalues, hnested, hinner, hrest⟩ := h
    have hkept (choices : Choices) : choices.tidy.values = choices.values := by
      induction choices with
      | empty => rfl
      | value key chosen rest ih => exact congrArg ((key, chosen) :: ·) ih
      | nested key inner rest _ ih => rw [Choices.tidy]; split <;> exact ih
    rw [Choices.tidy]
    split
    · exact ih hrest
    · exact ⟨(hkept rest).trans hvalues, by rw [nested?_tidy hrest.tidied, hnested]; rfl,
        ihinner hinner, ih hrest⟩

end Arranged

theorem isEmpty_tidy (choices : Choices) : choices.tidy.isEmpty = choices.isEmpty := by
  induction choices with
  | empty => rfl
  | value => rfl
  | nested key inner rest ihinner ih =>
    rw [tidy]
    split
    · next hinner => rw [ih, isEmpty, hinner, Bool.true_and]
    · rw [isEmpty, ihinner, ih, isEmpty]

/-- Dropping the levels without entries leaves none. -/
theorem filled_tidy (choices : Choices) : choices.tidy.Filled := by
  induction choices with
  | empty => trivial
  | value key chosen rest ih => exact ih
  | nested key inner rest ihinner ih =>
    rw [tidy]
    split
    · exact ih
    · next hinner => exact ⟨by rw [isEmpty_tidy]; simpa using hinner, ihinner, ih⟩

theorem Filled.of_nested? {choices inner : Choices} {key : Value} (h : choices.Filled)
    (hinner : choices.nested? key = some inner) : inner.isEmpty = false ∧ inner.Filled :=
  passed_to_nested (q := fun inner => inner.isEmpty = false ∧ inner.Filled) (fun h => h)
    (fun h => ⟨⟨h.1, h.2.1⟩, h.2.2⟩) h hinner

/-! ### What the table of the entries says -/

theorem length_parts (choices : Choices) :
    choices.parts.1.length + choices.parts.2.length = choices.size := by
  induction choices with
  | empty => rfl
  | value key chosen rest ih =>
    rw [parts, size, ← ih, List.length_cons]
    exact Nat.succ_add ..
  | nested key inner rest ihinner ih =>
    rw [parts, size, ← ihinner, ← ih, List.length_append, List.length_map, List.length_append]
    exact Nat.add_left_comm ..

theorem isEmpty_eq_size (choices : Choices) : choices.isEmpty = (choices.size == 0) := by
  induction choices with
  | empty => rfl
  | value => rfl
  | nested key inner rest ihinner ih =>
    rw [isEmpty, size, ihinner, ih, Bool.eq_iff_iff, Bool.and_eq_true, beq_iff_eq, beq_iff_eq,
      beq_iff_eq, Nat.add_eq_zero_iff]

namespace Tidied

variable {choices : Choices}

/-- Going through the levels gives the entries of the table. -/
theorem entries_flatten (h : choices.Tidied) : choices.flatten.entries = choices.entries := by
  rw [flatten, Table.entries_ofList h.pairwise_entries]

theorem size_flatten (h : choices.Tidied) : choices.flatten.size = choices.size := by
  rw [Table.size, h.entries_flatten, entries, List.length_append, length_parts]

theorem isEmpty_flatten (h : choices.Tidied) : choices.flatten.isEmpty = choices.isEmpty := by
  rw [isEmpty_eq_size, ← h.size_flatten, Table.isEmpty, Table.size]
  cases choices.flatten.entries <;> rfl

theorem exists_at? (h : choices.Tidied) (hfilled : choices.isEmpty = false) :
    ∃ path, (choices.at? path).isSome := by
  rw [← h.isEmpty_flatten, Table.isEmpty] at hfilled
  obtain ⟨entry, hentry⟩ := List.exists_mem_of_ne_nil _ (List.isEmpty_eq_false_iff.mp hfilled)
  refine ⟨entry.1, ?_⟩
  rw [← get?_flatten h, Table.get?_of_mem hentry]
  rfl

end Tidied

/-- When a path is compatible with the paths of all values, level by level. -/
theorem forall_compatible_cons_iff (choices : Choices) (key : Value) (rest : Path) :
    (∀ other, (choices.at? other).isSome → Path.compatible (key :: rest) other = true) ↔
      (rest ≠ [] → choices.value? key = none) ∧
        ∀ inner, choices.nested? key = some inner →
          ∀ other, (inner.at? other).isSome → rest.compatible other = true := by
  constructor
  · intro hall
    refine ⟨fun hrest => ?_, fun inner hinner other hother => ?_⟩
    · rw [Option.eq_none_iff_forall_not_mem]
      intro chosen hchosen
      have := hall [key] (by rw [at?, hchosen]; rfl)
      rw [Path.compatible, BEq.rfl, Bool.not_true, Bool.false_or] at this
      cases rest with
      | nil => exact hrest rfl
      | cons => cases this
    · cases other with
      | nil => rw [at?_nil] at hother; cases hother
      | cons next later =>
        have := hall (key :: next :: later) (by rw [at?_cons_cons, hinner]; exact hother)
        rwa [Path.compatible, BEq.rfl, Bool.not_true, Bool.false_or] at this
  · rintro ⟨hvalue, hnested⟩ other hother
    cases other with
    | nil => rw [at?_nil] at hother; cases hother
    | cons step later =>
      rw [Path.compatible]
      cases hkey : key == step with
      | false => rfl
      | true =>
        cases later with
        | nil =>
          rw [at?, ← value?_congr choices hkey] at hother
          cases rest with
          | nil => rfl
          | cons => rw [hvalue (by simp)] at hother; cases hother
        | cons next later =>
          rw [at?_cons_cons, ← nested?_congr choices hkey] at hother
          obtain ⟨inner, hinner⟩ :=
            Option.isSome_iff_exists.mp (Option.isSome_of_isSome_bind hother)
          rw [hinner] at hother
          exact hnested inner hinner _ hother

/-- In choices without hidden structure there is room at the paths that neither lead through the
place of a value nor end on the way to one. -/
theorem Arranged.hasRoom_iff {choices : Choices} {path : Path} (h : choices.Arranged)
    (hfilled : choices.Filled) (hpath : path ≠ []) :
    choices.HasRoom path ↔ ∀ other, (choices.at? other).isSome → path.compatible other = true := by
  induction path generalizing choices with
  | nil => exact absurd rfl hpath
  | cons key rest ih =>
    rw [forall_compatible_cons_iff]
    cases rest with
    | nil =>
      show choices.nested? key = none ↔ _
      constructor
      · intro hnone
        rw [hnone]
        exact ⟨fun h => absurd rfl h, nofun⟩
      · rintro ⟨-, hnested⟩
        rw [Option.eq_none_iff_forall_not_mem]
        intro inner hinner
        obtain ⟨other, hother⟩ :=
          (h.of_nested? hinner).tidied.exists_at? (hfilled.of_nested? hinner).1
        have := hnested inner hinner other hother
        cases other with
        | nil => rw [at?_nil] at hother; cases hother
        | cons => cases this
    | cons next rest =>
      rw [hasRoom_cons_cons]
      cases hnested : choices.nested? key with
      | none => exact ⟨fun hnone => ⟨fun _ => hnone, nofun⟩, fun hall => hall.1 (by simp)⟩
      | some inner =>
        have hvalue : choices.value? key = none := by
          rw [Option.eq_none_iff_forall_not_mem]
          intro chosen hchosen
          have hsome : (choices.value? key).isSome := by rw [hchosen]; rfl
          have := h.nested?_eq_none hsome
          rw [hnested] at this
          cases this
        refine (ih (h.of_nested? hnested) (hfilled.of_nested? hnested).2 (by simp)).trans
          ⟨fun hall => ⟨fun _ => hvalue, ?_⟩, fun hall => hall.2 inner rfl⟩
        rintro _ ⟨⟩
        exact hall

/-- Where a value stands there is room for another one in its place. -/
theorem Arranged.hasRoom_of_isSome {choices : Choices} {path : Path} (h : choices.Arranged)
    (hvalue : (choices.at? path).isSome) : choices.HasRoom path := by
  induction path generalizing choices with
  | nil => rw [at?_nil] at hvalue; cases hvalue
  | cons key rest ih =>
    cases rest with
    | nil => exact h.nested?_eq_none hvalue
    | cons next rest =>
      rw [at?_cons_cons] at hvalue
      rw [hasRoom_cons_cons]
      cases hnested : choices.nested? key with
      | none => rw [hnested] at hvalue; cases hvalue
      | some inner =>
        rw [hnested] at hvalue
        exact ih (h.of_nested? hnested) hvalue

end Choices

end Deontic
