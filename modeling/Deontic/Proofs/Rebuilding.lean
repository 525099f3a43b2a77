import Deontic.Proofs.Arrangement

/-! Choices made again from their entries.  The entries list the values of a level before what is
nested in it, so choices are first arranged that way (`arrange`), which leaves the entries alone
(`entries_arrange`).  Arranged choices come out of their entries in the same order, without the
levels that hold none (`Arranged.ofEntries_flatten`).  Entries of any table can be written unless
one of the paths is empty or leads through the place of another one, and then the choices have
these entries (`exists_ofEntries_iff`, `flatten_agrees_of_ofEntries`). -/

namespace Deontic.Choices

variable {choices : Choices}

/-! ### Choices that use no key twice -/

namespace Unshared

theorem value?_eq_none (h : choices.Unshared) {key : Value} {inner : Choices}
    (hnested : choices.nested? key = some inner) : choices.value? key = none := by
  rw [← Option.not_isSome_iff_eq_none]
  intro hvalue
  rw [h.nested?_eq_none hvalue] at hnested
  cases hnested

theorem put (h : choices.Unshared) {key : Value} (hkey : choices.nested? key = none)
    (chosen : Value) : (choices.put key chosen).Unshared := by
  induction choices with
  | empty => exact ⟨rfl, rfl, trivial⟩
  | value old was rest ih =>
    rw [Choices.put]
    split
    · exact h
    · next hne =>
      have hflip : (key == old) = false := BEq.symm_false (Bool.eq_false_iff.mpr hne)
      exact ⟨by rw [value?_put, hflip]; exact h.1, by rw [nested?_put]; exact h.2.1, ih h.2.2 hkey⟩
  | nested old inner rest _ ih =>
    rw [nested?] at hkey
    split at hkey
    · cases hkey
    · next hne =>
      have hflip : (key == old) = false := BEq.symm_false (Bool.eq_false_iff.mpr hne)
      exact ⟨by rw [value?_put, hflip]; exact h.1, by rw [nested?_put]; exact h.2.1, h.2.2.1,
        ih h.2.2.2 hkey⟩

theorem graft (h : choices.Unshared) {inner : Choices} (hinner : inner.Unshared) {key : Value}
    (hkey : choices.value? key = none) : (choices.graft key inner).Unshared := by
  induction choices with
  | empty => exact ⟨rfl, rfl, hinner, trivial⟩
  | value old was rest ih =>
    rw [value?] at hkey
    split at hkey
    · cases hkey
    · next hne =>
      have hflip : (key == old) = false := BEq.symm_false (Bool.eq_false_iff.mpr hne)
      exact ⟨by rw [value?_graft]; exact h.1, by rw [nested?_graft, hflip]; exact h.2.1,
        ih h.2.2 hkey⟩
  | nested old was rest _ ih =>
    rw [Choices.graft]
    split
    · exact ⟨h.1, h.2.1, hinner, h.2.2.2⟩
    · next hne =>
      have hflip : (key == old) = false := BEq.symm_false (Bool.eq_false_iff.mpr hne)
      exact ⟨by rw [value?_graft]; exact h.1, by rw [nested?_graft, hflip]; exact h.2.1, h.2.2.1,
        ih h.2.2.2 hkey⟩

theorem of_nested? {inner : Choices} {key : Value} (h : choices.Unshared)
    (hinner : choices.nested? key = some inner) : inner.Unshared :=
  passed_to_nested (fun h => h.2.2) (fun h => h.2.2) h hinner

theorem invariant : Invariant Unshared where
  empty := trivial
  of_nested? := of_nested?
  put h _ hnested chosen := h.put hnested chosen
  graft h _ hlevel hinner := by
    refine h.graft hinner ?_
    rcases levelFor_eq_ok hlevel with hnested | ⟨-, hvalue, -⟩
    · exact h.value?_eq_none hnested
    · exact hvalue

end Unshared

/-! ### Arranging -/

/-- The choices with the values of each level before its nested levels. -/
def arrange : Choices → Choices
  | empty => empty
  | value key chosen rest => value key chosen rest.arrange
  | nested key inner rest =>
    level rest.arrange.values ((key, inner.arrange) :: rest.arrange.nestings)

@[simp] theorem values_arrange (choices : Choices) : choices.arrange.values = choices.values := by
  induction choices with
  | empty => rfl
  | value key chosen rest ih => rw [arrange, values, values, ih]
  | nested key inner rest _ ih => rw [arrange, values_level, ih, values]

@[simp] theorem nestings_arrange (choices : Choices) : choices.arrange.nestings =
    choices.nestings.map fun entry => (entry.1, entry.2.arrange) := by
  induction choices with
  | empty => rfl
  | value key chosen rest ih => exact ih
  | nested key inner rest _ ih => rw [arrange, nestings_level, ih]; rfl

@[simp] theorem value?_arrange (choices : Choices) (key : Value) :
    choices.arrange.value? key = choices.value? key := by
  rw [value?_eq_find?, values_arrange, ← value?_eq_find?]

@[simp] theorem nested?_arrange (choices : Choices) (key : Value) :
    choices.arrange.nested? key = (choices.nested? key).map arrange := by
  rw [nested?_eq_find?, nested?_eq_find?, nestings_arrange, List.find?_map, Option.map_map,
    Option.map_map]
  rfl

/-- The entries of a level are those of its values and those of its nested levels. -/
theorem parts_eq (choices : Choices) : choices.parts =
    (choices.values.map fun entry => ([entry.1], entry.2),
      choices.nestings.flatMap fun nesting =>
        nesting.2.entries.map fun entry => (nesting.1 :: entry.1, entry.2)) := by
  induction choices with
  | empty => rfl
  | value key chosen rest ih => rw [parts, ih]; rfl
  | nested key inner rest _ ih => rw [parts, ih]; rfl

theorem parts_arrange (choices : Choices) : choices.arrange.parts = choices.parts := by
  induction choices with
  | empty => rfl
  | value key chosen rest ih => rw [arrange, parts, ih, parts]
  | nested key inner rest ihinner ih =>
    have hrest := (parts_eq rest.arrange).symm.trans ih
    rw [arrange, parts_eq, values_level, nestings_level, List.flatMap_cons, parts, ← hrest]
    simp only [entries, ihinner]

/-- Arranging the levels leaves the entries as they are. -/
@[simp] theorem entries_arrange (choices : Choices) :
    choices.arrange.entries = choices.entries := by
  rw [entries, parts_arrange, entries]

theorem flatten_arrange (choices : Choices) : choices.arrange.flatten = choices.flatten := by
  rw [flatten, entries_arrange, flatten]

@[simp] theorem isEmpty_arrange (choices : Choices) :
    choices.arrange.isEmpty = choices.isEmpty := by
  rw [isEmpty_eq_size, isEmpty_eq_size, ← length_parts, ← length_parts, parts_arrange]

/-- One more nested level in front of the others. -/
theorem Arranged.cons_nested {key : Value} {inner : Choices} (h : choices.Arranged)
    (hvalue : choices.value? key = none) (hnested : choices.nested? key = none)
    (hinner : inner.Arranged) :
    (level choices.values ((key, inner) :: choices.nestings)).Arranged := by
  induction choices with
  | empty => exact ⟨rfl, rfl, hinner, trivial⟩
  | value old was rest ih =>
    rw [value?] at hvalue
    split at hvalue
    · cases hvalue
    · next hne =>
      refine ⟨?_, ?_, ih h.2.2 hvalue hnested⟩
      · exact (value?_level ..).trans ((value?_eq_find? rest old).symm.trans h.1)
      · refine (nested?_level ..).trans ?_
        have hflip : (key == old) = false := BEq.symm_false (Bool.eq_false_iff.mpr hne)
        rw [List.find?_cons, hflip]
        exact (nested?_eq_find? rest old).symm.trans h.2.1
  | nested old was rest _ _ =>
    have hlevel : level rest.values ((key, inner) :: (old, was) :: rest.nestings) =
        nested key inner (nested old was rest) := by
      have hrest := h.2.2.2.eq_level
      rw [h.1] at hrest ⊢
      exact congrArg (fun last => nested key inner (nested old was last)) hrest.symm
    show (level rest.values ((key, inner) :: (old, was) :: rest.nestings)).Arranged
    rw [hlevel]
    exact ⟨h.1, hnested, hinner, h⟩

theorem Unshared.arranged_arrange (h : choices.Unshared) : choices.arrange.Arranged := by
  induction choices with
  | empty => trivial
  | value key chosen rest ih =>
    exact ⟨by rw [value?_arrange]; exact h.1, by rw [nested?_arrange, h.2.1]; rfl, ih h.2.2⟩
  | nested key inner rest ihinner ih =>
    exact (ih h.2.2.2).cons_nested (by rw [value?_arrange]; exact h.1)
      (by rw [nested?_arrange, h.2.1]; rfl) (ihinner h.2.2.1)

theorem Arranged.arrange_eq (h : choices.Arranged) : choices.arrange = choices := by
  induction choices with
  | empty => rfl
  | value key chosen rest ih => rw [arrange, ih h.2.2]
  | nested key inner rest ihinner ih =>
    have hrest := h.2.2.2.eq_level
    rw [h.1] at hrest
    rw [arrange, ihinner h.2.2.1, ih h.2.2.2, h.1]
    exact congrArg (nested key inner) hrest.symm

/-! ### Keys -/

/-- Whether all keys here and below can be keys. -/
def Keyed : Choices → Prop
  | empty => True
  | value key _ rest => key.checkKey = .ok () ∧ rest.Keyed
  | nested key inner rest => key.checkKey = .ok () ∧ inner.Keyed ∧ rest.Keyed

theorem keyed_level {values : List (Value × Value)} {nestings : List (Value × Choices)}
    (hvalues : ∀ entry ∈ values, entry.1.checkKey = .ok ())
    (hnestings : ∀ entry ∈ nestings, entry.1.checkKey = .ok () ∧ entry.2.Keyed) :
    (level values nestings).Keyed := by
  induction values with
  | nil =>
    induction nestings with
    | nil => trivial
    | cons first rest ih =>
      obtain ⟨⟨hfirst, hinner⟩, hrest⟩ := List.forall_mem_cons.mp hnestings
      exact ⟨hfirst, hinner, ih hrest⟩
  | cons first rest ih =>
    obtain ⟨hfirst, hrest⟩ := List.forall_mem_cons.mp hvalues
    exact ⟨hfirst, ih hrest⟩

namespace Keyed

theorem parts (h : choices.Keyed) : (∀ entry ∈ choices.parts.1, Path.check entry.1 = .ok ()) ∧
    ∀ entry ∈ choices.parts.2, Path.check entry.1 = .ok () := by
  induction choices with
  | empty => exact ⟨nofun, nofun⟩
  | value key chosen rest ih =>
    obtain ⟨hkey, hrest⟩ := h
    exact ⟨List.forall_mem_cons.mpr ⟨(Path.check_cons key []).mpr ⟨hkey, rfl⟩, (ih hrest).1⟩,
      (ih hrest).2⟩
  | nested key inner rest ihinner ih =>
    obtain ⟨hkey, hinner, hrest⟩ := h
    refine ⟨(ih hrest).1, fun entry hentry => ?_⟩
    rcases List.mem_append.mp hentry with hbelow | hlater
    · obtain ⟨below, hmem, rfl⟩ := List.mem_map.mp hbelow
      refine (Path.check_cons key below.1).mpr ⟨hkey, ?_⟩
      exact (List.mem_append.mp hmem).elim ((ihinner hinner).1 below) ((ihinner hinner).2 below)
    · exact (ih hrest).2 entry hlater

/-- The paths of the entries are made of these keys. -/
theorem entries (h : choices.Keyed) : ∀ entry ∈ choices.entries, Path.check entry.1 = .ok () :=
  fun entry hentry => (List.mem_append.mp hentry).elim (h.parts.1 entry) (h.parts.2 entry)

theorem put (h : choices.Keyed) {key : Value} (hkey : key.checkKey = .ok ()) (chosen : Value) :
    (choices.put key chosen).Keyed := by
  induction choices with
  | empty => exact ⟨hkey, trivial⟩
  | value old was rest ih =>
    rw [Choices.put]
    split
    · exact h
    · exact ⟨h.1, ih h.2⟩
  | nested old inner rest _ ih => exact ⟨h.1, h.2.1, ih h.2.2⟩

theorem graft (h : choices.Keyed) {inner : Choices} (hinner : inner.Keyed) {key : Value}
    (hkey : key.checkKey = .ok ()) : (choices.graft key inner).Keyed := by
  induction choices with
  | empty => exact ⟨hkey, hinner, trivial⟩
  | value old was rest ih => exact ⟨h.1, ih h.2⟩
  | nested old was rest _ ih =>
    rw [Choices.graft]
    split
    · exact ⟨h.1, hinner, h.2.2⟩
    · exact ⟨h.1, h.2.1, ih h.2.2⟩

theorem invariant : Invariant Keyed where
  empty := trivial
  of_nested? := passed_to_nested (fun h => h.2) (fun h => h.2)
  put h hkey _ chosen := h.put hkey chosen
  graft h hkey _ hinner := h.graft hinner hkey

theorem tidy (h : choices.Keyed) : choices.tidy.Keyed := by
  induction choices with
  | empty => trivial
  | value key chosen rest ih => exact ⟨h.1, ih h.2⟩
  | nested key inner rest ihinner ih =>
    rw [Choices.tidy]
    split
    · exact ih h.2.2
    · exact ⟨h.1, ihinner h.2.1, ih h.2.2⟩

end Keyed

/-! ### Entries written at new keys -/

/-- One level after another one. -/
def append : Choices → Choices → Choices
  | empty, last => last
  | value key chosen rest, last => value key chosen (rest.append last)
  | nested key inner rest, last => nested key inner (rest.append last)

@[simp] theorem append_empty (choices : Choices) : choices.append empty = choices := by
  induction choices with
  | empty => rfl
  | value key chosen rest ih => rw [append, ih]
  | nested key inner rest _ ih => rw [append, ih]

theorem append_assoc (choices middle last : Choices) :
    (choices.append middle).append last = choices.append (middle.append last) := by
  induction choices with
  | empty => rfl
  | value key chosen rest ih => rw [append, append, append, ih]
  | nested key inner rest _ ih => rw [append, append, append, ih]

theorem value?_append (choices last : Choices) (key : Value) :
    (choices.append last).value? key = (choices.value? key).or (last.value? key) := by
  induction choices with
  | empty => rfl
  | value old was rest ih =>
    rw [append, value?, value?, ih]
    split <;> rfl
  | nested old inner rest _ ih => exact ih

theorem nested?_append (choices last : Choices) (key : Value) :
    (choices.append last).nested? key = (choices.nested? key).or (last.nested? key) := by
  induction choices with
  | empty => rfl
  | value old was rest ih => exact ih
  | nested old inner rest _ ih =>
    rw [append, nested?, nested?, ih]
    split <;> rfl

/-- A value under a new key comes last. -/
theorem put_eq_append {key : Value} (h : choices.value? key = none) (chosen : Value) :
    choices.put key chosen = choices.append (value key chosen empty) := by
  induction choices with
  | empty => rfl
  | value old was rest ih =>
    rw [value?] at h
    split at h
    · cases h
    · next hne => rw [put, if_neg hne, ih h, append]
  | nested old inner rest _ ih => rw [put, ih h, append]

/-- Nested choices under a new key come last. -/
theorem graft_eq_append {key : Value} (h : choices.nested? key = none) (inner : Choices) :
    choices.graft key inner = choices.append (nested key inner empty) := by
  induction choices with
  | empty => rfl
  | value old was rest ih => rw [graft, ih h, append]
  | nested old was rest _ ih =>
    rw [nested?] at h
    split at h
    · cases h
    · next hne => rw [graft, if_neg hne, ih h, append]

theorem graft_graft (choices : Choices) (key : Value) (first second : Choices) :
    (choices.graft key first).graft key second = choices.graft key second := by
  induction choices with
  | empty => exact if_pos BEq.rfl
  | value old was rest ih => rw [graft, graft, graft, ih]
  | nested old was rest _ ih =>
    by_cases hkey : (old == key) = true
    · rw [graft, if_pos hkey, graft, if_pos hkey, graft, if_pos hkey]
    · rw [graft, if_neg hkey, graft, if_neg hkey, graft, if_neg hkey, ih]

/-- Entries below one key are written in what is nested there. -/
theorem setAll_below {key : Value} (hkey : key.checkKey = .ok ()) {inner result : Choices}
    (hlevel : choices.levelFor key = .ok inner) {entries : List (Path × Value)}
    (hpaths : ∀ entry ∈ entries, entry.1 ≠ []) (hset : inner.setAll entries = .ok result)
    (hne : entries ≠ []) :
    choices.setAll (entries.map fun entry => (key :: entry.1, entry.2)) =
      .ok (choices.graft key result) := by
  induction entries generalizing choices inner with
  | nil => exact absurd rfl hne
  | cons entry rest ih =>
    obtain ⟨written, hwritten, hrest⟩ := setAll_cons_eq_ok.mp hset
    obtain ⟨hpath, hpaths⟩ := List.forall_mem_cons.mp hpaths
    obtain ⟨next, later, hentry⟩ := List.exists_cons_of_ne_nil hpath
    rw [List.map_cons]
    refine setAll_cons_eq_ok.mpr ⟨choices.graft key written, ?_, ?_⟩
    · rw [hentry] at hwritten ⊢
      rw [set_cons_cons, hkey, hlevel]
      simp only [bind, Except.bind, hwritten]
      rfl
    · cases rest with
      | nil => cases hrest; rfl
      | cons second more =>
        have hnext : (choices.graft key written).levelFor key = .ok written := by
          rw [levelFor, nested?_graft, if_pos BEq.rfl]
        rw [ih hnext hpaths hrest (by simp), graft_graft]

theorem entries_of_isEmpty (h : choices.isEmpty = true) : choices.entries = [] := by
  have hlength := length_parts choices
  rw [isEmpty_eq_size, beq_iff_eq] at h
  rw [h, ← List.length_append] at hlength
  exact List.eq_nil_of_length_eq_zero hlength

theorem entries_ne_nil_of_isEmpty (h : choices.isEmpty = false) : choices.entries ≠ [] := by
  intro hnil
  have hlength := length_parts choices
  rw [← List.length_append] at hlength
  rw [isEmpty_eq_size, ← hlength] at h
  rw [entries] at hnil
  rw [hnil] at h
  cases h

theorem parts_tidy (choices : Choices) : choices.tidy.parts = choices.parts := by
  induction choices with
  | empty => rfl
  | value key chosen rest ih => rw [tidy, parts, ih, parts]
  | nested key inner rest ihinner ih =>
    rw [tidy]
    split
    · next hempty =>
      have hnone : inner.parts.1 ++ inner.parts.2 = [] := entries_of_isEmpty hempty
      rw [ih, parts, hnone]
      rfl
    · rw [parts, ihinner, ih, parts]

/-- Dropping the levels without entries drops no entry. -/
theorem entries_tidy (choices : Choices) : choices.tidy.entries = choices.entries := by
  rw [entries, parts_tidy, entries]

/-- Every path of an entry has a key. -/
theorem ne_nil_of_mem_entries {entry : Path × Value} (h : entry ∈ choices.entries) :
    entry.1 ≠ [] := by
  rcases List.mem_append.mp h with h | h
  · obtain ⟨key, hpath⟩ := choices.parts_ne_nil.1 entry h
    simp [hpath]
  · obtain ⟨key, next, rest, hpath⟩ := choices.parts_ne_nil.2 entry h
    simp [hpath]

/-- Before a level without values come the entries below a key. -/
theorem entries_nested {rest : Choices} (h : rest.values = []) (key : Value) (inner : Choices) :
    (nested key inner rest).entries =
      (inner.entries.map fun entry => (key :: entry.1, entry.2)) ++ rest.entries := by
  have hnone : rest.parts.1 = [] := by rw [parts_eq, h]; rfl
  show rest.parts.1 ++ (_ ++ rest.parts.2) = _ ++ (rest.parts.1 ++ rest.parts.2)
  rw [hnone]
  rfl

/-- The entries of arranged choices, written after choices with other keys, give these choices
again, without the levels that hold none. -/
theorem Arranged.setAll_entries {first : Choices} (h : choices.Arranged) (hkeyed : choices.Keyed)
    (hnew : ∀ key, ((choices.value? key).isSome ∨ (choices.nested? key).isSome) →
      first.value? key = none ∧ first.nested? key = none) :
    first.setAll choices.entries = .ok (first.append choices.tidy) := by
  induction choices generalizing first with
  | empty => rw [Choices.tidy, append_empty]; rfl
  | value key chosen rest ih =>
    obtain ⟨hvalue, hnested, hrest⟩ := h
    obtain ⟨hnoValue, hnoNested⟩ := hnew key (.inl (by rw [value?, BEq.rfl]; rfl))
    refine setAll_cons_eq_ok.mpr ⟨first.put key chosen,
      setItem_eq_ok.mpr ⟨hkeyed.1, hnoNested, rfl⟩, ?_⟩
    rw [put_eq_append hnoValue]
    refine (ih hrest hkeyed.2 fun wanted hused => ?_).trans ?_
    · have hne := beq_eq_false_of_used hvalue hnested hused
      obtain ⟨hold, hold'⟩ := hnew wanted (by rw [value?, hne, nested?]; exact hused)
      rw [value?_append, nested?_append, hold, hold', value?, hne]
      exact ⟨rfl, rfl⟩
    · rw [append_assoc]
      rfl
  | nested key inner rest ihinner ih =>
    obtain ⟨hkey, hkeyedInner, hkeyedRest⟩ := hkeyed
    obtain ⟨hnoValue, hnoNested⟩ := hnew key (.inr (by rw [nested?, BEq.rfl]; rfl))
    have hvalue := h.unshared.1
    obtain ⟨hvalues, hnested, hinner, hrest⟩ := h
    have hused (wanted : Value)
        (hused : (rest.value? wanted).isSome ∨ (rest.nested? wanted).isSome) :
        (key == wanted) = false ∧ first.value? wanted = none ∧ first.nested? wanted = none := by
      have hne := beq_eq_false_of_used hvalue hnested hused
      exact ⟨hne, hnew wanted (by rw [value?, nested?, hne]; exact hused)⟩
    rw [entries_nested hvalues, Choices.tidy]
    cases hempty : inner.isEmpty with
    | true =>
      rw [entries_of_isEmpty hempty, if_pos rfl]
      exact ih hrest hkeyedRest fun wanted h => (hused wanted h).2
    | false =>
      have hbelow : empty.setAll inner.entries = .ok inner.tidy :=
        ihinner hinner hkeyedInner fun _ _ => ⟨rfl, rfl⟩
      have hlevel : first.levelFor key = .ok empty := by
        rw [levelFor, hnoNested, hnoValue]
        rfl
      rw [if_neg Bool.false_ne_true]
      refine setAll_append_eq_ok.mpr ⟨first.graft key inner.tidy, setAll_below hkey hlevel
        (fun _ => ne_nil_of_mem_entries) hbelow (entries_ne_nil_of_isEmpty hempty), ?_⟩
      rw [graft_eq_append hnoNested]
      refine (ih hrest hkeyedRest fun wanted h => ?_).trans ?_
      · obtain ⟨hne, hold, hold'⟩ := hused wanted h
        rw [value?_append, nested?_append, hold, hold', nested?, hne]
        exact ⟨rfl, rfl⟩
      · rw [append_assoc]
        rfl

/-! ### Choices made from entries -/

theorem ofEntries_eq_setAll {entries : List (Path × Value)}
    (hkeys : ∀ entry ∈ entries, Path.check entry.1 = .ok ())
    (hdistinct : entries.Pairwise fun a b => (a.1 == b.1) = false) :
    ofEntries entries = empty.setAll entries := by
  have hcheck : (entries.forM fun entry => entry.1.check) = .ok () := by
    clear hdistinct
    induction entries with
    | nil => rfl
    | cons entry rest ih =>
      obtain ⟨hentry, hrest⟩ := List.forall_mem_cons.mp hkeys
      show (entry.1.check >>= fun _ => rest.forM fun entry => entry.1.check) = .ok ()
      rw [hentry]
      exact ih hrest
  rw [ofEntries, hcheck, Table.entries_ofList hdistinct]
  rfl

/-- Arranged choices come out of their entries, without the levels that hold none. -/
theorem Arranged.ofEntries_flatten (h : choices.Arranged) (hkeyed : choices.Keyed) :
    ofEntries choices.flatten.entries = .ok choices.tidy := by
  rw [h.tidied.entries_flatten, ofEntries_eq_setAll hkeyed.entries h.tidied.pairwise_entries]
  exact h.setAll_entries hkeyed fun _ _ => ⟨rfl, rfl⟩

/-- Entries of a table can be written unless a path is empty or leads through the place of another
one. -/
theorem exists_ofEntries_iff {flat : Table Path Value}
    (hkeys : ∀ path ∈ flat.keys, Path.check path = .ok ()) :
    (∃ result, ofEntries flat.entries = .ok result) ↔
      ¬∃ path ∈ flat.keys, path = [] ∨ ∃ other ∈ flat.keys, path.LeadsThrough other := by
  have hkeys' : ∀ entry ∈ flat.entries, Path.check entry.1 = .ok () :=
    fun entry hentry => hkeys entry.1 (List.mem_map_of_mem hentry)
  rw [ofEntries_eq_setAll hkeys' flat.distinct, exists_setAll_iff]
  constructor
  · rintro ⟨hroom, hpairs⟩ ⟨path, hpath, hbad⟩
    obtain ⟨entry, hentry, rfl⟩ := List.mem_map.mp hpath
    rcases hbad with hnil | ⟨other, hother, hlead⟩
    · have := (hroom entry hentry).2
      rw [hnil] at this
      exact this
    · obtain ⟨entry', hentry', rfl⟩ := List.mem_map.mp hother
      have : Std.Symm fun a b : Path × Value => a.1.compatible b.1 = true :=
        ⟨fun a b h => (Path.compatible_comm b.1 a.1).trans h⟩
      have hcompatible :=
        hpairs.forall_of_forall (fun a _ => Path.compatible_self a.1) hentry hentry'
      rw [Path.compatible_eq_false_iff.mpr (.inl hlead)] at hcompatible
      cases hcompatible
  · intro hnone
    have hmem (entry : Path × Value) (hentry : entry ∈ flat.entries) : entry.1 ∈ flat.keys :=
      List.mem_map_of_mem hentry
    refine ⟨fun entry hentry => ⟨hkeys' entry hentry, hasRoom_empty fun hnil =>
      hnone ⟨entry.1, hmem entry hentry, .inl hnil⟩⟩,
      List.pairwise_of_forall_mem_list fun a ha b hb => ?_⟩
    rw [← Bool.not_eq_false, Path.compatible_eq_false_iff]
    rintro (hlead | hlead)
    · exact hnone ⟨a.1, hmem a ha, .inr ⟨b.1, hmem b hb, hlead⟩⟩
    · exact hnone ⟨b.1, hmem b hb, .inr ⟨a.1, hmem a ha, hlead⟩⟩

section Made

variable {entries : List (Path × Value)} (h : ofEntries entries = .ok choices)

include h

theorem setAll_of_ofEntries : empty.setAll (Table.ofList entries).entries = .ok choices := by
  rw [ofEntries] at h
  cases hcheck : entries.forM fun entry => entry.1.check with
  | error => rw [hcheck] at h; cases h
  | ok => rw [hcheck] at h; exact h

theorem unshared_of_ofEntries : choices.Unshared :=
  Unshared.invariant.of_setAll (setAll_of_ofEntries h)

theorem keyed_of_ofEntries : choices.Keyed :=
  Keyed.invariant.of_setAll (setAll_of_ofEntries h)

/-- What is made from entries holds at each path what the table of the entries holds. -/
theorem get?_of_ofEntries (path : Path) :
    choices.flatten.get? path = (Table.ofList entries).get? path := by
  rw [get?_flatten (unshared_of_ofEntries h).tidied,
    at?_setAll (setAll_of_ofEntries h) (Table.ofList entries).distinct, at?_empty, Option.or_none]
  rfl

end Made

end Deontic.Choices
