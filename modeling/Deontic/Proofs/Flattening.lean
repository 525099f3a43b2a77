import Deontic.Proofs.Addressing

/-! Choices as the table of their entries, and entries written one after the other.  Choices are
`Tidied` if no key of a level holds two values or two nested levels, which all writing keeps.  Then
the table of all entries holds at each path what stands there (`get?_flatten`).  A row of entries
can be written if each of them has room and their paths are compatible with each other, in any
order (`exists_setAll_iff`), and then each path holds what was written there. -/

namespace Deontic.Choices

/-- No key of a level holds two values or two nested levels. -/
def Tidied : Choices → Prop
  | empty => True
  | value key _ rest => rest.value? key = none ∧ rest.Tidied
  | nested key inner rest => rest.nested? key = none ∧ inner.Tidied ∧ rest.Tidied

theorem Tidied.put {choices : Choices} (h : choices.Tidied) (key chosen : Value) :
    (choices.put key chosen).Tidied := by
  induction choices with
  | empty => exact ⟨rfl, trivial⟩
  | value old was rest ih =>
    rw [Choices.put]
    split
    · exact ⟨h.1, h.2⟩
    · next hne =>
      refine ⟨?_, ih h.2⟩
      have hflip : (key == old) = false := by
        rw [BEq.comm]; simpa using hne
      rw [value?_put, hflip]
      exact h.1
  | nested old inner rest _ ih => exact ⟨by rw [nested?_put]; exact h.1, h.2.1, ih h.2.2⟩

theorem Tidied.graft {choices inner : Choices} (h : choices.Tidied) (hinner : inner.Tidied)
    (key : Value) : (choices.graft key inner).Tidied := by
  induction choices with
  | empty => exact ⟨rfl, hinner, trivial⟩
  | value old was rest ih => exact ⟨by rw [value?_graft]; exact h.1, ih h.2⟩
  | nested old was rest _ ih =>
    rw [Choices.graft]
    split
    · exact ⟨h.1, hinner, h.2.2⟩
    · next hne =>
      refine ⟨?_, h.2.1, ih h.2.2⟩
      have hflip : (key == old) = false := by
        rw [BEq.comm]; simpa using hne
      rw [nested?_graft, hflip]
      exact h.1

/-- What choices pass on, past an entry and into nested choices, comes to all that is nested in
them. -/
theorem passed_to_nested {p q : Choices → Prop}
    (hvalue : ∀ {key chosen rest}, p (value key chosen rest) → p rest)
    (hnested : ∀ {key inner rest}, p (nested key inner rest) → q inner ∧ p rest)
    {choices inner : Choices} {key : Value} (h : p choices)
    (hinner : choices.nested? key = some inner) : q inner := by
  induction choices with
  | empty => cases hinner
  | value old was rest ih => exact ih (hvalue h) hinner
  | nested old was rest _ ih =>
    obtain ⟨hwas, hrest⟩ := hnested h
    rw [nested?] at hinner
    split at hinner
    · rw [← Option.some.inj hinner]; exact hwas
    · exact ih hrest hinner

theorem Tidied.of_nested? {choices inner : Choices} {key : Value} (h : choices.Tidied)
    (hinner : choices.nested? key = some inner) : inner.Tidied :=
  passed_to_nested (fun h => h.2) (fun h => h.2) h hinner

/-! ### The table of entries -/

/-- The values of a level are its entries with paths of one key. -/
theorem find?_parts_fst (choices : Choices) (path : Path) :
    (choices.parts.1.find? fun entry => entry.1 == path).map Prod.snd =
      match path with
      | [key] => choices.value? key
      | _ => none := by
  induction choices with
  | empty => rcases path with _ | ⟨_, _ | _⟩ <;> rfl
  | value key chosen rest ih =>
    rw [parts, List.find?_cons]
    match path with
    | [] => simpa using ih
    | [wanted] =>
      simp only [value?]
      by_cases h : (key == wanted) = true
      · simp [h]
      · simpa [h] using ih
    | wanted :: next :: later => simpa using ih
  | nested key inner rest _ ih => exact ih

theorem find?_map_cons (key : Value) (entries : List (Path × Value)) (path : Path) :
    ((entries.map fun entry => (key :: entry.1, entry.2)).find? fun entry =>
        entry.1 == path).map Prod.snd =
      match path with
      | [] => none
      | wanted :: rest =>
        if key == wanted then (entries.find? fun entry => entry.1 == rest).map Prod.snd
        else none := by
  rw [List.find?_map, Option.map_map]
  cases path with
  | nil => simp [Function.comp_def]
  | cons wanted rest =>
    by_cases h : (key == wanted) = true <;> simp [h, Function.comp_def]

/-- Every entry has keys in its path. -/
theorem parts_ne_nil (choices : Choices) :
    (∀ entry ∈ choices.parts.1, ∃ key, entry.1 = [key]) ∧
      ∀ entry ∈ choices.parts.2, ∃ key next rest, entry.1 = key :: next :: rest := by
  induction choices with
  | empty => exact ⟨nofun, nofun⟩
  | value key chosen rest ih =>
    refine ⟨fun entry h => ?_, ih.2⟩
    rcases List.mem_cons.mp h with rfl | h
    · exact ⟨key, rfl⟩
    · exact ih.1 entry h
  | nested key inner rest ihinner ih =>
    refine ⟨ih.1, fun entry h => ?_⟩
    rcases List.mem_append.mp h with h | h
    · obtain ⟨below, hbelow, rfl⟩ := List.mem_map.mp h
      rcases List.mem_append.mp hbelow with hbelow | hbelow
      · obtain ⟨next, hnext⟩ := ihinner.1 below hbelow
        exact ⟨key, next, [], by rw [hnext]⟩
      · obtain ⟨next, after, rest, hnext⟩ := ihinner.2 below hbelow
        exact ⟨key, next, after :: rest, by rw [hnext]⟩
    · exact ih.2 entry h

/-- The entries with longer paths are those of the nested levels. -/
theorem find?_parts_snd {choices : Choices} (h : choices.Tidied) (path : Path) :
    (choices.parts.2.find? fun entry => entry.1 == path).map Prod.snd =
      match path with
      | key :: next :: rest => choices.at? (key :: next :: rest)
      | _ => none := by
  induction choices generalizing path with
  | empty => rcases path with _ | ⟨_, _ | _⟩ <;> simp [parts]
  | value key chosen rest ih =>
    rw [parts, ih h.2]
    rcases path with _ | ⟨wanted, _ | ⟨next, later⟩⟩
    · rfl
    · rfl
    · simp only [at?_cons_cons, nested?]
  | nested key inner rest ihinner ih =>
    rw [parts]
    rw [List.find?_append, Option.map_or, find?_map_cons, ih h.2.2 path]
    have hbelow (path : Path) : ((inner.parts.1 ++ inner.parts.2).find? fun entry =>
        entry.1 == path).map Prod.snd = inner.at? path := by
      rw [List.find?_append, Option.map_or, find?_parts_fst, ihinner h.2.1]
      rcases path with _ | ⟨wanted, _ | ⟨next, later⟩⟩
      · simp
      · simp [at?]
      · simp
    rcases path with _ | ⟨wanted, _ | ⟨next, later⟩⟩
    · rfl
    · simp only [hbelow, at?_nil, ite_self, Option.none_or]
    · simp only [hbelow, at?_cons_cons, nested?]
      by_cases hkey : (key == wanted) = true
      · rw [← nested?_congr rest hkey, h.1]
        simp [hkey]
      · simp [hkey]

theorem find?_entries {choices : Choices} (h : choices.Tidied) (path : Path) :
    (choices.entries.find? fun entry => entry.1 == path).map Prod.snd = choices.at? path := by
  rw [entries, List.find?_append, Option.map_or, find?_parts_fst, find?_parts_snd h]
  rcases path with _ | ⟨key, _ | ⟨next, rest⟩⟩
  · simp
  · simp [at?]
  · simp

/-- Tidied choices have no two entries with one path. -/
theorem Tidied.pairwise_entries {choices : Choices} (h : choices.Tidied) :
    choices.entries.Pairwise fun a b => (a.1 == b.1) = false := by
  induction choices with
  | empty => exact .nil
  | value key chosen rest ih =>
    refine List.pairwise_cons.mpr ⟨fun entry hentry => ?_, ih h.2⟩
    have hfind := find?_entries h.2 [key]
    rw [show rest.at? [key] = none from h.1, Option.map_eq_none_iff,
      List.find?_eq_none] at hfind
    rw [BEq.comm]
    simpa using hfind entry hentry
  | nested key inner rest ihinner ih =>
    have hbelow : ((inner.entries).map fun entry => (key :: entry.1, entry.2)).Pairwise
        fun a b => (a.1 == b.1) = false := by
      rw [List.pairwise_map]
      exact (ihinner h.2.1).imp fun hne => by simpa using hne
    have hrest := List.pairwise_append.mp (ih h.2.2)
    refine List.pairwise_append.mpr ⟨hrest.1, List.pairwise_append.mpr ⟨hbelow, hrest.2.1, ?_⟩, ?_⟩
    -- two nested entries agree in their first key only if one level was nested there twice
    · intro a ha b hb
      obtain ⟨below, hmem, rfl⟩ := List.mem_map.mp ha
      obtain ⟨other, next, later, hother⟩ := rest.parts_ne_nil.2 b hb
      have hnone : (rest.at? (key :: next :: later)) = none := by
        rw [at?_cons_cons, h.1]; rfl
      have hfind := find?_entries h.2.2 (key :: next :: later)
      rw [hnone, Option.map_eq_none_iff, List.find?_eq_none] at hfind
      have := hfind b (List.mem_append_right _ hb)
      rw [hother] at this ⊢
      have hne : (other == key) = false := by simpa using this
      rw [List.cons_beq_cons, BEq.comm, hne, Bool.false_and]
    -- an entry of this level has one key, a nested one has more
    · intro a ha b hb
      rcases List.mem_append.mp hb with hb | hb
      · obtain ⟨below, hmem, rfl⟩ := List.mem_map.mp hb
        obtain ⟨single, hsingle⟩ := rest.parts_ne_nil.1 a ha
        have hlong : ∃ next later, below.1 = next :: later := by
          rcases List.mem_append.mp hmem with hmem | hmem
          · obtain ⟨next, hnext⟩ := inner.parts_ne_nil.1 below hmem
            exact ⟨next, [], hnext⟩
          · obtain ⟨next, after, later, hnext⟩ := inner.parts_ne_nil.2 below hmem
            exact ⟨next, after :: later, hnext⟩
        obtain ⟨next, later, hlong⟩ := hlong
        simp [hsingle, hlong]
      · exact hrest.2.2 a ha b hb

/-- The table of all entries holds at each path what stands there. -/
theorem get?_flatten {choices : Choices} (h : choices.Tidied) (path : Path) :
    choices.flatten.get? path = choices.at? path := by
  rw [flatten, Table.get?_ofList h.pairwise_entries, find?_entries h]

/-! ### Rows of entries -/

/-- The choices with entries written one after the other. -/
def setAll (choices : Choices) (entries : List (Path × Value)) : Except AddressFault Choices :=
  entries.foldlM (fun choices entry => choices.set entry.1 entry.2) choices

@[simp] theorem setAll_nil (choices : Choices) : choices.setAll [] = .ok choices := rfl

theorem setAll_cons_eq_ok {choices result : Choices} {entry : Path × Value}
    {rest : List (Path × Value)} :
    choices.setAll (entry :: rest) = .ok result ↔
      ∃ next, choices.set entry.1 entry.2 = .ok next ∧ next.setAll rest = .ok result := by
  rw [setAll, List.foldlM_cons]
  cases choices.set entry.1 entry.2 with
  | error => simp [bind, Except.bind]
  | ok next => simp [bind, Except.bind, setAll]

theorem setAll_append_eq_ok {choices result : Choices} {first second : List (Path × Value)} :
    choices.setAll (first ++ second) = .ok result ↔
      ∃ next, choices.setAll first = .ok next ∧ next.setAll second = .ok result := by
  rw [setAll, List.foldlM_append, ← setAll]
  cases choices.setAll first with
  | error => simp [bind, Except.bind]
  | ok next => simp [bind, Except.bind, setAll]

/-- A property of choices that writing keeps, level by level: nested choices have it, and it is kept
by a value and by nested choices under a key that can take them. -/
structure Invariant (p : Choices → Prop) : Prop where
  empty : p empty
  of_nested? {choices inner : Choices} {key : Value} (h : p choices)
    (hinner : choices.nested? key = some inner) : p inner
  put {choices : Choices} {key : Value} (h : p choices) (hkey : key.checkKey = .ok ())
    (hnested : choices.nested? key = none) (chosen : Value) : p (choices.put key chosen)
  graft {choices level inner : Choices} {key : Value} (h : p choices)
    (hkey : key.checkKey = .ok ()) (hlevel : choices.levelFor key = .ok level)
    (hinner : p inner) : p (choices.graft key inner)

namespace Invariant

variable {p : Choices → Prop} {choices result : Choices}

theorem of_levelFor (hp : Invariant p) (h : p choices) {key : Value} {inner : Choices}
    (hlevel : choices.levelFor key = .ok inner) : p inner := by
  rcases levelFor_eq_ok hlevel with hnested | ⟨-, -, rfl⟩
  · exact hp.of_nested? h hnested
  · exact hp.empty

theorem set (hp : Invariant p) {path : Path} {chosen : Value} (h : p choices)
    (hset : choices.set path chosen = .ok result) : p result := by
  induction path generalizing choices result with
  | nil => cases hset
  | cons key rest ih =>
    cases rest with
    | nil =>
      obtain ⟨hkey, hnested, rfl⟩ := setItem_eq_ok.mp hset
      exact hp.put h hkey hnested chosen
    | cons next rest =>
      obtain ⟨inner, written, hkey, hlevel, hinner, rfl⟩ := set_cons_cons_eq_ok hset
      exact hp.graft h hkey hlevel (ih (hp.of_levelFor h hlevel) hinner)

theorem setAll (hp : Invariant p) {entries : List (Path × Value)} (h : p choices)
    (hset : choices.setAll entries = .ok result) : p result := by
  induction entries generalizing choices with
  | nil => cases hset; exact h
  | cons entry rest ih =>
    obtain ⟨next, hnext, hrest⟩ := setAll_cons_eq_ok.mp hset
    exact ih (hp.set h hnext) hrest

/-- What was written from nothing has the property. -/
theorem of_setAll (hp : Invariant p) {entries : List (Path × Value)}
    (hset : Choices.empty.setAll entries = .ok result) : p result :=
  hp.setAll hp.empty hset

end Invariant

theorem Tidied.invariant : Invariant Tidied where
  empty := trivial
  of_nested? := of_nested?
  put h _ _ chosen := h.put _ chosen
  graft h _ _ hinner := h.graft hinner _

/-- After writing entries with different paths each of these holds what was written there. -/
theorem at?_setAll {choices result : Choices} {entries : List (Path × Value)}
    (hset : choices.setAll entries = .ok result)
    (hdistinct : entries.Pairwise fun a b => (a.1 == b.1) = false) (path : Path) :
    result.at? path =
      ((entries.find? fun entry => entry.1 == path).map Prod.snd).or (choices.at? path) := by
  induction entries generalizing choices with
  | nil => cases hset; simp
  | cons entry rest ih =>
    obtain ⟨next, hnext, hrest⟩ := setAll_cons_eq_ok.mp hset
    obtain ⟨hentry, hpairs⟩ := List.pairwise_cons.mp hdistinct
    rw [ih hrest hpairs, at?_set hnext, List.find?_cons]
    by_cases h : (entry.1 == path) = true
    · have hnone : rest.find? (fun other => other.1 == path) = none := by
        rw [List.find?_eq_none]
        intro other hother hpath
        have := hentry other hother
        rw [BEq.trans h (BEq.symm hpath)] at this
        cases this
      simp [h, hnone]
    · simp [h]

/-- A row of entries can be written if each of them has room and their paths are compatible. -/
theorem exists_setAll_iff {choices : Choices} {entries : List (Path × Value)} :
    (∃ result, choices.setAll entries = .ok result) ↔
      (∀ entry ∈ entries, entry.1.check = .ok () ∧ choices.HasRoom entry.1) ∧
        entries.Pairwise fun a b => a.1.compatible b.1 = true := by
  induction entries generalizing choices with
  | nil => simp
  | cons entry rest ih =>
    rw [List.forall_mem_cons, List.pairwise_cons]
    constructor
    · rintro ⟨result, hset⟩
      obtain ⟨next, hnext, hrest⟩ := setAll_cons_eq_ok.mp hset
      obtain ⟨hroom, hpairs⟩ := ih.mp ⟨result, hrest⟩
      have hafter (other : Path × Value) (hother : other ∈ rest) :=
        (hasRoom_set hnext other.1).mp (hroom other hother).2
      refine ⟨⟨(exists_set_iff entry.2).mp ⟨next, hnext⟩, fun other hother => ?_⟩,
        fun other hother => ?_, hpairs⟩
      · exact ⟨(hroom other hother).1, (hafter other hother).1⟩
      · exact (hafter other hother).2
    · rintro ⟨⟨hentry, hroom⟩, hcompatible, hpairs⟩
      obtain ⟨next, hnext⟩ := (exists_set_iff entry.2).mpr hentry
      have hrest : ∀ other ∈ rest, other.1.check = .ok () ∧ next.HasRoom other.1 := by
        intro other hother
        obtain ⟨hkeys, hother'⟩ := hroom other hother
        exact ⟨hkeys, (hasRoom_set hnext other.1).mpr ⟨hother', hcompatible other hother⟩⟩
      obtain ⟨result, hresult⟩ := ih.mpr ⟨hrest, hpairs⟩
      exact ⟨result, setAll_cons_eq_ok.mpr ⟨next, hnext, hresult⟩⟩

/-- Paths of keys, none of which stands in the way of another. -/
structure Recordable (paths : List Path) : Prop where
  keyed : ∀ path ∈ paths, path.check = .ok () ∧ path ≠ []
  compatible : paths.Pairwise fun a b => a.compatible b = true

namespace Recordable

variable {paths : List Path}

theorem of_length {n : Nat} (h : ∀ path ∈ paths, path.check = .ok () ∧ path.length = n + 1) :
    Recordable paths := by
  refine ⟨fun path hpath => ?_, ?_⟩
  · obtain ⟨hcheck, hlength⟩ := h path hpath
    exact ⟨hcheck, List.ne_nil_of_length_eq_add_one hlength⟩
  · apply List.Pairwise.imp_of_mem (R := fun _ _ => True)
    · intro a b ha hb _
      exact Path.compatible_of_length ((h a ha).2.trans (h b hb).2.symm)
    · exact List.pairwise_of_forall fun _ _ => trivial

theorem left {others : List Path} (h : Recordable (paths ++ others)) : Recordable paths :=
  ⟨(List.forall_mem_append.mp h.keyed).1, (List.pairwise_append.mp h.compatible).1⟩

/-- Entries with recordable paths can be written. -/
theorem exists_setAll {entries : List (Path × Value)} (h : Recordable (entries.map Prod.fst)) :
    ∃ result, empty.setAll entries = .ok result := by
  refine exists_setAll_iff.mpr ⟨fun entry hentry => ?_, List.pairwise_map.mp h.compatible⟩
  obtain ⟨hcheck, hne⟩ := h.keyed _ (List.mem_map_of_mem hentry)
  exact ⟨hcheck, hasRoom_empty hne⟩

end Recordable

/-- Entries with paths of one length can be written. -/
theorem exists_setAll_of_length {entries : List (Path × Value)} (n : Nat)
    (h : ∀ entry ∈ entries, entry.1.check = .ok () ∧ entry.1.length = n + 1) :
    ∃ result, empty.setAll entries = .ok result :=
  (Recordable.of_length (List.forall_mem_map.mpr h)).exists_setAll

end Deontic.Choices
