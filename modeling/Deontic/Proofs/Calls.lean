import Deontic.Proofs.Copies

/-! Maps of choices reached by any calls.  Besides maps that were made, nested cells that were
handed out take calls too, so a nested cell may be left without entries; the cells stay a forest all
the same, and all keys can be keys (`Live`).  Hence choices and their tables of entries translate
into each other (`round_trips`): a table is refused only for paths that are empty or stand in each
other's way, whatever their order, and a copy, which goes by way of the table, has the same entries
in the same order. -/

namespace Deontic.Choices

open Store

namespace Edit

variable {store : Store} {handle : Nat} {key : Value}

theorem on_ofEntries (entries : List (Path × Value)) :
    (Edit.ofEntries entries).on store =
      match Choices.ofEntries entries with
      | .ok choices => (.ok store.cells.length, (store.add choices).1)
      | .error fault => (.error fault, store) := by
  rw [Edit.ofEntries]
  cases Choices.ofEntries entries <;> rfl

theorem on_getUnder (hkey : key.checkKey = .ok ()) : (getUnder handle key).on store =
    match (store.cell handle).nested.get? key with
    | some child =>
      if (store.read child).size = 0 then (.ok store.cells.length, store.fresh.1)
      else (.ok child, store)
    | none => (.ok store.cells.length, store.fresh.1) := by
  rw [getUnder, hkey]
  show (match (store.cell handle).nested.get? key with
    | some child => read child >>= fun shown => if shown.size = 0 then fresh else return child
    | none => fresh : Edit Nat).on store = _
  cases (store.cell handle).nested.get? key with
  | none => rfl
  | some child =>
    show (if (store.read child).size = 0 then fresh else return child : Edit Nat).on store =
      if (store.read child).size = 0 then (.ok store.cells.length, store.fresh.1)
      else (.ok child, store)
    split <;> rfl

/-- What is nested under a key is handed out, or a new cell in place of a level without entries. -/
theorem exists_on_getUnder (hf : store.Forest) (hkey : key.checkKey = .ok ()) :
    ∃ child after, (getUnder handle key).on store = (.ok child, after) ∧
      child < after.cells.length ∧ (after = store ∨ after = store.fresh.1) ∧
      ∀ path, (after.read child).at? path = ((store.read handle).under key).at? path := by
  have hbare (path : Path) : (store.fresh.1.read store.cells.length).at? path = none :=
    at?_of_isEmpty (hf.fresh.isEmpty_read_of_bare bare_new) path
  rw [on_getUnder hkey, under, hf.nested?_read]
  cases hlink : (store.cell handle).nested.get? key with
  | none =>
    exact ⟨_, _, rfl, new_lt_length_fresh, .inr rfl,
      fun path => (hbare path).trans (at?_empty path).symm⟩
  | some child =>
    obtain ⟨found, hlink, -⟩ := holds_of_get? hlink
    by_cases hsize : (store.read child).size = 0
    · have hempty : (store.read child).isEmpty = true := by rw [isEmpty_eq_size, hsize]; rfl
      exact ⟨_, _, if_pos hsize, new_lt_length_fresh, .inr rfl,
        fun path => (hbare path).trans (at?_of_isEmpty hempty path).symm⟩
    · exact ⟨_, _, if_neg hsize, (hf.later hlink).2, .inl rfl, fun _ => rfl⟩

end Edit

/-! ### Reached maps -/

/-- A store and the handles of the maps in it, after any calls on these.  Calls that fail count. -/
inductive Reached : Store → List Nat → Prop
  | start : Reached {} []
  | new {store : Store} {maps : List Nat} (h : Reached store maps) :
    Reached store.fresh.1 (store.fresh.2 :: maps)
  | ofEntries {store after : Store} {maps : List Nat} {map : Nat} (h : Reached store maps)
    (entries : List (Path × Value)) (hmade : (Edit.ofEntries entries).on store = (.ok map, after)) :
    Reached after (map :: maps)
  | copy {store after : Store} {maps : List Nat} {map copy : Nat} (h : Reached store maps)
    (hmap : map ∈ maps) (hmade : (Edit.copy map).on store = (.ok copy, after)) :
    Reached after (copy :: maps)
  | getUnder {store after : Store} {maps : List Nat} {map child : Nat} {key : Value}
    (h : Reached store maps) (hmap : map ∈ maps) (hkey : key.checkKey = .ok ())
    (hmade : (Edit.getUnder map key).on store = (.ok child, after)) : Reached after (child :: maps)
  | setItem {store : Store} {maps : List Nat} {map : Nat} {key : Value} (h : Reached store maps)
    (hmap : map ∈ maps) (hkey : key.checkKey = .ok ()) (chosen : Value) :
    Reached ((Edit.setItem map key chosen).on store).2 maps
  | set {store : Store} {maps : List Nat} {map : Nat} {path : Path} (h : Reached store maps)
    (hmap : map ∈ maps) (hpath : path.check = .ok ()) (chosen : Value) :
    Reached ((Edit.set map path chosen).on store).2 maps
  | setUnder {store : Store} {maps : List Nat} {map source : Nat} {key : Value}
    (h : Reached store maps) (hmap : map ∈ maps) (hkey : key.checkKey = .ok ())
    (hsource : source ∈ maps) : Reached ((Edit.setUnder map key source).on store).2 maps

/-- A store whose cells are a forest with keys that can be keys, and maps that are cells of it. -/
structure Live (store : Store) (maps : List Nat) : Prop where
  forest : store.Forest
  keyed : store.Keyed
  made : ∀ map ∈ maps, map < store.cells.length

namespace Live

variable {store after : Store} {maps : List Nat} {map : Nat}

theorem mono (h : Live store maps) (hf : after.Forest) (hkeyed : after.Keyed)
    {touched : Nat → Prop} (hkeeps : store.Keeps after touched) : Live after maps where
  forest := hf
  keyed := hkeyed
  made map hmap := Nat.lt_of_lt_of_le (h.made map hmap) hkeeps.length_le

theorem cons (h : Live store maps) (hmap : map < store.cells.length) :
    Live store (map :: maps) where
  forest := h.forest
  keyed := h.keyed
  made := List.forall_mem_cons.mpr ⟨hmap, h.made⟩

theorem start : Live {} [] where
  forest := ⟨nofun, nofun, nofun⟩
  keyed _ := ⟨nofun, nofun⟩
  made := nofun

theorem fresh (h : Live store maps) : Live store.fresh.1 maps :=
  have hkeeps : store.Keeps store.fresh.1 fun _ => False := keeps_fresh
  h.mono h.forest.fresh h.keyed.fresh hkeeps

/-- Choices are added in new cells. -/
theorem add (h : Live store maps) {choices : Choices} (hunshared : choices.Unshared)
    (hkeyed : choices.Keyed) : Live (store.add choices).1 (store.cells.length :: maps) := by
  have hadds := adds_add h.forest hunshared
  refine (h.mono hadds.forest (hadds.keyed h.keyed.fresh hkeyed)
    (hadds.keeps_add fun _ => False)).cons hadds.lt_length

theorem ofEntries (h : Live store maps) {entries : List (Path × Value)}
    (hmade : (Edit.ofEntries entries).on store = (.ok map, after)) : Live after (map :: maps) := by
  rw [Edit.on_ofEntries] at hmade
  cases hchoices : Choices.ofEntries entries with
  | error => rw [hchoices] at hmade; cases hmade
  | ok choices =>
    rw [hchoices] at hmade
    cases hmade
    exact h.add (unshared_of_ofEntries hchoices) (keyed_of_ofEntries hchoices)

theorem getUnder (h : Live store maps) {key : Value}
    (hkey : key.checkKey = .ok ()) {child : Nat}
    (hmade : (Edit.getUnder map key).on store = (.ok child, after)) :
    Live after (child :: maps) := by
  obtain ⟨child', after', hon, hlt, hafter, -⟩ := Edit.exists_on_getUnder h.forest hkey
  rw [hon] at hmade
  cases hmade
  rcases hafter with rfl | rfl
  · exact h.cons hlt
  · exact h.fresh.cons hlt

/-- Handing out a nested cell changes no map. -/
theorem of_getUnder (h : Live store maps) (hmap : map ∈ maps)
    (hafter : after = store ∨ after = store.fresh.1) :
    after.Forest ∧ after.read map = store.read map := by
  have hkeeps : store.Keeps store.fresh.1 fun _ => False := keeps_fresh
  rcases hafter with rfl | rfl
  · exact ⟨h.forest, rfl⟩
  · exact ⟨h.forest.fresh,
      hkeeps.read_eq h.forest h.forest.fresh (h.made map hmap) fun _ _ => id⟩

theorem set (h : Live store maps) (hmap : map ∈ maps) {path : Path} (hpath : path.check = .ok ())
    (chosen : Value) : Live ((Edit.set map path chosen).on store).2 maps := by
  by_cases hne : path = []
  · rw [hne]
    exact h
  by_cases hroom : (store.read map).HasRoom path
  · obtain ⟨after, hon, hf, -, hkeyed, hkeeps, -⟩ :=
      Edit.exists_on_set h.forest (h.made map hmap) hpath hroom chosen
    rw [hon]
    exact h.mono hf (hkeyed h.keyed) hkeeps
  · obtain ⟨fault, hon, -⟩ := Edit.on_set_of_not_hasRoom h.forest hpath hne hroom chosen
    rw [hon]
    exact h

theorem setUnder (h : Live store maps) (hmap : map ∈ maps) {key : Value}
    (hkey : key.checkKey = .ok ()) (source : Nat) :
    Live ((Edit.setUnder map key source).on store).2 maps := by
  cases hvalue : (store.cell map).values.get? key with
  | none =>
    obtain ⟨after, hon, hf, -, hkeyed, hkeeps, -⟩ :=
      Edit.exists_on_setUnder h.forest (h.made map hmap) hkey hvalue source
    rw [hon]
    exact h.mono hf (hkeyed h.keyed) hkeeps
  | some was =>
    rw [Edit.on_setUnder hkey, Table.contains_eq_isSome_get?, hvalue, Option.isSome_some,
      if_pos rfl]
    exact h

end Live

variable {store : Store} {maps : List Nat}

/-- Every call keeps the store live. -/
theorem Reached.live (h : Reached store maps) : Live store maps := by
  induction h with
  | start => exact .start
  | new _ ih => exact ih.fresh.cons new_lt_length_fresh
  | ofEntries _ entries hmade ih => exact ih.ofEntries hmade
  | copy _ _ hmade ih => exact ih.ofEntries hmade
  | getUnder _ _ hkey hmade ih => exact ih.getUnder hkey hmade
  | setItem _ hmap hkey chosen ih =>
    exact ih.set hmap ((Path.check_cons _ []).mpr ⟨hkey, rfl⟩) chosen
  | set _ hmap hpath chosen ih => exact ih.set hmap hpath chosen
  | setUnder _ hmap hkey _ ih => exact ih.setUnder hmap hkey _

/-! ### Maps and their tables -/

/-- That maps and tables of entries translate into each other. -/
structure RoundTrips (store : Store) (maps : List Nat) : Prop where
  /-- A table is refused if a path is empty or leads through the place of another one. -/
  refused_iff : ∀ flat : Table Path Value, (∀ path ∈ flat.keys, Path.check path = .ok ()) →
    ((∃ fault after, (Edit.ofEntries flat.entries).on store = (.error fault, after)) ↔
      ∃ path ∈ flat.keys, path = [] ∨ ∃ other ∈ flat.keys, path.LeadsThrough other)
  /-- What is made from a table has the table again. -/
  made : ∀ (flat : Table Path Value) (map : Nat) (after : Store),
    (Edit.ofEntries flat.entries).on store = (.ok map, after) →
      (after.read map).flatten.agrees (· == ·) flat = true ∧
        ∀ path, (after.read map).flatten.get? path = flat.get? path
  /-- A copy has the same entries in the same order. -/
  copied : ∀ map ∈ maps, ∃ copy after, (Edit.copy map).on store = (.ok copy, after) ∧
    after.read map = store.read map ∧
      (after.read copy).flatten.entries = (after.read map).flatten.entries ∧
        (after.read copy == after.read map) = true

/-- What is made from choices shows their entries. -/
theorem Live.flatten_add (h : Live store maps) {choices : Choices} (hunshared : choices.Unshared) :
    ((store.add choices).1.read store.cells.length).flatten = choices.flatten := by
  rw [(adds_add h.forest hunshared).read_add hunshared, flatten_arrange]

/-- **Maps and their tables.**  For maps reached by any calls, tables and maps translate into each
other. -/
theorem round_trips (h : Reached store maps) : RoundTrips store maps where
  refused_iff flat hkeys := by
    rw [Edit.on_ofEntries, ← not_iff_not, ← exists_ofEntries_iff hkeys]
    cases Choices.ofEntries flat.entries with
    | ok choices => exact iff_of_true nofun ⟨choices, rfl⟩
    | error fault => exact iff_of_false (fun hnot => hnot ⟨fault, store, rfl⟩) nofun
  made flat map after hmade := by
    rw [Edit.on_ofEntries] at hmade
    cases hchoices : Choices.ofEntries flat.entries with
    | error => rw [hchoices] at hmade; cases hmade
    | ok choices =>
      rw [hchoices] at hmade
      cases hmade
      have hget (path : Path) : choices.flatten.get? path = flat.get? path := by
        rw [get?_of_ofEntries hchoices, Table.ext (Table.entries_ofList flat.distinct)]
      rw [h.live.flatten_add (unshared_of_ofEntries hchoices)]
      exact ⟨Table.agrees_of_get? (fun _ => BEq.rfl) hget, hget⟩
  copied map hmap := by
    have hlive := h.live
    have hshown := hlive.forest.arranged_read map
    have hunshared := hshown.tidy.unshared
    have hadds := adds_add hlive.forest hunshared
    refine ⟨store.cells.length, (store.add (store.read map).tidy).1, ?_, ?_⟩
    · show (Edit.ofEntries (store.read map).flatten.entries).on store = _
      rw [Edit.on_ofEntries, hshown.ofEntries_flatten (hlive.forest.keyed_read hlive.keyed map)]
    · have hread : (store.add (store.read map).tidy).1.read map = store.read map :=
        (hadds.keeps_add fun _ => False).read_eq hlive.forest hadds.forest (hlive.made map hmap)
          fun _ _ => id
      have hflat : ((store.add (store.read map).tidy).1.read store.cells.length).flatten =
          (store.read map).flatten := by
        rw [hlive.flatten_add hunshared, flatten, entries_tidy, flatten]
      rw [hread]
      refine ⟨rfl, congrArg Table.entries hflat, ?_⟩
      show Table.agrees _ _ _ = true
      rw [hflat]
      exact Table.agrees_of_get? (fun _ => BEq.rfl) fun _ => rfl

/-- A map made from a table that lists a nested value first has its entries the other way round. -/
theorem round_trips_mixed : ∃ store, Reached store [0] ∧ RoundTrips store [0] ∧
    (store.read 0).flatten.entries =
      [([.text "zone"], .int 3), ([.text "task", .text "color"], .text "red")] :=
  have h : Reached _ [0] := Reached.start.ofEntries
    [([.text "task", .text "color"], .text "red"), ([.text "zone"], .int 3)] rfl
  ⟨_, h, round_trips h, rfl⟩

end Deontic.Choices
