import Deontic.Proofs.Copies

/-! Maps of choices as finite maps from paths to values.  A map that is built from an empty one by
writing values and by putting built maps under keys says nothing beyond the table of its entries:
the table decides which calls fail, it answers every question, and each call changes it as a call
on a table would (`acts_as_table`).  What makes this true is an invariant of the whole store
(`Sound`), which every call keeps: the cells are a forest, no nested cell is bare, and no map is
nested in another one. -/

namespace Deontic

/-- A table without the paths through a key, and with those of another table below it. -/
def Table.withBelow (flat : Table Path Value) (key : Value) (below : Table Path Value) :
    Table Path Value :=
  .ofList ((flat.entries.filter fun entry => !([key].isPrefixOf entry.1)) ++
    below.entries.map fun entry => (key :: entry.1, entry.2))

/-- Whether a path leads through a key does not depend on its spelling. -/
theorem Path.isPrefixOf_congr (key : Value) {p q : Path} (h : (p == q) = true) :
    [key].isPrefixOf p = [key].isPrefixOf q := by
  cases p with
  | nil =>
    cases q with
    | nil => rfl
    | cons => cases h
  | cons first p =>
    cases q with
    | nil => cases h
    | cons second q =>
      rw [List.cons_beq_cons, Bool.and_eq_true] at h
      rw [List.isPrefixOf, List.isPrefixOf, BEq.congr_right h.1]
      rfl

theorem Table.get?_withBelow (flat : Table Path Value) (key : Value) (below : Table Path Value)
    (wanted : Path) :
    (flat.withBelow key below).get? wanted =
      if [key].isPrefixOf wanted then below.get? wanted.tail else flat.get? wanted := by
  have hself (path : Path) : [key].isPrefixOf (key :: path) = true := by
    rw [List.isPrefixOf, BEq.rfl]
    rfl
  have hdistinct : ((flat.entries.filter fun entry => !([key].isPrefixOf entry.1)) ++
      below.entries.map fun entry => (key :: entry.1, entry.2)).Pairwise
        fun a b => (a.1 == b.1) = false := by
    refine List.pairwise_append.mpr ⟨flat.distinct.filter _, ?_, fun a ha b hb => ?_⟩
    · rw [List.pairwise_map]
      exact below.distinct.imp fun hne => by simpa using hne
    · obtain ⟨entry, -, rfl⟩ := List.mem_map.mp hb
      have hout := (List.mem_filter.mp ha).2
      rw [Bool.eq_false_iff]
      intro heq
      rw [Path.isPrefixOf_congr key heq, hself] at hout
      cases hout
  rw [withBelow, get?_ofList hdistinct, List.find?_append, Option.map_or, List.find?_filter]
  cases hbelow : [key].isPrefixOf wanted with
  | true =>
    -- the paths through the key were left out
    have hnone : flat.entries.find? (fun entry => decide ((!([key].isPrefixOf entry.1)) = true ∧
        (entry.1 == wanted) = true)) = none := by
      rw [List.find?_eq_none]
      intro entry _ hboth
      obtain ⟨hout, heq⟩ := of_decide_eq_true hboth
      rw [Path.isPrefixOf_congr key heq, hbelow] at hout
      cases hout
    cases wanted with
    | nil => cases hbelow
    | cons first rest =>
      rw [List.isPrefixOf, Bool.and_eq_true] at hbelow
      rw [hnone, Choices.find?_map_cons]
      simp only [hbelow.1]
      rfl
  | false =>
    -- the paths below the key are not asked for
    have hnone : (below.entries.map fun entry => (key :: entry.1, entry.2)).find?
        (fun entry => entry.1 == wanted) = none := by
      rw [List.find?_eq_none]
      intro entry hentry heq
      obtain ⟨_, -, rfl⟩ := List.mem_map.mp hentry
      rw [← Path.isPrefixOf_congr key heq, hself] at hbelow
      cases hbelow
    rw [hnone, Option.map_none, Option.or_none, if_neg Bool.false_ne_true, get?, find?]
    congr 2
    funext entry
    cases heq : entry.1 == wanted with
    | false => simp
    | true => rw [Path.isPrefixOf_congr key heq, hbelow]; rfl

namespace Choices

open Store

/-- The stores that calls with proper keys lead to, and the maps that were made on the way.  A call
that fails is a call as well. -/
inductive Built : Store → List Nat → Prop where
  | start : Built {} []
  | new {store maps} (h : Built store maps) : Built store.fresh.1 (store.fresh.2 :: maps)
  | setItem {store maps map key} (h : Built store maps) (hmap : map ∈ maps)
      (hkey : key.checkKey = .ok ()) (chosen : Value) :
      Built ((Edit.setItem map key chosen).on store).2 maps
  | set {store maps map path} (h : Built store maps) (hmap : map ∈ maps)
      (hpath : Path.check path = .ok ()) (chosen : Value) :
      Built ((Edit.set map path chosen).on store).2 maps
  | setUnder {store maps map key source} (h : Built store maps) (hmap : map ∈ maps)
      (hkey : key.checkKey = .ok ()) (hsource : source ∈ maps) :
      Built ((Edit.setUnder map key source).on store).2 maps

/-- What the calls keep: the cells are a forest, no nested cell is bare, and the maps are not nested
in any cell. -/
structure Sound (store : Store) (maps : List Nat) : Prop where
  forest : store.Forest
  full : store.Full
  made : ∀ map ∈ maps, map < store.cells.length ∧ store.Free map

/-- The table of the entries that a map shows. -/
def Store.table (store : Store) (map : Nat) : Table Path Value := (store.read map).flatten

/-- Whether a path leads through the place of a path of a table, or the other way round. -/
def Blocked (flat : Table Path Value) (path : Path) : Prop :=
  ∃ other, flat.contains other = true ∧ (path.LeadsThrough other ∨ other.LeadsThrough path)

/-- That a map answers, fails and changes as the table of its entries does. -/
structure ActsAsTable (store : Store) (maps : List Nat) (map : Nat) : Prop where
  /-- No path is empty or a strict beginning of another one. -/
  apart : ∀ path, (store.table map).contains path = true →
    path ≠ [] ∧ ¬Blocked (store.table map) path
  /-- Writing under a key is writing at the path of that key alone. -/
  setItem : ∀ key chosen, Edit.setItem map key chosen = Edit.set map [key] chosen
  /-- The empty path is no address. -/
  set_nil : ∀ chosen, (Edit.set map [] chosen).on store = (.error .noAddress, store)
  /-- Where a path is blocked nothing is written, and nothing changes. -/
  set_blocked : ∀ path chosen, Path.check path = .ok () → path ≠ [] →
    Blocked (store.table map) path →
      ∃ key, (Edit.set map path chosen).on store = (.error (.holdsValue key), store) ∨
        (Edit.set map path chosen).on store = (.error (.holdsNested key), store)
  /-- Elsewhere the value is written in the table, and no other map changes. -/
  set_open : ∀ path chosen, Path.check path = .ok () → path ≠ [] → ¬Blocked (store.table map) path →
    ∃ after, (Edit.set map path chosen).on store = (.ok (), after) ∧
      (∀ wanted, (after.table map).get? wanted =
        ((store.table map).insert path chosen).get? wanted) ∧
      ∀ other ∈ maps, other ≠ map → after.read other = store.read other
  /-- Under a key that holds a value no choices are put, and nothing changes. -/
  setUnder_blocked : ∀ key source, key.checkKey = .ok () → source ∈ maps →
    (store.table map).contains [key] = true →
      (Edit.setUnder map key source).on store = (.error (.holdsValue key), store)
  /-- Elsewhere the entries of the source replace the entries below the key, and no other map
  changes. -/
  setUnder_open : ∀ key source, key.checkKey = .ok () → source ∈ maps →
    (store.table map).contains [key] = false →
      ∃ after, (Edit.setUnder map key source).on store = (.ok (), after) ∧
        (∀ wanted, (after.table map).get? wanted =
          ((store.table map).withBelow key (store.table source)).get? wanted) ∧
        ∀ other ∈ maps, other ≠ map → after.read other = store.read other
  /-- The empty path is no address for a question either. -/
  find_nil : (store.read map).has [] = .error .noAddress ∧
    (store.read map).get [] = .error .noAddress
  /-- A path has a value if the table has it, and the value that the table has. -/
  has : ∀ path, Path.check path = .ok () → path ≠ [] →
    (store.read map).has path = .ok ((store.table map).contains path)
  get : ∀ path, Path.check path = .ok () → path ≠ [] →
    (store.read map).get path =
      match (store.table map).get? path with
      | some chosen => .ok chosen
      | none => .error (.noValue path)
  /-- Counting the values, and going through them level by level, gives what the table has. -/
  size : (store.read map).size = (store.table map).size
  isEmpty : (store.read map).isEmpty = (store.table map).isEmpty
  entries : (store.read map).entries = (store.table map).entries
  /-- Maps are equal if their tables have equal values at the same paths. -/
  beq : ∀ other ∈ maps, (store.read map == store.read other) = true ↔
    ∀ path, Option.Rel (fun a b => (a == b) = true) ((store.table map).get? path)
      ((store.table other).get? path)

variable {store : Store} {maps : List Nat} {map : Nat}

/-! ### Questions -/

theorem find_eq {choices : Choices} {path : Path} (hpath : path.check = .ok ()) (hne : path ≠ []) :
    choices.find path = .ok (choices.at? path) := by
  induction path generalizing choices with
  | nil => exact absurd rfl hne
  | cons key rest ih =>
    obtain ⟨hkey, hrest⟩ := (Path.check_cons key rest).mp hpath
    cases rest with
    | nil =>
      show (key.checkKey >>= fun _ => _) = _
      rw [hkey]
      rfl
    | cons next rest =>
      rw [find, hkey, at?_cons_cons]
      · cases choices.nested? key with
        | none => rfl
        | some inner => exact ih hrest (by simp)
      · exact nofun

theorem Store.Free.eq_of_leads {first last : Nat} (hfree : store.Free last)
    (h : store.Leads first last) : first = last := by
  cases h with
  | refl => rfl
  | tail _ hstep =>
    obtain ⟨key, hstep⟩ := hstep
    exact absurd hstep (hfree _ key)

namespace Sound

theorem get?_table (h : Sound store maps) (map : Nat) (path : Path) :
    (store.table map).get? path = (store.read map).at? path :=
  get?_flatten (h.forest.arranged_read map).tidied path

theorem contains_table (h : Sound store maps) (map : Nat) (path : Path) :
    (store.table map).contains path = ((store.read map).at? path).isSome := by
  rw [Table.contains_eq_isSome_get?, h.get?_table]

/-- Where a path is not blocked there is room. -/
theorem hasRoom_iff (h : Sound store maps) {path : Path} (hne : path ≠ []) :
    (store.read map).HasRoom path ↔ ¬Blocked (store.table map) path := by
  rw [(h.forest.arranged_read map).hasRoom_iff (h.forest.filled_read h.full map).1 hne]
  constructor
  · rintro hall ⟨other, hother, hlead⟩
    rw [h.contains_table] at hother
    have := Path.compatible_eq_false_iff.mpr hlead
    rw [hall other hother] at this
    cases this
  · intro hblocked other hother
    rw [← Bool.not_eq_false]
    intro hfalse
    exact hblocked ⟨other, (h.contains_table map other).trans hother,
      Path.compatible_eq_false_iff.mp hfalse⟩

/-- Another map shows the same after a change below a map. -/
theorem read_other (h : Sound store maps) {after : Store} (hf : after.Forest)
    (hkeeps : store.Keeps after (store.Leads map)) (hmap : map ∈ maps) {other : Nat}
    (hother : other ∈ maps) (hne : other ≠ map) : after.read other = store.read other := by
  refine hkeeps.read_eq h.forest hf (h.made other hother).1 fun last hlast hlast' => ?_
  rcases h.forest.comparable hlast hlast' with hlead | hlead
  · exact hne ((h.made map hmap).2.eq_of_leads hlead)
  · exact hne ((h.made other hother).2.eq_of_leads hlead).symm

theorem of_keeps (h : Sound store maps) {after : Store} (hf : after.Forest) (hfull : after.Full)
    {touched : Nat → Prop} (hkeeps : store.Keeps after touched) : Sound after maps where
  forest := hf
  full := hfull
  made map hmap := by
    obtain ⟨hlt, hfree⟩ := h.made map hmap
    exact ⟨Nat.lt_of_lt_of_le hlt hkeeps.length_le, hkeeps.free hfree hlt⟩

theorem fresh (h : Sound store maps) : Sound store.fresh.1 (store.fresh.2 :: maps) where
  forest := h.forest.fresh
  full := h.full.fresh
  made map hmap := by
    rcases List.mem_cons.mp hmap with rfl | hmap
    · refine ⟨?_, h.forest.free_fresh⟩
      rw [length_fresh]
      exact Nat.lt_succ_self _
    · obtain ⟨hlt, hfree⟩ := h.made map hmap
      exact ⟨lt_length_fresh hlt, fun parent key hlink => hfree parent key (holds_fresh.mp hlink)⟩

/-- What a call that writes a value does: it fails and changes nothing, or it writes the value. -/
theorem on_set (h : Sound store maps) (hmap : map ∈ maps) {path : Path}
    (hpath : path.check = .ok ()) (hne : path ≠ [])
    (hopen : ¬Blocked (store.table map) path) (chosen : Value) :
    ∃ after, (Edit.set map path chosen).on store = (.ok (), after) ∧ Sound after maps ∧
      (∀ wanted, (after.table map).get? wanted =
        ((store.table map).insert path chosen).get? wanted) ∧
      ∀ other ∈ maps, other ≠ map → after.read other = store.read other := by
  obtain ⟨after, hon, hf, hfull, -, hkeeps, hread⟩ := Edit.exists_on_set h.forest
    (h.made map hmap).1 hpath ((h.hasRoom_iff hne).mpr hopen) chosen
  have hsound := h.of_keeps hf (hfull (h.full.fullBut map)) hkeeps
  refine ⟨after, hon, hsound, fun wanted => ?_, fun other hother hne =>
    h.read_other hf hkeeps hmap hother hne⟩
  rw [hsound.get?_table, hread, Table.get?_insert, h.get?_table]

theorem on_set_blocked (h : Sound store maps) {path : Path} (hpath : path.check = .ok ())
    (hne : path ≠ []) (hblocked : Blocked (store.table map) path) (chosen : Value) :
    ∃ key, (Edit.set map path chosen).on store = (.error (.holdsValue key), store) ∨
      (Edit.set map path chosen).on store = (.error (.holdsNested key), store) := by
  obtain ⟨fault, hon, key, hfault⟩ := Edit.on_set_of_not_hasRoom h.forest hpath hne
    (fun hroom => (h.hasRoom_iff hne).mp hroom hblocked) chosen
  rw [hon]
  refine ⟨key, hfault.imp ?_ ?_⟩
  · rintro rfl; rfl
  · rintro rfl; rfl

theorem set (h : Sound store maps) (hmap : map ∈ maps) {path : Path} (hpath : path.check = .ok ())
    (chosen : Value) : Sound ((Edit.set map path chosen).on store).2 maps := by
  by_cases hne : path = []
  · rw [hne]
    exact h
  · by_cases hblocked : Blocked (store.table map) path
    · obtain ⟨key, hon | hon⟩ := h.on_set_blocked hpath hne hblocked chosen
      · rw [hon]; exact h
      · rw [hon]; exact h
    · obtain ⟨after, hon, hsound, -⟩ := h.on_set hmap hpath hne hblocked chosen
      rw [hon]
      exact hsound

theorem on_setUnder (h : Sound store maps) (hmap : map ∈ maps) {key : Value}
    (hkey : key.checkKey = .ok ()) (hopen : (store.table map).contains [key] = false)
    (source : Nat) :
    ∃ after, (Edit.setUnder map key source).on store = (.ok (), after) ∧ Sound after maps ∧
      (∀ wanted, (after.table map).get? wanted =
        ((store.table map).withBelow key (store.table source)).get? wanted) ∧
      ∀ other ∈ maps, other ≠ map → after.read other = store.read other := by
  obtain ⟨hlt, hfree⟩ := h.made map hmap
  have hvalue : (store.cell map).values.get? key = none := by
    rw [h.contains_table, Option.isSome_eq_false_iff, Option.isNone_iff_eq_none] at hopen
    rw [← h.forest.value?_read]
    exact hopen
  obtain ⟨after, hon, hf, hfull, -, hkeeps, hread⟩ :=
    Edit.exists_on_setUnder h.forest hlt hkey hvalue source
  have hsound := h.of_keeps hf (hfull h.full hfree) hkeeps
  refine ⟨after, hon, hsound, fun wanted => ?_, fun other hother hne =>
    h.read_other hf (hkeeps.mono fun _ _ heq => heq ▸ .refl) hmap hother hne⟩
  rw [hsound.get?_table, Table.get?_withBelow, h.get?_table, h.get?_table]
  cases wanted with
  | nil => rw [at?_nil, at?_nil]; rfl
  | cons wanted rest =>
    rw [hread, List.isPrefixOf, show ([] : Path).isPrefixOf rest = true from rfl, Bool.and_true]
    rfl

theorem on_setUnder_blocked (h : Sound store maps) {key : Value} (hkey : key.checkKey = .ok ())
    (hblocked : (store.table map).contains [key] = true) (source : Nat) :
    (Edit.setUnder map key source).on store = (.error (.holdsValue key), store) := by
  have hvalue : (store.cell map).values.contains key = true := by
    rw [Table.contains_eq_isSome_get?, ← h.forest.value?_read]
    rw [h.contains_table] at hblocked
    exact hblocked
  rw [Edit.on_setUnder hkey, if_pos hvalue]

theorem setUnder (h : Sound store maps) (hmap : map ∈ maps) {key : Value}
    (hkey : key.checkKey = .ok ()) (source : Nat) :
    Sound ((Edit.setUnder map key source).on store).2 maps := by
  cases hopen : (store.table map).contains [key] with
  | true => rw [h.on_setUnder_blocked hkey hopen]; exact h
  | false =>
    obtain ⟨after, hon, hsound, -⟩ := h.on_setUnder hmap hkey hopen source
    rw [hon]
    exact hsound

end Sound

/-- Every call keeps the store sound. -/
theorem Built.sound (h : Built store maps) : Sound store maps := by
  induction h with
  | start =>
    have hnone (parent : Nat) (key : Value) (child : Nat) :
        ¬({} : Store).Holds parent key child := nofun
    exact ⟨⟨fun h => absurd h (hnone _ _ _), fun h => absurd h (hnone _ _ _), nofun⟩,
      fun _ _ _ h => absurd h (hnone _ _ _), nofun⟩
  | new _ ih => exact ih.fresh
  | setItem _ hmap hkey chosen ih =>
    exact ih.set hmap ((Path.check_cons _ []).mpr ⟨hkey, rfl⟩) chosen
  | set _ hmap hpath chosen ih => exact ih.set hmap hpath chosen
  | setUnder _ hmap hkey _ ih => exact ih.setUnder hmap hkey _

/-- **Maps as tables.**  A map that was built from an empty one fails, changes and answers as the
table of its entries does; on the empty path, which no table has, every call fails. -/
theorem acts_as_table (h : Built store maps) (hmap : map ∈ maps) : ActsAsTable store maps map := by
  have hsound := h.sound
  have hshown := hsound.forest.arranged_read map
  have htidied := hshown.tidied
  exact {
    apart := by
      intro path hpath
      rw [hsound.contains_table] at hpath
      have hne : path ≠ [] := by
        rintro rfl
        rw [at?_nil] at hpath
        cases hpath
      exact ⟨hne, (hsound.hasRoom_iff hne).mp (hshown.hasRoom_of_isSome hpath)⟩
    setItem := fun _ _ => rfl
    set_nil := fun _ => rfl
    set_blocked := fun path chosen hpath hne hblocked =>
      hsound.on_set_blocked hpath hne hblocked chosen
    set_open := fun path chosen hpath hne hopen => by
      obtain ⟨after, hon, -, hread⟩ := hsound.on_set hmap hpath hne hopen chosen
      exact ⟨after, hon, hread⟩
    setUnder_blocked := fun key source hkey _ hblocked =>
      hsound.on_setUnder_blocked hkey hblocked source
    setUnder_open := fun key source hkey _ hopen => by
      obtain ⟨after, hon, -, hread⟩ := hsound.on_setUnder hmap hkey hopen source
      exact ⟨after, hon, hread⟩
    find_nil := by
      rw [has, get, find]
      exact ⟨rfl, rfl⟩
    has := fun path hpath hne => by
      rw [has, find_eq hpath hne, hsound.contains_table]
      rfl
    get := fun path hpath hne => by
      rw [get, find_eq hpath hne, hsound.get?_table]
      show (match (store.read map).at? path with
        | some chosen => return chosen
        | none => throw (AddressFault.noValue path)) = _
      cases (store.read map).at? path with
      | none => rfl
      | some chosen => rfl
    size := htidied.size_flatten.symm
    isEmpty := htidied.isEmpty_flatten.symm
    entries := htidied.entries_flatten.symm
    beq := fun other _ => Table.agrees_iff }

/-- A map with a value and another map, which has a value two keys down, under a key. -/
theorem acts_as_table_nested :
    ∃ store, Built store [1, 0] ∧ ActsAsTable store [1, 0] 0 ∧
      (store.table 0).entries = [([.text "zone"], .int 3),
        ([.text "tree", .text "left", .text "hue"], .text "red")] := by
  have hzone : Value.checkKey (.text "zone") = .ok () := rfl
  have htree : Value.checkKey (.text "tree") = .ok () := rfl
  have hpath : Path.check [.text "left", .text "hue"] = .ok () := rfl
  have hfirst : (0 : Nat) ∈ [1, 0] := by decide
  have hsecond : (1 : Nat) ∈ [1, 0] := by decide
  have hbuilt := ((Built.start.new.new.setItem hfirst hzone (.int 3)).set hsecond hpath
    (.text "red")).setUnder hfirst htree hsecond
  exact ⟨_, hbuilt, acts_as_table hbuilt hfirst, rfl⟩

/-- The empty path is the one question that a map does not answer as its table does. -/
theorem not_has_nil : ¬∀ {store maps map}, Built store maps → map ∈ maps →
    ∀ path : Path, path.check = .ok () →
      (store.read map).has path = .ok ((store.table map).contains path) := by
  intro h
  have hnil := h Built.start.new List.mem_cons_self [] rfl
  cases hnil

end Choices

end Deontic
