import Deontic.Proofs.Calls

/-! Maps of choices that share cells.  Calls on maps that are held, with any keys and on any nested
cells that were handed out, leave a forest, also where they fail half-way (`Worked.live`): no cell
is nested in two places or within itself, so whatever is shown comes to an end.  A call touches only
cells on the way from the map that it writes to (`Live.leaves`).  So it changes what that map shows,
what the maps that lead there show, and what the nested cells on the way show, but nothing else
(`unentangled`). -/

namespace Deontic.Choices

open Store

/-- A call on maps that are held. -/
inductive Call where
  | new
  | ofValues (values : List (String × Value))
  | ofEntries (entries : List (Path × Value))
  | copy (map : Nat)
  | getUnder (map : Nat) (key : Value)
  | setItem (map : Nat) (key chosen : Value)
  | set (map : Nat) (path : Path) (chosen : Value)
  | setUnder (map : Nat) (key : Value) (source : Nat)

namespace Call

/-- The maps that a call is given. -/
def operands : Call → List Nat
  | new | ofValues _ | ofEntries _ => []
  | copy map | getUnder map _ | setItem map _ _ | set map _ _ => [map]
  | setUnder map _ source => [map, source]

/-- The map that a call writes to. -/
def target : Call → Option Nat
  | setItem map _ _ | set map _ _ | setUnder map _ _ => some map
  | new | ofValues _ | ofEntries _ | copy _ | getUnder _ _ => none

/-- The path at which a call writes. -/
def path : Call → Path
  | set _ path _ => path
  | setItem _ key _ | setUnder _ key _ => [key]
  | new | ofValues _ | ofEntries _ | copy _ | getUnder _ _ => []

/-- What a call does; it answers the maps that it hands out. -/
def edit : Call → Edit (List Nat)
  | new => ([·]) <$> Edit.fresh
  | ofValues values => ([·]) <$> Edit.ofEntries (values.map fun entry => ([.text entry.1], entry.2))
  | ofEntries entries => ([·]) <$> Edit.ofEntries entries
  | copy map => ([·]) <$> Edit.copy map
  | getUnder map key => ([·]) <$> Edit.getUnder map key
  | setItem map key chosen => (fun _ => []) <$> Edit.setItem map key chosen
  | set map path chosen => (fun _ => []) <$> Edit.set map path chosen
  | setUnder map key source => (fun _ => []) <$> Edit.setUnder map key source

/-- The store that a call leaves. -/
def leaves (call : Call) (store : Store) : Store := (call.edit.on store).2

/-- The maps that a call hands out; none if it fails. -/
def hands (call : Call) (store : Store) : List Nat :=
  match (call.edit.on store).1 with
  | .ok maps => maps
  | .error _ => []

end Call

/-- A store and the maps in it that are held, after any calls on these. -/
inductive Worked : Store → List Nat → Prop
  | start : Worked {} []
  | call {store : Store} {maps : List Nat} (h : Worked store maps) (call : Call)
    (hheld : ∀ map ∈ call.operands, map ∈ maps) :
    Worked (call.leaves store) (call.hands store ++ maps)

namespace Store

variable {store : Store}

/-- The cells that a path leads through, from a cell down to where its last key belongs or to where
it leaves the store. -/
def walk (store : Store) : Nat → Path → List Nat
  | handle, key :: next :: rest =>
    handle :: match (store.cell handle).nested.get? key with
      | some child => store.walk child (next :: rest)
      | none => []
  | handle, _ => [handle]

theorem mem_walk_self (handle : Nat) (path : Path) : handle ∈ store.walk handle path := by
  unfold walk
  split <;> simp

theorem walk_cons_cons_of_get? {handle child : Nat} {key : Value}
    (hlink : (store.cell handle).nested.get? key = some child) (next : Value) (rest : Path) :
    store.walk handle (key :: next :: rest) = handle :: store.walk child (next :: rest) := by
  rw [walk, hlink]

/-- A map that leads to a cell on a way leads to its beginning, or lies on the way itself. -/
theorem Forest.leads_or_mem_walk (hf : store.Forest) {other handle last : Nat} {path : Path}
    (hlast : last ∈ store.walk handle path) (hlead : store.Leads other last) :
    store.Leads other handle ∨ other ∈ store.walk handle path := by
  induction path generalizing handle with
  | nil =>
    obtain rfl := List.mem_singleton.mp hlast
    exact .inl hlead
  | cons key rest ih =>
    rcases rest with _ | ⟨next, rest⟩
    · obtain rfl := List.mem_singleton.mp hlast
      exact .inl hlead
    cases hlink : (store.cell handle).nested.get? key with
    | none =>
      rw [walk, hlink] at hlast
      obtain rfl := List.mem_singleton.mp hlast
      exact .inl hlead
    | some child =>
      rw [walk_cons_cons_of_get? hlink] at hlast ⊢
      rcases List.mem_cons.mp hlast with rfl | hbelow
      · exact .inl hlead
      rcases ih hbelow with hchild | hother
      · obtain ⟨found, hholds, -⟩ := holds_of_get? hlink
        cases hchild with
        | refl => exact .inr (List.mem_cons_of_mem _ (mem_walk_self _ _))
        | tail hmid hstep =>
          obtain ⟨key', hstep⟩ := hstep
          obtain ⟨rfl, -⟩ := hf.once hstep hholds
          exact .inl hmid
      · exact .inr (List.mem_cons_of_mem _ hother)

/-- From a new cell a path leads nowhere. -/
theorem walk_new {handle : Nat} {key : Value} (hlt : handle < store.cells.length) (path : Path) :
    (store.sprout handle key).walk store.cells.length path = [store.cells.length] := by
  unfold walk
  split
  · rw [Store.sprout, Store.link, cell_update_of_ne (lt_length_fresh hlt) _ (Nat.ne_of_gt hlt),
      cell_new]
    rfl
  · rfl

/-- No cell is nested within itself, at any depth. -/
theorem Forest.acyclic (hf : store.Forest) (handle : Nat) :
    ¬Relation.TransGen (fun parent child => ∃ key, store.Holds parent key child) handle handle := by
  intro hcycle
  obtain ⟨child, ⟨key, hchild⟩, hback⟩ := Relation.TransGen.head'_iff.mp hcycle
  have hlater := (hf.later hchild).1
  have hearlier := hf.le_of_leads hback
  omega

/-- What is nested in a cell comes to an end. -/
theorem Forest.wellFounded (hf : store.Forest) :
    WellFounded fun child parent => ∃ key, store.Holds parent key child := by
  refine ⟨fun handle => ?_⟩
  refine hf.induction (fun handle ih => ⟨handle, fun child hchild => ?_⟩) handle
  obtain ⟨key, hchild⟩ := hchild
  exact ih key child hchild

/-- A later store that is a forest again, with no old cell touched but some. -/
structure Becomes (store after : Store) (touched : Nat → Prop) : Prop where
  forest : after.Forest
  keyed : after.Keyed
  keeps : store.Keeps after touched

end Store

/-! ### One call -/

namespace Edit

variable {α β : Type} {store : Store} {handle : Nat} {key : Value}

theorem on_copy (map : Nat) : (Edit.copy map).on store =
    (Edit.ofEntries (store.read map).flatten.entries).on store := rfl

theorem on_map (f : α → β) (edit : Edit α) :
    (f <$> edit).on store = ((edit.on store).1.map f, (edit.on store).2) := by
  rw [Edit.on, ExceptT.run_map, StateT.run_map]
  rfl

theorem on_getUnder_of_error {fault : AddressFault} (hkey : key.checkKey = .error fault) :
    (getUnder handle key).on store = (.error fault, store) := by
  rw [getUnder, hkey]
  rfl

theorem on_setUnder_of_error {fault : AddressFault} (hkey : key.checkKey = .error fault)
    (source : Nat) : (setUnder handle key source).on store = (.error fault, store) := by
  rw [setUnder, hkey]
  rfl

theorem on_setItem_of_error {fault : AddressFault} (hkey : key.checkKey = .error fault)
    (chosen : Value) : (setItem handle key chosen).on store = (.error fault, store) := by
  rw [setItem, hkey]
  rfl

theorem on_set_of_error {fault : AddressFault} (hkey : key.checkKey = .error fault)
    (rest : Path) (chosen : Value) :
    (set handle (key :: rest) chosen).on store = (.error fault, store) := by
  cases rest with
  | nil => exact on_setItem_of_error hkey chosen
  | cons next rest =>
    rw [set, hkey]
    · rfl
    · simp

end Edit

/-- A value that is written at a path, or fails to be, touches the cells on the way alone. -/
theorem Store.Forest.on_set {store : Store} (hf : store.Forest) (hkeyed : store.Keyed)
    {handle : Nat} (hlt : handle < store.cells.length) (path : Path) (chosen : Value) :
    store.Becomes ((Edit.set handle path chosen).on store).2 (· ∈ store.walk handle path) := by
  induction path generalizing store handle with
  | nil => exact ⟨hf, hkeyed, .refl⟩
  | cons key rest ih =>
    cases hkey : key.checkKey with
    | error fault =>
      rw [Edit.on_set_of_error hkey]
      exact ⟨hf, hkeyed, .refl⟩
    | ok =>
      rcases rest with _ | ⟨next, rest⟩
      · show store.Becomes ((Edit.setItem handle key chosen).on store).2 (· ∈ [handle])
        rw [Edit.on_setItem hkey, Table.contains_eq_isSome_get?]
        split
        · exact ⟨hf, hkeyed, .refl⟩
        · next hnone =>
          have hnone := Option.not_isSome_iff_eq_none.mp hnone
          exact ⟨hf.write hlt hnone chosen, hkeyed.write hlt hkey chosen,
            (keeps_write hlt chosen).mono fun _ _ heq => List.mem_singleton.mpr heq⟩
      rw [Edit.on_set_cons_cons hkey]
      cases hlink : (store.cell handle).nested.get? key with
      | some child =>
        obtain ⟨found, hholds, -⟩ := holds_of_get? hlink
        obtain ⟨hf', hkeyed', hkeeps⟩ := ih hf hkeyed (hf.later hholds).2
        rw [walk_cons_cons_of_get? hlink]
        exact ⟨hf', hkeyed', hkeeps.mono fun _ _ => List.mem_cons_of_mem _⟩
      | none =>
        dsimp only
        rw [Table.contains_eq_isSome_get?]
        split
        · exact ⟨hf, hkeyed, .refl⟩
        · next hvalue =>
          have hvalue := Option.not_isSome_iff_eq_none.mp hvalue
          obtain ⟨hf', hkeyed', hkeeps⟩ :=
            ih (hf.sprout hlt hvalue) (hkeyed.sprout hlt hkey) lt_length_sprout
          rw [walk_new hlt] at hkeeps
          refine ⟨hf', hkeyed', ?_⟩
          refine ((keeps_sprout hlt).mono fun _ _ heq => heq ▸ mem_walk_self _ _).trans hkeeps ?_
          intro old hold hnew
          obtain rfl := List.mem_singleton.mp hnew
          exact absurd hold (Nat.lt_irrefl _)

/-- What a call leaves: the maps that it was given and those that it hands out are still maps of a
forest, and no old cell was touched but those on the way from the map that it writes to. -/
structure Call.Leaves (call : Call) (store : Store) (maps : List Nat) : Prop where
  live : Live (call.leaves store) (call.hands store ++ maps)
  keeps : store.Keeps (call.leaves store)
    fun handle => ∃ map, call.target = some map ∧ handle ∈ store.walk map call.path

/-- That an edit hands out a map and touches no cell, or fails and changes nothing. -/
inductive Edit.HandsOut (edit : Edit Nat) (store : Store) (maps : List Nat) : Prop
  | failed {fault : AddressFault} (hon : edit.on store = (.error fault, store))
  | made {map : Nat} {after : Store} (hon : edit.on store = (.ok map, after))
      (hlive : Live after (map :: maps)) (hkeeps : store.Keeps after fun _ => False)

namespace Live

variable {store : Store} {maps : List Nat} {call : Call}

theorem leaves_of_hands (h : Live store maps) {edit : Edit Nat}
    (hcall : call.edit = ([·]) <$> edit) (hedit : edit.HandsOut store maps) :
    call.Leaves store maps := by
  have hon : call.edit.on store = ((edit.on store).1.map ([·]), (edit.on store).2) := by
    rw [hcall, Edit.on_map]
  cases hedit with
  | failed hfailed =>
    rw [hfailed] at hon
    constructor <;> rw [Call.leaves, hon]
    · rwa [Call.hands, hon]
    · exact .refl
  | made hmade hlive hkeeps =>
    rw [hmade] at hon
    constructor <;> rw [Call.leaves, hon]
    · rwa [Call.hands, hon]
    · exact hkeeps.mono fun _ _ => False.elim

theorem leaves_of_write (h : Live store maps) {edit : Edit Unit} {map : Nat}
    (hcall : call.edit = (fun _ => []) <$> edit) (htarget : call.target = some map)
    (hedit : store.Becomes (edit.on store).2 (· ∈ store.walk map call.path)) :
    call.Leaves store maps := by
  have hon : call.edit.on store = ((edit.on store).1.map fun _ => [], (edit.on store).2) := by
    rw [hcall, Edit.on_map]
  have hhands : call.hands store = [] := by
    rw [Call.hands, hon]
    cases (edit.on store).1 <;> rfl
  constructor
  · rw [hhands, Call.leaves, hon]
    exact h.mono hedit.forest hedit.keyed hedit.keeps
  · rw [Call.leaves, hon]
    exact hedit.keeps.mono fun _ _ hmem => ⟨map, htarget, hmem⟩

theorem on_ofEntries (h : Live store maps) (entries : List (Path × Value)) :
    (Edit.ofEntries entries).HandsOut store maps := by
  have hon := @Edit.on_ofEntries store entries
  cases hchoices : Choices.ofEntries entries with
  | error fault =>
    rw [hchoices] at hon
    exact .failed hon
  | ok choices =>
    rw [hchoices] at hon
    have hunshared := unshared_of_ofEntries hchoices
    apply Edit.HandsOut.made hon
    · exact h.add hunshared (keyed_of_ofEntries hchoices)
    · exact (adds_add h.forest hunshared).keeps_add _

theorem on_copy (h : Live store maps) (map : Nat) : (Edit.copy map).HandsOut store maps := by
  have hon := @Edit.on_copy store map
  cases h.on_ofEntries (store.read map).flatten.entries with
  | failed hfailed => exact .failed (hon.trans hfailed)
  | made hmade hlive hkeeps => exact .made (hon.trans hmade) hlive hkeeps

theorem on_getUnder (h : Live store maps) (map : Nat) (key : Value) :
    (Edit.getUnder map key).HandsOut store maps := by
  cases hkey : key.checkKey with
  | error fault => exact .failed (Edit.on_getUnder_of_error hkey)
  | ok =>
    obtain ⟨child, after, hon, -, hafter, -⟩ := @Edit.exists_on_getUnder store map key h.forest hkey
    apply Edit.HandsOut.made hon (h.getUnder hkey hon)
    rcases hafter with rfl | rfl
    · exact .refl
    · exact keeps_fresh

theorem on_setUnder (h : Live store maps) {map : Nat} (hmap : map ∈ maps) (key : Value)
    (source : Nat) :
    store.Becomes ((Edit.setUnder map key source).on store).2 (· ∈ store.walk map [key]) := by
  have hunchanged : store.Becomes store (· ∈ store.walk map [key]) := ⟨h.forest, h.keyed, .refl⟩
  cases hkey : key.checkKey with
  | error fault =>
    rw [Edit.on_setUnder_of_error hkey]
    exact hunchanged
  | ok =>
    cases hvalue : (store.cell map).values.get? key with
    | none =>
      obtain ⟨after, hon, hf, -, hkeyed, hkeeps, -⟩ :=
        Edit.exists_on_setUnder h.forest (h.made map hmap) hkey hvalue source
      rw [hon]
      exact ⟨hf, hkeyed h.keyed, hkeeps.mono fun _ _ heq => List.mem_singleton.mpr heq⟩
    | some was =>
      rw [Edit.on_setUnder hkey, Table.contains_eq_isSome_get?, hvalue]
      exact hunchanged

/-- Copying always succeeds. -/
theorem exists_on_copy (h : Live store maps) (map : Nat) :
    ∃ copy after, (Edit.copy map).on store = (.ok copy, after) := by
  have hentries := (h.forest.arranged_read map).ofEntries_flatten (h.forest.keyed_read h.keyed map)
  rw [Edit.on_copy, Edit.on_ofEntries, hentries]
  exact ⟨_, _, rfl⟩

/-- What any call leaves. -/
theorem leaves (h : Live store maps) (hheld : ∀ map ∈ call.operands, map ∈ maps) :
    call.Leaves store maps := by
  cases call with
  | new =>
    exact h.leaves_of_hands rfl (.made rfl (h.fresh.cons new_lt_length_fresh) keeps_fresh)
  | ofValues values => exact h.leaves_of_hands rfl (h.on_ofEntries _)
  | ofEntries entries => exact h.leaves_of_hands rfl (h.on_ofEntries entries)
  | copy map => exact h.leaves_of_hands rfl (h.on_copy map)
  | getUnder map key => exact h.leaves_of_hands rfl (h.on_getUnder map key)
  | setItem map key chosen =>
    have hmap := h.made map (hheld map (List.mem_singleton_self _))
    exact h.leaves_of_write rfl rfl (h.forest.on_set h.keyed hmap [key] chosen)
  | set map path chosen =>
    have hmap := h.made map (hheld map (List.mem_singleton_self _))
    exact h.leaves_of_write rfl rfl (h.forest.on_set h.keyed hmap path chosen)
  | setUnder map key source =>
    have hmap := hheld map List.mem_cons_self
    exact h.leaves_of_write rfl rfl (h.on_setUnder hmap key source)

end Live

/-! ### Any calls -/

theorem Worked.live {store : Store} {maps : List Nat} (h : Worked store maps) :
    Live store maps := by
  induction h with
  | start => exact .start
  | call _ call hheld ih => exact (ih.leaves hheld).live

/-- That maps do not hang together but for nested cells that are held. -/
structure Unentangled (store : Store) (maps : List Nat) : Prop where
  /-- No cell is nested in two places, -/
  once : ∀ {parent key child other key'}, store.Holds parent key child →
    store.Holds other key' child → parent = other ∧ key = key'
  /-- nor within itself. -/
  acyclic : ∀ handle,
    ¬Relation.TransGen (fun parent child => ∃ key, store.Holds parent key child) handle handle
  /-- So what is nested in a cell comes to an end, -/
  ends : WellFounded fun child parent => ∃ key, store.Holds parent key child
  /-- what a cell shows is made of what the nested cells show, -/
  shown : ∀ handle, store.read handle = assemble (store.cell handle) store.read
  /-- and every map can be copied. -/
  copied : ∀ map ∈ maps, ∃ copy after, (Edit.copy map).on store = (.ok copy, after)
  /-- A call changes what a cell shows only if it writes to a map, and only for that map, for those
  that lead to it, and for the cells that lie on the path. -/
  changed : ∀ call : Call, (∀ map ∈ call.operands, map ∈ maps) → ∀ other < store.cells.length,
    ((call.leaves store).read other).flatten ≠ (store.read other).flatten →
      ∃ map, call.target = some map ∧
        (store.Leads other map ∨ other ∈ store.walk map call.path)

/-- **Maps and nested maps.**  Any calls on maps that are held leave maps that are not entangled. -/
theorem unentangled {store : Store} {maps : List Nat} (h : Worked store maps) :
    Unentangled store maps where
  once := h.live.forest.once
  acyclic := h.live.forest.acyclic
  ends := h.live.forest.wellFounded
  shown := h.live.forest.read_eq
  copied map _ := h.live.exists_on_copy map
  changed call hheld other hlt hne := by
    have hleaves := h.live.leaves hheld
    have hf := h.live.forest
    -- what is changed leads to a cell that was touched, or it would show the same
    by_contra hnone
    apply hne
    rw [hleaves.keeps.read_eq hf hleaves.live.forest hlt]
    rintro last hlead ⟨map, htarget, hlast⟩
    exact hnone ⟨map, htarget, hf.leads_or_mem_walk hlast hlead⟩

/-- A map put below one of its own nested maps is put there as a copy. -/
theorem unentangled_within : ∃ store maps, Worked store maps ∧ Unentangled store maps ∧
    (store.read 0).flatten.entries =
      [([.text "a", .text "b"], .int 1), ([.text "a", .text "c", .text "a", .text "b"], .int 1)] :=
  have hnew : Worked _ [0] := Worked.start.call .new nofun
  have hset : Worked _ [0] := hnew.call (.set 0 [.text "a", .text "b"] (.int 1)) (by decide)
  have hunder : Worked _ [1, 0] := hset.call (.getUnder 0 (.text "a")) (by decide)
  have hwithin : Worked _ [1, 0] := hunder.call (.setUnder 1 (.text "c") 0) (by decide)
  ⟨_, _, hwithin, unentangled hwithin, rfl⟩

/-- A value written at a path changes what the nested maps on the path show, though these do not
lead to the map that is written to. -/
theorem not_changed_above : ¬∀ store maps, Worked store maps → ∀ call : Call,
    (∀ map ∈ call.operands, map ∈ maps) → ∀ other < store.cells.length,
      ((call.leaves store).read other).flatten ≠ (store.read other).flatten →
        ∃ map, call.target = some map ∧ store.Leads other map := by
  intro hclaim
  have hnew : Worked _ [0] := Worked.start.call .new nofun
  have hset : Worked _ [0] := hnew.call (.set 0 [.text "a", .text "b"] (.int 1)) (by decide)
  have hunder : Worked _ [1, 0] := hset.call (.getUnder 0 (.text "a")) (by decide)
  obtain ⟨map, htarget, hlead⟩ := hclaim _ _ hunder (.set 0 [.text "a", .text "c"] (.int 2))
    (by decide) 1 (by decide) fun heq => absurd (congrArg Table.size heq) (by decide)
  cases htarget
  exact absurd (hunder.live.forest.le_of_leads hlead) (by decide)

end Deontic.Choices
