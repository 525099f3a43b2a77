import Deontic.Proofs.Cells

/-! Writing values in a store of choices.  A value written at a path from a handle goes down to the
level where its last key belongs, in new cells where the path leaves the store.  It changes what the
handle shows at that path and nothing else (`Wrote`, `exists_on_set`); a value that is refused, for
the reason that `refusal?` gives, changes nothing (`on_set_of_refusal?`). -/

namespace Deontic.Choices

open Store

/-- Why no value can be written at a path, if none can. -/
def refusal? : Choices → Path → Option AddressFault
  | _, [] => some .noAddress
  | choices, [key] => if (choices.nested? key).isSome then some (.holdsNested key) else none
  | choices, key :: rest =>
    match choices.nested? key with
    | some inner => inner.refusal? rest
    | none => if (choices.value? key).isSome then some (.holdsValue key) else none

theorem refusal?_cons_cons (choices : Choices) (key next : Value) (rest : Path) :
    choices.refusal? (key :: next :: rest) =
      match choices.nested? key with
      | some inner => inner.refusal? (next :: rest)
      | none => if (choices.value? key).isSome then some (.holdsValue key) else none := by
  rw [refusal?]
  exact nofun

/-- A value is refused where there is no room for it. -/
theorem refusal?_eq_none_iff {choices : Choices} {path : Path} :
    choices.refusal? path = none ↔ choices.HasRoom path := by
  induction path generalizing choices with
  | nil => exact ⟨nofun, nofun⟩
  | cons key rest ih =>
    cases rest with
    | nil =>
      show (if (choices.nested? key).isSome then _ else none) = none ↔ choices.nested? key = none
      cases choices.nested? key with
      | none => exact iff_of_true rfl rfl
      | some inner => exact iff_of_false nofun nofun
    | cons next rest =>
      rw [refusal?_cons_cons, hasRoom_cons_cons]
      cases choices.nested? key with
      | some inner => exact ih
      | none =>
        cases choices.value? key with
        | none => exact iff_of_true rfl rfl
        | some was => exact iff_of_false nofun nofun

/-- At a path with keys a value is refused because a key on the way is taken. -/
theorem exists_taken_of_refusal? {choices : Choices} {path : Path} (hne : path ≠ [])
    {fault : AddressFault} (h : choices.refusal? path = some fault) :
    ∃ taken, fault = .holdsValue taken ∨ fault = .holdsNested taken := by
  induction path generalizing choices with
  | nil => exact absurd rfl hne
  | cons key rest ih =>
    cases rest with
    | nil =>
      replace h : (if (choices.nested? key).isSome then some (.holdsNested key) else none) =
        some fault := h
      split at h
      · exact ⟨key, .inr (Option.some.inj h).symm⟩
      · cases h
    | cons next rest =>
      rw [refusal?_cons_cons] at h
      split at h
      · exact ih (by simp) h
      · split at h
        · exact ⟨key, .inl (Option.some.inj h).symm⟩
        · cases h

namespace Store

variable {store after : Store} {handle : Nat} {key : Value} {chosen : Value}

/-- After a value was written at a path from a handle: what the handle shows has changed there and
nowhere else, and no cell was touched but those that the handle leads to. -/
structure Wrote (store after : Store) (handle : Nat) (path : Path) (chosen : Value) : Prop where
  forest : after.Forest
  full : store.FullBut handle → after.Full
  keyed : store.Keyed → after.Keyed
  keeps : Keeps store after (store.Leads handle)
  shown : ∀ wanted, (after.read handle).at? wanted =
    if path == wanted then some chosen else (store.read handle).at? wanted

variable (hf : store.Forest) (hlt : handle < store.cells.length)

include hf hlt

theorem Wrote.write (hkey : key.checkKey = .ok ())
    (hnested : (store.cell handle).nested.get? key = none) :
    Wrote store (store.write handle key chosen) handle [key] chosen where
  forest := hf.write hlt hnested chosen
  full hfull := hfull.write hlt chosen
  keyed hkeyed := hkeyed.write hlt hkey chosen
  keeps := (keeps_write hlt chosen).mono fun _ _ heq => heq ▸ .refl
  shown := hf.at?_write hlt hnested chosen

/-- A value is written in a nested cell. -/
theorem Wrote.below {child : Nat} {next : Value} {rest : Path}
    (hlink : (store.cell handle).nested.get? key = some child)
    (h : Wrote store after child (next :: rest) chosen) :
    Wrote store after handle (key :: next :: rest) chosen := by
  obtain ⟨found, hholds, -⟩ := holds_of_get? hlink
  exact {
    forest := h.forest
    full := fun hfull => h.full ((hfull.full hholds).fullBut child)
    keyed := h.keyed
    keeps := h.keeps.mono fun _ _ hlead => .head ⟨found, hholds⟩ hlead
    shown := at?_of_descent hf h.forest hlink hlt h.keeps h.shown }

/-- A value is written in a new nested cell. -/
theorem Wrote.sprouted {next : Value} {rest : Path} (hkey : key.checkKey = .ok ())
    (hvalue : (store.cell handle).values.get? key = none)
    (hnested : (store.cell handle).nested.get? key = none)
    (h : Wrote (store.sprout handle key) after store.cells.length (next :: rest) chosen) :
    Wrote store after handle (key :: next :: rest) chosen where
  forest := h.forest
  full hfull := h.full (hfull.sprout hlt)
  keyed hkeyed := h.keyed (hkeyed.sprout hlt hkey)
  keeps := by
    refine ((keeps_sprout hlt).mono fun _ _ heq => heq ▸ .refl).trans h.keeps ?_
    intro last hlast hlead
    have := (hf.sprout hlt hvalue).le_of_leads hlead
    omega
  shown wanted := by
    have hlink : ((store.sprout handle key).cell handle).nested.get? key =
        some store.cells.length := by
      rw [cell_sprout hlt, Table.get?_insert, if_pos BEq.rfl]
    have hlt' : handle < (store.sprout handle key).cells.length :=
      Nat.lt_trans hlt lt_length_sprout
    rw [at?_of_descent (hf.sprout hlt hvalue) h.forest hlink hlt' h.keeps h.shown,
      hf.at?_sprout hlt hvalue hnested]

end Store

/-- What an edit answers, and the store that it leaves. -/
def Edit.on {α : Type} (edit : Edit α) (store : Store) : Except AddressFault α × Store :=
  edit.run.run store

namespace Edit

variable {store : Store} {handle : Nat} {key : Value}

theorem on_setItem (hkey : key.checkKey = .ok ()) (chosen : Value) :
    (setItem handle key chosen).on store =
      if (store.cell handle).nested.contains key then (.error (.holdsNested key), store)
      else (.ok (), store.write handle key chosen) := by
  rw [setItem, hkey]
  show (if (store.cell handle).nested.contains key
    then (throw (AddressFault.holdsNested key) >>= fun _ : Unit => update handle fun cell =>
      { cell with values := cell.values.insert key chosen })
    else update handle fun cell =>
      { cell with values := cell.values.insert key chosen } : Edit Unit).on store = _
  split <;> rfl

theorem on_set_cons_cons (hkey : key.checkKey = .ok ()) (next : Value) (rest : Path)
    (chosen : Value) :
    (set handle (key :: next :: rest) chosen).on store =
      match (store.cell handle).nested.get? key with
      | some child => (set child (next :: rest) chosen).on store
      | none =>
        if (store.cell handle).values.contains key then (.error (.holdsValue key), store)
        else (set store.cells.length (next :: rest) chosen).on (store.sprout handle key) := by
  rw [set, hkey]
  · show (match (store.cell handle).nested.get? key with
      | some child => set child (next :: rest) chosen
      | none => _ : Edit Unit).on store = _
    cases (store.cell handle).nested.get? key with
    | some child => rfl
    | none =>
      let make : Edit Unit := do
        let child ← fresh
        update handle fun cell => { cell with nested := cell.nested.insert key child }
        set child (next :: rest) chosen
      show (if (store.cell handle).values.contains key
        then (throw (AddressFault.holdsValue key) >>= fun _ : Unit => make) else make).on store = _
      split <;> rfl
  · exact nofun

/-- A value is written where there is room for it. -/
theorem exists_on_set {path : Path} (hf : store.Forest) (hlt : handle < store.cells.length)
    (hpath : path.check = .ok ()) (hroom : (store.read handle).HasRoom path) (chosen : Value) :
    ∃ after, (set handle path chosen).on store = (.ok (), after) ∧
      Wrote store after handle path chosen := by
  induction path generalizing store handle with
  | nil => exact hroom.elim
  | cons key rest ih =>
    obtain ⟨hkey, hrest⟩ := (Path.check_cons key rest).mp hpath
    cases rest with
    | nil =>
      replace hroom : (store.read handle).nested? key = none := hroom
      rw [hf.nested?_read, Option.map_eq_none_iff] at hroom
      refine ⟨store.write handle key chosen, ?_, .write hf hlt hkey hroom⟩
      show (setItem handle key chosen).on store = _
      rw [on_setItem hkey, Table.contains_eq_isSome_get?, hroom]
      rfl
    | cons next rest =>
      rw [hasRoom_cons_cons, hf.nested?_read] at hroom
      rw [on_set_cons_cons hkey]
      cases hlink : (store.cell handle).nested.get? key with
      | some child =>
        rw [hlink] at hroom
        obtain ⟨found, hholds, -⟩ := holds_of_get? hlink
        obtain ⟨after, hon, hwrote⟩ := ih hf (hf.later hholds).2 hrest hroom
        exact ⟨after, hon, hwrote.below hf hlt hlink⟩
      | none =>
        rw [hlink] at hroom
        replace hroom : (store.read handle).value? key = none := hroom
        rw [hf.value?_read] at hroom
        have hempty : ((store.sprout handle key).read store.cells.length).HasRoom
            (next :: rest) := by
          rw [hf.read_sprout hlt hroom]
          exact hasRoom_empty (List.cons_ne_nil _ _)
        obtain ⟨after, hon, hwrote⟩ := ih (hf.sprout hlt hroom) lt_length_sprout hrest hempty
        refine ⟨after, ?_, hwrote.sprouted hf hlt hkey hroom hlink⟩
        rw [Table.contains_eq_isSome_get?, hroom]
        exact hon

/-- A value that is refused changes nothing. -/
theorem on_set_of_refusal? {path : Path} (hf : store.Forest) (hpath : path.check = .ok ())
    {fault : AddressFault} (h : (store.read handle).refusal? path = some fault) (chosen : Value) :
    (set handle path chosen).on store = (.error fault, store) := by
  induction path generalizing handle with
  | nil => cases h; rfl
  | cons key rest ih =>
    obtain ⟨hkey, hrest⟩ := (Path.check_cons key rest).mp hpath
    cases rest with
    | nil =>
      replace h : (if ((store.read handle).nested? key).isSome then some (.holdsNested key)
        else none) = some fault := h
      show (setItem handle key chosen).on store = _
      rw [hf.nested?_read, Option.isSome_map] at h
      rw [on_setItem hkey, Table.contains_eq_isSome_get?]
      split at h
      · next hsome => cases h; rw [if_pos hsome]
      · cases h
    | cons next rest =>
      rw [refusal?_cons_cons, hf.nested?_read, hf.value?_read] at h
      rw [on_set_cons_cons hkey]
      cases hlink : (store.cell handle).nested.get? key with
      | some child =>
        rw [hlink] at h
        exact ih hrest h
      | none =>
        rw [hlink] at h
        simp only [Option.map_none] at h
        split at h
        · next hsome => cases h; rw [Table.contains_eq_isSome_get?, if_pos hsome]
        · cases h

/-- Without room for a value nothing is changed. -/
theorem on_set_of_not_hasRoom {path : Path} (hf : store.Forest) (hpath : path.check = .ok ())
    (hne : path ≠ []) (hroom : ¬(store.read handle).HasRoom path) (chosen : Value) :
    ∃ fault, (set handle path chosen).on store = (.error fault, store) ∧
      ∃ taken, fault = .holdsValue taken ∨ fault = .holdsNested taken := by
  rw [← refusal?_eq_none_iff] at hroom
  obtain ⟨fault, hfault⟩ := Option.ne_none_iff_exists'.mp hroom
  exact ⟨fault, on_set_of_refusal? hf hpath hfault chosen, exists_taken_of_refusal? hne hfault⟩

end Edit

end Deontic.Choices
