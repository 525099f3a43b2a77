import Deontic.Proofs.Edits
import Deontic.Proofs.Rebuilding

/-! Copies in a store of choices.  Filling a cell with choices puts their values and nested levels
after those of the cell, in new cells (`adds_fill`), so a copy shows the choices that were copied,
arranged (`Adds.read_add`).  Choices put under a key are such a copy: they are shown below that key
in place of what stood there, and no other handle is affected (`exists_on_setUnder`). -/

namespace Deontic.Choices

namespace Store

variable {store after : Store} {handle : Nat}

/-- After choices were added to a cell: it has their values and nested levels after its own, and no
other old cell was touched. -/
structure Adds (store after : Store) (handle : Nat) (choices : Choices) : Prop where
  forest : after.Forest
  full : store.Full → choices.Filled → after.Full
  keyed : store.Keyed → choices.Keyed → after.Keyed
  keeps : Keeps store after (· = handle)
  values : (after.cell handle).values.entries =
    (store.cell handle).values.entries ++ choices.values
  nested : (after.cell handle).nested.entries.map (fun link => (link.1, after.read link.2)) =
    (store.cell handle).nested.entries.map (fun link => (link.1, store.read link.2)) ++
      choices.arrange.nestings

namespace Adds

variable {choices : Choices}

/-- A cell that was bare shows what was added to it. -/
theorem read_eq (h : Adds store after handle choices) (hbare : (store.cell handle).Bare)
    (hunshared : choices.Unshared) : after.read handle = choices.arrange := by
  rw [h.forest.read_eq, assemble_eq, h.values, h.nested, hbare.1, hbare.2]
  rw [← values_arrange]
  exact hunshared.arranged_arrange.eq_level.symm

theorem not_bare (h : Adds store after handle choices) (hbare : (store.cell handle).Bare)
    (hunshared : choices.Unshared) (hfilled : choices.isEmpty = false) :
    ¬(after.cell handle).Bare := by
  intro hbare'
  have := h.forest.isEmpty_read_of_bare hbare'
  rw [h.read_eq hbare hunshared, isEmpty_arrange, hfilled] at this
  cases this

end Adds

/-- Where all cells have keys that can be keys, so has what is shown. -/
theorem Forest.keyed_read (hf : store.Forest) (hkeyed : store.Keyed) (handle : Nat) :
    (store.read handle).Keyed := by
  refine hf.induction (motive := fun handle => (store.read handle).Keyed) (fun handle ih => ?_)
    handle
  rw [hf.read_eq, assemble_eq]
  refine keyed_level (hkeyed handle).1 fun entry hentry => ?_
  obtain ⟨link, hlink, rfl⟩ := List.mem_map.mp hentry
  exact ⟨(hkeyed handle).2 link hlink, ih link.1 link.2 hlink⟩

/-- A copy nested under a key of a cell. -/
theorem Full.link (hfull : store.Full) (hlt : handle < store.cells.length) {child : Nat}
    {key : Value} (hbare : ¬(store.cell child).Bare) (hne : child ≠ handle) :
    (store.link handle key child).Full := by
  intro parent found other hlink
  by_cases hother : other = child
  · rw [hother, Store.link, cell_update_of_ne hlt _ hne]
    exact hbare
  · exact (hfull.fullBut handle).link hlt child parent found other hlink hother

/-- A later cell shows the same after it was nested in an earlier one. -/
theorem Forest.read_link (hf : store.Forest) {child : Nat} {key : Value}
    (hf' : (store.link handle key child).Forest) (hlt : handle < store.cells.length)
    (hless : handle < child) : (store.link handle key child).read child = store.read child := by
  refine hf.read_congr hf' fun last hlast => ?_
  have hne : last ≠ handle := Nat.ne_of_gt (Nat.lt_of_lt_of_le hless (hf.le_of_leads hlast))
  rw [Store.link, cell_update_of_ne hlt _ hne]

/-! ### A copy nested under a key -/

/-- The store with a copy of choices nested under a key of a cell. -/
def stow (store : Store) (handle : Nat) (key : Value) (choices : Choices) : Store :=
  (store.add choices).1.link handle key store.cells.length

namespace Adds

variable {choices : Choices} {key : Value}
  (h : Adds store.fresh.1 (store.add choices).1 store.cells.length choices)

include h

theorem lt_length : store.cells.length < (store.add choices).1.cells.length := by
  have := h.keeps.length_le
  rwa [length_fresh] at this

/-- Making a copy touches no old cell. -/
theorem keeps_add (touched : Nat → Prop) : Keeps store (store.add choices).1 touched := by
  refine keeps_fresh.trans h.keeps fun other hother heq => ?_
  exact absurd hother (heq ▸ Nat.lt_irrefl _)

/-- A copy shows the choices that were copied. -/
theorem read_add (hunshared : choices.Unshared) :
    (store.add choices).1.read store.cells.length = choices.arrange :=
  h.read_eq bare_new hunshared

section Stow

variable (hlt : handle < store.cells.length)

include hlt

theorem cell_add : (store.add choices).1.cell handle = store.cell handle :=
  (h.keeps_add fun _ => False).cell_eq hlt id

theorem cell_stow : (store.stow handle key choices).cell handle =
    { store.cell handle with
      nested := (store.cell handle).nested.insert key store.cells.length } := by
  rw [← h.cell_add hlt]
  exact cell_update_self (Nat.lt_trans hlt h.lt_length) _

theorem keeps_stow : store.Keeps (store.stow handle key choices) (· = handle) := by
  have hcopy := h.keeps_add (· = handle)
  exact keeps_link hcopy (Nat.lt_trans hlt h.lt_length) (fun _ => rfl) (Nat.le_refl _)

theorem forest_stow (hf : store.Forest) (hvalue : (store.cell handle).values.get? key = none) :
    (store.stow handle key choices).Forest := by
  refine h.forest.link (Nat.lt_trans hlt h.lt_length) ?_ hlt h.lt_length ?_
  · rw [h.cell_add hlt]
    exact hvalue
  · exact h.keeps.free hf.free_fresh new_lt_length_fresh

theorem full_stow (hfull : store.Full) (hfilled : choices.Filled) (hunshared : choices.Unshared)
    (hentry : choices.isEmpty = false) : (store.stow handle key choices).Full :=
  (h.full hfull.fresh hfilled).link (Nat.lt_trans hlt h.lt_length)
    (h.not_bare bare_new hunshared hentry) (Nat.ne_of_gt hlt)

theorem keyed_stow (hstore : store.Keyed) (hkeyed : choices.Keyed) (hkey : key.checkKey = .ok ()) :
    (store.stow handle key choices).Keyed :=
  (h.keyed hstore.fresh hkeyed).link (Nat.lt_trans hlt h.lt_length) hkey _

theorem read_stow (hf : store.Forest) (hvalue : (store.cell handle).values.get? key = none)
    (hunshared : choices.Unshared) :
    (store.stow handle key choices).read store.cells.length = choices.arrange :=
  (h.forest.read_link (h.forest_stow hlt hf hvalue) (Nat.lt_trans hlt h.lt_length) hlt).trans
    (h.read_add hunshared)

end Stow

end Adds

/-! ### Filling a cell -/

section Fill

variable {key : Value} {rest : Choices} (hf : store.Forest) (hlt : handle < store.cells.length)
  (hvalue : (store.cell handle).values.get? key = none)
  (hnested : (store.cell handle).nested.get? key = none)

include hf hlt hvalue hnested

/-- A value is added under a new key before the rest. -/
theorem Adds.of_write {chosen : Value}
    (h : Adds (store.write handle key chosen) after handle rest) :
    Adds store after handle (.value key chosen rest) := by
  have hf' := hf.write hlt hnested chosen
  have hkeeps : Keeps store (store.write handle key chosen) (· = handle) := keeps_write hlt chosen
  have hcell : (store.write handle key chosen).cell handle =
      { store.cell handle with values := (store.cell handle).values.insert key chosen } :=
    cell_update_self hlt _
  refine ⟨h.forest,
    fun hfull hfilled => h.full ((hfull.fullBut handle).write hlt chosen) hfilled,
    fun hstore hkeyed => h.keyed (hstore.write hlt hkeyed.1 chosen) hkeyed.2,
    hkeeps.trans h.keeps fun _ _ h => h, ?_, ?_⟩
  · refine h.values.trans ?_
    rw [hcell, Table.entries_insert, Table.put_eq_append (Table.get?_eq_none_iff.mp hvalue),
      List.append_assoc]
    rfl
  · refine h.nested.trans ?_
    rw [hcell]
    refine congrArg (· ++ rest.arrange.nestings) (List.map_congr_left fun link hlink => ?_)
    rw [hkeeps.read_child hf hf' hlink]

/-- A copy of nested choices is stowed under a new key before the rest is added. -/
theorem Adds.of_stow {inner : Choices} (hinner : inner.Unshared)
    (hcopy : Adds store.fresh.1 (store.add inner).1 store.cells.length inner)
    (h : Adds (store.stow handle key inner) after handle rest) :
    Adds store after handle (.nested key inner rest) := by
  have hf' : (store.stow handle key inner).Forest := hcopy.forest_stow hlt hf hvalue
  have hkeeps : Keeps store (store.stow handle key inner) (· = handle) := hcopy.keeps_stow hlt
  have hcell : (store.stow handle key inner).cell handle = { store.cell handle with
      nested := (store.cell handle).nested.insert key store.cells.length } := hcopy.cell_stow hlt
  refine ⟨h.forest,
    fun hfull hfilled =>
      h.full (hcopy.full_stow hlt hfull hfilled.2.1 hinner hfilled.1) hfilled.2.2,
    fun hstore hkeyed => h.keyed (hcopy.keyed_stow hlt hstore hkeyed.2.1 hkeyed.1) hkeyed.2.2,
    hkeeps.trans h.keeps fun _ _ h => h, ?_, ?_⟩
  · refine h.values.trans ?_
    rw [hcell]
    rfl
  · refine h.nested.trans ?_
    rw [hcell, Table.entries_insert, Table.put_eq_append (Table.get?_eq_none_iff.mp hnested),
      List.map_append, List.append_assoc, arrange, nestings_level]
    refine congrArg₂ (· ++ ·) (List.map_congr_left fun link hlink => ?_) ?_
    · rw [hkeeps.read_child hf hf' hlink]
    · rw [List.map_singleton, hcopy.read_stow hlt hf hvalue hinner]
      rfl

end Fill

/-- Filling a cell with choices under other keys than its own. -/
theorem adds_fill {choices : Choices} (hf : store.Forest) (hlt : handle < store.cells.length)
    (hunshared : choices.Unshared)
    (hnew : ∀ key, ((choices.value? key).isSome ∨ (choices.nested? key).isSome) →
      (store.cell handle).values.get? key = none ∧ (store.cell handle).nested.get? key = none) :
    Adds store (fill choices handle store) handle choices := by
  induction choices generalizing store handle with
  | empty =>
    exact ⟨hf, fun h _ => h, fun h _ => h, .refl, (List.append_nil _).symm,
      (List.append_nil _).symm⟩
  | value key chosen rest ih =>
    obtain ⟨hvalue, hnested, hrest⟩ := hunshared
    obtain ⟨hnoValue, hnoNested⟩ := hnew key (.inl (by rw [value?, BEq.rfl]; rfl))
    refine .of_write hf hlt hnoValue hnoNested (ih (hf.write hlt hnoNested chosen) ?_ hrest
      fun wanted hused => ?_)
    · rwa [Store.write, length_update]
    · have hne := beq_eq_false_of_used hvalue hnested hused
      obtain ⟨hold, hold'⟩ := hnew wanted (by rw [value?, hne, nested?]; exact hused)
      rw [Store.write, cell_update_self hlt, Table.get?_insert, hne]
      exact ⟨hold, hold'⟩
  | nested key inner rest ihinner ih =>
    obtain ⟨hvalue, hnested, hinner, hrest⟩ := hunshared
    obtain ⟨hnoValue, hnoNested⟩ := hnew key (.inr (by rw [nested?, BEq.rfl]; rfl))
    have hcopy : Adds store.fresh.1 (store.add inner).1 store.cells.length inner := by
      refine ihinner hf.fresh new_lt_length_fresh hinner fun wanted _ => ?_
      rw [cell_new]
      exact ⟨rfl, rfl⟩
    refine .of_stow hf hlt hnoValue hnoNested hinner hcopy (ih (hcopy.forest_stow hlt hf hnoValue)
      (Nat.lt_of_lt_of_le hlt (hcopy.keeps_stow hlt).length_le) hrest fun wanted hused => ?_)
    have hne := beq_eq_false_of_used hvalue hnested hused
    obtain ⟨hold, hold'⟩ := hnew wanted (by rw [value?, nested?, hne]; exact hused)
    rw [hcopy.cell_stow hlt, Table.get?_insert, hne]
    exact ⟨hold, hold'⟩

/-- A copy of choices is made by filling a new cell. -/
theorem adds_add {choices : Choices} (hf : store.Forest) (hunshared : choices.Unshared) :
    Adds store.fresh.1 (store.add choices).1 store.cells.length choices := by
  refine adds_fill hf.fresh new_lt_length_fresh hunshared fun wanted _ => ?_
  rw [cell_new]
  exact ⟨rfl, rfl⟩

end Store

/-! ### Choices put under a key -/

namespace Store

variable {store after : Store} {handle : Nat} {key : Value}

/-- What a handle shows after what is nested under one key was replaced. -/
theorem Keeps.at?_replaced (h : Keeps store after (· = handle)) (hf : store.Forest)
    (hf' : after.Forest) (hvalue : (store.cell handle).values.get? key = none)
    (hvalues : (after.cell handle).values = (store.cell handle).values) (placed : Option Nat)
    (hnested : ∀ wanted, (after.cell handle).nested.get? wanted =
      if key == wanted then placed else (store.cell handle).nested.get? wanted)
    (source : Choices)
    (hplaced : ∀ path, (placed.map after.read).bind (·.at? path) = source.at? path)
    (wanted : Value) (rest : Path) :
    (after.read handle).at? (wanted :: rest) =
      if key == wanted then source.at? rest else (store.read handle).at? (wanted :: rest) := by
  cases rest with
  | nil =>
    show (after.read handle).value? wanted =
      if key == wanted then source.at? [] else (store.read handle).value? wanted
    rw [hf'.value?_read, hf.value?_read, hvalues, at?_nil]
    cases hkey : key == wanted with
    | true => rw [← Table.get?_congr _ hkey, hvalue]; rfl
    | false => rfl
  | cons next rest =>
    rw [at?_cons_cons, at?_cons_cons, hf'.nested?_read, hf.nested?_read, hnested]
    cases key == wanted with
    | true => exact hplaced (next :: rest)
    | false =>
      show (((store.cell handle).nested.get? wanted).map after.read).bind _ =
        (((store.cell handle).nested.get? wanted).map store.read).bind _
      cases hlink : (store.cell handle).nested.get? wanted with
      | none => rfl
      | some child =>
        obtain ⟨found, hlink, -⟩ := holds_of_get? hlink
        rw [Option.map_some, Option.map_some, h.read_child hf hf' hlink]

/-- What was nested under a cleared key is shown no more. -/
theorem at?_unlink (hf : store.Forest) (hlt : handle < store.cells.length)
    (hvalue : (store.cell handle).values.get? key = none) {source : Choices}
    (hempty : source.isEmpty = true) (wanted : Value) (rest : Path) :
    ((store.unlink handle key).read handle).at? (wanted :: rest) =
      if key == wanted then source.at? rest else (store.read handle).at? (wanted :: rest) := by
  have hcell : (store.unlink handle key).cell handle =
      { store.cell handle with nested := (store.cell handle).nested.erase key } :=
    cell_update_self hlt _
  refine (keeps_unlink hlt).at?_replaced hf (hf.unlink hlt) hvalue (by rw [hcell]) none
    (fun wanted => ?_) source (fun path => (at?_of_isEmpty hempty path).symm) wanted rest
  rw [hcell]
  exact Table.get?_erase _ key wanted

/-- A copy is shown below the key where it was nested. -/
theorem Adds.at?_stow {choices : Choices}
    (h : Adds store.fresh.1 (store.add choices).1 store.cells.length choices) (hf : store.Forest)
    (hlt : handle < store.cells.length) (hvalue : (store.cell handle).values.get? key = none)
    (harranged : choices.Arranged) {source : Choices}
    (hsource : ∀ path, choices.at? path = source.at? path) (wanted : Value) (rest : Path) :
    ((store.stow handle key choices).read handle).at? (wanted :: rest) =
      if key == wanted then source.at? rest else (store.read handle).at? (wanted :: rest) := by
  have hcell : (store.stow handle key choices).cell handle = _ := h.cell_stow hlt
  refine (h.keeps_stow hlt).at?_replaced hf (h.forest_stow hlt hf hvalue) hvalue (by rw [hcell])
    (some store.cells.length) (fun wanted => ?_) source (fun path => ?_) wanted rest
  · rw [hcell]
    exact Table.get?_insert _ key _ wanted
  · rw [Option.map_some, h.read_stow hlt hf hvalue harranged.unshared, harranged.arrange_eq]
    exact hsource path

end Store

namespace Edit

open Store

variable {store : Store} {handle : Nat} {key : Value}

theorem on_setUnder (hkey : key.checkKey = .ok ()) (source : Nat) :
    (setUnder handle key source).on store =
      if (store.cell handle).values.contains key then (.error (.holdsValue key), store)
      else if (store.read source).isEmpty then (.ok (), store.unlink handle key)
      else (.ok (), store.stow handle key (store.read source).tidy) := by
  let putInner (inner : Choices) : Edit Unit :=
    if inner.isEmpty then
      update handle fun cell => { cell with nested := cell.nested.erase key }
    else do
      let child ← add inner.tidy
      update handle fun cell => { cell with nested := cell.nested.insert key child }
  rw [setUnder, hkey]
  show (if (store.cell handle).values.contains key
    then (throw (AddressFault.holdsValue key) >>= fun _ : Unit => read source >>= putInner)
    else read source >>= putInner : Edit Unit).on store = _
  split
  · rfl
  · show (putInner (store.read source)).on store = _
    cases hempty : (store.read source).isEmpty with
    | true => simp only [putInner, hempty, if_true]; rfl
    | false => simp only [putInner, hempty, Bool.false_eq_true, if_false]; rfl

/-- Choices are put under a key that holds no value. -/
theorem exists_on_setUnder (hf : store.Forest) (hlt : handle < store.cells.length)
    (hkey : key.checkKey = .ok ()) (hvalue : (store.cell handle).values.get? key = none)
    (source : Nat) :
    ∃ after, (setUnder handle key source).on store = (.ok (), after) ∧ after.Forest ∧
      (store.Full → store.Free handle → after.Full) ∧ (store.Keyed → after.Keyed) ∧
      store.Keeps after (· = handle) ∧
      ∀ wanted rest, (after.read handle).at? (wanted :: rest) =
        if key == wanted then (store.read source).at? rest
        else (store.read handle).at? (wanted :: rest) := by
  rw [on_setUnder hkey, Table.contains_eq_isSome_get?, hvalue, Option.isSome_none,
    if_neg Bool.false_ne_true]
  have hshown := hf.arranged_read source
  cases hempty : (store.read source).isEmpty with
  | true =>
    exact ⟨_, rfl, hf.unlink hlt, fun hfull hfree => hfull.unlink hlt hfree,
      fun hkeyed => hkeyed.unlink hlt, keeps_unlink hlt, at?_unlink hf hlt hvalue hempty⟩
  | false =>
    have hunshared := hshown.tidy.unshared
    have hadds := adds_add hf hunshared
    exact ⟨_, rfl, hadds.forest_stow hlt hf hvalue,
      fun hfull _ => hadds.full_stow hlt hfull (filled_tidy _) hunshared
        (by rw [isEmpty_tidy, hempty]),
      fun hkeyed => hadds.keyed_stow hlt hkeyed (hf.keyed_read hkeyed source).tidy hkey,
      hadds.keeps_stow hlt, hadds.at?_stow hf hlt hvalue hshown.tidy (at?_tidy hshown.tidied)⟩

end Edit

end Deontic.Choices
