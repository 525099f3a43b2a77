import Deontic.Proofs.Forest

/-! Changes of one cell of a store.  A change keeps the forest if the cells that it nests anew are
free and later (`Forest.update`): a value written under a key, a cell nested under a key, an old one
or a new one, and a key cleared are such changes.  Each is shown under its key alone, and what is
changed below a child is shown below the key of the child, as the siblings of the child show what
they showed (`at?_of_descent`). -/

namespace Deontic.Choices

/-- Whether all keys of a cell can be keys. -/
def Cell.Keyed (cell : Cell) : Prop :=
  (∀ entry ∈ cell.values.entries, entry.1.checkKey = .ok ()) ∧
    ∀ link ∈ cell.nested.entries, link.1.checkKey = .ok ()

namespace Store

variable {store : Store}

/-- Whether all keys of all cells can be keys. -/
def Keyed (store : Store) : Prop := ∀ handle, (store.cell handle).Keyed

/-- The store with a value written under a key of a cell. -/
def write (store : Store) (handle : Nat) (key chosen : Value) : Store :=
  store.update handle fun cell => { cell with values := cell.values.insert key chosen }

/-- The store with a cell nested under a key of another one. -/
def link (store : Store) (handle : Nat) (key : Value) (child : Nat) : Store :=
  store.update handle fun cell => { cell with nested := cell.nested.insert key child }

/-- The store with a new cell nested under a key of a cell. -/
def sprout (store : Store) (handle : Nat) (key : Value) : Store :=
  store.fresh.1.link handle key store.cells.length

/-- The store with nothing nested under a key of a cell. -/
def unlink (store : Store) (handle : Nat) (key : Value) : Store :=
  store.update handle fun cell => { cell with nested := cell.nested.erase key }

/-! ### One cell -/

section Update

variable {handle : Nat} {change : Cell → Cell}

theorem holds_update (hlt : handle < store.cells.length) {parent child : Nat} {key : Value} :
    (store.update handle change).Holds parent key child ↔
      if parent = handle then (key, child) ∈ (change (store.cell handle)).nested.entries
      else store.Holds parent key child := by
  rw [Holds, cell_update hlt]
  split <;> rfl

/-- Changing a cell keeps a forest if the cells that it nests anew are free and later. -/
theorem Forest.update (hf : store.Forest) (hlt : handle < store.cells.length)
    (hlinks : ∀ key child, (key, child) ∈ (change (store.cell handle)).nested.entries →
      store.Holds handle key child ∨
        handle < child ∧ child < store.cells.length ∧ store.Free child)
    (hinj : ∀ key key' child, (key, child) ∈ (change (store.cell handle)).nested.entries →
      (key', child) ∈ (change (store.cell handle)).nested.entries → key = key')
    (hapart : ∀ key, ((change (store.cell handle)).nested.get? key).isSome →
      (change (store.cell handle)).values.get? key = none) :
    (store.update handle change).Forest where
  later {parent key child} h := by
    rw [holds_update hlt] at h
    rw [length_update]
    split at h
    · next heq =>
      rw [heq]
      rcases hlinks key child h with hold | ⟨hless, hbound, -⟩
      · exact hf.later hold
      · exact ⟨hless, hbound⟩
    · exact hf.later h
  once {parent key child other key'} h h' := by
    rw [holds_update hlt] at h h'
    split at h
    · next heq =>
      split at h'
      · next heq' => exact ⟨heq.trans heq'.symm, hinj key key' child h h'⟩
      · next hne =>
        rcases hlinks key child h with hold | ⟨-, -, hfree⟩
        · exact absurd (hf.once hold h').1.symm hne
        · exact absurd h' (hfree other key')
    · next hne =>
      split at h'
      · rcases hlinks key' child h' with hold | ⟨-, -, hfree⟩
        · exact absurd (hf.once hold h).1.symm hne
        · exact absurd h (hfree parent key)
      · exact hf.once h h'
  apart {other key} h := by
    rw [cell_update hlt] at h ⊢
    split at h
    · next heq => rw [if_pos heq]; exact hapart key h
    · next hne => rw [if_neg hne]; exact hf.apart h

theorem Keeps.update {base : Store} {touched : Nat → Prop} (h : Keeps base store touched)
    (hlt : handle < store.cells.length)
    (htouched : handle < base.cells.length → touched handle)
    (hlinks : ∀ key child, (key, child) ∈ (change (store.cell handle)).nested.entries →
      child < base.cells.length → store.Holds handle key child) :
    Keeps base (store.update handle change) touched where
  length_le := by rw [length_update]; exact h.length_le
  cell_eq {other} hold hout := by
    have hne : other ≠ handle := by
      rintro rfl
      exact hout (htouched hold)
    rw [cell_update_of_ne hlt _ hne]
    exact h.cell_eq hold hout
  holds {parent key child} hlink hold := by
    rw [holds_update hlt] at hlink
    split at hlink
    · next heq => rw [heq]; exact h.holds (hlinks key child hlink hold) hold
    · exact h.holds hlink hold

/-- Changing a cell leaves no nested cell bare if it nests no other one anew, and is not left bare
itself unless none holds it. -/
theorem FullBut.update (hfull : store.FullBut handle) (hlt : handle < store.cells.length)
    {spare : Nat}
    (hlinks : ∀ key child, (key, child) ∈ (change (store.cell handle)).nested.entries →
      child ≠ spare → store.Holds handle key child)
    (hbare : (change (store.cell handle)).Bare → store.Free handle) :
    (store.update handle change).FullBut spare := by
  intro parent key child hlink hspare hempty
  have hlink : store.Holds parent key child := by
    rw [holds_update hlt] at hlink
    split at hlink
    · next heq => rw [heq]; exact hlinks key child hlink hspare
    · exact hlink
  rw [cell_update hlt] at hempty
  split at hempty
  · next heq => exact hbare hempty parent key (heq ▸ hlink)
  · next hne => exact hfull parent key child hlink hne hempty

theorem Keyed.update (h : store.Keyed) (hlt : handle < store.cells.length)
    (hchange : (change (store.cell handle)).Keyed) : (store.update handle change).Keyed := by
  intro other
  rw [cell_update hlt]
  split
  · exact hchange
  · exact h other

end Update

theorem checkKey_of_mem_insert {ν : Type} {table : Table Value ν} {key : Value} {value : ν}
    (hkey : key.checkKey = .ok ()) (h : ∀ entry ∈ table.entries, entry.1.checkKey = .ok ()) :
    ∀ entry ∈ (table.insert key value).entries, entry.1.checkKey = .ok () := by
  intro entry hentry
  rcases Table.mem_insert hentry with hold | ⟨heq, -⟩
  · exact h entry hold
  · exact (Value.checkKey_congr heq).trans hkey

section Write

variable {handle : Nat} {key : Value}

theorem Forest.write (hf : store.Forest) (hlt : handle < store.cells.length)
    (hkey : (store.cell handle).nested.get? key = none) (chosen : Value) :
    (store.write handle key chosen).Forest := by
  refine hf.update hlt (fun _ _ h => .inl h) (fun _ _ _ h h' => (hf.once h h').2) fun wanted h => ?_
  show ((store.cell handle).values.insert key chosen).get? wanted = none
  rw [Table.get?_insert, if_neg fun heq => ?_]
  · exact hf.apart h
  · rw [← Table.get?_congr _ heq, hkey] at h
    cases h

theorem keeps_write (hlt : handle < store.cells.length) (chosen : Value) :
    Keeps store (store.write handle key chosen) (· = handle) :=
  Keeps.refl.update hlt (fun _ => rfl) fun _ _ h _ => h

theorem FullBut.write (hfull : store.FullBut handle) (hlt : handle < store.cells.length)
    (chosen : Value) : (store.write handle key chosen).Full :=
  full_of_fullBut fun _ => hfull.update hlt (fun _ _ h _ => h)
    fun hbare => absurd hbare.1 (Table.entries_insert_ne_nil _ _ _)

theorem Keyed.write (h : store.Keyed) (hlt : handle < store.cells.length)
    (hkey : key.checkKey = .ok ()) (chosen : Value) : (store.write handle key chosen).Keyed :=
  h.update hlt ⟨checkKey_of_mem_insert hkey (h handle).1, (h handle).2⟩

theorem Forest.link (hf : store.Forest) (hlt : handle < store.cells.length) {child : Nat}
    (hkey : (store.cell handle).values.get? key = none) (hless : handle < child)
    (hbound : child < store.cells.length) (hfree : store.Free child) :
    (store.link handle key child).Forest := by
  refine hf.update hlt (fun found other h => ?_) (fun found found' other h h' => ?_)
    fun wanted h => ?_
  · rcases Table.mem_insert h with hold | ⟨-, heq⟩
    · exact .inl hold
    · obtain rfl : other = child := heq
      exact .inr ⟨hless, hbound, hfree⟩
  · rcases Table.mem_insert h with hold | ⟨heq, hchild⟩ <;>
      rcases Table.mem_insert h' with hold' | ⟨heq', hchild'⟩
    · exact (hf.once hold hold').2
    · obtain rfl : other = child := hchild'
      exact absurd hold (hfree handle found)
    · obtain rfl : other = child := hchild
      exact absurd hold' (hfree handle found')
    · exact congrArg Prod.fst (Table.eq_of_mem h h' (BEq.trans heq (BEq.symm heq')))
  · replace h : (((store.cell handle).nested.insert key child).get? wanted).isSome := h
    rw [Table.get?_insert] at h
    show (store.cell handle).values.get? wanted = none
    split at h
    · next heq => rw [← Table.get?_congr _ heq, hkey]
    · exact hf.apart h

theorem keeps_link {base : Store} {touched : Nat → Prop} (h : Keeps base store touched)
    (hlt : handle < store.cells.length) (htouched : handle < base.cells.length → touched handle)
    {child : Nat} (hnew : base.cells.length ≤ child) :
    Keeps base (store.link handle key child) touched := by
  refine h.update hlt htouched fun found other hlink hold => ?_
  rcases Table.mem_insert hlink with hlink | ⟨-, rfl⟩
  · exact hlink
  · exact absurd hold (Nat.not_lt.mpr hnew)

theorem Keyed.link (h : store.Keyed) (hlt : handle < store.cells.length)
    (hkey : key.checkKey = .ok ()) (child : Nat) : (store.link handle key child).Keyed :=
  h.update hlt ⟨(h handle).1, checkKey_of_mem_insert hkey (h handle).2⟩

/-- After a cell was nested in another one, it alone may be a bare nested cell. -/
theorem FullBut.link (hfull : store.FullBut handle) (hlt : handle < store.cells.length)
    (child : Nat) : (store.link handle key child).FullBut child := by
  refine hfull.update hlt (fun found other hlink hother => ?_)
    fun hbare => absurd hbare.2 (Table.entries_insert_ne_nil _ _ _)
  rcases Table.mem_insert hlink with hlink | ⟨-, heq⟩
  · exact hlink
  · exact absurd heq hother

theorem Forest.unlink (hf : store.Forest) (hlt : handle < store.cells.length) :
    (store.unlink handle key).Forest := by
  refine hf.update hlt (fun _ _ h => .inl (Table.mem_erase h))
    (fun _ _ _ h h' => (hf.once (Table.mem_erase h) (Table.mem_erase h')).2) fun wanted h => ?_
  replace h : (((store.cell handle).nested.erase key).get? wanted).isSome := h
  rw [Table.get?_erase] at h
  split at h
  · cases h
  · exact hf.apart h

/-- Clearing a key of a cell that none holds leaves no nested cell bare. -/
theorem Full.unlink (hfull : store.Full) (hlt : handle < store.cells.length)
    (hfree : store.Free handle) : (store.unlink handle key).Full :=
  full_of_fullBut fun _ => (hfull.fullBut handle).update hlt (fun _ _ h _ => Table.mem_erase h)
    fun _ => hfree

theorem Keyed.unlink (h : store.Keyed) (hlt : handle < store.cells.length) :
    (store.unlink handle key).Keyed :=
  h.update hlt ⟨(h handle).1, fun link hlink => (h handle).2 link (Table.mem_erase hlink)⟩

theorem keeps_unlink (hlt : handle < store.cells.length) :
    Keeps store (store.unlink handle key) (· = handle) :=
  Keeps.refl.update hlt (fun _ => rfl) fun _ _ h _ => Table.mem_erase h

end Write

/-- A nested cell shows the same if only the cell that holds it is touched. -/
theorem Keeps.read_child {after : Store} {handle child : Nat} {key : Value}
    (h : Keeps store after (· = handle)) (hf : store.Forest) (hf' : after.Forest)
    (hlink : store.Holds handle key child) : after.read child = store.read child := by
  have hlater := hf.later hlink
  refine h.read_eq hf hf' hlater.2 fun last hlast heq => ?_
  have := hf.le_of_leads hlast
  omega

/-! ### New cells -/

theorem Keyed.fresh (h : store.Keyed) : store.fresh.1.Keyed := fun handle => by
  rw [cell_fresh]
  exact h handle

section Sprout

variable {handle : Nat} {key : Value}

theorem lt_length_sprout : store.cells.length < (store.sprout handle key).cells.length := by
  rw [Store.sprout, Store.link, length_update]
  exact new_lt_length_fresh

theorem Forest.sprout (hf : store.Forest) (hlt : handle < store.cells.length)
    (hkey : (store.cell handle).values.get? key = none) : (store.sprout handle key).Forest := by
  have hvalue : (store.fresh.1.cell handle).values.get? key = none := by rwa [cell_fresh]
  exact hf.fresh.link (lt_length_fresh hlt) hvalue hlt new_lt_length_fresh hf.free_fresh

theorem keeps_sprout (hlt : handle < store.cells.length) :
    Keeps store (store.sprout handle key) (· = handle) := by
  have hfresh : Keeps store store.fresh.1 (· = handle) := keeps_fresh
  exact keeps_link hfresh (lt_length_fresh hlt) (fun _ => rfl) (Nat.le_refl _)

theorem FullBut.sprout (hfull : store.FullBut handle) (hlt : handle < store.cells.length) :
    (store.sprout handle key).FullBut store.cells.length := by
  refine FullBut.link (fun parent found child hlink hne => ?_) (lt_length_fresh hlt) _
  rw [cell_fresh]
  exact hfull parent found child (holds_fresh.mp hlink) hne

theorem Keyed.sprout (h : store.Keyed) (hlt : handle < store.cells.length)
    (hkey : key.checkKey = .ok ()) : (store.sprout handle key).Keyed :=
  h.fresh.link (lt_length_fresh hlt) hkey _

theorem cell_sprout (hlt : handle < store.cells.length) :
    (store.sprout handle key).cell handle =
      { store.cell handle with
        nested := (store.cell handle).nested.insert key store.cells.length } := by
  rw [Store.sprout, Store.link, cell_update_self (lt_length_fresh hlt), cell_fresh]

/-- A new cell shows nothing. -/
theorem Forest.read_sprout (hf : store.Forest) (hlt : handle < store.cells.length)
    (hkey : (store.cell handle).values.get? key = none) :
    (store.sprout handle key).read store.cells.length = empty := by
  rw [(hf.sprout hlt hkey).read_eq, Store.sprout, Store.link,
    cell_update_of_ne (lt_length_fresh hlt) _ (Nat.ne_of_gt hlt), cell_new]
  rfl

/-- A new cell adds no value to what is shown. -/
theorem Forest.at?_sprout (hf : store.Forest) (hlt : handle < store.cells.length)
    (hkey : (store.cell handle).values.get? key = none)
    (hnone : (store.cell handle).nested.get? key = none) (wanted : Path) :
    ((store.sprout handle key).read handle).at? wanted = (store.read handle).at? wanted := by
  have hf' := hf.sprout hlt hkey
  match wanted with
  | [] => rw [at?_nil, at?_nil]
  | [other] => rw [at?, at?, hf'.value?_read, hf.value?_read, cell_sprout hlt]
  | other :: next :: later =>
    rw [at?_cons_cons, at?_cons_cons, hf'.nested?_read, hf.nested?_read, cell_sprout hlt,
      Table.get?_insert]
    split
    · next heq =>
      rw [← Table.get?_congr _ heq, hnone, Option.map_some, hf.read_sprout hlt hkey]
      exact at?_empty _
    · cases hlink : (store.cell handle).nested.get? other with
      | none => rfl
      | some child =>
        obtain ⟨found, hlink, -⟩ := holds_of_get? hlink
        show ((store.sprout handle key).read child).at? _ = (store.read child).at? _
        rw [(keeps_sprout hlt).read_child hf hf' hlink]

end Sprout

/-! ### What a handle shows after a change -/

/-- A written value is shown under its key. -/
theorem Forest.at?_write (hf : store.Forest) {handle : Nat} (hlt : handle < store.cells.length)
    {key : Value} (hkey : (store.cell handle).nested.get? key = none) (chosen : Value)
    (wanted : Path) :
    ((store.write handle key chosen).read handle).at? wanted =
      if [key] == wanted then some chosen else (store.read handle).at? wanted := by
  have hf' := hf.write hlt hkey chosen
  have hcell := cell_update_self hlt fun cell =>
    { cell with values := cell.values.insert key chosen }
  match wanted with
  | [] => rw [at?_nil, at?_nil]; rfl
  | [other] =>
    show ((store.write handle key chosen).read handle).value? other = _
    rw [hf'.value?_read, Store.write, hcell, Table.get?_insert, List.cons_beq_cons, BEq.rfl,
      Bool.and_true, at?, hf.value?_read]
  | other :: next :: later =>
    rw [at?_cons_cons, at?_cons_cons, hf'.nested?_read, hf.nested?_read, Store.write, hcell,
      show ([key] == other :: next :: later) = false by simp]
    show (((store.cell handle).nested.get? other).map _).bind _ = _
    cases hlink : (store.cell handle).nested.get? other with
    | none => rfl
    | some child =>
      obtain ⟨found, hlink, -⟩ := holds_of_get? hlink
      show ((store.write handle key chosen).read child).at? _ = (store.read child).at? _
      rw [(keeps_write hlt chosen).read_child hf hf' hlink]

/-- What is written below a child is shown below its key. -/
theorem at?_of_descent {after : Store} (hf : store.Forest) (hf' : after.Forest)
    {handle child : Nat} {key next : Value} {rest : Path} {chosen : Value}
    (hlink : (store.cell handle).nested.get? key = some child)
    (hlt : handle < store.cells.length) (hkeeps : Keeps store after (store.Leads child))
    (hread : ∀ wanted, (after.read child).at? wanted =
      if next :: rest == wanted then some chosen else (store.read child).at? wanted)
    (wanted : Path) :
    (after.read handle).at? wanted =
      if key :: next :: rest == wanted then some chosen else (store.read handle).at? wanted := by
  obtain ⟨found, hholds, hfound⟩ := holds_of_get? hlink
  have hcell : after.cell handle = store.cell handle := hkeeps.cell_eq hlt fun hlead => by
    have := hf.le_of_leads hlead
    have := (hf.later hholds).1
    omega
  match wanted with
  | [] => rw [at?_nil, at?_nil]; rfl
  | [other] =>
    rw [show (key :: next :: rest == [other]) = false by simp, if_neg Bool.false_ne_true, at?, at?,
      hf'.value?_read, hf.value?_read, hcell]
  | other :: step :: later =>
    rw [at?_cons_cons, at?_cons_cons, hf'.nested?_read, hf.nested?_read, hcell, List.cons_beq_cons]
    cases hkey : key == other with
    | true =>
      rw [← Table.get?_congr _ hkey, hlink, Bool.true_and]
      exact hread (step :: later)
    | false =>
      rw [Bool.false_and, if_neg Bool.false_ne_true]
      cases hother : (store.cell handle).nested.get? other with
      | none => rfl
      | some sibling =>
        obtain ⟨found', hholds', hfound'⟩ := holds_of_get? hother
        show (after.read sibling).at? _ = (store.read sibling).at? _
        rw [hkeeps.read_eq hf hf' (hf.later hholds').2 fun last hlast hlast' => ?_]
        obtain rfl := hf.eq_of_siblings hholds' hholds hlast hlast'
        obtain ⟨-, rfl⟩ := hf.once hholds hholds'
        rw [BEq.trans (BEq.symm hfound) hfound'] at hkey
        cases hkey

end Store

end Deontic.Choices
