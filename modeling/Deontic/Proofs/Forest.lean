import Mathlib.Logic.Relation
import Deontic.Choices.Store
import Deontic.Proofs.Arrangement

/-! The cells of a store as a forest.  In a `Store.Forest` every cell nested in another is later in
the row, stands in one place only, and no cell has a value and a nested cell under one key.  Then
reading follows the cells to the end (`Forest.read_eq`), what a handle shows is arranged, and it
depends on the cells alone that the handle `Leads` to (`Keeps.read_eq`).  As no two cells lead to a
third unless one of them leads to the other (`Leads.comparable`), a change below one handle is not
seen through another. -/

namespace Deontic.Choices

/-- A cell without values and nested cells. -/
def Cell.Bare (cell : Cell) : Prop := cell.values.entries = [] ∧ cell.nested.entries = []

namespace Store

variable {store after : Store}

/-- Whether a handle stands under a key of a cell. -/
def Holds (store : Store) (parent : Nat) (key : Value) (child : Nat) : Prop :=
  (key, child) ∈ (store.cell parent).nested.entries

/-- Whether a cell is reached from another one through nested cells. -/
def Leads (store : Store) : Nat → Nat → Prop :=
  Relation.ReflTransGen fun parent child => ∃ key, store.Holds parent key child

/-- Nested cells come later, each in one place, under keys without a value. -/
structure Forest (store : Store) : Prop where
  later : ∀ {parent key child}, store.Holds parent key child →
    parent < child ∧ child < store.cells.length
  once : ∀ {parent key child other key'}, store.Holds parent key child →
    store.Holds other key' child → parent = other ∧ key = key'
  apart : ∀ {handle key}, ((store.cell handle).nested.get? key).isSome →
    (store.cell handle).values.get? key = none

/-- No nested cell is bare, except possibly one. -/
def FullBut (store : Store) (spare : Nat) : Prop :=
  ∀ parent key child, store.Holds parent key child → child ≠ spare → ¬(store.cell child).Bare

/-- No nested cell is bare. -/
def Full (store : Store) : Prop :=
  ∀ parent key child, store.Holds parent key child → ¬(store.cell child).Bare

/-- Whether no cell holds a handle. -/
def Free (store : Store) (handle : Nat) : Prop := ∀ parent key, ¬store.Holds parent key handle

/-- A later store has the same cells apart from some, and only new cells are nested anew. -/
structure Keeps (store after : Store) (touched : Nat → Prop) : Prop where
  length_le : store.cells.length ≤ after.cells.length
  cell_eq : ∀ {handle}, handle < store.cells.length → ¬touched handle →
    after.cell handle = store.cell handle
  holds : ∀ {parent key child}, after.Holds parent key child → child < store.cells.length →
    store.Holds parent key child

/-! ### Cells -/

theorem cell_of_length_le {handle : Nat} (h : store.cells.length ≤ handle) :
    store.cell handle = .empty := by
  rw [cell, List.getElem?_eq_none h]
  rfl

@[simp] theorem length_update (handle : Nat) (change : Cell → Cell) :
    (store.update handle change).cells.length = store.cells.length :=
  List.length_modify ..

theorem cell_update {handle : Nat} (h : handle < store.cells.length) (change : Cell → Cell)
    (wanted : Nat) : (store.update handle change).cell wanted =
      if wanted = handle then change (store.cell handle) else store.cell wanted := by
  rw [cell, update, List.getElem?_modify]
  split
  · next heq =>
    rw [if_pos heq.symm, ← heq, cell, List.getElem?_eq_getElem h]
    rfl
  · next hne =>
    rw [if_neg fun heq => hne heq.symm, cell]
    simp

theorem cell_update_self {handle : Nat} (h : handle < store.cells.length) (change : Cell → Cell) :
    (store.update handle change).cell handle = change (store.cell handle) := by
  rw [cell_update h, if_pos rfl]

theorem cell_update_of_ne {handle wanted : Nat} (h : handle < store.cells.length)
    (change : Cell → Cell) (hne : wanted ≠ handle) :
    (store.update handle change).cell wanted = store.cell wanted := by
  rw [cell_update h, if_neg hne]

@[simp] theorem length_fresh : store.fresh.1.cells.length = store.cells.length + 1 := by
  rw [fresh, List.length_append]
  rfl

theorem lt_length_fresh {handle : Nat} (h : handle < store.cells.length) :
    handle < store.fresh.1.cells.length := by
  rw [length_fresh]
  exact Nat.lt_succ_of_lt h

/-- A cell that was just made is as if it had not been made. -/
@[simp] theorem cell_fresh (handle : Nat) : store.fresh.1.cell handle = store.cell handle := by
  rw [cell, cell, fresh]
  rcases Nat.lt_trichotomy handle store.cells.length with h | rfl | h
  · rw [List.getElem?_append_left h]
  · rw [List.getElem?_append_right (Nat.le_refl _), Nat.sub_self,
      List.getElem?_eq_none (Nat.le_refl _)]
    rfl
  · rw [List.getElem?_eq_none, List.getElem?_eq_none (Nat.le_of_lt h)]
    rw [List.length_append]
    exact h

theorem new_lt_length_fresh : store.cells.length < store.fresh.1.cells.length := by
  rw [length_fresh]
  exact Nat.lt_succ_self _

theorem cell_new : store.fresh.1.cell store.cells.length = .empty :=
  (cell_fresh _).trans (cell_of_length_le (Nat.le_refl _))

theorem bare_new : (store.fresh.1.cell store.cells.length).Bare := by
  rw [cell_new]
  exact ⟨rfl, rfl⟩

@[simp] theorem holds_fresh {parent child : Nat} {key : Value} :
    store.fresh.1.Holds parent key child ↔ store.Holds parent key child := by
  rw [Holds, Holds, cell_fresh]

theorem holds_of_get? {parent child : Nat} {key : Value}
    (h : (store.cell parent).nested.get? key = some child) :
    ∃ found, store.Holds parent found child ∧ (found == key) = true :=
  Table.mem_of_get? h

theorem Full.fullBut (h : store.Full) (spare : Nat) : store.FullBut spare :=
  fun parent key child hlink _ => h parent key child hlink

theorem full_of_fullBut (h : ∀ spare, store.FullBut spare) : store.Full :=
  fun parent key child hlink =>
    h (child + 1) parent key child hlink (Nat.ne_of_lt (Nat.lt_succ_self _))

/-- A cell that holds another one is not bare. -/
theorem FullBut.full {handle child : Nat} {key : Value} (h : store.FullBut handle)
    (hlink : store.Holds handle key child) : store.Full := by
  intro parent key' other hother hbare
  by_cases heq : other = handle
  · rw [Holds, ← heq, hbare.2] at hlink
    cases hlink
  · exact h parent key' other hother heq hbare

/-! ### Ways through a forest -/

namespace Forest

theorem le_of_leads (hf : store.Forest) {first last : Nat} (h : store.Leads first last) :
    first ≤ last := by
  induction h with
  | refl => exact Nat.le_refl _
  | tail _ hstep ih =>
    obtain ⟨key, hstep⟩ := hstep
    exact Nat.le_trans ih (Nat.le_of_lt (hf.later hstep).1)

theorem lt_length_of_leads (hf : store.Forest) {first last : Nat} (h : store.Leads first last)
    (hfirst : first < store.cells.length) : last < store.cells.length := by
  cases h with
  | refl => exact hfirst
  | tail _ hstep =>
    obtain ⟨key, hstep⟩ := hstep
    exact (hf.later hstep).2

/-- Of two cells that lead to a third, one leads to the other. -/
theorem comparable (hf : store.Forest) {a b last : Nat} (ha : store.Leads a last)
    (hb : store.Leads b last) : store.Leads a b ∨ store.Leads b a := by
  induction ha with
  | refl => exact .inr hb
  | tail hmid hstep ih =>
    cases hb with
    | refl => exact .inl (hmid.tail hstep)
    | tail hother hstep' =>
      obtain ⟨key, hstep⟩ := hstep
      obtain ⟨key', hstep'⟩ := hstep'
      obtain ⟨rfl, -⟩ := hf.once hstep hstep'
      exact ih hother

/-- The cells that one cell holds do not lead to each other. -/
theorem eq_of_siblings (hf : store.Forest) {parent first second last : Nat} {key key' : Value}
    (hfirst : store.Holds parent key first) (hsecond : store.Holds parent key' second)
    (hlead : store.Leads first last) (hlead' : store.Leads second last) : first = second := by
  have hno {a b : Nat} {key key' : Value} (ha : store.Holds parent key a)
      (hb : store.Holds parent key' b) (hab : store.Leads a b) : a = b := by
    cases hab with
    | refl => rfl
    | tail hmid hstep =>
      obtain ⟨_, hstep⟩ := hstep
      obtain ⟨rfl, -⟩ := hf.once hstep hb
      have := hf.le_of_leads hmid
      have := (hf.later ha).1
      omega
  rcases hf.comparable hlead hlead' with h | h
  · exact hno hfirst hsecond h
  · exact (hno hsecond hfirst h).symm

/-- What holds of a cell if it holds of the cells nested in it, holds of all cells. -/
theorem induction (hf : store.Forest) {motive : Nat → Prop}
    (step : ∀ handle, (∀ key child, store.Holds handle key child → motive child) → motive handle)
    (handle : Nat) : motive handle :=
  step handle fun _ child hchild =>
    have := hf.later hchild
    hf.induction step child
termination_by store.cells.length - handle

end Forest

/-! ### Reading -/

theorem assemble_eq (cell : Cell) (view : Nat → Choices) :
    assemble cell view =
      level cell.values.entries (cell.nested.entries.map fun entry => (entry.1, view entry.2)) := by
  rw [assemble, level, List.foldr_map]

theorem assemble_congr {cell : Cell} {view view' : Nat → Choices}
    (h : ∀ entry ∈ cell.nested.entries, view entry.2 = view' entry.2) :
    assemble cell view = assemble cell view' := by
  rw [assemble_eq, assemble_eq]
  congr 1
  exact List.map_congr_left fun entry hentry => by rw [h entry hentry]

namespace Forest

/-- Below a handle there are no more levels than later cells. -/
theorem readTo_eq_readTo (hf : store.Forest) {depth depth' handle : Nat}
    (h : store.cells.length ≤ depth + handle) (h' : store.cells.length ≤ depth' + handle) :
    store.readTo depth handle = store.readTo depth' handle := by
  induction depth generalizing depth' handle with
  | zero =>
    cases depth' with
    | zero => rfl
    | succ depth' =>
      rw [readTo, readTo, cell_of_length_le (by omega)]
      rfl
  | succ depth ih =>
    cases depth' with
    | zero =>
      rw [readTo, readTo, cell_of_length_le (by omega)]
      rfl
    | succ depth' =>
      rw [readTo, readTo]
      refine assemble_congr fun entry hentry => ?_
      have hlink : store.Holds handle entry.1 entry.2 := hentry
      have := (hf.later hlink).1
      exact ih (by omega) (by omega)

/-- Reading follows the nested cells to the end. -/
theorem read_eq (hf : store.Forest) (handle : Nat) :
    store.read handle = assemble (store.cell handle) store.read := by
  have hdeeper : store.readTo store.cells.length handle =
      store.readTo (store.cells.length + 1) handle := hf.readTo_eq_readTo (by omega) (by omega)
  rw [read, hdeeper, readTo]
  rfl

/-- What a handle shows depends on the cells that it leads to. -/
theorem read_congr (hf : store.Forest) (hf' : after.Forest) {handle : Nat}
    (h : ∀ last, store.Leads handle last → after.cell last = store.cell last) :
    after.read handle = store.read handle := by
  refine hf.induction (motive := fun handle =>
    (∀ last, store.Leads handle last → after.cell last = store.cell last) →
      after.read handle = store.read handle) (fun handle ih h => ?_) handle h
  rw [hf'.read_eq, hf.read_eq, h handle .refl]
  refine assemble_congr fun link hlink => ?_
  exact ih link.1 link.2 hlink fun last hlast => h last (.head ⟨link.1, hlink⟩ hlast)

theorem value?_read (hf : store.Forest) (handle : Nat) (key : Value) :
    (store.read handle).value? key = (store.cell handle).values.get? key := by
  rw [hf.read_eq, assemble_eq, value?_level]
  rfl

theorem nested?_read (hf : store.Forest) (handle : Nat) (key : Value) :
    (store.read handle).nested? key = ((store.cell handle).nested.get? key).map store.read := by
  rw [hf.read_eq, assemble_eq, nested?_level, List.find?_map, Option.map_map, Table.get?,
    Option.map_map]
  rfl

/-- What a handle shows is arranged. -/
theorem arranged_read (hf : store.Forest) (handle : Nat) : (store.read handle).Arranged := by
  refine hf.induction (motive := fun handle => (store.read handle).Arranged) (fun handle ih => ?_)
    handle
  rw [hf.read_eq, assemble_eq]
  refine arranged_level (store.cell handle).values.distinct
    (List.pairwise_map.mpr (store.cell handle).nested.distinct) ?_ ?_
  · intro entry hentry other hother
    obtain ⟨link, hlink, rfl⟩ := List.mem_map.mp hother
    rw [Bool.eq_false_iff]
    intro heq
    have hlinked : ((store.cell handle).nested.get? link.1).isSome := by
      rw [Table.get?_of_mem hlink]; rfl
    have hvalue := hf.apart hlinked
    rw [← Table.get?_congr _ heq, Table.get?_of_mem hentry] at hvalue
    cases hvalue
  · intro entry hentry
    obtain ⟨link, hlink, rfl⟩ := List.mem_map.mp hentry
    exact ih link.1 link.2 hlink

theorem isEmpty_read_of_bare (hf : store.Forest) {handle : Nat} (h : (store.cell handle).Bare) :
    (store.read handle).isEmpty = true := by
  rw [hf.read_eq, assemble_eq, isEmpty_level, h.1, h.2]
  rfl

/-- If no nested cell is bare, no level shown is without entries. -/
theorem filled_read (hf : store.Forest) (hfull : store.Full) (handle : Nat) :
    (store.read handle).Filled ∧
      (¬(store.cell handle).Bare → (store.read handle).isEmpty = false) := by
  refine hf.induction (motive := fun handle => (store.read handle).Filled ∧
    (¬(store.cell handle).Bare → (store.read handle).isEmpty = false)) (fun handle ih => ?_) handle
  have hlinks : ∀ link ∈ (store.cell handle).nested.entries,
      (store.read link.2).isEmpty = false ∧ (store.read link.2).Filled := fun link hlink =>
    have hchild := ih link.1 link.2 hlink
    ⟨hchild.2 (hfull handle link.1 link.2 hlink), hchild.1⟩
  rw [hf.read_eq, assemble_eq]
  refine ⟨filled_level fun entry hentry => ?_, fun hbare => ?_⟩
  · obtain ⟨link, hlink, rfl⟩ := List.mem_map.mp hentry
    exact hlinks link hlink
  · rw [isEmpty_level, Bool.and_eq_false_iff]
    cases hvalues : (store.cell handle).values.entries with
    | cons => exact .inl rfl
    | nil =>
      right
      obtain ⟨link, hlink⟩ := List.exists_mem_of_ne_nil _ fun hnested => hbare ⟨hvalues, hnested⟩
      rw [List.all_eq_false]
      exact ⟨_, List.mem_map_of_mem hlink, by rw [(hlinks link hlink).1]; exact Bool.false_ne_true⟩

end Forest

/-! ### What a change leaves alone -/

namespace Keeps

variable {touched : Nat → Prop}

theorem refl : Keeps store store touched := ⟨Nat.le_refl _, fun _ _ => rfl, fun h _ => h⟩

theorem trans {last : Store} {touched' : Nat → Prop} (h : Keeps store after touched)
    (h' : Keeps after last touched')
    (himp : ∀ handle < store.cells.length, touched' handle → touched handle) :
    Keeps store last touched where
  length_le := Nat.le_trans h.length_le h'.length_le
  cell_eq hlt hout := (h'.cell_eq (Nat.lt_of_lt_of_le hlt h.length_le)
    fun hin => hout (himp _ hlt hin)).trans (h.cell_eq hlt hout)
  holds hlink hlt := h.holds (h'.holds hlink (Nat.lt_of_lt_of_le hlt h.length_le)) hlt

theorem mono {touched' : Nat → Prop} (h : Keeps store after touched)
    (himp : ∀ handle < store.cells.length, touched handle → touched' handle) :
    Keeps store after touched' :=
  refl.trans h himp

/-- A cell that none held is held by none, as it is not new. -/
theorem free (h : Keeps store after touched) {handle : Nat} (hfree : store.Free handle)
    (hlt : handle < store.cells.length) : after.Free handle :=
  fun parent key hlink => hfree parent key (h.holds hlink hlt)

/-- A handle shows the same as before if it leads to no cell that was touched. -/
theorem read_eq (h : Keeps store after touched) (hf : store.Forest) (hf' : after.Forest)
    {handle : Nat} (hlt : handle < store.cells.length)
    (hout : ∀ last, store.Leads handle last → ¬touched last) :
    after.read handle = store.read handle :=
  hf.read_congr hf' fun last hlast =>
    h.cell_eq (hf.lt_length_of_leads hlast hlt) (hout last hlast)

end Keeps

theorem keeps_fresh {touched : Nat → Prop} : Keeps store store.fresh.1 touched :=
  ⟨by rw [length_fresh]; exact Nat.le_succ _, fun _ _ => cell_fresh _,
    fun h _ => holds_fresh.mp h⟩

theorem Forest.fresh (hf : store.Forest) : store.fresh.1.Forest where
  later h := by
    have := hf.later (holds_fresh.mp h)
    rw [length_fresh]
    omega
  once h h' := hf.once (holds_fresh.mp h) (holds_fresh.mp h')
  apart h := by
    rw [cell_fresh] at h ⊢
    exact hf.apart h

theorem Forest.free_fresh (hf : store.Forest) : store.fresh.1.Free store.cells.length :=
  fun _ _ h => Nat.lt_irrefl _ (hf.later (holds_fresh.mp h)).2

theorem Full.fresh (hfull : store.Full) : store.fresh.1.Full := fun parent key child h => by
  rw [cell_fresh]
  exact hfull parent key child (holds_fresh.mp h)

end Store

end Deontic.Choices
