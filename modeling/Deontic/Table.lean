/-! A finite map that remembers the order in which its keys arrived.  Keys are compared by `==`,
which need not be equality: `1` and `True` may be one key.  Writing a key that is present keeps its
position and its spelling and replaces its value.  No two keys of a table are `==`, which the type
carries, so a table is determined by its look-ups up to order. -/

namespace Deontic

/-- Entries in order of arrival, no two with the same key. -/
structure Table (κ ν : Type) [BEq κ] where
  entries : List (κ × ν)
  distinct : entries.Pairwise fun a b => (a.1 == b.1) = false

namespace Table

variable {κ ν μ : Type} [BEq κ]

/-- Two tables with the same entries in the same order are equal. -/
@[ext] theorem ext {t u : Table κ ν} (h : t.entries = u.entries) : t = u := by
  cases t; cases u; cases h; rfl

/-- `entries` with `key` written: in place if it is there, else at the end. -/
def put (key : κ) (value : ν) : List (κ × ν) → List (κ × ν)
  | [] => [(key, value)]
  | entry :: rest =>
    if entry.1 == key then (entry.1, value) :: rest else entry :: put key value rest

/-- The keys of `put key value entries` are those of `entries`, and possibly `key`. -/
theorem fst_mem_put {key : κ} {value : ν} {entries : List (κ × ν)} {entry : κ × ν}
    (h : entry ∈ put key value entries) :
    (∃ old ∈ entries, old.1 = entry.1) ∨ entry.1 = key := by
  induction entries with
  | nil =>
    rw [put, List.mem_singleton] at h
    exact .inr (congrArg Prod.fst h)
  | cons first rest ih =>
    rw [put] at h
    split at h
    · rcases List.mem_cons.mp h with rfl | h
      · exact .inl ⟨first, List.mem_cons_self, rfl⟩
      · exact .inl ⟨entry, List.mem_cons_of_mem _ h, rfl⟩
    · rcases List.mem_cons.mp h with rfl | h
      · exact .inl ⟨entry, List.mem_cons_self, rfl⟩
      · rcases ih h with ⟨old, hold, he⟩ | he
        · exact .inl ⟨old, List.mem_cons_of_mem _ hold, he⟩
        · exact .inr he

/-- Writing a key keeps the keys distinct. -/
theorem pairwise_put {key : κ} {value : ν} {entries : List (κ × ν)}
    (h : entries.Pairwise fun a b => (a.1 == b.1) = false) :
    (put key value entries).Pairwise fun a b => (a.1 == b.1) = false := by
  induction entries with
  | nil => simp [put]
  | cons first rest ih =>
    obtain ⟨hfirst, hrest⟩ := List.pairwise_cons.mp h
    rw [put]
    split
    · exact List.pairwise_cons.mpr ⟨hfirst, hrest⟩
    · next hne =>
      refine List.pairwise_cons.mpr ⟨fun b hb => ?_, ih hrest⟩
      rcases fst_mem_put hb with ⟨old, hold, he⟩ | he
      · rw [← he]; exact hfirst old hold
      · rw [he]; simpa using hne

def empty : Table κ ν := ⟨[], .nil⟩

instance : EmptyCollection (Table κ ν) := ⟨empty⟩
instance : Inhabited (Table κ ν) := ⟨empty⟩

/-- `t` with `key` written. -/
def insert (t : Table κ ν) (key : κ) (value : ν) : Table κ ν :=
  ⟨put key value t.entries, pairwise_put t.distinct⟩

/-- The table that arises by writing the pairs one after the other. -/
def ofList (pairs : List (κ × ν)) : Table κ ν :=
  pairs.foldl (fun t pair => t.insert pair.1 pair.2) empty

/-- The entry of `key`, with the key as it was first written. -/
def find? (t : Table κ ν) (key : κ) : Option (κ × ν) :=
  t.entries.find? fun entry => entry.1 == key

/-- The value of `key`. -/
def get? (t : Table κ ν) (key : κ) : Option ν :=
  (t.find? key).map Prod.snd

/-- Whether `key` has a value. -/
def contains (t : Table κ ν) (key : κ) : Bool :=
  (t.find? key).isSome

def keys (t : Table κ ν) : List κ := t.entries.map Prod.fst

def values (t : Table κ ν) : List ν := t.entries.map Prod.snd

def size (t : Table κ ν) : Nat := t.entries.length

def isEmpty (t : Table κ ν) : Bool := t.entries.isEmpty

/-- `t` without `key`. -/
def erase (t : Table κ ν) (key : κ) : Table κ ν :=
  ⟨t.entries.filter fun entry => !(entry.1 == key), t.distinct.filter _⟩

/-- `f` applied to every value; keys and order stay. -/
def mapValues (f : ν → μ) (t : Table κ ν) : Table κ μ :=
  ⟨t.entries.map fun entry => (entry.1, f entry.2),
    List.pairwise_map.mpr t.distinct⟩

/-- Whether both tables have the same keys with values that `agree` accepts, in any order. -/
def agrees (agree : ν → ν → Bool) (t u : Table κ ν) : Bool :=
  t.size == u.size && t.entries.all fun entry =>
    match u.get? entry.1 with
    | some value => agree entry.2 value
    | none => false

@[simp] theorem entries_empty : (empty : Table κ ν).entries = [] := rfl

@[simp] theorem entries_insert (t : Table κ ν) (key : κ) (value : ν) :
    (t.insert key value).entries = put key value t.entries := rfl

@[simp] theorem entries_mapValues (f : ν → μ) (t : Table κ ν) :
    (t.mapValues f).entries = t.entries.map fun entry => (entry.1, f entry.2) := rfl

theorem contains_eq_isSome_get? (t : Table κ ν) (key : κ) :
    t.contains key = (t.get? key).isSome := by
  simp [contains, get?]

end Table

end Deontic
