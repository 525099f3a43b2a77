import Mathlib.Data.List.Pairwise
import Deontic.Table
import Deontic.Value

/-! Look-ups in tables.  Keys are compared by `==`, so every law speaks of keys up to `==`: equal
keys have one value, writing a key changes the look-up of that key and of no other, and a table
holds at least as many entries as there are different keys with a value. -/

namespace Deontic

namespace Table

variable {κ ν μ : Type} [BEq κ]

/-- Entries with different keys are a table as they stand. -/
theorem put_eq_append {key : κ} {value : ν} {entries : List (κ × ν)}
    (h : ∀ entry ∈ entries, (entry.1 == key) = false) :
    put key value entries = entries ++ [(key, value)] := by
  induction entries with
  | nil => rfl
  | cons first rest ih =>
    rw [put, if_neg (by simp [h first List.mem_cons_self]),
      ih fun entry he => h entry (List.mem_cons_of_mem _ he), List.cons_append]

theorem entries_foldl_insert {pairs : List (κ × ν)} {t : Table κ ν}
    (h : (t.entries ++ pairs).Pairwise fun a b => (a.1 == b.1) = false) :
    (pairs.foldl (fun t pair => t.insert pair.1 pair.2) t).entries = t.entries ++ pairs := by
  induction pairs generalizing t with
  | nil => simp
  | cons pair rest ih =>
    have hput : (t.insert pair.1 pair.2).entries = t.entries ++ [pair] := by
      rw [entries_insert, put_eq_append fun entry he => ?_]
      exact (List.pairwise_append.mp h).2.2 entry he pair List.mem_cons_self
    rw [List.foldl_cons, ih (by rw [hput]; simpa using h), hput, List.append_assoc]
    rfl

theorem entries_ofList {pairs : List (κ × ν)}
    (h : pairs.Pairwise fun a b => (a.1 == b.1) = false) : (ofList pairs).entries = pairs :=
  entries_foldl_insert (t := empty) h

theorem get?_ofList {pairs : List (κ × ν)}
    (h : pairs.Pairwise fun a b => (a.1 == b.1) = false) (key : κ) :
    (ofList pairs).get? key = (pairs.find? fun entry => entry.1 == key).map Prod.snd := by
  rw [get?, find?, entries_ofList h]

@[simp] theorem get?_empty (key : κ) : (empty : Table κ ν).get? key = none := rfl

/-- A value that is looked up stands in an entry. -/
theorem exists_of_get?_isSome {t : Table κ ν} {key : κ} (h : (t.get? key).isSome) :
    ∃ entry ∈ t.entries, (entry.1 == key) = true := by
  rw [get?, Option.isSome_map, find?, List.find?_isSome] at h
  exact h

theorem get?_eq_none_iff {t : Table κ ν} {key : κ} :
    t.get? key = none ↔ ∀ entry ∈ t.entries, (entry.1 == key) = false := by
  rw [get?, Option.map_eq_none_iff, find?, List.find?_eq_none]
  simp only [Bool.not_eq_true]

theorem mem_of_get? {t : Table κ ν} {key : κ} {value : ν} (h : t.get? key = some value) :
    ∃ found, (found, value) ∈ t.entries ∧ (found == key) = true := by
  obtain ⟨⟨found, _⟩, hfind, rfl⟩ := Option.map_eq_some_iff.mp h
  rw [find?] at hfind
  exact ⟨found, List.mem_of_find?_eq_some hfind,
    List.find?_some (p := fun entry : κ × ν => entry.1 == key) hfind⟩

section Lawful

variable [LawfulBEq κ]

theorem mem_of_get?_eq {t : Table κ ν} {key : κ} {value : ν} (h : t.get? key = some value) :
    (key, value) ∈ t.entries := by
  obtain ⟨found, hmem, heq⟩ := mem_of_get? h
  rwa [eq_of_beq heq] at hmem

theorem mem_keys_of_get? {t : Table κ ν} {key : κ} {value : ν} (h : t.get? key = some value) :
    key ∈ t.keys :=
  List.mem_map_of_mem (mem_of_get?_eq h)

end Lawful

theorem exists_of_contains {t : Table κ ν} {key : κ} (h : t.contains key = true) :
    ∃ value, t.get? key = some value := by
  rw [contains_eq_isSome_get?] at h
  exact Option.isSome_iff_exists.mp h

variable [EquivBEq κ]

/-- Keys that are `==` have one value. -/
theorem get?_congr (t : Table κ ν) {a b : κ} (h : (a == b) = true) : t.get? a = t.get? b := by
  have hkeys : (fun entry : κ × ν => entry.1 == a) = fun entry => entry.1 == b :=
    funext fun _ => BEq.congr_right h
  rw [get?, get?, find?, find?, hkeys]

/-- An entry is found under its key. -/
theorem get?_of_mem {t : Table κ ν} {entry : κ × ν} (h : entry ∈ t.entries) :
    t.get? entry.1 = some entry.2 := by
  obtain ⟨entries, distinct⟩ := t
  show (entries.find? fun e => e.1 == entry.1).map Prod.snd = some entry.2
  change entry ∈ entries at h
  induction entries with
  | nil => cases h
  | cons first rest ih =>
    obtain ⟨hfirst, hrest⟩ := List.pairwise_cons.mp distinct
    rcases List.mem_cons.mp h with rfl | h
    · rw [List.find?_cons, BEq.rfl]; rfl
    · rw [List.find?_cons, hfirst entry h]
      exact ih hrest h

omit [EquivBEq κ] in
theorem mem_keys {t : Table κ ν} {key : κ} : key ∈ t.keys ↔ ∃ value, (key, value) ∈ t.entries := by
  simp [keys]

theorem get?_isSome_of_mem_keys {t : Table κ ν} {key : κ} (h : key ∈ t.keys) :
    (t.get? key).isSome := by
  obtain ⟨value, hmem⟩ := mem_keys.mp h
  rw [get?_of_mem hmem]
  rfl

theorem contains_keys (t : Table κ ν) (key : κ) : t.keys.contains key = (t.get? key).isSome := by
  rw [Bool.eq_iff_iff, List.contains_iff_exists_mem_beq]
  constructor
  · rintro ⟨found, hfound, heq⟩
    rw [get?_congr t heq]
    exact get?_isSome_of_mem_keys hfound
  · intro h
    obtain ⟨entry, hentry, heq⟩ := exists_of_get?_isSome h
    exact ⟨entry.1, List.mem_map_of_mem hentry, BEq.symm heq⟩

omit [EquivBEq κ] in
/-- Selecting keys by what does not depend on their spelling. -/
theorem contains_filter {keys : List κ} {p : κ → Bool}
    (hp : ∀ a b, (a == b) = true → p a = p b) (key : κ) :
    (keys.filter p).contains key = (keys.contains key && p key) := by
  induction keys with
  | nil => rfl
  | cons first rest ih =>
    rw [List.filter_cons, List.contains_cons]
    cases hfirst : key == first with
    | true =>
      have hsame := hp key first hfirst
      cases hp : p first with
      | true => simp [hfirst, hsame, hp]
      | false => simp [hsame, hp, ih]
    | false => split <;> simp [hfirst, ih]

/-- Different keys that all occur in a list of entries are no more than the entries. -/
theorem length_le_of_keys {keys : List κ} (entries : List (κ × ν))
    (hdistinct : keys.Pairwise fun a b => (a == b) = false)
    (h : ∀ key ∈ keys, ∃ entry ∈ entries, (entry.1 == key) = true) :
    keys.length ≤ entries.length := by
  induction keys generalizing entries with
  | nil => exact Nat.zero_le _
  | cons key rest ih =>
    obtain ⟨hkey, hrest⟩ := List.pairwise_cons.mp hdistinct
    obtain ⟨entry, hmem, heq⟩ := h key List.mem_cons_self
    have hshort := ih (entries.eraseP fun e => e.1 == key) hrest fun other hother => by
      obtain ⟨found, hfound, hfoundeq⟩ := h other (List.mem_cons_of_mem _ hother)
      refine ⟨found, ?_, hfoundeq⟩
      rw [List.mem_eraseP_of_neg]
      · exact hfound
      · intro hfoundkey
        have := BEq.trans (BEq.symm hfoundkey) hfoundeq
        rw [hkey other hother] at this
        cases this
    rw [List.length_eraseP_of_mem hmem heq] at hshort
    have := List.length_pos_of_mem hmem
    rw [List.length_cons]
    omega

/-- Different keys that have a value in one of two tables are no more than their entries. -/
theorem length_le_size_add {t u : Table κ ν} {keys : List κ}
    (hdistinct : keys.Pairwise fun a b => (a == b) = false)
    (h : ∀ key ∈ keys, (t.get? key).isSome ∨ (u.get? key).isSome) :
    keys.length ≤ t.size + u.size := by
  have := length_le_of_keys (t.entries ++ u.entries) hdistinct fun key hkey => by
    rcases h key hkey with hsome | hsome
    · obtain ⟨entry, hmem, heq⟩ := exists_of_get?_isSome hsome
      exact ⟨entry, List.mem_append_left _ hmem, heq⟩
    · obtain ⟨entry, hmem, heq⟩ := exists_of_get?_isSome hsome
      exact ⟨entry, List.mem_append_right _ hmem, heq⟩
  simpa [size] using this

/-- A table with a value for every key of another one is no smaller. -/
theorem size_le_of_isSome {t : Table κ ν} {u : Table κ μ}
    (h : ∀ key, (t.get? key).isSome → (u.get? key).isSome) : t.size ≤ u.size := by
  have hkeys := length_le_of_keys u.entries (List.pairwise_map.mpr t.distinct) fun key hkey =>
    exists_of_get?_isSome (h key (get?_isSome_of_mem_keys hkey))
  rwa [List.length_map] at hkeys

/-- Tables agree if they have values for the same keys, and values that agree. -/
theorem agrees_iff {agree : ν → ν → Bool} {t u : Table κ ν} :
    t.agrees agree u = true ↔
      ∀ key, Option.Rel (fun a b => agree a b = true) (t.get? key) (u.get? key) := by
  rw [agrees, Bool.and_eq_true, beq_iff_eq, List.all_eq_true]
  constructor
  · rintro ⟨hsize, hall⟩ key
    have hfound : ∀ entry ∈ t.entries,
        ∃ value, u.get? entry.1 = some value ∧ agree entry.2 value = true := by
      intro entry hentry
      have := hall entry hentry
      split at this
      · next value hvalue => exact ⟨value, hvalue, this⟩
      · cases this
    cases ht : t.get? key with
    | some value =>
      obtain ⟨found, hmem, heq⟩ := mem_of_get? ht
      obtain ⟨other, hother, hagree⟩ := hfound _ hmem
      rw [← get?_congr u heq, hother]
      exact .some hagree
    | none =>
      -- a key of `u` alone would make `u` larger
      cases hu : u.get? key with
      | none => exact .none
      | some other =>
        have hdistinct : (key :: t.keys).Pairwise fun a b => (a == b) = false := by
          refine List.pairwise_cons.mpr ⟨fun found hmem => ?_, List.pairwise_map.mpr t.distinct⟩
          rw [Bool.eq_false_iff]
          intro heq
          have := get?_isSome_of_mem_keys hmem
          rw [← get?_congr t heq, ht] at this
          cases this
        have hlength := length_le_of_keys u.entries hdistinct fun found hmem => by
          apply exists_of_get?_isSome
          rcases List.mem_cons.mp hmem with rfl | hmem
          · rw [hu]; rfl
          · obtain ⟨value, hmem⟩ := mem_keys.mp hmem
            obtain ⟨other, hother, -⟩ := hfound _ hmem
            rw [hother]; rfl
        rw [List.length_cons, keys, List.length_map] at hlength
        rw [size, size] at hsize
        omega
  · intro h
    have hsome (key : κ) : (t.get? key).isSome = (u.get? key).isSome := by
      have hrel := h key
      generalize t.get? key = a, u.get? key = b at hrel
      cases hrel <;> rfl
    refine ⟨Nat.le_antisymm (size_le_of_isSome fun key hkey => (hsome key).symm.trans hkey)
      (size_le_of_isSome fun key hkey => (hsome key).trans hkey), fun entry hentry => ?_⟩
    have hrel := h entry.1
    rw [get?_of_mem hentry] at hrel
    cases hu : u.get? entry.1 with
    | none => rw [hu] at hrel; cases hrel
    | some value => rw [hu] at hrel; cases hrel; assumption

/-- Tables with the same look-ups agree. -/
theorem agrees_of_get? {agree : ν → ν → Bool} (hself : ∀ value, agree value value = true)
    {t u : Table κ ν} (h : ∀ key, t.get? key = u.get? key) : t.agrees agree u = true := by
  refine agrees_iff.mpr fun key => ?_
  rw [h]
  cases u.get? key with
  | none => exact .none
  | some value => exact .some (hself value)

/-! ### Writing and clearing keys -/

/-- Writing a key changes its look-up and no other. -/
theorem get?_insert (t : Table κ ν) (key : κ) (value : ν) (wanted : κ) :
    (t.insert key value).get? wanted = if key == wanted then some value else t.get? wanted := by
  obtain ⟨entries, distinct⟩ := t
  show ((put key value entries).find? fun entry => entry.1 == wanted).map Prod.snd =
    if key == wanted then some value
    else (entries.find? fun entry => entry.1 == wanted).map Prod.snd
  clear distinct
  induction entries with
  | nil => cases hkey : key == wanted <;> simp [put, hkey]
  | cons first rest ih =>
    rw [put]
    split
    · next hfirst =>
      rw [List.find?_cons, List.find?_cons, BEq.congr_left hfirst]
      cases key == wanted <;> rfl
    · next hfirst =>
      rw [List.find?_cons, List.find?_cons]
      cases hwanted : first.1 == wanted with
      | false => exact ih
      | true =>
        have hkey : (key == wanted) = false := by
          rw [Bool.eq_false_iff]
          exact fun heq => hfirst (BEq.trans hwanted (BEq.symm heq))
        rw [hkey]
        rfl

/-- Clearing a key changes its look-up and no other. -/
theorem get?_erase (t : Table κ ν) (key wanted : κ) :
    (t.erase key).get? wanted = if key == wanted then none else t.get? wanted := by
  rw [get?, find?, erase, List.find?_filter]
  cases hkey : key == wanted with
  | true =>
    have hnone : (t.entries.find? fun entry =>
        (decide ((!entry.1 == key) = true ∧ (entry.1 == wanted) = true))) = none := by
      rw [List.find?_eq_none]
      intro entry _ hboth
      obtain ⟨hne, heq⟩ := of_decide_eq_true hboth
      rw [BEq.trans heq (BEq.symm hkey)] at hne
      cases hne
    simp only [hnone]
    rfl
  | false =>
    rw [if_neg Bool.false_ne_true, get?, find?]
    congr 2
    funext entry
    cases hwanted : entry.1 == wanted with
    | false => simp
    | true =>
      have hne : (entry.1 == key) = false := by
        rw [Bool.eq_false_iff]
        intro heq
        rw [BEq.trans (BEq.symm heq) hwanted] at hkey
        cases hkey
      simp [hne]

omit [EquivBEq κ] in
/-- An entry after a key was written is one from before, or the one that was written. -/
theorem mem_insert {t : Table κ ν} {key : κ} {value : ν} {entry : κ × ν} [ReflBEq κ]
    (h : entry ∈ (t.insert key value).entries) :
    entry ∈ t.entries ∨ (entry.1 == key) = true ∧ entry.2 = value := by
  obtain ⟨entries, distinct⟩ := t
  replace h : entry ∈ put key value entries := h
  show entry ∈ entries ∨ _
  clear distinct
  induction entries with
  | nil =>
    rw [put, List.mem_singleton] at h
    rw [h]
    exact .inr ⟨BEq.rfl, rfl⟩
  | cons first rest ih =>
    rw [put] at h
    split at h
    · next hfirst =>
      rcases List.mem_cons.mp h with rfl | h
      · exact .inr ⟨hfirst, rfl⟩
      · exact .inl (List.mem_cons_of_mem _ h)
    · rcases List.mem_cons.mp h with rfl | h
      · exact .inl List.mem_cons_self
      · exact (ih h).imp (List.mem_cons_of_mem _) id

omit [EquivBEq κ] in
theorem entries_insert_ne_nil (t : Table κ ν) (key : κ) (value : ν) :
    (t.insert key value).entries ≠ [] := by
  rw [entries_insert]
  cases t.entries with
  | nil => exact List.cons_ne_nil _ _
  | cons first rest =>
    rw [put]
    split
    · exact List.cons_ne_nil _ _
    · exact List.cons_ne_nil _ _

omit [EquivBEq κ] in
theorem mem_erase {t : Table κ ν} {key : κ} {entry : κ × ν} (h : entry ∈ (t.erase key).entries) :
    entry ∈ t.entries :=
  (List.mem_filter.mp h).1

/-- Entries of one table with equal keys are one entry. -/
theorem eq_of_mem {t : Table κ ν} {a b : κ × ν} (ha : a ∈ t.entries) (hb : b ∈ t.entries)
    (h : (a.1 == b.1) = true) : a = b := by
  rcases Classical.em (a = b) with heq | hne
  · exact heq
  · have : Std.Symm fun a b : κ × ν => (a.1 == b.1) = false :=
      ⟨fun _ _ hab => BEq.comm.trans hab⟩
    have hdistinct := t.distinct.forall ha hb hne
    rw [h] at hdistinct
    cases hdistinct

end Table

end Deontic
