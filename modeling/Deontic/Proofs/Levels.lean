import Deontic.Proofs.Calls
import Deontic.Proofs.Dictionary

/-! Equal maps of choices and what tells them apart.  Equality compares the entries, but a level
whose entries were all removed through its own handle stays where it was: it has no entry, and its
key is taken.  So equal maps act alike, in all answers, faults and later equality, exactly if they
have levels at the same paths (`alike_iff`). -/

namespace Deontic.Choices

open Store

variable {a b : Choices}

/-! ### Levels and values -/

/-- Whether there is a level at a path, with entries or without. -/
def isLevel : Choices → Path → Bool
  | _, [] => true
  | choices, key :: rest =>
    match choices.nested? key with
    | some inner => inner.isLevel rest
    | none => false

/-- Whether levels are at the same paths. -/
def SameLevels (a b : Choices) : Prop :=
  ∀ path : Path, path.check = .ok () → a.isLevel path = b.isLevel path

/-- Whether equal values are at the same paths. -/
def SameValues (a b : Choices) : Prop :=
  ∀ path, Option.Rel (fun x y => (x == y) = true) (a.at? path) (b.at? path)

theorem isLevel_cons (choices : Choices) (key : Value) (rest : Path) :
    choices.isLevel (key :: rest) = (choices.nested? key).any (·.isLevel rest) := by
  rw [isLevel]
  cases choices.nested? key <;> rfl

theorem beq_iff_sameValues (ha : a.Tidied) (hb : b.Tidied) : (a == b) = true ↔ SameValues a b := by
  refine Table.agrees_iff.trans (forall_congr' fun path => ?_)
  rw [get?_flatten ha, get?_flatten hb]

namespace SameValues

theorem symm (h : SameValues a b) : SameValues b a := fun path => by
  have hpath := h path
  revert hpath
  generalize a.at? path = x
  generalize b.at? path = y
  rintro (hxy | _)
  · exact .some (BEq.symm hxy)
  · exact .none

theorem isSome (h : SameValues a b) (path : Path) : (a.at? path).isSome = (b.at? path).isSome := by
  have hpath := h path
  revert hpath
  generalize a.at? path = x
  generalize b.at? path = y
  rintro (_ | _) <;> rfl

theorem value? (h : SameValues a b) (key : Value) :
    (a.value? key).isSome = (b.value? key).isSome := h.isSome [key]

theorem of_nested? (h : SameValues a b) {key : Value} {inner inner' : Choices}
    (ha : a.nested? key = some inner) (hb : b.nested? key = some inner') :
    SameValues inner inner' := fun path => by
  cases path with
  | nil => rw [at?_nil, at?_nil]; exact .none
  | cons next rest =>
    have hpath := h (key :: next :: rest)
    rw [at?_cons_cons, at?_cons_cons, ha, hb] at hpath
    exact hpath

end SameValues

namespace SameLevels

theorem isSome_nested? (h : SameLevels a b) {key : Value} (hkey : key.checkKey = .ok ()) :
    (a.nested? key).isSome = (b.nested? key).isSome := by
  have hpath := h [key] ((Path.check_cons key []).mpr ⟨hkey, rfl⟩)
  rw [isLevel_cons, isLevel_cons] at hpath
  cases ha : a.nested? key <;> cases hb : b.nested? key <;> simp_all [isLevel]

theorem of_nested? (h : SameLevels a b) {key : Value} (hkey : key.checkKey = .ok ())
    {inner inner' : Choices} (ha : a.nested? key = some inner) (hb : b.nested? key = some inner') :
    SameLevels inner inner' := fun path hpath => by
  have hlevel := h (key :: path) ((Path.check_cons key path).mpr ⟨hkey, hpath⟩)
  rw [isLevel_cons, isLevel_cons, ha, hb] at hlevel
  exact hlevel

/-- With the same levels and values the same paths are refused, for the same reason. -/
theorem refusal?_eq (h : SameLevels a b) (hvalues : SameValues a b) {path : Path}
    (hpath : path.check = .ok ()) : a.refusal? path = b.refusal? path := by
  induction path generalizing a b with
  | nil => rfl
  | cons key rest ih =>
    obtain ⟨hkey, hrest⟩ := (Path.check_cons key rest).mp hpath
    have hnested := h.isSome_nested? hkey
    cases rest with
    | nil =>
      show (if (a.nested? key).isSome then _ else _) = if (b.nested? key).isSome then _ else _
      rw [hnested]
    | cons next rest =>
      rw [refusal?_cons_cons, refusal?_cons_cons, hvalues.value? key]
      cases ha : a.nested? key with
      | none =>
        cases hb : b.nested? key with
        | none => rfl
        | some inner' => rw [ha, hb] at hnested; cases hnested
      | some inner =>
        cases hb : b.nested? key with
        | none => rw [ha, hb] at hnested; cases hnested
        | some inner' => exact ih (h.of_nested? hkey ha hb) (hvalues.of_nested? ha hb) hrest

end SameLevels

/-- At a level no value can be written. -/
theorem refusal?_ne_none_of_isLevel {choices : Choices} {path : Path}
    (h : choices.isLevel path = true) : choices.refusal? path ≠ none := by
  induction path generalizing choices with
  | nil => exact nofun
  | cons key rest ih =>
    rw [isLevel_cons, Option.any_eq_true] at h
    obtain ⟨inner, hinner, hlevel⟩ := h
    cases rest with
    | nil =>
      show (if (choices.nested? key).isSome then _ else _) ≠ none
      rw [hinner]
      exact nofun
    | cons next rest =>
      rw [refusal?_cons_cons, hinner]
      exact ih hlevel

/-- A value can be written in place of a level if the values are those of choices with the level. -/
theorem refusal?_eq_none_of_isLevel {path : Path} (ha : a.Unshared) (hvalues : SameValues a b)
    (hlevel : a.isLevel path = true) (hother : b.isLevel path = false) :
    b.refusal? path = none := by
  induction path generalizing a b with
  | nil => cases hother
  | cons key rest ih =>
    rw [isLevel_cons, Option.any_eq_true] at hlevel
    obtain ⟨inner, hinner, hlevel⟩ := hlevel
    have hvalue : b.value? key = none := by
      rw [← Option.not_isSome_iff_eq_none, ← hvalues.value? key, ha.value?_eq_none hinner]
      exact nofun
    rw [isLevel_cons] at hother
    cases hnested : b.nested? key with
    | none =>
      cases rest with
      | nil => show (if (b.nested? key).isSome then _ else _) = none; rw [hnested]; rfl
      | cons next rest => rw [refusal?_cons_cons, hnested, hvalue]; rfl
    | some inner' =>
      rw [hnested] at hother
      cases rest with
      | nil => cases hother
      | cons next rest =>
        rw [refusal?_cons_cons, hnested]
        exact ih (ha.of_nested? hinner) (hvalues.of_nested? hinner hnested) hlevel hother

/-- Among choices with the same values, the levels show in what is refused. -/
theorem SameLevels.of_refusal? (ha : a.Unshared) (hb : b.Unshared) (hvalues : SameValues a b)
    (h : ∀ path : Path, path.check = .ok () → (a.refusal? path = none ↔ b.refusal? path = none)) :
    SameLevels a b := fun path hpath => by
  cases hla : a.isLevel path with
  | true =>
    cases hlb : b.isLevel path with
    | true => rfl
    | false =>
      exact absurd ((h path hpath).mpr (refusal?_eq_none_of_isLevel ha hvalues hla hlb))
        (refusal?_ne_none_of_isLevel hla)
  | false =>
    cases hlb : b.isLevel path with
    | false => rfl
    | true =>
      exact absurd ((h path hpath).mp (refusal?_eq_none_of_isLevel hb hvalues.symm hlb hla))
        (refusal?_ne_none_of_isLevel hlb)

/-! ### Acting alike -/

/-- The same fault, or results that are alike. -/
inductive Alike {α : Type} (same : α → α → Prop) :
    Except AddressFault α → Except AddressFault α → Prop
  | ok {x y : α} (h : same x y) : Alike same (.ok x) (.ok y)
  | error (fault : AddressFault) : Alike same (.error fault) (.error fault)

theorem Alike.ok_iff {same : Unit → Unit → Prop} {x y : Except AddressFault Unit}
    (h : Alike same x y) : x = .ok () ↔ y = .ok () := by
  cases h with
  | ok => exact iff_of_true rfl rfl
  | error => exact iff_of_false nofun nofun

/-- Whether two handles of two stores show equal choices. -/
def ShowEqual (store store' : Store) (map map' : Nat) : Prop :=
  (store.read map == store'.read map') = true

/-- Whether a call answers alike on two maps, and leaves them equal. -/
structure CallsAlike {α : Type} (same : Store → Store → α → α → Prop) (store store' : Store)
    (map map' : Nat) (call call' : Edit α) : Prop where
  answers : Alike (same (call.on store).2 (call'.on store').2) (call.on store).1 (call'.on store').1
  equal : ShowEqual (call.on store).2 (call'.on store').2 map map'

/-- Whether two maps act alike in every call: questions have equal answers or the same fault, and so
have changes, which leave the maps equal.  Choices that are put under a key are equal ones. -/
structure ActAlike (store store' : Store) (maps maps' : List Nat) (map map' : Nat) : Prop where
  contains : ∀ key : Value, key.checkKey = .ok () →
    (store.read map).contains key = (store'.read map').contains key
  has : ∀ path : Path, path.check = .ok () →
    (store.read map).has path = (store'.read map').has path
  get : ∀ path : Path, path.check = .ok () →
    Alike (fun x y => (x == y) = true) ((store.read map).get path) ((store'.read map').get path)
  getUnder : ∀ key : Value, key.checkKey = .ok () →
    CallsAlike ShowEqual store store' map map' (Edit.getUnder map key) (Edit.getUnder map' key)
  setItem : ∀ key chosen : Value, key.checkKey = .ok () →
    CallsAlike (fun _ _ _ _ => True) store store' map map' (Edit.setItem map key chosen)
      (Edit.setItem map' key chosen)
  set : ∀ (path : Path) (chosen : Value), path.check = .ok () →
    CallsAlike (fun _ _ _ _ => True) store store' map map' (Edit.set map path chosen)
      (Edit.set map' path chosen)
  setUnder : ∀ key : Value, key.checkKey = .ok () → ∀ source ∈ maps, ∀ source' ∈ maps',
    ShowEqual store store' source source' → CallsAlike (fun _ _ _ _ => True) store store' map map'
      (Edit.setUnder map key source) (Edit.setUnder map' key source')

variable {store store' : Store} {maps maps' : List Nat} {map map' : Nat}

section Questions

theorem contains_eq (h : SameLevels a b) (hvalues : SameValues a b) {key : Value}
    (hkey : key.checkKey = .ok ()) : a.contains key = b.contains key := by
  rw [contains, contains, hkey, hvalues.value? key, h.isSome_nested? hkey]

theorem has_eq (hvalues : SameValues a b) {path : Path} (hpath : path.check = .ok ()) :
    a.has path = b.has path := by
  by_cases hne : path = []
  · rw [hne, has, has, find, find]
  · rw [has, has, find_eq hpath hne, find_eq hpath hne]
    exact congrArg Except.ok (hvalues.isSome path)

theorem alike_get (hvalues : SameValues a b) {path : Path} (hpath : path.check = .ok ()) :
    Alike (fun x y => (x == y) = true) (a.get path) (b.get path) := by
  by_cases hne : path = []
  · rw [hne, get, get, find, find]
    exact .error _
  · rw [get, get, find_eq hpath hne, find_eq hpath hne]
    have hvalue := hvalues path
    revert hvalue
    generalize a.at? path = x
    generalize b.at? path = y
    rintro (hxy | _)
    · exact .ok hxy
    · exact .error _

end Questions

theorem Store.Forest.showEqual_iff (hf : store.Forest) (hf' : store'.Forest) :
    ShowEqual store store' map map' ↔ SameValues (store.read map) (store'.read map') :=
  beq_iff_sameValues (hf.arranged_read map).tidied (hf'.arranged_read map').tidied

theorem CallsAlike.of_on {α : Type} {same : Store → Store → α → α → Prop} {call call' : Edit α}
    {out out' : Except AddressFault α × Store} (hon : call.on store = out)
    (hon' : call'.on store' = out') (answers : Alike (same out.2 out'.2) out.1 out'.1)
    (equal : ShowEqual out.2 out'.2 map map') :
    CallsAlike same store store' map map' call call' := by
  subst hon hon'
  exact ⟨answers, equal⟩

section Calls

variable (h : Live store maps) (h' : Live store' maps') (hmap : map ∈ maps) (hmap' : map' ∈ maps')
  (hvalues : SameValues (store.read map) (store'.read map'))

include h h' hmap hmap' hvalues

/-- Handing out what is nested under a key hands out equal maps. -/
theorem getUnder_alike {key : Value} (hkey : key.checkKey = .ok ()) :
    CallsAlike ShowEqual store store' map map' (Edit.getUnder map key)
      (Edit.getUnder map' key) := by
  obtain ⟨child, after, hon, -, hafter, hread⟩ := Edit.exists_on_getUnder h.forest hkey
  obtain ⟨child', after', hon', -, hafter', hread'⟩ := Edit.exists_on_getUnder h'.forest hkey
  obtain ⟨hf, hkept⟩ := h.of_getUnder hmap hafter
  obtain ⟨hf', hkept'⟩ := h'.of_getUnder hmap' hafter'
  refine .of_on hon hon' (.ok ((hf.showEqual_iff hf').mpr fun path => ?_))
    ((hf.showEqual_iff hf').mpr ?_)
  · rw [hread, hread']
    cases path with
    | nil => rw [at?_nil, at?_nil]; exact .none
    | cons next rest => rw [at?_under, at?_under]; exact hvalues (key :: next :: rest)
  · rw [hkept, hkept']
    exact hvalues

theorem set_alike (hlevels : SameLevels (store.read map) (store'.read map')) {path : Path}
    (hpath : path.check = .ok ()) (chosen : Value) :
    CallsAlike (fun _ _ _ _ => True) store store' map map' (Edit.set map path chosen)
      (Edit.set map' path chosen) := by
  have hrefusal := hlevels.refusal?_eq hvalues hpath
  cases hfault : (store.read map).refusal? path with
  | some fault =>
    exact .of_on (Edit.on_set_of_refusal? h.forest hpath hfault chosen)
      (Edit.on_set_of_refusal? h'.forest hpath (hrefusal.symm.trans hfault) chosen)
      (.error fault) ((h.forest.showEqual_iff h'.forest).mpr hvalues)
  | none =>
    obtain ⟨after, hon, hf, -, -, -, hread⟩ := Edit.exists_on_set h.forest
      (h.made map hmap) hpath (refusal?_eq_none_iff.mp hfault) chosen
    obtain ⟨after', hon', hf', -, -, -, hread'⟩ := Edit.exists_on_set h'.forest
      (h'.made map' hmap') hpath (refusal?_eq_none_iff.mp (hrefusal.symm.trans hfault)) chosen
    refine .of_on hon hon' (.ok trivial) ((hf.showEqual_iff hf').mpr fun wanted => ?_)
    rw [hread, hread']
    split
    · exact .some BEq.rfl
    · exact hvalues wanted

theorem setUnder_alike {key : Value} (hkey : key.checkKey = .ok ()) {source source' : Nat}
    (hsource : ShowEqual store store' source source') :
    CallsAlike (fun _ _ _ _ => True) store store' map map' (Edit.setUnder map key source)
      (Edit.setUnder map' key source') := by
  have hvalue := hvalues.value? key
  rw [h.forest.value?_read, h'.forest.value?_read] at hvalue
  cases hheld : (store.cell map).values.get? key with
  | some was =>
    rw [hheld] at hvalue
    refine .of_on (Edit.on_setUnder hkey source) (Edit.on_setUnder hkey source') ?_ ?_
    · rw [Table.contains_eq_isSome_get?, Table.contains_eq_isSome_get?, hheld, ← hvalue]
      exact .error _
    · rw [Table.contains_eq_isSome_get?, Table.contains_eq_isSome_get?, hheld, ← hvalue]
      exact (h.forest.showEqual_iff h'.forest).mpr hvalues
  | none =>
    have hheld' : (store'.cell map').values.get? key = none := by
      rw [hheld] at hvalue
      exact Option.isNone_iff_eq_none.mp (Option.isSome_eq_false_iff.mp hvalue.symm)
    obtain ⟨after, hon, hf, -, -, -, hread⟩ :=
      Edit.exists_on_setUnder h.forest (h.made map hmap) hkey hheld source
    obtain ⟨after', hon', hf', -, -, -, hread'⟩ :=
      Edit.exists_on_setUnder h'.forest (h'.made map' hmap') hkey hheld' source'
    refine .of_on hon hon' (.ok trivial) ((hf.showEqual_iff hf').mpr fun wanted => ?_)
    cases wanted with
    | nil => rw [at?_nil, at?_nil]; exact .none
    | cons wanted rest =>
      rw [hread, hread']
      split
      · exact (h.forest.showEqual_iff h'.forest).mp hsource rest
      · exact hvalues (wanted :: rest)

end Calls

/-- What a call that writes a value answers shows whether it was refused. -/
theorem refusal?_eq_none_of_on (hf : store.Forest) (hlt : map < store.cells.length) {path : Path}
    (hpath : path.check = .ok ()) (chosen : Value) :
    (store.read map).refusal? path = none ↔
      ((Edit.set map path chosen).on store).1 = .ok () := by
  cases hfault : (store.read map).refusal? path with
  | some fault =>
    rw [Edit.on_set_of_refusal? hf hpath hfault chosen]
    exact iff_of_false nofun nofun
  | none =>
    obtain ⟨after, hon, -⟩ :=
      Edit.exists_on_set hf hlt hpath (refusal?_eq_none_iff.mp hfault) chosen
    rw [hon]
    exact iff_of_true rfl rfl

/-- **Equal maps.**  Equal maps act alike exactly if they have levels at the same paths. -/
theorem alike_iff (h : Reached store maps) (h' : Reached store' maps') (hmap : map ∈ maps)
    (hmap' : map' ∈ maps') (hequal : ShowEqual store store' map map') :
    ActAlike store store' maps maps' map map' ↔
      SameLevels (store.read map) (store'.read map') := by
  have hlive := h.live
  have hlive' := h'.live
  have hvalues := (hlive.forest.showEqual_iff hlive'.forest).mp hequal
  constructor
  · refine fun halike => .of_refusal? (hlive.forest.arranged_read map).unshared
      (hlive'.forest.arranged_read map').unshared hvalues fun path hpath => ?_
    rw [refusal?_eq_none_of_on hlive.forest (hlive.made map hmap) hpath .null,
      refusal?_eq_none_of_on hlive'.forest (hlive'.made map' hmap') hpath .null]
    exact (halike.set path .null hpath).answers.ok_iff
  · intro hlevels
    exact {
      contains := fun key hkey => contains_eq hlevels hvalues hkey
      has := fun path hpath => has_eq hvalues hpath
      get := fun path hpath => alike_get hvalues hpath
      getUnder := fun key hkey => getUnder_alike hlive hlive' hmap hmap' hvalues hkey
      setItem := fun key chosen hkey => set_alike hlive hlive' hmap hmap' hvalues hlevels
        ((Path.check_cons key []).mpr ⟨hkey, rfl⟩) chosen
      set := fun path chosen hpath =>
        set_alike hlive hlive' hmap hmap' hvalues hlevels hpath chosen
      setUnder := fun key hkey source _ source' _ hsource =>
        setUnder_alike hlive hlive' hmap hmap' hvalues hkey hsource }

/-- A map whose only entry was removed through the handle of a nested map is equal to a new map, and
does not act like it. -/
theorem alike_iff_hidden : ∃ store maps, Reached store maps ∧ 0 ∈ maps ∧ 3 ∈ maps ∧
    ShowEqual store store 0 3 ∧ ¬ActAlike store store maps maps 0 3 := by
  have hpath : Path.check [.text "a", .text "b", .text "c"] = .ok () := rfl
  have ha : Value.checkKey (.text "a") = .ok () := rfl
  have hb : Value.checkKey (.text "b") = .ok () := rfl
  have hmade : Reached _ [1, 0] :=
    (Reached.start.new.set List.mem_cons_self hpath (.int 1)).getUnder List.mem_cons_self ha rfl
  have hfirst : (0 : Nat) ∈ [3, 1, 0] := by decide
  have hnested : (1 : Nat) ∈ [3, 1, 0] := by decide
  have hnew : (3 : Nat) ∈ [3, 1, 0] := by decide
  have hcleared := hmade.new.setUnder hnested hb hnew
  refine ⟨_, _, hcleared, hfirst, hnew, rfl, fun halike => ?_⟩
  have hlevels := (alike_iff hcleared hcleared hfirst hnew rfl).mp halike
  exact nomatch hlevels [.text "a"] rfl

end Deontic.Choices
