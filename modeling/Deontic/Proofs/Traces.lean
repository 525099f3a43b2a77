import Deontic.Proofs.Execution

/-! Traces and the ways they come from.  `trace.Along way` says that a trace is what a completed run
makes of a way: its program goes that way to its result, its choices are the entries of the way, and
its score is the score of the way.  What an execution discards when it revises such a trace are the
values of the trace at the addresses that it forced or did not visit (`at?_discard`). -/

namespace Deontic

variable {P W α : Type}

namespace Way

/-- The value that a way chooses at a path. -/
def value? (way : Way P) (path : Path) : Option Value :=
  (way.entries.find? fun entry => entry.1 == path).map Prod.snd

theorem pairwise_entries {way : Way P} (h : way.Distinct) :
    way.entries.Pairwise fun a b => (a.1 == b.1) = false :=
  List.pairwise_map.mpr (List.pairwise_map.mp h)

theorem value?_of_mem {way : Way P} (h : way.Distinct) {visit : Visit P} (hvisit : visit ∈ way) :
    way.value? visit.address = some visit.value := by
  have hentry : visit.entry ∈ way.entries := List.mem_map_of_mem hvisit
  exact Table.get?_of_mem (t := ⟨way.entries, pairwise_entries h⟩) hentry

theorem exists_of_value? {way : Way P} {path : Path} {value : Value}
    (h : way.value? path = some value) :
    ∃ visit ∈ way, (visit.address == path) = true ∧ visit.value = value := by
  obtain ⟨entry, hfind, rfl⟩ := Option.map_eq_some_iff.mp h
  obtain ⟨visit, hvisit, rfl⟩ := List.mem_map.mp (List.mem_of_find?_eq_some hfind)
  exact ⟨visit, hvisit,
    List.find?_some (p := fun entry : Path × Value => entry.1 == path) hfind, rfl⟩

theorem isSome_value? (way : Way P) (path : Path) :
    (way.value? path).isSome = way.addresses.contains path := by
  rw [Bool.eq_iff_iff, value?, Option.isSome_map, List.find?_isSome,
    List.contains_iff_exists_mem_beq]
  constructor
  · rintro ⟨entry, hentry, heq⟩
    obtain ⟨visit, hvisit, rfl⟩ := List.mem_map.mp hentry
    exact ⟨visit.address, List.mem_map_of_mem hvisit, BEq.symm heq⟩
  · rintro ⟨address, haddress, heq⟩
    obtain ⟨visit, hvisit, rfl⟩ := List.mem_map.mp haddress
    exact ⟨visit.entry, List.mem_map_of_mem hvisit, BEq.symm heq⟩

theorem value?_cons (visit : Visit P) (rest : Way P) (path : Path) : value? (visit :: rest) path =
    if visit.address == path then some visit.value else rest.value? path := by
  rw [value?, entries, List.map_cons, List.find?_cons]
  cases h : visit.entry.1 == path <;> (rw [Visit.entry] at h; simp only [h]; rfl)

theorem value?_append (first second : Way P) (path : Path) :
    value? (first ++ second) path = (first.value? path).or (second.value? path) := by
  rw [value?, value?, value?, entries, entries, entries, List.map_append, List.find?_append]
  cases (List.map Visit.entry first).find? fun entry => entry.1 == path <;> rfl

theorem value?_eq_none {way : Way P} {path : Path}
    (h : ∀ visit ∈ way, (visit.address == path) = false) : way.value? path = none := by
  rw [← Option.not_isSome_iff_eq_none, isSome_value?, Bool.not_eq_true, Bool.eq_false_iff]
  intro hcontains
  obtain ⟨address, haddress, heq⟩ := List.contains_iff_exists_mem_beq.mp hcontains
  obtain ⟨visit, hvisit, rfl⟩ := List.mem_map.mp haddress
  rw [BEq.comm, h visit hvisit] at heq
  cases heq

theorem value?_under_nil (key : Value) (way : Way P) : value? (way.under key) [] = none :=
  value?_eq_none fun visit hvisit => by
    obtain ⟨inner, -, rfl⟩ := List.mem_map.mp hvisit
    rfl

theorem value?_under (key : Value) (way : Way P) (next : Value) (rest : Path) :
    value? (way.under key) (next :: rest) = if key == next then way.value? rest else none := by
  induction way with
  | nil => cases key == next <;> rfl
  | cons visit later ih =>
    show value? (visit.under key :: Way.under key later) _ = _
    rw [value?_cons, value?_cons, ih, Visit.address_under, List.cons_beq_cons]
    cases key == next <;> rfl

/-- Values depend on entries alone. -/
theorem value?_under_congr {way way' : Way P} (h : way.entries = way'.entries) (key : Value)
    (path : Path) : value? (way.under key) path = value? (way'.under key) path := by
  rw [value?, value?, entries_under, entries_under, h]

end Way

variable [Scale P W]

/-- What a completed run makes of a way. -/
structure Trace.Along (trace : Trace P W α) (way : Way P) : Prop where
  follows : ∀ calls, way.length ≤ calls → (trace.program calls).Follows way trace.result
  distinct : way.Distinct
  recorded : Choices.empty.setAll way.entries = .ok trace.choices
  scored : trace.score = way.score
  possible : ∀ visit ∈ way, Scale.isImpossible P (visit.density : W) = false

/-- Possible choices at different addresses, if they can be recorded, are those of a trace. -/
theorem Program.exists_along {program : Program P α} {way : Way P} {result : α}
    (hfollows : ∀ calls, way.length ≤ calls → (program calls).Follows way result)
    (hdistinct : way.Distinct) (hset : ∃ choices, Choices.empty.setAll way.entries = .ok choices)
    (hpossible : ∀ visit ∈ way, Scale.isImpossible P (visit.density : W) = false) :
    ∃ trace : Trace P W α, trace.Along way ∧ trace.program = program ∧ trace.result = result := by
  obtain ⟨choices, hset⟩ := hset
  exact ⟨⟨program, result, choices, way.score⟩,
    ⟨hfollows, hdistinct, hset, rfl, hpossible⟩, rfl, rfl⟩

namespace Trace.Along

variable {trace : Trace P W α} {way : Way P}

/-- The way of a trace, as a way of the program that the trace is known to be of. -/
theorem follows_program (h : trace.Along way) {program : Program P α}
    (hprogram : trace.program = program) {calls : Nat} (hcalls : way.length ≤ calls) :
    (program calls).Follows way trace.result :=
  hprogram ▸ h.follows calls hcalls

theorem tidied (h : trace.Along way) : trace.choices.Tidied :=
  Choices.Tidied.invariant.of_setAll h.recorded

theorem at?_choices (h : trace.Along way) (path : Path) :
    trace.choices.at? path = way.value? path := by
  rw [Choices.at?_setAll h.recorded (Way.pairwise_entries h.distinct), Choices.at?_empty,
    Option.or_none]
  rfl

theorem get?_choices (h : trace.Along way) (path : Path) :
    trace.choices.flatten.get? path = way.value? path := by
  rw [Choices.get?_flatten h.tidied, h.at?_choices]

theorem keyed (h : trace.Along way) : ∀ visit ∈ way, visit.address.check = .ok () :=
  fun visit hvisit => ((Choices.exists_setAll_iff.mp ⟨_, h.recorded⟩).1 visit.entry
    (List.mem_map_of_mem hvisit)).1

theorem storable (h : trace.Along way) : Setting.Storable trace.choices.flatten := by
  have hpairs : ∀ a ∈ way.entries, ∀ b ∈ way.entries, a.1.compatible b.1 = true := by
    have hpairwise := (Choices.exists_setAll_iff.mp ⟨_, h.recorded⟩).2
    refine List.Pairwise.forall_of_forall_of_flip (fun a _ => Path.compatible_self a.1) hpairwise
      (hpairwise.imp fun {a b} hab => ?_)
    exact (Path.compatible_comm b.1 a.1).trans hab
  constructor
  · rw [Choices.get?_flatten h.tidied, Choices.at?_nil]
  · intro a b ha hb
    obtain ⟨va, hva⟩ := Option.isSome_iff_exists.mp ha
    obtain ⟨vb, hvb⟩ := Option.isSome_iff_exists.mp hb
    rw [h.get?_choices] at hva hvb
    obtain ⟨first, hfirst, hfirsteq, -⟩ := Way.exists_of_value? hva
    obtain ⟨second, hsecond, hsecondeq, -⟩ := Way.exists_of_value? hvb
    have hcompatible := hpairs _ (List.mem_map_of_mem hfirst) _ (List.mem_map_of_mem hsecond)
    rw [← Path.compatible_congr hfirsteq, Path.compatible_comm,
      ← Path.compatible_congr hsecondeq, Path.compatible_comm]
    exact hcompatible

theorem keyed_of_get? (h : trace.Along way) {path : Path}
    (hpath : (trace.choices.flatten.get? path).isSome) : path.check = .ok () := by
  obtain ⟨value, hvalue⟩ := Option.isSome_iff_exists.mp hpath
  rw [h.get?_choices] at hvalue
  obtain ⟨visit, hvisit, heq, -⟩ := Way.exists_of_value? hvalue
  exact Path.check_congr heq (h.keyed visit hvisit)

end Trace.Along

namespace Program

theorem discard_ended (setting : Setting) (draws : List P) (way : Way P) :
    (ended setting draws way : Run P W).discard =
      ((way.ofOrigin setting .forced).addresses ++
        setting.previous.keys.filter fun address => !way.addresses.contains address).foldl
          setting.dropInto .empty := by
  rw [ended, Run.close, Run.discard_passes, List.foldl_append]
  simp only [contains_visited]
  rfl

theorem contains_forced (setting : Setting) (way : Way P) (path : Path) :
    (way.ofOrigin setting .forced).addresses.contains path =
      (way.addresses.contains path && (setting.constraints.get? path).isSome) := by
  have hfilter : (way.ofOrigin setting .forced).addresses = way.addresses.filter fun address =>
      (setting.constraints.get? address).isSome := by
    rw [Way.addresses, Way.addresses, Way.ofOrigin, List.filter_map]
    simp only [Setting.origin_forced_iff, Bool.decide_eq_true]
    rfl
  rw [hfilter, Table.contains_filter]
  intro a b hab
  rw [Table.get?_congr _ hab]

theorem contains_unvisited (setting : Setting) (way : Way P) (path : Path) :
    (setting.previous.keys.filter fun address => !way.addresses.contains address).contains path =
      ((setting.previous.get? path).isSome && !way.addresses.contains path) := by
  rw [Table.contains_filter, Table.contains_keys]
  intro a b hab
  rw [List.contains_congr hab]

/-- What an execution that revises an earlier run discards. -/
theorem at?_discard (setting : Setting) (draws : List P) {way : Way P}
    (hstorable : Setting.Storable setting.previous)
    (hkeyed : ∀ path, (setting.previous.get? path).isSome → path.check = .ok ())
    (hdistinct : way.Distinct) :
    (ended setting draws way : Run P W).discard.Tidied ∧ ∀ path,
      (ended setting draws way : Run P W).discard.at? path =
        if way.addresses.contains path && (setting.constraints.get? path).isNone then none
        else setting.previous.get? path := by
  have hdropped : ((way.ofOrigin setting .forced).addresses ++ setting.previous.keys.filter
      fun address => !way.addresses.contains address).Pairwise fun a b => (a == b) = false := by
    refine List.pairwise_append.mpr ⟨?_, (List.pairwise_map.mpr setting.previous.distinct).filter _,
      fun a ha b hb => ?_⟩
    · exact List.pairwise_map.mpr ((List.pairwise_map.mp hdistinct).filter _)
    · rw [Bool.eq_false_iff]
      intro heq
      have hforced : (way.ofOrigin setting .forced).addresses.contains b = true :=
        List.contains_iff_exists_mem_beq.mpr ⟨a, ha, BEq.symm heq⟩
      rw [contains_forced, Bool.and_eq_true] at hforced
      have hunvisited := (List.mem_filter.mp hb).2
      simp only [hforced.1, Bool.not_true, Bool.false_eq_true] at hunvisited
  obtain ⟨htidied, hat⟩ :=
    Setting.at?_foldl_dropInto hstorable (fun address _ => hkeyed address) hdropped
  rw [discard_ended]
  refine ⟨htidied, fun path => (hat path).trans ?_⟩
  rw [List.contains_append, contains_forced, contains_unvisited]
  cases setting.previous.get? path <;> cases way.addresses.contains path <;>
    cases setting.constraints.get? path <;> rfl

end Program

end Deontic
