import Deontic.Proofs.Recording
import Deontic.Random.Trace

/-! Executions taken apart.  `act.Yields supply a rest` says that a computation comes to `a` and
leaves `rest` of a supply.  An execution comes to a result exactly if its program goes a way that
the run completes (`Program.exists_way_of_yields`, `Program.Completes.yields`), and what it has
recorded then is read off the way. -/

namespace Deontic

namespace Act

variable {P α β : Type}

/-- The computation comes to `a`, and leaves `rest` of the supply. -/
def Yields (act : Act P α) (supply : Supply P) (a : α) (rest : Supply P) : Prop :=
  act.run.run supply = (.ok a, rest)

theorem Yields.unique {act : Act P α} {supply rest rest' : Supply P} {a a' : α}
    (h : act.Yields supply a rest) (k : act.Yields supply a' rest') : a = a' ∧ rest = rest' := by
  obtain ⟨ha, hrest⟩ := Prod.mk.inj (h.symm.trans k)
  exact ⟨Except.ok.inj ha, hrest⟩

/-- Whether the computation comes to something that passes a test, with what it leaves. -/
def any (act : Act P α) (supply : Supply P) (test : α → Supply P → Bool) : Bool :=
  match act.run.run supply with
  | (.ok a, rest) => test a rest
  | (.error _, _) => false

theorem exists_yields {act : Act P α} {supply : Supply P} {test : α → Supply P → Bool}
    (h : act.any supply test = true) : ∃ a rest, act.Yields supply a rest ∧ test a rest = true := by
  unfold any at h
  split at h
  · next a rest hrun => exact ⟨a, rest, hrun, h⟩
  · cases h

theorem yields_pure {a b : α} {supply rest : Supply P} :
    (pure a : Act P α).Yields supply b rest ↔ a = b ∧ supply = rest := by
  show ((.ok a, supply) : Except Fault α × Supply P) = (.ok b, rest) ↔ _
  simp

theorem yields_bind {act : Act P α} {f : α → Act P β} {supply rest : Supply P} {b : β} :
    (act >>= f).Yields supply b rest ↔
      ∃ a left, act.Yields supply a left ∧ (f a).Yields left b rest := by
  unfold Yields
  rw [ExceptT.run_bind, StateT.run_bind]
  cases h : act.run.run supply with
  | mk outcome left =>
    cases outcome with
    | error fault =>
      constructor
      · intro k; cases k
      · rintro ⟨a, left', k, -⟩; cases k
    | ok a =>
      constructor
      · intro k; exact ⟨a, left, rfl, k⟩
      · rintro ⟨a', left', k, hf⟩; cases k; exact hf

/-- What comes after a computation that comes to something. -/
theorem Yields.run_bind {act : Act P α} {supply left : Supply P} {a : α}
    (h : act.Yields supply a left) (f : α → Act P β) :
    (act >>= f).run.run supply = (f a).run.run left := by
  rw [ExceptT.run_bind, StateT.run_bind, h]
  rfl

/-- Nothing comes after a computation that fails. -/
theorem run_bind_error {act : Act P α} {supply left : Supply P} {fault : Fault}
    (h : act.run.run supply = (.error fault, left)) (f : α → Act P β) :
    (act >>= f).run.run supply = (.error fault, left) := by
  rw [ExceptT.run_bind, StateT.run_bind, h]
  rfl

theorem not_yields_throw {fault : Fault} {supply rest : Supply P} {a : α} :
    ¬ (throw fault : Act P α).Yields supply a rest := nofun

theorem yields_tell {record : Record} {supply rest : Supply P} :
    (tell record : Act P Unit).Yields supply () rest ↔
      rest = { supply with records := record :: supply.records } := by
  constructor
  · intro h; exact (Prod.mk.inj h).2.symm
  · rintro rfl; rfl

theorem yields_draw {first : P} {supply rest : Supply P} :
    (draw : Act P P).Yields supply first rest ↔ supply = ⟨first :: rest.draws, rest.records⟩ := by
  obtain ⟨draws, records⟩ := supply
  cases draws with
  | nil =>
    constructor
    · intro h; cases h
    · intro h; cases h
  | cons other later =>
    constructor
    · intro h; cases h; rfl
    · intro h; cases h; rfl

end Act

variable {P W α : Type} [Scale P W]

namespace Program

/-- The number of nested calls that an execution allows. -/
def calls (setting : Setting) (draws : List P) : Nat := setting.size + draws.length + 1

/-- Different addresses whose values are at hand are fewer than the nested calls allowed. -/
theorem length_lt_calls {setting : Setting} {addresses : List Path}
    (hdistinct : addresses.Pairwise fun a b => (a == b) = false)
    (hgiven : ∀ address ∈ addresses, (setting.given address).isSome) (draws : List P) :
    addresses.length < calls setting draws := by
  have hsize := Table.length_le_size_add (t := setting.constraints)
    (u := setting.previous) hdistinct
    fun address haddress => by
      rw [← Bool.or_eq_true, ← Option.isSome_or]
      exact hgiven address haddress
  rw [calls, Setting.size]
  omega

/-- A way that a run on draws completes. -/
structure Completes (program : Program P α) (setting : Setting) (draws : List P) (way : Way P)
    (result : α) : Prop where
  follows : (program (calls setting draws)).Follows way result
  admits : (Run.start draws [] : Run P W).AdmitsAll setting way
  covers : ∀ address ∈ setting.constraints.keys, way.addresses.contains address = true

/-- What a run has recorded at the end of a way, apart from its records. -/
def ended (setting : Setting) (draws : List P) (way : Way P) : Run P W :=
  ((Run.start draws []).passes setting way).close setting

/-- The last part of an execution. -/
def conclude : Except Halt α × Run P W → Act P (Except Path α × Run P W)
  | (outcome, run) => do
    set (⟨run.draws, run.records⟩ : Supply P)
    match outcome with
    | .ok result => return (.ok result, run)
    | .error (.impossible address) => return (.error address, run)
    | .error (.fault fault) => throw fault

omit [Scale P W] in
theorem yields_conclude {ended : Except Halt α × Run P W} (supply : Supply P) {rest : Supply P}
    {outcome : Except Path α} {run : Run P W} :
    (conclude ended).Yields supply (outcome, run) rest ↔
      ended = (outcome.mapError .impossible, run) ∧ rest = ⟨run.draws, run.records⟩ := by
  obtain ⟨halted, run'⟩ := ended
  rcases halted with (address | fault) | result
  · constructor
    · intro h; cases h; exact ⟨rfl, rfl⟩
    · rintro ⟨h, rfl⟩; cases outcome <;> cases h; rfl
  · constructor
    · intro h; cases h
    · rintro ⟨h, -⟩; cases outcome <;> cases h
  · constructor
    · intro h; cases h; exact ⟨rfl, rfl⟩
    · rintro ⟨h, rfl⟩; cases outcome <;> cases h; rfl

theorem yields_execute_run {program : Program P α} {setting : Setting} {supply rest : Supply P}
    {outcome : Except Path α} {run : Run P W} :
    (program.execute setting).Yields supply (outcome, run) rest ↔
      (program (calls setting supply.draws)).run setting
          (Run.start supply.draws supply.records) = (outcome.mapError .impossible, run) ∧
        rest = ⟨run.draws, run.records⟩ :=
  yields_conclude supply

theorem contains_visited (setting : Setting) (draws : List P) {records : List Record} (way : Way P)
    (address : Path) :
    ((Run.start draws records : Run P W).passes setting way).visited.contains address =
      way.addresses.contains address := by
  rw [Run.visited_passes]
  simp [Run.start]

/-- An execution comes to a result along a way that it completes. -/
theorem exists_way_of_yields {program : Program P α} {setting : Setting} {supply rest : Supply P}
    {result : α} {run : Run P W}
    (h : (program.execute setting).Yields supply (.ok result, run) rest) :
    ∃ way records, Completes (W := W) program setting supply.draws way result ∧
      run = { ended setting supply.draws way with records } ∧ rest = ⟨run.draws, records⟩ := by
  obtain ⟨hrun, rfl⟩ := yields_execute_run.mp h
  have hstart : (Run.start supply.draws supply.records : Run P W) =
      { Run.start supply.draws [] with records := supply.records } := rfl
  rw [hstart] at hrun
  obtain ⟨way, records, hfollows, hadmits, hcovers, rfl⟩ := Sampler.exists_way_of_run hrun
  rw [Run.passes_withRecords] at hcovers ⊢
  refine ⟨way, records, ⟨hfollows, Run.admitsAll_withRecords.mp hadmits,
    fun address haddress => ?_⟩, rfl, rfl⟩
  rw [← contains_visited setting supply.draws]
  exact hcovers address haddress

/-- A way that is completed takes an execution to its result. -/
theorem Completes.yields {program : Program P α} {setting : Setting} {supply : Supply P}
    {way : Way P} {result : α} (h : Completes (W := W) program setting supply.draws way result) :
    ∃ records, (program.execute setting).Yields supply
      (.ok result, { ended (W := W) setting supply.draws way with records })
      ⟨(ended (W := W) setting supply.draws way).draws, records⟩ := by
  have hadmits : ({ Run.start supply.draws [] with records := supply.records } :
      Run P W).AdmitsAll setting way := Run.admitsAll_withRecords.mpr h.admits
  obtain ⟨records, hrun⟩ := Sampler.run_of_way h.follows hadmits fun address haddress => by
    rw [Run.passes_withRecords]
    exact (contains_visited setting supply.draws way address).trans (h.covers address haddress)
  rw [Run.passes_withRecords] at hrun
  exact ⟨records, yields_execute_run.mpr ⟨hrun, rfl⟩⟩

end Program

end Deontic
