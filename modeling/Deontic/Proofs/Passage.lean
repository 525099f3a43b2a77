import Deontic.Random.Run
import Deontic.Proofs.Flattening
import Deontic.Proofs.Way

/-! How a run goes along a way.  `Run.Admits` says when a run makes a choice with a given value, and
`Run.pass` what it has recorded then.  A run that reaches a result goes a way of the program that it
admits, with no constraint left over (`Sampler.exists_way_of_run`), and such a way takes a run to
its result (`Sampler.run_of_way`). -/

namespace Deontic

/-- Where the value of a choice comes from. -/
inductive Origin where
  | forced
  | kept
  | fresh
  deriving DecidableEq

namespace Setting

/-- The value at hand for an address. -/
def given (setting : Setting) (address : Path) : Option Value :=
  (setting.constraints.get? address).or (setting.previous.get? address)

def origin (setting : Setting) (address : Path) : Origin :=
  if (setting.constraints.get? address).isSome then .forced
  else if (setting.previous.get? address).isSome then .kept
  else .fresh

/-- A discard with the earlier value at an address, if there is one. -/
def dropInto (setting : Setting) (discard : Choices) (address : Path) : Choices :=
  match setting.previous.get? address with
  | some old => (discard.set address old).toOption.getD discard
  | none => discard

theorem given_congr (setting : Setting) {a b : Path} (h : (a == b) = true) :
    setting.given a = setting.given b := by
  rw [given, given, Table.get?_congr _ h, Table.get?_congr _ h]

theorem origin_congr (setting : Setting) {a b : Path} (h : (a == b) = true) :
    setting.origin a = setting.origin b := by
  rw [origin, origin, Table.get?_congr _ h, Table.get?_congr _ h]

theorem origin_fresh_iff {setting : Setting} {address : Path} :
    setting.origin address = .fresh ↔ setting.given address = none := by
  rw [origin, given]
  cases setting.constraints.get? address <;> cases setting.previous.get? address <;> simp

theorem origin_forced_iff {setting : Setting} {address : Path} :
    setting.origin address = .forced ↔ (setting.constraints.get? address).isSome := by
  rw [origin]
  split
  · next h => simp [h]
  · next h => split <;> simp [h]

end Setting

/-- A draw that succeeds takes one number. -/
theorem Distribution.sample_eq_ok {P W : Type} [Scale P W] {dist : Distribution P}
    {draws rest : List P} {value : Value} (h : dist.sample draws = .ok (value, rest)) :
    rest = draws.tail := by
  cases dist with
  | bernoulli yes =>
    cases draws with
    | nil => cases h
    | cons draw later => cases h; rfl
  | categorical weighted =>
    unfold sample at h
    dsimp only at h
    split at h
    · cases h
    · cases draws with
      | nil => cases h
      | cons draw later =>
        dsimp only at h
        split at h
        · cases h; rfl
        · cases h

namespace Run

variable {P W : Type}

theorem drop_eq (setting : Setting) (run : Run P W) (address : Path) :
    run.drop setting address = { run with discard := setting.dropInto run.discard address } := by
  rw [drop, Setting.dropInto]
  cases setting.previous.get? address with
  | none => rfl
  | some old => cases h : run.discard.set address old <;> simp [h, Except.toOption]

variable [Scale P W] {setting : Setting}

/-- The run that has visited an address and taken a value for it. -/
def enter (setting : Setting) (run : Run P W) (visit : Visit P) : Run P W :=
  let density : W := visit.density
  let entered := { run with visited := visit.address :: run.visited }
  match setting.origin visit.address with
  | .forced =>
    { entered with
      discard := setting.dropInto run.discard visit.address
      forced := Scale.plus P run.forced density }
  | .kept => entered
  | .fresh => { entered with draws := run.draws.tail, fresh := Scale.plus P run.fresh density }

/-- The run that has made a choice and recorded it. -/
def pass (setting : Setting) (run : Run P W) (visit : Visit P) : Run P W :=
  { run.enter setting visit with
    choices := (run.choices.set visit.address visit.value).toOption.getD run.choices
    score := Scale.plus P run.score visit.density }

/-- What lets a run make a choice with a value: the address is new, the value can be recorded, and
it is the one at hand and not impossible, or it is drawn. -/
structure Admits (setting : Setting) (run : Run P W) (visit : Visit P) : Prop where
  keyed : visit.address.check = .ok ()
  unvisited : run.visited.contains visit.address = false
  room : ∃ choices, run.choices.set visit.address visit.value = .ok choices
  given : ∀ value, setting.given visit.address = some value →
    visit.value = value ∧ Scale.isImpossible P (visit.density : W) = false
  drawn : setting.given visit.address = none → setting.strict = false ∧
    visit.dist.sample run.draws = .ok (visit.value, run.draws.tail)

@[simp] theorem choices_enter (run : Run P W) (visit : Visit P) :
    (run.enter setting visit).choices = run.choices := by
  unfold enter
  cases setting.origin visit.address <;> rfl

@[simp] theorem score_enter (run : Run P W) (visit : Visit P) :
    (run.enter setting visit).score = run.score := by
  unfold enter
  cases setting.origin visit.address <;> rfl

theorem keep_eq_ok {run run' : Run P W} {address : Path} {value chosen : Value}
    {density : W} :
    run.keep address value density = (.ok chosen, run') ↔
      chosen = value ∧ ∃ choices, run.choices.set address value = .ok choices ∧
        run' = { run with choices, score := Scale.plus P run.score density } := by
  rw [keep]
  cases run.choices.set address value with
  | error => simp
  | ok choices => simp [eq_comm]

theorem enter_keep_eq_ok {run run' : Run P W} (visit : Visit P) {chosen : Value} :
    (run.enter setting visit).keep visit.address visit.value visit.density = (.ok chosen, run') ↔
      chosen = visit.value ∧
        (∃ choices, run.choices.set visit.address visit.value = .ok choices) ∧
        run' = run.pass setting visit := by
  rw [keep_eq_ok, choices_enter, score_enter, pass]
  constructor
  · rintro ⟨rfl, choices, hset, rfl⟩
    exact ⟨rfl, ⟨choices, hset⟩, by simp [hset, Except.toOption]⟩
  · rintro ⟨rfl, ⟨choices, hset⟩, rfl⟩
    exact ⟨rfl, choices, hset, by simp [hset, Except.toOption]⟩

/-- A value at hand is taken unless it is impossible. -/
theorem settle_of_given (run : Run P W) (visit : Visit P)
    (h : setting.given visit.address = some visit.value) :
    ∃ halted : Run P W, halted.draws = run.draws ∧
      settle setting visit.dist { run with visited := visit.address :: run.visited }
          visit.address =
        if Scale.isImpossible P (visit.density : W) then
          (.error (.impossible visit.address), halted)
        else (run.enter setting visit).keep visit.address visit.value visit.density := by
  rw [Setting.given] at h
  rw [settle]
  cases hforced : setting.constraints.get? visit.address with
  | some value =>
    obtain rfl : value = visit.value := by simpa [hforced] using h
    simp only [force, drop_eq, Visit.density, enter, Setting.origin, hforced]
    refine ⟨_, ?_, rfl⟩
    rfl
  | none =>
    rw [hforced, Option.none_or] at h
    simp only [h, reuse, Visit.density, enter, Setting.origin, hforced]
    refine ⟨_, ?_, rfl⟩
    rfl

/-- Without a value at hand one is drawn, unless the run is strict. -/
theorem settle_of_fresh {run : Run P W} {dist : Distribution P} {address : Path}
    (h : setting.given address = none) :
    settle setting dist { run with visited := address :: run.visited } address =
      if setting.strict then
        (.error (.fault (.execution (.unvalued address))),
          { run with visited := address :: run.visited })
      else match dist.sample run.draws with
        | .error fault =>
          (.error (.fault (.supply fault)), { run with visited := address :: run.visited })
        | .ok (value, _) =>
          (run.enter setting ⟨address, dist, value⟩).keep address value
            (dist.logDensity value) := by
  have horigin := Setting.origin_fresh_iff.mpr h
  rw [Setting.given, Option.or_eq_none_iff] at h
  rw [settle, h.1, h.2]
  simp only [draw]
  congr 1
  cases hsample : dist.sample run.draws with
  | error => rfl
  | ok drawn =>
    obtain ⟨value, rest⟩ := drawn
    obtain rfl := Distribution.sample_eq_ok hsample
    simp [enter, horigin, Visit.density]

/-- A choice whose value is at hand. -/
theorem visit_given_eq_ok {run run' : Run P W} {dist : Distribution P} {address : Path}
    {value given : Value} (hkeyed : address.check = .ok ())
    (hunvisited : run.visited.contains address = false)
    (hgiven : setting.given address = some given) :
    run.visit setting dist address = (.ok value, run') ↔
      Admits setting run ⟨address, dist, value⟩ ∧
        run' = run.pass setting ⟨address, dist, value⟩ := by
  obtain ⟨halted, -, hsettle⟩ := settle_of_given run ⟨address, dist, given⟩ hgiven
  rw [visit, hkeyed]
  dsimp only
  rw [hunvisited, if_neg Bool.false_ne_true, hsettle]
  constructor
  · intro h
    split at h
    · simp at h
    · next hpossible =>
      obtain ⟨rfl, hroom, rfl⟩ := (enter_keep_eq_ok _).mp h
      refine ⟨⟨hkeyed, hunvisited, hroom, fun other hother => ?_, fun hnone => ?_⟩, rfl⟩
      · rw [hgiven] at hother
        exact ⟨Option.some.inj hother, by simpa using hpossible⟩
      · rw [hgiven] at hnone; cases hnone
  · rintro ⟨hadmits, rfl⟩
    obtain ⟨hvalue, hpossible⟩ := hadmits.given given hgiven
    obtain rfl : value = given := hvalue
    rw [if_neg (by simp [hpossible])]
    exact (enter_keep_eq_ok _).mpr ⟨rfl, hadmits.room, rfl⟩

/-- A choice whose value has to be drawn. -/
theorem visit_fresh_eq_ok {run run' : Run P W} {dist : Distribution P} {address : Path}
    {value : Value} (hkeyed : address.check = .ok ())
    (hunvisited : run.visited.contains address = false) (hnone : setting.given address = none) :
    run.visit setting dist address = (.ok value, run') ↔
      Admits setting run ⟨address, dist, value⟩ ∧
        run' = run.pass setting ⟨address, dist, value⟩ := by
  rw [visit, hkeyed]
  dsimp only
  rw [hunvisited, if_neg Bool.false_ne_true, settle_of_fresh hnone]
  constructor
  · intro h
    split at h
    · simp at h
    · next hstrict =>
      split at h
      · simp at h
      · next drawn rest hsample =>
        obtain ⟨rfl, hroom, rfl⟩ := (enter_keep_eq_ok ⟨address, dist, drawn⟩).mp h
        obtain rfl := Distribution.sample_eq_ok hsample
        refine ⟨⟨hkeyed, hunvisited, hroom, fun other hother => ?_, fun _ => ?_⟩, rfl⟩
        · rw [hnone] at hother; cases hother
        · exact ⟨by simpa using hstrict, hsample⟩
  · rintro ⟨hadmits, rfl⟩
    obtain ⟨hstrict, hsample⟩ := hadmits.drawn hnone
    dsimp only at hsample
    rw [hstrict, hsample]
    exact (enter_keep_eq_ok ⟨address, dist, value⟩).mpr ⟨rfl, hadmits.room, rfl⟩

theorem visit_eq_ok {run run' : Run P W} {dist : Distribution P} {address : Path}
    {value : Value} :
    run.visit setting dist address = (.ok value, run') ↔
      Admits setting run ⟨address, dist, value⟩ ∧
        run' = run.pass setting ⟨address, dist, value⟩ := by
  cases hkeyed : address.check with
  | error =>
    rw [visit, hkeyed]
    exact ⟨fun h => by simp at h, fun h => by have := h.1.keyed; simp [hkeyed] at this⟩
  | ok =>
    cases hvisited : run.visited.contains address with
    | true =>
      rw [visit, hkeyed]
      dsimp only
      rw [hvisited]
      refine ⟨fun h => by simp at h, fun h => ?_⟩
      have := h.1.unvisited
      simp only [hvisited, Bool.true_eq_false] at this
    | false =>
      cases hgiven : setting.given address with
      | some given => exact visit_given_eq_ok hkeyed hvisited hgiven
      | none => exact visit_fresh_eq_ok hkeyed hvisited hgiven

/-! ### Whole ways -/

def passes (setting : Setting) (run : Run P W) (way : Way P) : Run P W :=
  way.foldl (pass setting) run

/-- Whether a run admits one choice of a way after the other. -/
def AdmitsAll (setting : Setting) : Run P W → Way P → Prop
  | _, [] => True
  | run, visit :: rest => run.Admits setting visit ∧ (run.pass setting visit).AdmitsAll setting rest

/-- The run that has dropped the earlier values that it did not visit. -/
def close (setting : Setting) (run : Run P W) : Run P W :=
  { run with
    discard := (setting.previous.keys.filter fun address => !run.visited.contains address).foldl
      setting.dropInto run.discard }

omit [Scale P W] in
theorem foldl_drop (setting : Setting) (addresses : List Path) (run : Run P W) :
    addresses.foldl (drop setting) run =
      { run with discard := addresses.foldl setting.dropInto run.discard } := by
  induction addresses generalizing run with
  | nil => rfl
  | cons address rest ih => rw [List.foldl_cons, ih, drop_eq]; rfl

omit [Scale P W] in
/-- A run can end if it has visited every constraint. -/
theorem finish_eq_ok {run run' : Run P W} :
    run.finish setting = .ok run' ↔
      (∀ address ∈ setting.constraints.keys, run.visited.contains address = true) ∧
        run' = run.close setting := by
  rw [finish]
  split
  · next address hfind =>
    have hmissed := List.find?_some hfind
    refine ⟨nofun, fun h => ?_⟩
    rw [h.1 address (List.mem_of_find?_eq_some hfind)] at hmissed
    cases hmissed
  · next hfind =>
    rw [List.find?_eq_none] at hfind
    rw [foldl_drop, Except.ok.injEq, close]
    exact ⟨fun h => ⟨by simpa using hfind, h.symm⟩, fun h => h.2.symm⟩

theorem pass_withRecords (run : Run P W) (records : List Record) (visit : Visit P) :
    ({ run with records } : Run P W).pass setting visit =
      { run.pass setting visit with records } := by
  unfold pass enter
  cases setting.origin visit.address <;> rfl

theorem passes_withRecords (run : Run P W) (records : List Record) (way : Way P) :
    ({ run with records } : Run P W).passes setting way =
      { run.passes setting way with records } := by
  induction way generalizing run with
  | nil => rfl
  | cons visit rest ih =>
    rw [passes, List.foldl_cons, pass_withRecords]
    exact ih _

theorem admitsAll_withRecords {run : Run P W} {records : List Record} {way : Way P} :
    ({ run with records } : Run P W).AdmitsAll setting way ↔ run.AdmitsAll setting way := by
  induction way generalizing run with
  | nil => exact Iff.rfl
  | cons visit rest ih =>
    rw [AdmitsAll, AdmitsAll, pass_withRecords, ih]
    refine and_congr_left fun _ => ?_
    exact ⟨fun h => ⟨h.1, h.2, h.3, h.4, h.5⟩, fun h => ⟨h.1, h.2, h.3, h.4, h.5⟩⟩

theorem passes_cons (run : Run P W) (visit : Visit P) (rest : Way P) :
    run.passes setting (visit :: rest) = (run.pass setting visit).passes setting rest := rfl

end Run

open Run

variable {P W α : Type} [Scale P W] {setting : Setting}

/-- A run that reaches a result has gone a way of the program. -/
theorem Sampler.exists_way_of_run {s : Sampler P α} {run run' : Run P W} {result : α}
    (h : s.run setting run = (.ok result, run')) :
    ∃ way records, Follows s way result ∧ run.AdmitsAll setting way ∧
      (∀ address ∈ setting.constraints.keys,
        (run.passes setting way).visited.contains address = true) ∧
      run' = { (run.passes setting way).close setting with records } := by
  induction s generalizing run with
  | pure a =>
    rw [Sampler.run] at h
    split at h
    · next ended hfinish =>
      cases h
      obtain ⟨hvisited, rfl⟩ := finish_eq_ok.mp hfinish
      exact ⟨[], _, .refl _, trivial, hvisited, rfl⟩
    · cases h
  | fail fault => cases h
  | note record rest ih =>
    rw [Sampler.run] at h
    obtain ⟨way, records, hfollows, hadmits, hvisited, rfl⟩ := ih h
    rw [passes_withRecords] at hvisited ⊢
    exact ⟨way, records, .note hfollows, admitsAll_withRecords.mp hadmits, hvisited, rfl⟩
  | choose address dist next ih =>
    rw [Sampler.run] at h
    split at h
    · next value run₁ hvisit =>
      obtain ⟨hadmits, rfl⟩ := visit_eq_ok.mp hvisit
      obtain ⟨way, records, hfollows, hrest, hvisited, rfl⟩ := ih value h
      exact ⟨⟨address, dist, value⟩ :: way, records, .choose hfollows, ⟨hadmits, hrest⟩,
        hvisited, rfl⟩
    · cases h

/-- A run that admits a way of the program to a result reaches that result. -/
theorem Sampler.run_of_way {s : Sampler P α} {run : Run P W} {way : Way P} {result : α}
    (hfollows : Follows s way result) (hadmits : run.AdmitsAll setting way)
    (hvisited : ∀ address ∈ setting.constraints.keys,
      (run.passes setting way).visited.contains address = true) :
    ∃ records, s.run setting run =
      (.ok result, { (run.passes setting way).close setting with records }) := by
  induction s generalizing run way with
  | pure a =>
    obtain ⟨rfl, rfl⟩ := follows_pure.mp hfollows
    have hfinish : run.finish setting = .ok (run.close setting) := finish_eq_ok.mpr ⟨hvisited, rfl⟩
    rw [Sampler.run, hfinish]
    exact ⟨_, rfl⟩
  | fail fault => exact (not_follows_fail hfollows).elim
  | note record rest ih =>
    have hadmits' : ({ run with records := record :: run.records } : Run P W).AdmitsAll setting
        way := admitsAll_withRecords.mpr hadmits
    obtain ⟨records, hrun⟩ := ih (follows_note.mp hfollows) hadmits'
      (by rw [passes_withRecords]; exact hvisited)
    rw [Sampler.run]
    rw [hrun, passes_withRecords]
    exact ⟨records, rfl⟩
  | choose address dist next ih =>
    obtain ⟨value, rest, rfl, hnext⟩ := follows_choose.mp hfollows
    obtain ⟨hfirst, hrest⟩ := hadmits
    rw [Sampler.run, visit_eq_ok.mpr ⟨hfirst, rfl⟩]
    exact ih value hnext hrest hvisited

end Deontic
