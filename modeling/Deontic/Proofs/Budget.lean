import Deontic.Proofs.Arrangement
import Deontic.Proofs.Beginnings
import Deontic.Proofs.Lasting

/-! What a run can spend.  The values at hand that a run has not come to and the draws that are left
are what it has not used (`Run.unused`), and every choice uses one of them up
(`Run.Admits.unused_pass`).  A call of growth makes a choice before it calls anything itself, so no
more calls nest than there is to spend and one more (`Grammar.Nests`).  With that many calls growth
is never cut off, and more of them make no difference (`Grammar.growth_ends`), whether the grammar
passes its check or not. -/

namespace Deontic

variable {P W α β : Type}

/-! ### Values and draws that are used up -/

namespace Run

/-- The keys that a run has not visited. -/
def unvisited (run : Run P W) (keys : List Path) : List Path :=
  keys.filter fun key => !run.visited.contains key

/-- The number of values at hand that a run has not visited, and of its draws. -/
def unused (setting : Setting) (run : Run P W) : Nat :=
  (run.unvisited setting.constraints.keys).length + (run.unvisited setting.previous.keys).length +
    run.draws.length

theorem unused_start [Scale P W] (setting : Setting) (draws : List P) (records : List Record) :
    (Run.start draws records : Run P W).unused setting = setting.size + draws.length := by
  simp [unused, unvisited, start, Setting.size, Table.size, Table.keys]

variable [Scale P W] {setting : Setting} {run : Run P W} {visit : Visit P}

theorem unvisited_pass (keys : List Path) : (run.pass setting visit).unvisited keys =
    (run.unvisited keys).filter fun key => !(key == visit.address) := by
  simp only [unvisited, visited_pass, List.filter_filter, List.contains_cons, Bool.not_or]

variable (setting run visit) in
theorem length_unvisited_pass_le (keys : List Path) :
    ((run.pass setting visit).unvisited keys).length ≤ (run.unvisited keys).length := by
  rw [unvisited_pass]
  exact List.length_filter_le _ _

/-- A key that is visited is one that was not visited before. -/
theorem Admits.length_unvisited_pass_lt (h : run.Admits setting visit) {ν : Type}
    (table : Table Path ν) (hkey : (table.get? visit.address).isSome) :
    ((run.pass setting visit).unvisited table.keys).length < (run.unvisited table.keys).length := by
  obtain ⟨entry, hentry, heq⟩ := Table.exists_of_get?_isSome hkey
  have hnew : run.visited.contains entry.1 = false := by
    rw [List.contains_congr heq]
    exact h.unvisited
  rw [unvisited_pass]
  apply List.length_filter_lt_length_iff_exists.mpr
  refine ⟨entry.1, List.mem_filter.mpr ⟨List.mem_map_of_mem hentry, by rw [hnew]; rfl⟩, ?_⟩
  simp [heq]

theorem pass_draws_of_given (h : (setting.given visit.address).isSome) :
    (run.pass setting visit).draws = run.draws := by
  unfold pass enter
  cases horigin : setting.origin visit.address with
  | forced | kept => rfl
  | fresh =>
    rw [Setting.origin_fresh_iff.mp horigin] at h
    cases h

/-- Every choice uses up a value at hand or a draw. -/
theorem Admits.unused_pass (h : run.Admits setting visit) :
    (run.pass setting visit).unused setting < run.unused setting := by
  have hconstraints := length_unvisited_pass_le setting run visit setting.constraints.keys
  have hprevious := length_unvisited_pass_le setting run visit setting.previous.keys
  unfold unused
  cases hgiven : setting.given visit.address with
  | some value =>
    have hdraws : (run.pass setting visit).draws = run.draws :=
      pass_draws_of_given (by rw [hgiven]; rfl)
    rw [hdraws]
    rw [Setting.given] at hgiven
    cases hforced : setting.constraints.get? visit.address with
    | some forced =>
      have hfewer := h.length_unvisited_pass_lt setting.constraints (by rw [hforced]; rfl)
      omega
    | none =>
      rw [hforced, Option.none_or] at hgiven
      have hfewer := h.length_unvisited_pass_lt setting.previous (by rw [hgiven]; rfl)
      omega
  | none =>
    obtain ⟨-, hsample⟩ := h.drawn hgiven
    obtain ⟨draw, rest, hne⟩ := Distribution.sample_ne_nil hsample
    have hdraws : (run.pass setting visit).draws = rest := by
      simp [pass, enter, Setting.origin_fresh_iff.mpr hgiven, hne]
    rw [hdraws, hne, List.length_cons]
    omega

/-- A way has no more choices than a run on it uses up. -/
theorem AdmitsAll.unused_passes {way : Way P} (h : run.AdmitsAll setting way) :
    (run.passes setting way).unused setting + way.length ≤ run.unused setting := by
  induction way generalizing run with
  | nil => exact Nat.le_refl _
  | cons visit rest ih =>
    have hfirst := h.1.unused_pass
    have hrest := ih h.2
    rw [passes_cons, List.length_cons]
    omega

/-- From the start, a way has no more choices than there are values at hand and draws. -/
theorem AdmitsAll.length_le {draws : List P} {records : List Record} {way : Way P}
    (h : (Run.start draws records : Run P W).AdmitsAll setting way) :
    way.length ≤ setting.size + draws.length := by
  have hused := h.unused_passes
  rw [unused_start] at hused
  omega

theorem keep_error {run run' : Run P W} {address : Path} {value : Value} {density : W}
    {halt : Halt} (h : run.keep address value density = (.error halt, run')) :
    run' = run ∧ ∃ fault, halt = .fault (.choices fault) := by
  unfold keep at h
  split at h <;> cases h
  exact ⟨rfl, _, rfl⟩

/-- A choice that is not made is not recorded, and it is no nested call. -/
theorem visit_error {dist : Distribution P} {address : Path} {halt : Halt} {run' : Run P W}
    (h : run.visit setting dist address = (.error halt, run')) :
    run'.choices = run.choices ∧ halt ≠ .fault (.execution .tooDeep) := by
  have hkept {entered : Run P W} {value : Value} {density : W}
      (h : entered.keep address value density = (.error halt, run'))
      (hentered : entered.choices = run.choices) :
      run'.choices = run.choices ∧ halt ≠ .fault (.execution .tooDeep) := by
    obtain ⟨rfl, fault, rfl⟩ := keep_error h
    exact ⟨hentered, nofun⟩
  unfold visit settle force reuse draw at h
  simp only [drop_eq] at h
  split at h
  · cases h; exact ⟨rfl, nofun⟩
  split at h
  · cases h; exact ⟨rfl, nofun⟩
  split at h
  · split at h
    · cases h; exact ⟨rfl, nofun⟩
    · exact hkept h rfl
  split at h
  · split at h
    · cases h; exact ⟨rfl, nofun⟩
    · exact hkept h rfl
  split at h
  · cases h; exact ⟨rfl, nofun⟩
  split at h
  · cases h; exact ⟨rfl, nofun⟩
  · exact hkept h rfl

end Run

/-- However a run ends, it has recorded the choices of a way of its program. -/
theorem Sampler.exists_way_recorded [Scale P W] (s : Sampler P α) (setting : Setting)
    (run : Run P W) : ∃ way t, Reaches s way t ∧ run.AdmitsAll setting way ∧
      (s.run setting run).2.choices = (run.passes setting way).choices := by
  induction s generalizing run with
  | pure a =>
    refine ⟨[], _, .refl _, trivial, ?_⟩
    rw [Sampler.run]
    split
    · next hfinish =>
      obtain ⟨-, rfl⟩ := Run.finish_eq_ok.mp hfinish
      rfl
    · rfl
  | fail fault => exact ⟨[], _, .refl _, trivial, rfl⟩
  | note record rest ih =>
    obtain ⟨way, t, hreaches, hadmits, hchoices⟩ := ih { run with records := record :: run.records }
    rw [Run.passes_withRecords] at hchoices
    exact ⟨way, t, .note hreaches, Run.admitsAll_withRecords.mp hadmits, hchoices⟩
  | choose address dist next ih =>
    rw [Sampler.run]
    split
    · next value run₁ hvisit =>
      obtain ⟨hadmits, rfl⟩ := Run.visit_eq_ok.mp hvisit
      obtain ⟨way, t, hreaches, hrest, hchoices⟩ := ih value (run.pass setting _)
      exact ⟨_ :: way, t, .choose hreaches, ⟨hadmits, hrest⟩, hchoices⟩
    · next halt run₁ hvisit =>
      exact ⟨[], _, .refl _, trivial, (Run.visit_error hvisit).1⟩

/-- Choices that were written one after the other at different paths are no more than these. -/
theorem Choices.size_setAll_le {choices : Choices} {entries : List (Path × Value)}
    (h : Choices.empty.setAll entries = .ok choices)
    (hdistinct : entries.Pairwise fun a b => (a.1 == b.1) = false) :
    choices.size ≤ entries.length := by
  have htidied : choices.Tidied := Tidied.invariant.of_setAll h
  rw [← htidied.size_flatten]
  have hkeys := Table.length_le_of_keys entries (List.pairwise_map.mpr choices.flatten.distinct)
    fun key hkey => by
      have hsome := Table.get?_isSome_of_mem_keys hkey
      rw [get?_flatten htidied, at?_setAll h hdistinct, at?_empty, Option.or_none,
        Option.isSome_map] at hsome
      obtain ⟨entry, hentry⟩ := Option.isSome_iff_exists.mp hsome
      exact ⟨entry, List.mem_of_find?_eq_some hentry,
        List.find?_some (p := fun entry : Path × Value => entry.1 == key) hentry⟩
  rwa [List.length_map] at hkeys

/-- However a run ends, it has recorded no more choices than there are values at hand and draws. -/
theorem Sampler.size_choices_run_le [Scale P W] (s : Sampler P α) (setting : Setting)
    (draws : List P) (records : List Record) :
    (s.run setting (Run.start draws records : Run P W)).2.choices.size ≤
      setting.size + draws.length := by
  obtain ⟨way, -, -, hadmits, hchoices⟩ :=
    s.exists_way_recorded setting (Run.start draws records : Run P W)
  have hsize := Choices.size_setAll_le (Run.choices_passes hadmits)
    (List.pairwise_map.mpr (List.pairwise_map.mp hadmits.distinct.1))
  rw [Way.entries, List.length_map] at hsize
  rw [hchoices]
  exact hsize.trans hadmits.length_le

/-! ### Programs that are cut off -/

namespace Sampler

/-- `Cut s t`: both are the same program, except that `s` may be cut off where `t` goes on. -/
inductive Cut : Sampler P α → Sampler P α → Prop
  | deep (t : Sampler P α) : Cut (fail (.execution .tooDeep)) t
  | pure (a : α) : Cut (pure a) (pure a)
  | fail (fault : Fault) : Cut (fail fault) (fail fault)
  | note {record : Record} {s t : Sampler P α} (h : Cut s t) : Cut (note record s) (note record t)
  | choose {address : Path} {dist : Distribution P} {next next' : Value → Sampler P α}
      (h : ∀ value, Cut (next value) (next' value)) :
      Cut (choose address dist next) (choose address dist next')

theorem Cut.refl (s : Sampler P α) : Cut s s := by
  induction s with
  | pure a => exact .pure a
  | fail fault => exact .fail fault
  | note record rest ih => exact .note ih
  | choose address dist next ih => exact .choose ih

theorem Cut.bind {s t : Sampler P α} (h : Cut s t) {f g : α → Sampler P β}
    (hf : ∀ a, Cut (f a) (g a)) : Cut (s.bind f) (t.bind g) := by
  induction h with
  | deep t => exact .deep _
  | pure a => exact hf a
  | fail fault => exact .fail fault
  | note _ ih => exact .note ih
  | choose _ ih => exact .choose ih

/-- A run that is not cut off is the same without the cuts. -/
theorem Cut.run_eq [Scale P W] {s t : Sampler P α} (h : Cut s t) {setting : Setting} {run : Run P W}
    (huncut : (s.run setting run).1 ≠ .error (.fault (.execution .tooDeep))) :
    t.run setting run = s.run setting run := by
  induction h generalizing run with
  | deep t => exact (huncut rfl).elim
  | pure a => rfl
  | fail fault => rfl
  | note _ ih => exact ih huncut
  | choose _ ih =>
    rw [Sampler.run, Sampler.run] at *
    split
    · next value run₁ hvisit =>
      rw [hvisit] at huncut
      exact ih value huncut
    · rfl

/-- A sequence fails in its first part, or completes that part and fails in the rest. -/
theorem Reaches.of_bind_fail {s : Sampler P α} {f : α → Sampler P β} {way : Way P} {fault : Fault}
    (h : Reaches (s.bind f) way (fail fault)) :
    Reaches s way (fail fault) ∨ ∃ a first second, way = first ++ second ∧ Follows s first a ∧
      Reaches (f a) second (fail fault) := by
  rcases h.of_bind with ⟨s', hs, ht⟩ | hrest
  · cases s' with
    | pure a => exact .inr ⟨a, way, [], (List.append_nil _).symm, hs, ht ▸ .refl _⟩
    | fail other => cases ht; exact .inl hs
    | note => cases ht
    | choose => cases ht
  · exact .inr hrest

end Sampler

namespace Grammar

variable {grammar : Grammar P}

/-- A growth is the same with more nested calls, except where it is cut off. -/
theorem cut_grow {calls calls' : Nat} (hcalls : calls ≤ calls') (index : Int) (rule : String) :
    Sampler.Cut (grammar.grow calls index rule) (grammar.grow calls' index rule) := by
  induction calls generalizing calls' index rule with
  | zero => exact .deep _
  | succ calls ih =>
    obtain ⟨calls', rfl⟩ := Nat.exists_eq_succ_of_ne_zero (Nat.ne_of_gt (Nat.zero_lt_of_lt hcalls))
    have hcalls := Nat.le_of_succ_le_succ hcalls
    rw [Nat.succ_eq_add_one, grow_succ, grow_succ]
    refine (Sampler.Cut.refl _).bind fun word => (Sampler.Cut.refl _).bind fun offered =>
      (Sampler.Cut.refl _).bind fun parts => ?_
    rcases parts with _ | ⟨first, _ | ⟨second, _ | ⟨_, _⟩⟩⟩
    · exact .refl _
    · exact (ih hcalls _ _).bind fun left => .refl _
    · exact (ih hcalls _ _).bind fun left => (ih hcalls _ _).bind fun right => .refl _
    · exact .refl _

/-! ### Nested calls -/

/-- `Nests grammar index rule way depth`: after the choices of `way`, a growth from a rule enters a
call that is the innermost of `depth`, itself counted among them. -/
inductive Nests (grammar : Grammar P) : Int → String → Way P → Nat → Prop
  | own (index : Int) (rule : String) : Nests grammar index rule [] 1
  | single {index : Int} {rule word part : String} {weights : Table String P} {way : Way P}
      {depth : Nat} (hweights : grammar.wordWeights.get? rule = some weights)
      (hparts : grammar.parts? rule word = some [part])
      (hleft : Nests grammar (Tree.leftOf index) part way depth) :
      Nests grammar index rule (wordVisit index weights word :: way) (depth + 1)
  | first {index : Int} {rule word first second : String} {weights : Table String P} {way : Way P}
      {depth : Nat} (hweights : grammar.wordWeights.get? rule = some weights)
      (hparts : grammar.parts? rule word = some [first, second])
      (hleft : Nests grammar (Tree.leftOf index) first way depth) :
      Nests grammar index rule (wordVisit index weights word :: way) (depth + 1)
  | second {index : Int} {rule word first second : String} {weights : Table String P}
      {leftWay way : Way P} {left : Tree} {depth : Nat}
      (hweights : grammar.wordWeights.get? rule = some weights)
      (hparts : grammar.parts? rule word = some [first, second])
      (hleft : Grown grammar (Tree.leftOf index) first leftWay left)
      (hright : Nests grammar (Tree.rightOf index) second way depth) :
      Nests grammar index rule (wordVisit index weights word :: (leftWay ++ way)) (depth + 1)

/-- Every call but the innermost has made a choice. -/
theorem Nests.le_length {index : Int} {rule : String} {way : Way P} {depth : Nat}
    (h : grammar.Nests index rule way depth) : depth ≤ way.length + 1 := by
  induction h with
  | own => exact Nat.le_refl _
  | single _ _ _ ih | first _ _ _ ih => exact Nat.succ_le_succ ih
  | second _ _ _ _ ih =>
    simp only [List.length_cons, List.length_append]
    omega

theorem noEntry_of_reaches_entry {ν : Type} {table : Table String ν} {name : String} {way : Way P}
    {fault : Fault} (h : (entry table name).Reaches way (.fail fault)) :
    fault = .noEntry (.text name) := by
  rw [entry] at h
  cases hfound : table.get? name with
  | none => rw [hfound] at h; cases h; rfl
  | some => rw [hfound] at h; cases h

/-- A word is chosen or an entry is missing. -/
theorem noEntry_of_reaches_chooseWord {index : Int} {rule : String} {way : Way P} {fault : Fault}
    (h : (chooseWord grammar index rule).Reaches way (.fail fault)) :
    ∃ key, fault = .noEntry key := by
  rcases Sampler.Reaches.of_bind_fail h with hentry | ⟨weights, _, _, rfl, -, hrest⟩
  · exact ⟨_, noEntry_of_reaches_entry hentry⟩
  rcases Sampler.Reaches.of_bind_fail hrest with hchosen | ⟨chosen, _, _, rfl, -, hword⟩
  · cases hchosen with
    | choose hnone => cases hnone
  · cases htext : chosen.text? with
    | none => rw [htext] at hword; cases hword; exact ⟨_, rfl⟩
    | some => rw [htext] at hword; cases hword

theorem not_cut_built {result : Except WordFault Tree} {way : Way P} :
    ¬ (Sampler.ofExcept (result.mapError .vocabulary) : Sampler P Tree).Reaches way
      (.fail (.execution .tooDeep)) := by
  cases result <;> exact nofun

theorem not_cut_growLeaf {index : Int} {word : String} {way : Way P} :
    ¬ (growLeaf grammar index word).Reaches way (.fail (.execution .tooDeep)) := by
  intro h
  unfold growLeaf at h
  split at h
  · cases h
  · rcases Sampler.Reaches.of_bind_fail h with hchosen | ⟨chosen, _, _, rfl, -, hbuilt⟩
    · cases hchosen with
      | choose hnone => cases hnone
    · cases htext : chosen.text? with
      | none => rw [htext] at hbuilt; cases hbuilt
      | some => rw [htext] at hbuilt; exact not_cut_built hbuilt

/-- A growth is cut off where it enters one more nested call than it may. -/
theorem Nests.of_cut {calls : Nat} {index : Int} {rule : String} {way : Way P}
    (h : (grammar.grow calls index rule).Reaches way (.fail (.execution .tooDeep))) :
    grammar.Nests index rule way (calls + 1) := by
  induction calls generalizing index rule way with
  | zero =>
    rw [grow] at h
    cases h
    exact .own index rule
  | succ calls ih =>
    rw [grow_succ] at h
    rcases Sampler.Reaches.of_bind_fail h with hword | ⟨word, _, _, rfl, hword, hrest⟩
    · obtain ⟨_, hfault⟩ := noEntry_of_reaches_chooseWord hword
      cases hfault
    obtain ⟨weights, hweights, rfl⟩ := follows_chooseWord.mp hword
    rcases Sampler.Reaches.of_bind_fail hrest with hentry | ⟨offered, _, _, rfl, hentry, hrest'⟩
    · cases noEntry_of_reaches_entry hentry
    obtain ⟨rfl, hoffered⟩ := follows_entry.mp hentry
    rcases Sampler.Reaches.of_bind_fail hrest' with hentry' | ⟨parts, _, _, rfl, hentry', hgrown⟩
    · cases noEntry_of_reaches_entry hentry'
    obtain ⟨rfl, hfound⟩ := follows_entry.mp hentry'
    have hparts : grammar.parts? rule word = some parts := by
      rw [parts?, hoffered]
      exact hfound
    rcases parts with _ | ⟨first, _ | ⟨second, _ | ⟨_, _⟩⟩⟩
    · exact (not_cut_growLeaf hgrown).elim
    · rcases Sampler.Reaches.of_bind_fail hgrown with hleft | ⟨left, _, _, rfl, -, hlast⟩
      · exact .single hweights hparts (ih hleft)
      · exact (not_cut_built hlast).elim
    · rcases Sampler.Reaches.of_bind_fail hgrown with hleft | ⟨left, _, _, rfl, hleft, hothers⟩
      · exact .first hweights hparts (ih hleft)
      rcases Sampler.Reaches.of_bind_fail hothers with hright | ⟨right, _, _, rfl, -, hlast⟩
      · have hsecond := Nests.second hweights hparts (.of_follows hleft) (ih hright)
        exact hsecond
      · exact (not_cut_built hlast).elim
    · cases hgrown

/-- A run whose calls may nest once more than there are values at hand and draws is not cut off. -/
theorem run_grow_ne_tooDeep [Scale P W] {setting : Setting} {draws : List P} {calls : Nat}
    (hcalls : setting.size + draws.length < calls) (records : List Record) (index : Int)
    (rule : String) : ((grammar.grow calls index rule).run setting
      (Run.start draws records : Run P W)).1 ≠ .error (.fault (.execution .tooDeep)) := by
  intro hcut
  obtain ⟨way, t, later, hreaches, hadmits, hend⟩ := Sampler.exists_reaches_of_fault
    (Prod.ext hcut rfl : (grammar.grow calls index rule).run setting
      (Run.start draws records : Run P W) = (.error (.fault (.execution .tooDeep)), _))
  rcases hend with rfl | ⟨tree, rfl, hfinish⟩ | ⟨address, dist, next, rfl, hvisit⟩
  · have hdepth := (Nests.of_cut hreaches).le_length
    have hlength := hadmits.length_le
    omega
  · obtain ⟨address, -, hfault⟩ := Run.finish_eq_fault hfinish
    cases hfault
  · exact (Run.visit_error hvisit).2 rfl

/-- Growth ends, from any rule of any grammar.  It records no more choices than there are values at
hand and draws, its calls nest once more at most, and calls beyond these change nothing. -/
theorem growth_ends [Scale P W] (grammar : Grammar P) (index : Int) (rule : String)
    (setting : Setting) (draws : List P) (records : List Record) :
    let given := setting.size + draws.length
    let run (calls : Nat) : Except Halt Tree × Run P W :=
      (grammar.grow calls index rule).run setting (Run.start draws records)
    (∀ calls, (run calls).2.choices.size ≤ given) ∧
      (∀ way depth, grammar.Nests index rule way depth →
        (Run.start draws records : Run P W).AdmitsAll setting way → depth ≤ given + 1) ∧
      ∀ calls, given < calls →
        (run calls).1 ≠ .error (.fault (.execution .tooDeep)) ∧ run calls = run (given + 1) := by
  refine ⟨fun calls => ?_, fun way depth hnests hadmits => ?_, fun calls hcalls => ⟨?_, ?_⟩⟩
  · exact (grammar.grow calls index rule).size_choices_run_le setting draws records
  · have hdepth := hnests.le_length
    have hlength := hadmits.length_le
    omega
  · exact run_grow_ne_tooDeep hcalls records index rule
  · exact (cut_grow hcalls index rule).run_eq
      (run_grow_ne_tooDeep (Nat.lt_succ_self _) records index rule)

end Grammar

end Deontic
