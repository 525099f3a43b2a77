import Deontic.Proofs.Consumption
import Deontic.Proofs.Locality
import Deontic.Proofs.Support
import Deontic.Proofs.Undoing

/-! Edits of disjoint subtrees commute.  Two updates that draw nothing and edit only what is below
two positions, neither of them below the other, differ from the trace in these two trees alone.  A
trace that merges them (`exists_merged`) is what each of the updates makes of the outcome of the
other, and what both edits make at once (`updates_commute`). -/

namespace Deontic

open Deontic.Tree

theorem LogWeight.sub_eq_sub {a b c d : LogWeight} (hb : b ≠ ⊥) (hd : d ≠ ⊥)
    (h : a.mass * d.mass = c.mass * b.mass) : a - b = c - d := by
  ext
  rw [mass_sub, mass_sub, (div_eq_div_iff (ne_bot_iff.mp hb) (ne_bot_iff.mp hd)).mpr h]

theorem LogWeight.sub_eq_add {a b c d : LogWeight} (hb : b ≠ ⊥)
    (h : a.mass * b.mass = c.mass * d.mass) : a - b = (c - b) + (d - b) := by
  ext
  have hmass := ne_bot_iff.mp hb
  rw [mass_add, mass_sub, mass_sub, mass_sub, div_mul_div_comm, ← h,
    mul_div_mul_right _ _ hmass]

/-- Two tables with different paths of one length make choices with the values of both. -/
theorem Choices.exists_ofEntries {first second : Table Path Value} {n : Nat}
    (hdisjoint : ∀ path, (first.get? path).isSome → second.get? path = none)
    (hfirst : ∀ path, (first.get? path).isSome → path.check = .ok () ∧ path.length = n + 1)
    (hsecond : ∀ path, (second.get? path).isSome → path.check = .ok () ∧ path.length = n + 1) :
    ∃ both, ofEntries (first.entries ++ second.entries) = .ok both ∧
      ∀ path, both.flatten.get? path = (first.get? path).or (second.get? path) := by
  have hmem {t : Table Path Value} {entry : Path × Value} (hentry : entry ∈ t.entries) :
      (t.get? entry.1).isSome := Table.get?_isSome_of_mem_keys (List.mem_map_of_mem hentry)
  have hkeyed : ∀ entry ∈ first.entries ++ second.entries,
      entry.1.check = .ok () ∧ entry.1.length = n + 1 :=
    List.forall_mem_append.mpr ⟨fun entry hentry => hfirst entry.1 (hmem hentry),
      fun entry hentry => hsecond entry.1 (hmem hentry)⟩
  have hdistinct : (first.entries ++ second.entries).Pairwise fun a b => (a.1 == b.1) = false := by
    refine List.pairwise_append.mpr ⟨first.distinct, second.distinct, fun a ha b hb => ?_⟩
    rw [Bool.eq_false_iff]
    intro heq
    have hboth := hmem hb
    rw [← Table.get?_congr _ heq, hdisjoint a.1 (hmem ha)] at hboth
    cases hboth
  have hchecked : ((first.entries ++ second.entries).forM fun entry => entry.1.check) = .ok () :=
    Except.forM_eq_ok_iff.mpr fun entry hentry => (hkeyed entry hentry).1
  obtain ⟨both, hset⟩ := exists_setAll_of_length n hkeyed
  refine ⟨both, ?_, fun path => ?_⟩
  · rw [ofEntries, hchecked, Table.entries_ofList hdistinct]
    exact hset
  · have htidied : both.Tidied := Tidied.invariant.of_setAll hset
    rw [get?_flatten htidied, at?_setAll hset hdistinct, at?_empty, Option.or_none,
      List.find?_append, Option.map_or]
    rfl

/-- All choices are below `"tree"`, at positions in the tree at an index. -/
def Choices.Inside (choices : Choices) (index : Int) : Prop :=
  ∀ path, (choices.flatten.get? path).isSome → ∃ j label, Below index j ∧
    (path == [.text "tree", .tuple [.int j, label]]) = true

namespace Grammar

variable {grammar : Grammar ℚ} {i j : Int} {path : Path}

theorem Outside.congr {path' : Path} (h : Outside i path) (heq : (path == path') = true) :
    Outside i path' := by
  intro k name hk
  rw [← BEq.congr_left heq]
  exact h k name hk

/-- No path leads into two trees that are apart. -/
theorem outside_or_outside (hi : 1 ≤ i) (hj : 1 ≤ j) (hij : ¬ Below i j) (hji : ¬ Below j i)
    (path : Path) : Outside i path ∨ Outside j path := by
  by_cases hpath : Outside i path
  · exact .inl hpath
  right
  obtain ⟨k, name, hk, heq⟩ :
      ∃ k name, Below i k ∧ (path == [.text "tree", key k name]) = true := by
    by_contra hnone
    refine hpath fun k name hk => ?_
    rw [Bool.eq_false_iff]
    exact fun heq => hnone ⟨k, name, hk, heq⟩
  have hapart : Outside j [.text "tree", key k name] := outside_of_not_below
    (fun hbelow => (below_or_below hi hj hk hbelow).elim hij hji) name
  exact hapart.congr (BEq.symm heq)

/-! ### Traces of derivations -/

section Along

variable {trace moved : Trace ℚ LogWeight Tree} {whole whole' : Way ℚ}

theorem at?_eq_some_iff (h : trace.Along (whole.under (.text "tree"))) {value : Value} :
    trace.choices.at? path = some value ↔
      ∃ visit ∈ whole, ((.text "tree" :: visit.address : Path) == path) = true ∧
        visit.value = value := by
  rw [h.at?_choices]
  constructor
  · intro hvalue
    obtain ⟨_, hmem, heq, rfl⟩ := Way.exists_of_value? hvalue
    obtain ⟨visit, hvisit, rfl⟩ := List.mem_map.mp hmem
    exact ⟨visit, hvisit, heq, rfl⟩
  · rintro ⟨visit, hvisit, heq, rfl⟩
    have hmem : visit.under (.text "tree") ∈ whole.under (.text "tree") :=
      List.mem_map_of_mem hvisit
    rw [← h.at?_choices, ← Choices.at?_congr _ heq, h.at?_choices]
    exact Way.value?_of_mem h.distinct hmem

/-- Ways that are the same outside a tree make traces that are. -/
theorem SameOutside.at?_eq (hsame : SameOutside i whole whole')
    (h : trace.Along (whole.under (.text "tree"))) (h' : moved.Along (whole'.under (.text "tree")))
    (hpath : Outside i path) : trace.choices.at? path = moved.choices.at? path := by
  refine Option.ext fun value => ?_
  rw [at?_eq_some_iff h, at?_eq_some_iff h']
  refine exists_congr fun visit => ?_
  constructor
  · rintro ⟨hvisit, heq, hvalue⟩
    exact ⟨(hsame visit (hpath.congr (BEq.symm heq))).mp hvisit, heq, hvalue⟩
  · rintro ⟨hvisit, heq, hvalue⟩
    exact ⟨(hsame visit (hpath.congr (BEq.symm heq))).mpr hvisit, heq, hvalue⟩

end Along

/-! ### Edits in a tree -/

/-- An update of a trace of the model that edits the tree at an index and draws nothing. -/
structure Retouches (trace : Trace ℚ LogWeight Tree) (index : Int) (edits : Choices)
    (moved : Trace ℚ LogWeight Tree) : Prop where
  covers : ∀ path, (edits.flatten.get? path).isSome → (moved.choices.at? path).isSome
  values : ∀ path value, moved.choices.at? path = some value →
    (edits.flatten.get? path).or (trace.choices.at? path) = some value
  outside : ∀ path, Outside index path → edits.flatten.get? path = none

section Retouches

variable {trace moved : Trace ℚ LogWeight Tree} {edits discard : Choices} {whole whole' : Way ℚ}

theorem retouches_of_revision (hmoved : moved.Along (whole.under (.text "tree")))
    (hkeys : Within 1 whole.addresses) (hinside : edits.Inside i)
    (h : trace.Revision edits moved discard []) : Retouches trace i edits moved := by
  refine ⟨h.covers, fun path value hvalue => ?_, fun path hpath => ?_⟩
  · rw [← h.values path value hvalue]
    exact Option.or_none.symm
  -- an edit that the run visits is at a position below the index
  rw [← Option.not_isSome_iff_eq_none]
  intro hedit
  obtain ⟨value, hvalue⟩ := Option.isSome_iff_exists.mp (h.covers path hedit)
  obtain ⟨visit, hvisit, heq, -⟩ := (at?_eq_some_iff hmoved).mp hvalue
  obtain ⟨k, name, -, haddress⟩ := hkeys visit.address (List.mem_map_of_mem hvisit)
  obtain ⟨k', label, hbelow, heq'⟩ := hinside path hedit
  rw [haddress] at heq
  have hsame := BEq.trans heq heq'
  simp only [List.cons_beq_cons, Bool.and_eq_true] at hsame
  obtain rfl := Value.int_beq_int.mp (Value.pair_beq_pair.mp hsame.2.1).1
  exact not_outside hbelow name (hpath.congr (BEq.symm heq))

/-- Where it is not in the tree at the index, a trace that is retouched does not change. -/
theorem Retouches.agreesOutside (h : Retouches trace i edits moved)
    (hmoved : moved.Along (whole.under (.text "tree"))) :
    AgreesOutside i (fun address => trace.choices.at? (.text "tree" :: address)) whole := by
  intro visit hvisit houtside
  have hvalue := h.values _ visit.value ((at?_eq_some_iff hmoved).mpr ⟨visit, hvisit, BEq.rfl, rfl⟩)
  rwa [h.outside _ houtside, Option.none_or] at hvalue

theorem Retouches.keyed (h : Retouches trace i edits moved)
    (hmoved : moved.Along (whole.under (.text "tree"))) (hkeys : Within 1 whole.addresses)
    (hedit : (edits.flatten.get? path).isSome) : path.check = .ok () ∧ path.length = 2 := by
  obtain ⟨value, hvalue⟩ := Option.isSome_iff_exists.mp (h.covers path hedit)
  obtain ⟨visit, hvisit, heq, -⟩ := (at?_eq_some_iff hmoved).mp hvalue
  obtain ⟨k, name, -, haddress⟩ := hkeys visit.address (List.mem_map_of_mem hvisit)
  rw [haddress] at heq
  exact ⟨Path.check_congr heq rfl, (List.length_eq_of_beq heq).symm⟩

end Retouches

/-! ### Merged traces -/

/-- Four traces: `moved` differs from `trace` in the tree at `i` and `other` in the tree at `j`, and
`merged` differs from each of these where the other does. -/
structure Merged (trace moved other merged : Trace ℚ LogWeight Tree) (i j : Int) : Prop where
  left : ∀ path, Outside i path → trace.choices.at? path = moved.choices.at? path
  upper : ∀ path, Outside j path → trace.choices.at? path = other.choices.at? path
  lower : ∀ path, Outside j path → moved.choices.at? path = merged.choices.at? path
  right : ∀ path, Outside i path → other.choices.at? path = merged.choices.at? path
  apart : ∀ path, Outside i path ∨ Outside j path
  weighs : merged.score.mass * trace.score.mass = moved.score.mass * other.score.mass

namespace Merged

variable {trace moved other merged : Trace ℚ LogWeight Tree} {first second : Choices}

theorem symm (h : Merged trace moved other merged i j) : Merged trace other moved merged j i :=
  ⟨h.upper, h.left, h.right, h.lower, fun path => (h.apart path).symm,
    h.weighs.trans (mul_comm _ _)⟩

/-- What one update finds after the other are the merged values. -/
theorem given (h : Merged trace moved other merged i j) (hsecond : Retouches trace j second other)
    (path : Path) (value : Value) (hvalue : merged.choices.at? path = some value) :
    (second.flatten.get? path).or (moved.choices.at? path) = some value := by
  rcases h.apart path with hpath | hpath
  · rw [← h.right path hpath] at hvalue
    rw [← h.left path hpath]
    exact hsecond.values path value hvalue
  · rw [hsecond.outside path hpath, Option.none_or, h.lower path hpath, hvalue]

theorem covered (h : Merged trace moved other merged i j) (hsecond : Retouches trace j second other)
    (path : Path) (hedit : (second.flatten.get? path).isSome) :
    (merged.choices.at? path).isSome := by
  rcases h.apart path with hpath | hpath
  · rw [← h.right path hpath]
    exact hsecond.covers path hedit
  · rw [hsecond.outside path hpath] at hedit
    cases hedit

/-- What both updates find at once are the merged values. -/
theorem given_both (h : Merged trace moved other merged i j)
    (hfirst : Retouches trace i first moved)
    (hsecond : Retouches trace j second other) (path : Path) (value : Value)
    (hvalue : merged.choices.at? path = some value) :
    ((first.flatten.get? path).or (second.flatten.get? path)).or (trace.choices.at? path) =
      some value := by
  rcases h.apart path with hpath | hpath
  · rw [hfirst.outside path hpath, Option.none_or, h.left path hpath]
    exact h.given hsecond path value hvalue
  · rw [hsecond.outside path hpath, Option.or_none, h.upper path hpath]
    exact h.symm.given hfirst path value hvalue

theorem covered_both (h : Merged trace moved other merged i j)
    (hfirst : Retouches trace i first moved) (hsecond : Retouches trace j second other)
    (path : Path)
    (hedit : ((first.flatten.get? path).or (second.flatten.get? path)).isSome) :
    (merged.choices.at? path).isSome := by
  rw [Option.isSome_or, Bool.or_eq_true] at hedit
  rcases hedit with hedit | hedit
  · exact h.symm.covered hfirst path hedit
  · exact h.covered hsecond path hedit

variable {way way' : Way ℚ}

theorem score_second (h : Merged trace moved other merged i j) (htrace : trace.Along way)
    (hmoved : moved.Along way') : merged.score - moved.score = other.score - trace.score :=
  LogWeight.sub_eq_sub hmoved.score_ne_bot htrace.score_ne_bot (h.weighs.trans (mul_comm _ _))

theorem score_both (h : Merged trace moved other merged i j) (htrace : trace.Along way) :
    merged.score - trace.score = (moved.score - trace.score) + (other.score - trace.score) :=
  LogWeight.sub_eq_add htrace.score_ne_bot h.weighs

end Merged

section Updates

variable {trace moved other : Trace ℚ LogWeight Tree} {first second : Choices}
  {whole left right : Way ℚ}

/-- Two updates that edit trees apart can be merged. -/
theorem exists_merged (hnames : grammar.Distinguished) (hi : 1 ≤ i) (hj : 1 ≤ j)
    (hij : ¬ Below i j) (hji : ¬ Below j i) (htrace : trace.Along (whole.under (.text "tree")))
    (hgrown : Grown grammar 1 grammar.root whole trace.result)
    (hmoved : moved.Along (left.under (.text "tree")))
    (hleft : Grown grammar 1 grammar.root left moved.result)
    (hother : other.Along (right.under (.text "tree")))
    (hright : Grown grammar 1 grammar.root right other.result)
    (hfirst : Retouches trace i first moved) (hsecond : Retouches trace j second other) :
    ∃ merged way, merged.Along way ∧ merged.program = grammar.model ∧
      Merged trace moved other merged i j := by
  have hvalues : ∀ visit ∈ whole,
      trace.choices.at? (.text "tree" :: visit.address) = some visit.value :=
    fun visit hvisit => (at?_eq_some_iff htrace).mpr ⟨visit, hvisit, BEq.rfl, rfl⟩
  obtain ⟨both, t, hboth, hsquare⟩ := hgrown.exists_square hi hj hij hji hleft hright hvalues
    (hfirst.agreesOutside hmoved) (hsecond.agreesOutside hother)
  have hpossible : ∀ visit ∈ both,
      Scale.isImpossible ℚ (visit.density : LogWeight) = false := by
    intro visit hvisit
    rcases hsquare.mem_or_mem hi hj hij hji hboth.within hvisit with hmem | hmem
    · exact hmoved.possible (visit.under (.text "tree")) (List.mem_map_of_mem hmem)
    · exact hother.possible (visit.under (.text "tree")) (List.mem_map_of_mem hmem)
  obtain ⟨merged, hmerged, hprogram, -⟩ := hboth.exists_along (W := LogWeight) hnames hpossible
  have hmass {trace : Trace ℚ LogWeight Tree} {way : Way ℚ}
      (h : trace.Along (way.under (.text "tree"))) : (trace.score.mass : ℚ) = way.probability :=
    h.mass_score.trans (Way.probability_under _ way)
  refine ⟨merged, _, hmerged, hprogram, fun path => hsquare.left.at?_eq htrace hmoved,
    fun path => hsquare.upper.at?_eq htrace hother, fun path => hsquare.lower.at?_eq hmoved hmerged,
    fun path => hsquare.right.at?_eq hother hmerged, outside_or_outside hi hj hij hji, ?_⟩
  have hweighs := hsquare.weighs
  rw [← hmass hmerged, ← hmass htrace, ← hmass hmoved, ← hmass hother] at hweighs
  exact_mod_cast hweighs

/-- Edits of trees apart can be put into one. -/
theorem exists_both (hmoved : moved.Along (left.under (.text "tree")))
    (hleft : Within 1 left.addresses) (hother : other.Along (right.under (.text "tree")))
    (hright : Within 1 right.addresses) (hapart : ∀ path, Outside i path ∨ Outside j path)
    (hfirst : Retouches trace i first moved) (hsecond : Retouches trace j second other) :
    ∃ both, Choices.ofEntries (first.flatten.entries ++ second.flatten.entries) = .ok both ∧
      ∀ path, both.flatten.get? path = (first.flatten.get? path).or (second.flatten.get? path) := by
  refine Choices.exists_ofEntries (n := 1) (fun path hedit => ?_)
    (fun path => hfirst.keyed hmoved hleft) fun path => hsecond.keyed hother hright
  rcases hapart path with hpath | hpath
  · rw [hfirst.outside path hpath] at hedit
    cases hedit
  · exact hsecond.outside path hpath

end Updates

/-- **Edits of disjoint subtrees commute.**  Of two positions, neither below the other, let each
have edits below it by which an update gives a trace without a draw.  Each of these updates after
the other, and one with both edits at once, give one and the same trace without a draw.  The
log-weight of an update is the same after the other, and that of both at once is the sum. -/
theorem updates_commute (hvalid : grammar.validate = .ok ())
    (hstandard : grammar.vocabulary = .standard) {trace moved other : Trace ℚ LogWeight Tree}
    (htrace : grammar.model.Obtained trace) {i j : Int} (hi : 1 ≤ i) (hj : 1 ≤ j)
    (hij : ¬ Below i j) (hji : ¬ Below j i) {first second discard discard' : Choices}
    (hfirst : first.Inside i) (hsecond : second.Inside j) {weight weight' : LogWeight}
    {supply rest supply' rest' : Supply ℚ}
    (hmoved : (trace.update first).Yields supply (some moved, weight, discard) rest)
    (hundrawn : rest.draws = supply.draws)
    (hother : (trace.update second).Yields supply' (some other, weight', discard') rest')
    (hundrawn' : rest'.draws = supply'.draws) :
    ∃ merged both,
      (∀ later, ∃ records back, (moved.update second).Yields later (some merged, weight', back)
        ⟨later.draws, records⟩) ∧
      (∀ later, ∃ records back, (other.update first).Yields later (some merged, weight, back)
        ⟨later.draws, records⟩) ∧
      Choices.ofEntries (first.flatten.entries ++ second.flatten.entries) = .ok both ∧
      (∀ path, both.flatten.get? path = (first.flatten.get? path).or (second.flatten.get? path)) ∧
      ∀ edits : Choices, (∀ path, edits.flatten.get? path = both.flatten.get? path) →
        ∀ later, ∃ records back, (trace.update edits).Yields later
          (some merged, weight + weight', back) ⟨later.draws, records⟩ := by
  have hsteady := htrace.program_eq ▸ grammar.steady_model
  have hnames := distinguished_of_validate hvalid hstandard
  obtain ⟨way, halong⟩ := htrace.exists_along (fair_model (weighed_of_validate hvalid))
    grammar.steady_model
  obtain ⟨way₁, halong₁, hrevision₁, rfl⟩ := halong.exists_undrawn_revision hsteady hmoved hundrawn
  obtain ⟨way₂, halong₂, hrevision₂, rfl⟩ := halong.exists_undrawn_revision hsteady hother hundrawn'
  have hprogram₁ := hrevision₁.program.trans htrace.program_eq
  have hprogram₂ := hrevision₂.program.trans htrace.program_eq
  obtain ⟨whole, rfl, hgrown, -⟩ := exists_grown_of_model halong htrace.program_eq
  obtain ⟨left, rfl, hleft, -⟩ := exists_grown_of_model halong₁ hprogram₁
  obtain ⟨right, rfl, hright, -⟩ := exists_grown_of_model halong₂ hprogram₂
  have htouched := retouches_of_revision halong₁ hleft.within hfirst hrevision₁
  have htouched' := retouches_of_revision halong₂ hright.within hsecond hrevision₂
  obtain ⟨merged, _, hmerged, hprogram, hmerges⟩ := exists_merged hnames hi hj hij hji halong hgrown
    halong₁ hleft halong₂ hright htouched htouched'
  obtain ⟨both, hboth, hvalues⟩ :=
    exists_both halong₁ hleft.within halong₂ hright.within hmerges.apart htouched htouched'
  refine ⟨merged, both, fun later => ?_, fun later => ?_, hboth, hvalues,
    fun edits hedits later => ?_⟩
  · have hweight : merged.score - moved.score - 0 = other.score - trace.score - 0 :=
      congrArg (· - 0) (hmerges.score_second halong halong₁)
    obtain ⟨records, back, hyields, -⟩ := hmerged.replay halong₁ (hprogram₁.trans hprogram.symm)
      (hmerges.given htouched') (hmerges.covered htouched') later
    rw [Scale.minus_rat, Scale.minus_rat, Scale.certain_rat, hweight] at hyields
    exact ⟨records, back, hyields⟩
  · have hweight : merged.score - other.score - 0 = moved.score - trace.score - 0 :=
      congrArg (· - 0) (hmerges.symm.score_second halong halong₂)
    obtain ⟨records, back, hyields, -⟩ := hmerged.replay halong₂ (hprogram₂.trans hprogram.symm)
      (hmerges.symm.given htouched) (hmerges.symm.covered htouched) later
    rw [Scale.minus_rat, Scale.minus_rat, Scale.certain_rat, hweight] at hyields
    exact ⟨records, back, hyields⟩
  · have hweight : merged.score - trace.score - 0 =
        (moved.score - trace.score - 0) + (other.score - trace.score - 0) := by
      simp only [LogWeight.sub_zero]
      exact hmerges.score_both halong
    have hfound (path : Path) := (hedits path).trans (hvalues path)
    obtain ⟨records, back, hyields, -⟩ := hmerged.replay halong
      (htrace.program_eq.trans hprogram.symm)
      (fun path value hvalue => by
        rw [hfound]
        exact hmerges.given_both htouched htouched' path value hvalue)
      (fun path hedit => hmerges.covered_both htouched htouched' path (hfound path ▸ hedit)) later
    rw [Scale.minus_rat, Scale.minus_rat, Scale.certain_rat, hweight] at hyields
    exact ⟨records, back, hyields⟩

/-- An edit of the text of one position is inside the tree there. -/
theorem inside_text (index : Int) (word : String) (value : Value) :
    (Choices.nested (.text "tree") (.value (key index word) value .empty) .empty).Inside index := by
  intro path hpath
  obtain ⟨entry, hentry, heq⟩ := Table.exists_of_get?_isSome hpath
  obtain rfl := List.mem_singleton.mp hentry
  exact ⟨index, .text word, ⟨[], rfl⟩, BEq.symm heq⟩

/-- The two colours of an obligation are changed one after the other, or both at once. -/
theorem updates_commute_uneven :
    ∃ (trace moved other merged : Trace ℚ LogWeight Tree) (first second both : Choices)
      (weight weight' : LogWeight), uneven.model.Obtained trace ∧
      first.Inside 2 ∧ second.Inside 3 ∧ ¬ Below 2 3 ∧ ¬ Below 3 2 ∧
      (∃ records back, (moved.update second).Yields ⟨[], []⟩ (some merged, weight', back)
        ⟨[], records⟩) ∧
      (∃ records back, (other.update first).Yields ⟨[], []⟩ (some merged, weight, back)
        ⟨[], records⟩) ∧
      ∃ records back, (trace.update both).Yields ⟨[], []⟩ (some merged, weight + weight', back)
        ⟨[], records⟩ := by
  have hunit : UnitDraws ([1 / 2, 0, 1 / 3, 0, 2 / 3] : List ℚ) := by decide +kernel
  have hsides : Side.left ≠ .right := by decide
  have hij : ¬ Below (descend 1 [.left]) (descend 1 [.right]) := not_below_other le_rfl hsides
  have hji : ¬ Below (descend 1 [.right]) (descend 1 [.left]) := not_below_other le_rfl hsides.symm
  let first : Choices :=
    .nested (.text "tree") (.value (key 2 "Colour") (.text "red") .empty) .empty
  let second : Choices :=
    .nested (.text "tree") (.value (key 3 "Colour") (.text "red") .empty) .empty
  have hruns : uneven.model.simulate.any ⟨[1 / 2, 0, 1 / 3, 0, 2 / 3], []⟩
      (fun (trace : Trace ℚ LogWeight Tree) _ =>
        (trace.update first).any ⟨[], []⟩ (fun outcome _ => outcome.1.isSome) &&
          (trace.update second).any ⟨[], []⟩ fun outcome _ => outcome.1.isSome) = true := by
    decide +kernel
  obtain ⟨trace, _, htrace, hall⟩ := Act.exists_yields hruns
  obtain ⟨hfirst, hsecond⟩ := Bool.and_eq_true_iff.mp hall
  obtain ⟨⟨moved, weight, discard⟩, left, hmoved, hfirst⟩ := Act.exists_yields hfirst
  obtain ⟨⟨other, weight', discard'⟩, right, hother, hsecond⟩ := Act.exists_yields hsecond
  obtain ⟨moved, rfl⟩ := Option.isSome_iff_exists.mp hfirst
  obtain ⟨other, rfl⟩ := Option.isSome_iff_exists.mp hsecond
  have hundrawn {edits : Choices} {rest : Supply ℚ}
      {outcome : Option (Trace ℚ LogWeight Tree) × LogWeight × Choices}
      (h : (trace.update edits).Yields ⟨[], []⟩ outcome rest) : rest.draws = [] := by
    have hsuffix := trace.shortens_update edits ⟨[], []⟩
    rw [h] at hsuffix
    exact List.suffix_nil.mp hsuffix
  have hobtained : uneven.model.Obtained trace := .simulate hunit htrace
  obtain ⟨merged, both, hafter, hbefore, -, -, hboth⟩ := updates_commute validate_uneven rfl
    hobtained (show (1 : Int) ≤ 2 by decide) (show (1 : Int) ≤ 3 by decide) hij hji
    (inside_text 2 "Colour" (.text "red")) (inside_text 3 "Colour" (.text "red"))
    hmoved (hundrawn hmoved) hother (hundrawn hother)
  exact ⟨trace, moved, other, merged, first, second, both, weight, weight', hobtained,
    inside_text _ _ _, inside_text _ _ _, hij, hji, hafter _, hbefore _,
    hboth both (fun _ => rfl) ⟨[], []⟩⟩

end Grammar

end Deontic
