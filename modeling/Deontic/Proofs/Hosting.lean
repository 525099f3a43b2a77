import Deontic.Proofs.Halting
import Deontic.Proofs.Surroundings
import Deontic.Proofs.Undoing

/-! Updates that put a tree into a place.  A `Site` is a trace of the model taken apart at a
position, with edits that are the choices of a tree grown there under some rule.  The update grows
the tree again under the rule of the place.  `Hosts` says how that can end without a draw: the rule
of the place derives the very tree, or it comes to a value of weight zero (`Site.yields_some`,
`Site.yields_none`, `Site.hosts_of_some`, `Site.hosts_of_none`). -/

namespace Deontic

variable {P W : Type} [Scale P W]

namespace Grammar

open Deontic.Tree

variable {grammar : Grammar P}

/-- Choices whose values are at hand and not impossible. -/
def AtHand (W : Type) [Scale P W] (values : Path → Option Value) (way : Way P) : Prop :=
  ∀ visit ∈ way, values visit.address = some visit.value ∧
    Scale.isImpossible P (visit.density : W) = false

theorem AtHand.values {values : Path → Option Value} {way : Way P} (h : AtHand W values way) :
    ∀ visit ∈ way, values visit.address = some visit.value :=
  fun visit hvisit => (h visit hvisit).1

theorem AtHand.isSome {values : Path → Option Value} {way : Way P} (h : AtHand W values way) :
    ∀ address ∈ way.addresses, (values address).isSome := by
  intro address haddress
  obtain ⟨visit, hvisit, rfl⟩ := List.mem_map.mp haddress
  rw [h.values visit hvisit]
  rfl

theorem AtHand.not_mem {values : Path → Option Value} {way : Way P} (h : AtHand W values way)
    {address : Path} {dist : Distribution P} {value : Value}
    (himpossible : Scale.isImpossible P (dist.logDensity value : W) = true) :
    ⟨address, dist, value⟩ ∉ way := by
  intro hmem
  have hpossible := (h _ hmem).2
  rw [Visit.density, himpossible] at hpossible
  cases hpossible

/-- A rule takes a tree at a position: with the values at hand it derives that tree, or it comes to
a value of weight zero. -/
inductive Hosts (grammar : Grammar P) (W : Type) [Scale P W] (values : Path → Option Value)
    (index : Int) (rule : String) (t : Tree) : Prop
  | derived {way : Way P} (hgrown : Grown grammar index rule way t) (hvalues : AtHand W values way)
  | barred {way : Way P} {address : Path} {dist : Distribution P} {value : Value}
      (hbegun : Begun grammar index rule way address dist) (hvalues : AtHand W values way)
      (hvalue : values address = some value)
      (himpossible : Scale.isImpossible P (dist.logDensity value : W) = true)

theorem Grown.shape_ne_empty {index : Int} {rule : String} {way : Way P} {t : Tree}
    (h : Grown grammar index rule way t) : t.shape ≠ .empty := by
  cases h with
  | leaf _ _ _ hbuilt =>
    obtain ⟨kind, rfl⟩ := Vocabulary.eq_of_buildLeaf hbuilt
    exact nofun
  | single _ _ _ hbuilt | pair _ _ _ _ hbuilt =>
    obtain ⟨kind, rfl, -⟩ := Vocabulary.eq_of_buildBranch hbuilt
    exact nofun

theorem Grown.sound {index : Int} {rule : String} {way : Way P} {t : Tree}
    (h : Grown grammar index rule way t) : t.Sound := by
  induction h with
  | leaf _ _ _ hbuilt =>
    obtain ⟨kind, rfl⟩ := Vocabulary.eq_of_buildLeaf hbuilt
    exact .leaf kind _
  | single _ _ _ hbuilt ih =>
    obtain ⟨kind, rfl, -⟩ := Vocabulary.eq_of_buildBranch hbuilt
    exact .branch kind ih .missing
  | pair _ _ _ _ hbuilt ihl ihr =>
    obtain ⟨kind, rfl, -⟩ := Vocabulary.eq_of_buildBranch hbuilt
    exact .branch kind ihl ihr

theorem word_eq {values : Path → Option Value} {index : Int} {weights weights' : Table String P}
    {word word' : String} {way way' : Way P}
    (hway : ∀ visit ∈ wordVisit index weights word :: way, values visit.address = some visit.value)
    (hway' : ∀ visit ∈ wordVisit index weights' word' :: way',
      values visit.address = some visit.value) : word = word' := by
  have hvalue := hway _ List.mem_cons_self
  have hvalue' := hway' _ List.mem_cons_self
  exact Value.text.inj (Option.some.inj (hvalue.symm.trans hvalue'))

/-- Rules that derive one tree with the same values derive it with the same entries. -/
theorem Grown.entries_eq {values : Path → Option Value} {index : Int} {rule rule' : String}
    {way way' : Way P} {t : Tree} (h : Grown grammar index rule way t)
    (h' : Grown grammar index rule' way' t)
    (hway : ∀ visit ∈ way, values visit.address = some visit.value)
    (hway' : ∀ visit ∈ way', values visit.address = some visit.value) :
    way.entries = way'.entries := by
  induction h generalizing rule' way' with
  | @leaf index _ word text _ _ _ _ _ _ hbuilt =>
    obtain ⟨kind, rfl⟩ := Vocabulary.eq_of_buildLeaf hbuilt
    cases h' with
    | @leaf _ _ _ text' _ _ _ _ _ _ hbuilt' =>
      obtain rfl := word_eq hway hway'
      have htext := hway _ (.tail _ List.mem_cons_self)
      have htext' := hway' _ (.tail _ List.mem_cons_self)
      obtain rfl : text = text' := Value.text.inj (Option.some.inj (htext.symm.trans htext'))
      rfl
    | single _ _ _ hbuilt' | pair _ _ _ _ hbuilt' =>
      obtain ⟨_, heq, -⟩ := Vocabulary.eq_of_buildBranch hbuilt'
      cases heq
  | single _ _ _ hbuilt ih =>
    obtain ⟨kind, rfl, -⟩ := Vocabulary.eq_of_buildBranch hbuilt
    cases h' with
    | leaf _ _ _ hbuilt' =>
      obtain ⟨_, heq⟩ := Vocabulary.eq_of_buildLeaf hbuilt'
      cases heq
    | single _ _ hleft' hbuilt' =>
      obtain ⟨_, heq, -⟩ := Vocabulary.eq_of_buildBranch hbuilt'
      cases heq
      obtain rfl := word_eq hway hway'
      have hrest := ih hleft' (List.forall_mem_cons.mp hway).2 (List.forall_mem_cons.mp hway').2
      exact congrArg (List.cons _) hrest
    | pair _ _ _ hright' hbuilt' =>
      obtain ⟨_, heq, -⟩ := Vocabulary.eq_of_buildBranch hbuilt'
      cases heq
      exact (hright'.shape_ne_empty rfl).elim
  | pair _ _ _ hright hbuilt ihl ihr =>
    obtain ⟨kind, rfl, -⟩ := Vocabulary.eq_of_buildBranch hbuilt
    cases h' with
    | leaf _ _ _ hbuilt' =>
      obtain ⟨_, heq⟩ := Vocabulary.eq_of_buildLeaf hbuilt'
      cases heq
    | single _ _ _ hbuilt' =>
      obtain ⟨_, heq, -⟩ := Vocabulary.eq_of_buildBranch hbuilt'
      cases heq
      exact (hright.shape_ne_empty rfl).elim
    | pair _ _ hleft' hright' hbuilt' =>
      obtain ⟨_, heq, -⟩ := Vocabulary.eq_of_buildBranch hbuilt'
      cases heq
      obtain rfl := word_eq hway hway'
      obtain ⟨hlefts, hrights⟩ := List.forall_mem_append.mp (List.forall_mem_cons.mp hway).2
      obtain ⟨hlefts', hrights'⟩ := List.forall_mem_append.mp (List.forall_mem_cons.mp hway').2
      have hfirst := ihl hleft' hlefts hlefts'
      have hsecond := ihr hright' hrights hrights'
      simp only [Way.entries, List.map_cons, List.map_append] at hfirst hsecond ⊢
      rw [hfirst, hsecond]
      rfl

/-! ### Traces of derivations -/

theorem Within.exists_setAll {index : Int} {way : Way P} (h : Within index way.addresses) :
    ∃ choices, Choices.empty.setAll (way.under (.text "tree")).entries = .ok choices := by
  apply Choices.exists_setAll_of_length 1
  intro entry hentry
  rw [Way.entries_under] at hentry
  obtain ⟨⟨address, value⟩, hmem, rfl⟩ := List.mem_map.mp hentry
  obtain ⟨visit, hvisit, heq⟩ := List.mem_map.mp hmem
  obtain ⟨j, name, -, haddress⟩ := h visit.address (List.mem_map_of_mem hvisit)
  obtain rfl : address = [key j name] := by rw [← haddress, ← (Prod.mk.inj heq).1]
  exact ⟨rfl, rfl⟩

theorem Grown.exists_along {way : Way P} {t : Tree} (h : Grown grammar 1 grammar.root way t)
    (hnames : grammar.Distinguished)
    (hpossible : ∀ visit ∈ way, Scale.isImpossible P (visit.density : W) = false) :
    ∃ trace : Trace P W Tree, trace.Along (way.under (.text "tree")) ∧
      trace.program = grammar.model ∧ trace.result = t := by
  refine Program.exists_along (fun calls hcalls => ?_) ?_ h.within.exists_setAll
    fun visit hvisit => ?_
  · rw [Way.under, List.length_map] at hcalls
    exact (h.follows hcalls).under _
  · rw [Way.Distinct, Way.addresses_under]
    exact Way.pairwise_under (h.distinct hnames (Int.le_refl 1)) _
  · obtain ⟨inner, hinner, rfl⟩ := List.mem_map.mp hvisit
    exact hpossible inner hinner

/-- Paths that do not lead to a choice for a position in the tree at an index. -/
def Outside (index : Int) (path : Path) : Prop :=
  ∀ j name, Below index j → (path == [.text "tree", key j name]) = false

theorem Grown.value?_outside {index : Int} {rule : String} {way : Way P} {t : Tree}
    (h : Grown grammar index rule way t) {path : Path} (hpath : Outside index path) :
    Way.value? (way.under (.text "tree")) path = none := by
  apply Way.value?_eq_none
  intro visit hvisit
  obtain ⟨inner, hinner, rfl⟩ := List.mem_map.mp hvisit
  obtain ⟨j, name, hbelow, haddress⟩ := h.exists_key inner hinner
  rw [Visit.address_under, haddress, BEq.comm]
  exact hpath j name hbelow

theorem outside_of_not_below {index j : Int} (h : ¬ Below index j) (name : String) :
    Outside index [.text "tree", key j name] := by
  intro i other hi
  rw [List.cons_beq_cons, BEq.rfl, Bool.true_and]
  apply keyed_ne
  left
  rintro rfl
  exact h hi

/-- The choices of the surroundings are all outside. -/
theorem Around.value?_inside {index : Int} {rule gap : String} {steps : List Side}
    {before after : Way P} {plug : Tree → Tree}
    (h : Around grammar index rule steps gap before after plug) (hindex : 1 ≤ index) {path : Path}
    (hpath : ¬ Outside (descend index steps) path) :
    Way.value? ((before ++ after).under (.text "tree")) path = none := by
  apply Way.value?_eq_none
  intro visit hvisit
  obtain ⟨inner, hinner, rfl⟩ := List.mem_map.mp hvisit
  obtain ⟨j, name, hj, haddress⟩ := h.outside hindex inner hinner
  rw [Bool.eq_false_iff, Visit.address_under, haddress]
  refine fun heq => hpath fun i other hi => ?_
  rw [← BEq.congr_left heq]
  exact outside_of_not_below hj name i other hi

end Grammar

/-! ### Sites -/

/-- What an update finds at an address below `"tree"`: the edit, else the value of the trace. -/
def Trace.found (trace : Trace P W Tree) (edits : Choices) (address : Path) : Option Value :=
  (edits.at? (.text "tree" :: address)).or (trace.choices.at? (.text "tree" :: address))

theorem Trace.given_found {trace : Trace P W Tree} {way : Way P} (h : trace.Along way)
    {edits : Choices} (htidied : edits.Tidied) (address : Path) :
    (Setting.revising edits trace.choices).given (.text "tree" :: address) =
      trace.found edits address := by
  rw [Trace.given_revising h, Choices.get?_flatten htidied, Trace.found]

open Deontic.Tree Deontic.Grammar

/-- A trace of the model taken apart at a position, and edits that grow a tree there. -/
structure Site (grammar : Grammar P) (trace : Trace P W Tree) (edits : Choices) where
  steps : List Side
  gap : String
  before : Way P
  inner : Way P
  after : Way P
  plug : Tree → Tree
  node : Tree
  around : Around grammar 1 grammar.root steps gap before after plug
  inside : Grown grammar (descend 1 steps) gap inner node
  along : trace.Along (Way.under (.text "tree") (before ++ (inner ++ after)))
  program : trace.program = grammar.model
  result : trace.result = plug node
  rule : String
  growth : Way P
  subtree : Tree
  grown : Grown grammar (descend 1 steps) rule growth subtree
  likely : ∀ visit ∈ growth, Scale.isImpossible P (visit.density : W) = false
  tidied : edits.Tidied
  edited : ∀ path, edits.at? path = Way.value? (growth.under (.text "tree")) path
  names : grammar.Distinguished

namespace Site

variable {grammar : Grammar P} {trace : Trace P W Tree} {edits : Choices}
  (site : Site grammar trace edits)

/-- The index of the position. -/
def index : Int := descend 1 site.steps

theorem one_le_index : 1 ≤ site.index := descend_pos (Int.le_refl 1) site.steps

theorem possible {visit : Visit P} (h : visit ∈ site.before ++ (site.inner ++ site.after)) :
    Scale.isImpossible P (visit.density : W) = false :=
  site.along.possible (visit.under (.text "tree")) (List.mem_map_of_mem h)

theorem possible_inner :
    ∀ visit ∈ site.inner, Scale.isImpossible P (visit.density : W) = false :=
  fun _ hvisit => site.possible (List.mem_append_right _ (List.mem_append_left _ hvisit))

include site in
theorem sound : trace.result.Sound := site.result ▸ (site.around.grown site.inside).sound

/-- The choices of the surroundings keep their values. -/
theorem atHand_outside : AtHand W (trace.found edits) (site.before ++ site.after) := by
  intro visit hvisit
  have hmem : visit ∈ site.before ++ (site.inner ++ site.after) := by
    rcases List.mem_append.mp hvisit with h | h
    · exact List.mem_append_left _ h
    · exact List.mem_append_right _ (List.mem_append_right _ h)
  refine ⟨?_, site.possible hmem⟩
  obtain ⟨j, name, hj, haddress⟩ := site.around.outside (Int.le_refl 1) visit hvisit
  have hnone : edits.at? (.text "tree" :: visit.address) = none := by
    rw [site.edited, haddress]
    exact site.grown.value?_outside (outside_of_not_below hj name)
  rw [Trace.found, hnone, Option.none_or, site.along.at?_choices]
  exact Way.value?_of_mem site.along.distinct (List.mem_map_of_mem (f := Visit.under _) hmem)

theorem atHand_whole {new : Way P} (hnew : AtHand W (trace.found edits) new) :
    AtHand W (trace.found edits) (site.before ++ (new ++ site.after)) := by
  obtain ⟨hbefore, hafter⟩ := List.forall_mem_append.mp site.atHand_outside
  exact List.forall_mem_append.mpr ⟨hbefore, List.forall_mem_append.mpr ⟨hnew, hafter⟩⟩

theorem found_growth : ∀ visit ∈ site.growth,
    trace.found edits visit.address = some visit.value := by
  intro visit hvisit
  have hdistinct : (Way.under (.text "tree") site.growth).Distinct := by
    rw [Way.Distinct, Way.addresses_under]
    exact Way.pairwise_under (site.grown.distinct site.names site.one_le_index) _
  have hvalue := Way.value?_of_mem hdistinct (List.mem_map_of_mem (f := Visit.under _) hvisit)
  rw [Trace.found, site.edited, ← Visit.address_under, hvalue]
  rfl

/-- Different addresses at which the update finds values are fewer than the nested calls allowed. -/
theorem length_lt_calls (site : Site grammar trace edits) {addresses : List Path}
    (hdistinct : addresses.Pairwise fun a b => (a == b) = false)
    (hfound : ∀ address ∈ addresses, (trace.found edits address).isSome) (draws : List P) :
    addresses.length < Program.calls (.revising edits trace.choices) draws := by
  have hunder : _ < Program.calls (.revising edits trace.choices) draws :=
    Program.length_lt_calls (Way.pairwise_under hdistinct (.text "tree")) (fun path hpath => by
      obtain ⟨address, haddress, rfl⟩ := List.mem_map.mp hpath
      rw [Trace.given_found site.along site.tidied]
      exact hfound address haddress) draws
  rwa [List.length_map] at hunder

theorem length_before (draws : List P) :
    site.before.length ≤ Program.calls (.revising edits trace.choices) draws := by
  have hwhole := site.around.grown site.inside
  have hlength := site.length_lt_calls (hwhole.distinct site.names (Int.le_refl 1))
    (fun path hpath => by
      obtain ⟨visit, hvisit, rfl⟩ := List.mem_map.mp hpath
      have hvalue := Way.value?_of_mem site.along.distinct
        (List.mem_map_of_mem (f := Visit.under _) hvisit)
      rw [Trace.found, Option.isSome_or, ← Visit.address_under, site.along.at?_choices, hvalue]
      exact Bool.or_true _) draws
  rw [Way.addresses, List.length_map, List.length_append] at hlength
  omega

/-- If the rule of the place derives the tree, the update grows it there, between the choices of the
surroundings. -/
theorem exists_update {new : Way P} (hnew : Grown grammar site.index site.gap new site.subtree)
    (hvalues : AtHand W (trace.found edits) new) (supply : Supply P) :
    ∃ moved weight discard records, (trace.update edits).Yields supply
        (some moved, weight, discard) ⟨supply.draws, records⟩ ∧
      moved.Along (Way.under (.text "tree") (site.before ++ (new ++ site.after))) ∧
      moved.program = grammar.model ∧ moved.result = site.plug site.subtree := by
  have hfound := site.atHand_whole hvalues
  obtain ⟨moved, hmoved, hprogram, hresult⟩ := (site.around.grown hnew).exists_along site.names
    fun visit hvisit => (hfound visit hvisit).2
  -- both rules derive the tree with the same entries, so the new run uses up the edits
  have hentries := site.grown.entries_eq hnew site.found_growth hvalues.values
  have hgiven (path : Path) (value : Value) (hvalue : moved.choices.at? path = some value) :
      (edits.flatten.get? path).or (trace.choices.at? path) = some value := by
    rw [hmoved.at?_choices] at hvalue
    obtain ⟨visit, hvisit, heq, rfl⟩ := Way.exists_of_value? hvalue
    obtain ⟨inner, hinner, rfl⟩ := List.mem_map.mp hvisit
    rw [Choices.get?_flatten site.tidied, ← Choices.at?_congr _ heq, ← Choices.at?_congr _ heq]
    exact (hfound inner hinner).1
  have hcovered (path : Path) (hpath : (edits.flatten.get? path).isSome) :
      (moved.choices.at? path).isSome := by
    rw [Choices.get?_flatten site.tidied, site.edited, Way.value?_under_congr hentries] at hpath
    rw [hmoved.at?_choices, Way.under_append, Way.under_append, Way.value?_append,
      Way.value?_append, Option.isSome_or, Option.isSome_or, hpath]
    simp
  obtain ⟨records, discard, hupdate, -⟩ := hmoved.replay site.along
    (site.program.trans hprogram.symm) hgiven hcovered supply
  exact ⟨moved, _, discard, records, hupdate, hmoved, hprogram, hresult⟩

/-- If the rule of the place derives the tree, the update puts it there and changes nothing else. -/
theorem yields_some {new : Way P} (hnew : Grown grammar site.index site.gap new site.subtree)
    (hvalues : AtHand W (trace.found edits) new) (supply : Supply P) :
    ∃ moved weight discard records, (trace.update edits).Yields supply
        (some moved, weight, discard) ⟨supply.draws, records⟩ ∧
      trace.result.replaceAt site.index site.subtree = .ok moved.result ∧
      ∀ path, Outside site.index path → moved.choices.at? path = trace.choices.at? path := by
  obtain ⟨moved, weight, discard, records, hupdate, hmoved, -, hresult⟩ :=
    site.exists_update hnew hvalues supply
  refine ⟨moved, weight, discard, records, hupdate, ?_, fun path hpath => ?_⟩
  · rw [index, replaceAt_descend, site.result, hresult]
    exact site.around.regrow site.node site.subtree
  · rw [hmoved.at?_choices, site.along.at?_choices]
    simp only [Way.under_append, Way.value?_append, hnew.value?_outside hpath,
      site.inside.value?_outside hpath]

/-- If the rule of the place comes to a value of weight zero, the update stops there. -/
theorem yields_none {way : Way P} {address : Path} {dist : Distribution P} {value : Value}
    (hbegun : Begun grammar site.index site.gap way address dist)
    (hvalues : AtHand W (trace.found edits) way) (hvalue : trace.found edits address = some value)
    (himpossible : Scale.isImpossible P (dist.logDensity value : W) = true) (supply : Supply P) :
    ∃ discard records, (trace.update edits).Yields supply
      (none, Scale.impossible P, discard) ⟨supply.draws, records⟩ := by
  have hwhole := site.around.begun hbegun
  have hfound : AtHand W (trace.found edits) (site.before ++ way) :=
    List.forall_mem_append.mpr ⟨(List.forall_mem_append.mp site.atHand_outside).1, hvalues⟩
  have hgiven (address : Path) := Trace.given_found site.along site.tidied address
  have hdistinct := hwhole.distinct site.names (Int.le_refl 1)
  have hcalls := site.length_lt_calls hdistinct (fun path hpath => by
    rcases List.mem_append.mp hpath with hpath | hpath
    · exact hfound.isSome path hpath
    · rw [List.mem_singleton.mp hpath, hvalue]
      rfl) supply.draws
  rw [List.length_append, Way.addresses, List.length_map] at hcalls
  obtain ⟨next, hreaches⟩ := hwhole.reaches (Nat.lt_of_succ_lt hcalls)
  have hmodel : (trace.program (Program.calls (.revising edits trace.choices) supply.draws)).Reaches
      (Way.under (.text "tree") (site.before ++ way)) (.choose (.text "tree" :: address) dist
        fun value => (next value).under (.text "tree")) := by
    rw [site.program]
    exact hreaches.under _
  obtain ⟨j, name, -, rfl⟩ := hbegun.within address (List.mem_append_right _ List.mem_cons_self)
  obtain ⟨run, hexecute⟩ := Program.yields_of_reaches supply hmodel (fun visit hvisit => by
      obtain ⟨inner, hinner, rfl⟩ := List.mem_map.mp hvisit
      rw [Visit.address_under, hgiven]
      exact hfound inner hinner)
    ((hgiven _).trans hvalue) himpossible
    (by rw [Way.addresses_under, ← List.map_singleton, ← List.map_append]
        exact Way.pairwise_under hdistinct _) rfl
    (Within.exists_setAll (List.forall_mem_append.mp hwhole.within).1)
  exact ⟨run.discard, run.records,
    Trace.yields_update.mpr ⟨.error _, run, hexecute, rfl, rfl, rfl⟩⟩

/-- An update that puts the tree there without a draw derives it from the rule of the place. -/
theorem hosts_of_some {moved : Trace P W Tree} {weight : W} {discard : Choices}
    {supply rest : Supply P}
    (hupdate : (trace.update edits).Yields supply (some moved, weight, discard) rest)
    (hdraws : rest.draws = supply.draws)
    (hresult : trace.result.replaceAt site.index site.subtree = .ok moved.result) :
    grammar.Hosts W (trace.found edits) site.index site.gap site.subtree := by
  obtain ⟨way, hmoved, hrevision, -⟩ := site.along.exists_undrawn_revision
    (site.program ▸ grammar.steady_model) hupdate hdraws
  have hprogram : moved.program = grammar.model := hrevision.program.trans site.program
  obtain ⟨whole, rfl, hwhole⟩ := Sampler.follows_under.mp
    (hmoved.follows_program hprogram (Nat.le_add_left way.length site.before.length))
  have hfound : ∀ visit ∈ whole, trace.found edits visit.address = some visit.value := by
    intro visit hvisit
    have hvalue := Way.value?_of_mem hmoved.distinct (List.mem_map_of_mem hvisit)
    rw [← hmoved.at?_choices] at hvalue
    have htaken := hrevision.values _ _ hvalue
    rw [Choices.get?_flatten site.tidied] at htaken
    exact Option.or_none.symm.trans htaken
  obtain ⟨hbefore, hafter⟩ := List.forall_mem_append.mp (site.atHand_outside (W := W)).values
  -- the new run makes the choices before the place, and goes on with the rule of the place there
  obtain ⟨left, onward, -, hreaches⟩ := site.around.reaches (Nat.le_add_right _ _)
  obtain ⟨later, rfl, hlater⟩ := hwhole.resume hreaches (trace.found edits) hbefore hfound
  obtain ⟨grown, first, second, rfl, hfirst, -⟩ := Sampler.follows_bind.mp hlater
  have hgrown := Grown.of_follows hfirst
  have hvalues := (List.forall_mem_append.mp (List.forall_mem_append.mp hfound).2).1
  obtain ⟨-, hsame⟩ := (Grown.of_follows hwhole).unique (site.around.grown hgrown)
    (trace.found edits) hfound (List.forall_mem_append.mpr
      ⟨hbefore, List.forall_mem_append.mpr ⟨hvalues, hafter⟩⟩)
  -- what it derives there is the proposed tree, because `plug` gives back what is plugged in
  rw [index, replaceAt_descend, site.result, site.around.regrow,
    Option.some.injEq, hsame] at hresult
  have htree := site.around.follow site.subtree
  rw [hresult, site.around.follow] at htree
  obtain rfl := Option.some.inj htree
  refine .derived hgrown fun visit hvisit => ⟨hvalues visit hvisit, ?_⟩
  apply hmoved.possible (visit.under (.text "tree"))
  exact List.mem_map_of_mem (List.mem_append_right _ (List.mem_append_left _ hvisit))

/-- An update that stops as impossible without a draw does so below the place. -/
theorem hosts_of_none {weight : W} {discard : Choices} {supply rest : Supply P}
    (hupdate : (trace.update edits).Yields supply (none, weight, discard) rest)
    (hdraws : rest.draws = supply.draws) :
    grammar.Hosts W (trace.found edits) site.index site.gap site.subtree := by
  obtain ⟨outcome, run, hexecute, -, hmoved⟩ := Trace.yields_update.mp hupdate
  cases outcome with
  | ok => cases hmoved.1
  | error address =>
    obtain ⟨way, dist, next, value, hreaches, hgiven, hvalue, himpossible⟩ :=
      Program.exists_reaches_of_yields hexecute hdraws
    rw [site.program] at hreaches
    obtain ⟨way, place, next, rfl, rfl, hplace⟩ := Sampler.Reaches.of_under_choose hreaches
    have hfound : AtHand W (trace.found edits) way := by
      intro visit hvisit
      rw [← Trace.given_found site.along site.tidied]
      exact hgiven (visit.under (.text "tree")) (List.mem_map_of_mem hvisit)
    rw [Trace.given_found site.along site.tidied] at hvalue
    obtain ⟨hbefore, -⟩ := List.forall_mem_append.mp (site.atHand_outside (W := W))
    obtain ⟨left, onward, -, hgap⟩ := site.around.reaches (site.length_before supply.draws)
    rcases hgap.resume hplace (trace.found edits) (AtHand.values hbefore) hfound.values hvalue with
      hmem | ⟨later, rfl, hlater⟩
    · exact (AtHand.not_mem hbefore himpossible hmem).elim
    rcases Sampler.Reaches.of_bind_choose hlater with ⟨_, hbegun⟩ | ⟨_, first, _, rfl, hfirst, -⟩
    · exact .barred (.of_reaches hbegun) (List.forall_mem_append.mp hfound).2 hvalue himpossible
    -- the derivation from the rule of the place is complete, so that nothing is left to stop at
    have hwhole := site.around.grown (.of_follows hfirst)
    have hall := site.atHand_whole
      (List.forall_mem_append.mp (List.forall_mem_append.mp hfound).2).1
    have hlength := site.length_lt_calls (hwhole.distinct site.names (Int.le_refl 1)) hall.isSome
      supply.draws
    rw [Way.addresses, List.length_map] at hlength
    rcases Sampler.Reaches.resume (hwhole.follows (Nat.le_of_lt hlength)) hplace (trace.found edits)
      hall.values hfound.values hvalue with hmem | ⟨rest, -, hrest⟩
    · exact (hall.not_mem himpossible hmem).elim
    · cases hrest

end Site

end Deontic
