import Deontic.Proofs.Passage

/-! What a run has recorded at the end of a way: the addresses, the choices, the log-weights of all
choices and of the drawn ones, the draws that are left, and the discard.  A way of values at hand
and values drawn is admitted if its addresses are different and its entries can be written
(`admitsAll_of_drawn`).  Dropping the earlier values at different addresses leaves these values and
no others (`at?_foldl_dropInto`). -/

namespace Deontic

variable {P W : Type} [Scale P W] {setting : Setting}

namespace Way

/-- The choices whose values come from one place. -/
def ofOrigin (setting : Setting) (origin : Origin) (way : Way P) : Way P :=
  way.filter fun visit => setting.origin visit.address = origin

/-- `way.DrawnFrom draws rest`: the values are drawn one after the other from `draws`, and `rest`
is left. -/
def DrawnFrom (draws : List P) : Way P → List P → Prop
  | [], rest => draws = rest
  | visit :: way, rest =>
    visit.dist.sample draws = .ok (visit.value, draws.tail) ∧ DrawnFrom draws.tail way rest

end Way

/-- Nothing is drawn from nothing. -/
theorem Distribution.sample_ne_nil {dist : Distribution P} {draws : List P} {value : Value}
    (h : dist.sample draws = .ok (value, draws.tail)) : ∃ draw rest, draws = draw :: rest := by
  cases draws with
  | cons draw rest => exact ⟨draw, rest, rfl⟩
  | nil =>
    cases dist with
    | bernoulli yes => cases h
    | categorical weighted =>
      unfold sample at h
      dsimp only at h
      split at h <;> cases h

theorem Way.DrawnFrom.length {draws rest : List P} {way : Way P} (h : way.DrawnFrom draws rest) :
    draws.length = way.length + rest.length := by
  induction way generalizing draws with
  | nil => cases h; simp
  | cons visit way ih =>
    obtain ⟨hsample, hway⟩ := h
    obtain ⟨draw, later, rfl⟩ := Distribution.sample_ne_nil hsample
    have := ih hway
    simp only [List.length_cons, List.tail_cons] at this ⊢
    omega

/-- What is left does not depend on anything else. -/
theorem Way.DrawnFrom.unique {draws rest rest' : List P} {way : Way P}
    (h : way.DrawnFrom draws rest) (h' : way.DrawnFrom draws rest') : rest = rest' := by
  induction way generalizing draws with
  | nil => exact h.symm.trans h'
  | cons visit way ih => exact ih h.2 h'.2

theorem Way.DrawnFrom.suffix {draws rest : List P} {way : Way P} (h : way.DrawnFrom draws rest) :
    rest <:+ draws := by
  induction way generalizing draws with
  | nil => cases h; exact List.suffix_rfl
  | cons visit way ih => exact (ih h.2).trans (List.tail_suffix draws)

namespace Run

@[simp] theorem visited_pass (run : Run P W) (visit : Visit P) :
    (run.pass setting visit).visited = visit.address :: run.visited := by
  unfold pass enter
  cases setting.origin visit.address <;> rfl

theorem choices_pass {run : Run P W} {visit : Visit P} {choices : Choices}
    (h : run.choices.set visit.address visit.value = .ok choices) :
    (run.pass setting visit).choices = choices := by
  simp [pass, h, Except.toOption]

theorem visited_passes (run : Run P W) (way : Way P) :
    (run.passes setting way).visited = way.addresses.reverse ++ run.visited := by
  induction way generalizing run with
  | nil => rfl
  | cons visit rest ih => simp [passes_cons, ih, Way.addresses]

theorem score_passes (run : Run P W) (way : Way P) :
    (run.passes setting way).score = way.scoreFrom run.score := by
  induction way generalizing run with
  | nil => rfl
  | cons visit rest ih => rw [passes_cons, ih]; rfl

/-- What a run collects from the choices of one origin, it collects from these choices alone. -/
theorem passes_eq_foldl {β : Type} {part : Run P W → β} {collect : β → Visit P → β}
    {origin : Origin} (hpass : ∀ run visit, part (run.pass setting visit) =
      if setting.origin visit.address = origin then collect (part run) visit else part run)
    (run : Run P W) (way : Way P) :
    part (run.passes setting way) = (way.ofOrigin setting origin).foldl collect (part run) := by
  induction way generalizing run with
  | nil => rfl
  | cons visit rest ih =>
    rw [passes_cons, ih, hpass, Way.ofOrigin, Way.ofOrigin, List.filter_cons]
    by_cases horigin : setting.origin visit.address = origin
    · simp only [horigin, decide_true, if_true, List.foldl_cons]
    · simp only [horigin, decide_false, if_false, Bool.false_eq_true]

theorem fresh_passes (run : Run P W) (way : Way P) :
    (run.passes setting way).fresh = (way.ofOrigin setting .fresh).scoreFrom run.fresh := by
  refine passes_eq_foldl (fun run visit => ?_) run way
  unfold pass enter
  cases setting.origin visit.address <;> rfl

theorem forced_passes (run : Run P W) (way : Way P) :
    (run.passes setting way).forced = (way.ofOrigin setting .forced).scoreFrom run.forced := by
  refine passes_eq_foldl (fun run visit => ?_) run way
  unfold pass enter
  cases setting.origin visit.address <;> rfl

theorem discard_passes (run : Run P W) (way : Way P) :
    (run.passes setting way).discard =
      (way.ofOrigin setting .forced).addresses.foldl setting.dropInto run.discard := by
  rw [Way.addresses, List.foldl_map]
  refine passes_eq_foldl (fun run visit => ?_) run way
  unfold pass enter
  cases setting.origin visit.address <;> rfl

theorem choices_passes {run : Run P W} {way : Way P} (h : run.AdmitsAll setting way) :
    run.choices.setAll way.entries = .ok (run.passes setting way).choices := by
  induction way generalizing run with
  | nil => rfl
  | cons visit rest ih =>
    obtain ⟨choices, hset⟩ := h.1.room
    refine Choices.setAll_cons_eq_ok.mpr ⟨choices, hset, ?_⟩
    rw [← choices_pass hset]
    exact ih h.2

/-- The first choice is drawn if no value is at hand for it, and the drawn ones after it follow. -/
theorem drawnFrom_cons_iff {run : Run P W} {visit : Visit P} {later : Way P} {rest : List P} :
    (Way.ofOrigin setting .fresh (visit :: later)).DrawnFrom run.draws rest ↔
      (setting.given visit.address = none →
        visit.dist.sample run.draws = .ok (visit.value, run.draws.tail)) ∧
      (Way.ofOrigin setting .fresh later).DrawnFrom (run.pass setting visit).draws rest := by
  rw [← Setting.origin_fresh_iff, Way.ofOrigin, List.filter_cons]
  cases horigin : setting.origin visit.address with
  | fresh =>
    have hdraws : (run.pass setting visit).draws = run.draws.tail := by
      simp only [pass, enter, horigin]
    rw [hdraws]
    exact ⟨fun h => ⟨fun _ => h.1, h.2⟩, fun h => ⟨h.1 rfl, h.2⟩⟩
  | forced | kept =>
    have hdraws : (run.pass setting visit).draws = run.draws := by
      simp only [pass, enter, horigin]
    rw [hdraws]
    refine (and_iff_right fun hfresh => ?_).symm
    cases hfresh

theorem drawnFrom_passes {run : Run P W} {way : Way P} (h : run.AdmitsAll setting way) :
    (way.ofOrigin setting .fresh).DrawnFrom run.draws (run.passes setting way).draws := by
  induction way generalizing run with
  | nil => exact rfl
  | cons visit later ih =>
    exact drawnFrom_cons_iff.mpr ⟨fun hnone => (h.1.drawn hnone).2, ih h.2⟩

/-- With nothing given and nothing kept, all choices are drawn. -/
theorem drawnFrom_passes_free {run : Run P W} {way : Way P} (h : run.AdmitsAll .free way) :
    way.DrawnFrom run.draws (run.passes .free way).draws := by
  have hfresh : way.ofOrigin .free .fresh = way := List.filter_eq_self.mpr fun _ _ => rfl
  have hdrawn := drawnFrom_passes h
  rwa [hfresh] at hdrawn

theorem AdmitsAll.distinct {run : Run P W} {way : Way P} (h : run.AdmitsAll setting way) :
    way.Distinct ∧ ∀ address ∈ way.addresses, run.visited.contains address = false := by
  induction way generalizing run with
  | nil => exact ⟨.nil, nofun⟩
  | cons visit rest ih =>
    obtain ⟨hdistinct, hnew⟩ := ih h.2
    simp only [visited_pass, List.contains_cons, Bool.or_eq_false_iff] at hnew
    refine ⟨List.pairwise_cons.mpr ⟨fun address haddress => ?_, hdistinct⟩, ?_⟩
    · rw [BEq.comm]; exact (hnew address haddress).1
    · intro address haddress
      rcases List.mem_cons.mp haddress with rfl | haddress
      · exact h.1.unvisited
      · exact (hnew address haddress).2

/-- Every value that is at hand is taken, and is not impossible. -/
theorem AdmitsAll.given {run : Run P W} {way : Way P} (h : run.AdmitsAll setting way) :
    ∀ visit ∈ way, ∀ value, setting.given visit.address = some value →
      visit.value = value ∧ Scale.isImpossible P (visit.density : W) = false := by
  induction way generalizing run with
  | nil => exact nofun
  | cons visit rest ih => exact List.forall_mem_cons.mpr ⟨h.1.given, ih h.2⟩

theorem AdmitsAll.taken {run : Run P W} {way : Way P} (h : run.AdmitsAll setting way)
    {visit : Visit P} (hvisit : visit ∈ way) (hgiven : (setting.given visit.address).isSome) :
    setting.given visit.address = some visit.value ∧
      Scale.isImpossible P (visit.density : W) = false := by
  obtain ⟨value, hvalue⟩ := Option.isSome_iff_exists.mp hgiven
  obtain ⟨rfl, hpossible⟩ := h.given visit hvisit value hvalue
  exact ⟨hvalue, hpossible⟩

/-- A strict run has a value at hand for every choice. -/
theorem AdmitsAll.given_of_strict {run : Run P W} {way : Way P} (h : run.AdmitsAll setting way)
    (hstrict : setting.strict = true) :
    ∀ visit ∈ way, (setting.given visit.address).isSome := by
  induction way generalizing run with
  | nil => exact nofun
  | cons visit rest ih =>
    refine List.forall_mem_cons.mpr ⟨?_, ih h.2⟩
    rw [Option.isSome_iff_ne_none]
    intro hnone
    have hfree := (h.1.drawn hnone).1
    rw [hstrict] at hfree
    cases hfree

/-- A way is admitted if the values at hand are taken and possible, the others are drawn one after
the other, and all of them can be recorded. -/
theorem admitsAll_of_drawn {run : Run P W} {way : Way P} {rest : List P}
    (hgiven : ∀ visit ∈ way, ∀ value, setting.given visit.address = some value →
      visit.value = value ∧ Scale.isImpossible P (visit.density : W) = false)
    (hfree : ∀ visit ∈ way, setting.given visit.address = none → setting.strict = false)
    (hdrawn : (way.ofOrigin setting .fresh).DrawnFrom run.draws rest) (hdistinct : way.Distinct)
    (hnew : ∀ address ∈ way.addresses, run.visited.contains address = false)
    (hset : ∃ choices, run.choices.setAll way.entries = .ok choices) :
    run.AdmitsAll setting way := by
  induction way generalizing run with
  | nil => trivial
  | cons visit later ih =>
    obtain ⟨hvisit, hgiven⟩ := List.forall_mem_cons.mp hgiven
    obtain ⟨hloose, hfree⟩ := List.forall_mem_cons.mp hfree
    obtain ⟨hne, hdistinct⟩ := List.pairwise_cons.mp hdistinct
    obtain ⟨result, hset⟩ := hset
    obtain ⟨choices, hfirst, hrest⟩ := Choices.setAll_cons_eq_ok.mp hset
    obtain ⟨hsample, hleft⟩ := drawnFrom_cons_iff.mp hdrawn
    have hkeyed := ((Choices.exists_set_iff visit.value).mp ⟨choices, hfirst⟩).1
    have hfirst' : run.Admits setting visit := ⟨hkeyed, hnew _ List.mem_cons_self,
      ⟨choices, hfirst⟩, hvisit, fun hnone => ⟨hloose hnone, hsample hnone⟩⟩
    refine ⟨hfirst', ih hgiven hfree hleft hdistinct (fun address haddress => ?_) ⟨result, ?_⟩⟩
    · rw [visited_pass, List.contains_cons, Bool.or_eq_false_iff, BEq.comm]
      exact ⟨hne address haddress, hnew _ (List.mem_cons_of_mem _ haddress)⟩
    · rw [choices_pass hfirst]
      exact hrest

/-- A way whose values are at hand. -/
theorem admitsAll_of_given {run : Run P W} {way : Way P}
    (hgiven : ∀ visit ∈ way, setting.given visit.address = some visit.value ∧
      Scale.isImpossible P (visit.density : W) = false)
    (hdistinct : way.Distinct)
    (hnew : ∀ address ∈ way.addresses, run.visited.contains address = false)
    (hset : ∃ choices, run.choices.setAll way.entries = .ok choices) :
    run.AdmitsAll setting way := by
  have hnone : way.ofOrigin setting .fresh = [] := List.filter_eq_nil_iff.mpr fun visit hvisit => by
    rw [decide_eq_true_iff, Setting.origin_fresh_iff, (hgiven visit hvisit).1]
    exact Option.some_ne_none _
  have hdrawn : (way.ofOrigin setting .fresh).DrawnFrom run.draws run.draws := by
    rw [hnone]
    rfl
  refine admitsAll_of_drawn (fun visit hvisit value hvalue => ?_) (fun visit hvisit hmissing => ?_)
    hdrawn hdistinct hnew hset
  · rw [(hgiven visit hvisit).1] at hvalue
    exact ⟨Option.some.inj hvalue, (hgiven visit hvisit).2⟩
  · rw [(hgiven visit hvisit).1] at hmissing
    cases hmissing

end Run

/-! ### The discard -/

namespace Setting

/-- The earlier entries at addresses. -/
def earlier (setting : Setting) (addresses : List Path) : List (Path × Value) :=
  addresses.filterMap fun address => (setting.previous.get? address).map fun old => (address, old)

theorem dropInto_of_some {discard result : Choices} {address : Path} {old : Value}
    (h : setting.previous.get? address = some old) (hset : discard.set address old = .ok result) :
    setting.dropInto discard address = result := by
  simp [dropInto, h, hset, Except.toOption]

theorem foldl_dropInto {discard result : Choices} {addresses : List Path}
    (h : discard.setAll (setting.earlier addresses) = .ok result) :
    addresses.foldl setting.dropInto discard = result := by
  induction addresses generalizing discard with
  | nil => exact Except.ok.inj h
  | cons address rest ih =>
    rw [List.foldl_cons]
    cases hold : setting.previous.get? address with
    | none =>
      have hsame : setting.dropInto discard address = discard := by simp [dropInto, hold]
      rw [hsame]
      exact ih (by simpa [earlier, hold] using h)
    | some old =>
      have hentries : setting.earlier (address :: rest) =
          (address, old) :: setting.earlier rest := by
        simp [earlier, hold]
      rw [hentries] at h
      obtain ⟨next, hnext, hrest⟩ := Choices.setAll_cons_eq_ok.mp h
      rw [dropInto_of_some hold hnext]
      exact ih hrest

/-- Earlier values that can all be written in one row of choices. -/
structure Storable (previous : Table Path Value) : Prop where
  rooted : previous.get? [] = none
  compatible : ∀ a b, (previous.get? a).isSome → (previous.get? b).isSome →
    a.compatible b = true

theorem mem_earlier {addresses : List Path} {entry : Path × Value} :
    entry ∈ setting.earlier addresses ↔
      entry.1 ∈ addresses ∧ setting.previous.get? entry.1 = some entry.2 := by
  simp only [earlier, List.mem_filterMap, Option.map_eq_some_iff]
  constructor
  · rintro ⟨address, hmem, old, hold, rfl⟩
    exact ⟨hmem, hold⟩
  · rintro ⟨hmem, hold⟩
    exact ⟨entry.1, hmem, entry.2, hold, rfl⟩

theorem exists_setAll_earlier (hstorable : Storable setting.previous) {addresses : List Path}
    (hkeyed : ∀ address ∈ addresses, (setting.previous.get? address).isSome →
      address.check = .ok ()) :
    ∃ result, Choices.empty.setAll (setting.earlier addresses) = .ok result := by
  refine Choices.exists_setAll_iff.mpr ⟨fun entry hentry => ?_, ?_⟩
  · obtain ⟨hmem, hold⟩ := mem_earlier.mp hentry
    refine ⟨hkeyed _ hmem (by rw [hold]; rfl), Choices.hasRoom_empty fun hnil => ?_⟩
    rw [hnil, hstorable.rooted] at hold
    cases hold
  · apply List.Pairwise.imp_of_mem (R := fun _ _ => True)
    · intro a b ha hb _
      apply hstorable.compatible
      · rw [(mem_earlier.mp ha).2]; rfl
      · rw [(mem_earlier.mp hb).2]; rfl
    · exact List.pairwise_of_forall fun _ _ => trivial

theorem pairwise_earlier {addresses : List Path}
    (hdistinct : addresses.Pairwise fun a b => (a == b) = false) :
    (setting.earlier addresses).Pairwise fun a b => (a.1 == b.1) = false := by
  refine List.Pairwise.filterMap _ (fun a b hne x hx y hy => ?_) hdistinct
  obtain ⟨_, -, rfl⟩ := Option.map_eq_some_iff.mp hx
  obtain ⟨_, -, rfl⟩ := Option.map_eq_some_iff.mp hy
  exact hne

theorem find?_earlier (addresses : List Path) (path : Path) :
    ((setting.earlier addresses).find? fun entry => entry.1 == path).map Prod.snd =
      if addresses.contains path then setting.previous.get? path else none := by
  cases hfind : (setting.earlier addresses).find? fun entry => entry.1 == path with
  | some entry =>
    have heq : (entry.1 == path) = true :=
      List.find?_some (p := fun entry : Path × Value => entry.1 == path) hfind
    obtain ⟨hmem, hold⟩ := mem_earlier.mp (List.mem_of_find?_eq_some hfind)
    have hcontains : addresses.contains path = true := by
      rw [List.contains_iff_exists_mem_beq]
      exact ⟨entry.1, hmem, BEq.symm heq⟩
    rw [if_pos hcontains, ← Table.get?_congr _ heq, hold]
    rfl
  | none =>
    rw [List.find?_eq_none] at hfind
    split
    · next hcontains =>
      obtain ⟨address, hmem, heq⟩ := List.contains_iff_exists_mem_beq.mp hcontains
      cases hold : setting.previous.get? path with
      | none => rfl
      | some old =>
        have hearlier : (address, old) ∈ setting.earlier addresses :=
          mem_earlier.mpr ⟨hmem, by rw [← Table.get?_congr _ heq, hold]⟩
        exact absurd (BEq.symm heq) (hfind _ hearlier)
    · rfl

/-- Dropping different addresses leaves the earlier values at these and no others. -/
theorem at?_foldl_dropInto (hstorable : Storable setting.previous) {addresses : List Path}
    (hkeyed : ∀ address ∈ addresses, (setting.previous.get? address).isSome →
      address.check = .ok ())
    (hdistinct : addresses.Pairwise fun a b => (a == b) = false) :
    (addresses.foldl setting.dropInto .empty).Tidied ∧ ∀ path,
      (addresses.foldl setting.dropInto .empty).at? path =
        if addresses.contains path then setting.previous.get? path else none := by
  obtain ⟨result, hresult⟩ := exists_setAll_earlier hstorable hkeyed
  have hfold : addresses.foldl setting.dropInto .empty = result := foldl_dropInto hresult
  rw [hfold]
  refine ⟨Choices.Tidied.invariant.of_setAll hresult, fun path => ?_⟩
  rw [Choices.at?_setAll hresult (pairwise_earlier hdistinct), Choices.at?_empty, Option.or_none,
    find?_earlier]

end Setting

end Deontic
