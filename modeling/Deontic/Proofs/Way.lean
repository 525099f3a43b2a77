import Deontic.Random.Sampler

/-! Ways through random programs.  A way is the row of choices that a run makes, each with its
address, its distribution and its value.  `Sampler.Reaches s way t` says that `s` goes this way and
is left with `t`; with a result as `t` the way is complete.  How the values came about plays no part
here, so a way belongs to the program and not to one manner of running it. -/

namespace Deontic

/-- A choice with the value chosen. -/
structure Visit (P : Type) where
  address : Path
  dist : Distribution P
  value : Value

namespace Visit

variable {P W : Type} [Scale P W]

def entry (visit : Visit P) : Path × Value := (visit.address, visit.value)

/-- The log-weight of the value chosen. -/
def density (visit : Visit P) : W := visit.dist.logDensity visit.value

/-- The same choice at an address below a key. -/
def under (key : Value) (visit : Visit P) : Visit P :=
  { visit with address := key :: visit.address }

@[simp] theorem address_under (key : Value) (visit : Visit P) :
    (visit.under key).address = key :: visit.address := rfl

end Visit

/-- Choices in the order in which they are made. -/
abbrev Way (P : Type) := List (Visit P)

namespace Way

variable {P W : Type} [Scale P W]

def addresses (way : Way P) : List Path := way.map Visit.address

def entries (way : Way P) : List (Path × Value) := way.map Visit.entry

/-- The log-weights of the choices added to one after the other. -/
def scoreFrom (start : W) (way : Way P) : W :=
  way.foldl (fun score visit => Scale.plus P score visit.density) start

/-- The log-weight of all choices. -/
def score (way : Way P) : W := way.scoreFrom (Scale.certain P)

def under (key : Value) (way : Way P) : Way P := way.map (Visit.under key)

/-- No address occurs twice. -/
def Distinct (way : Way P) : Prop := way.addresses.Pairwise fun a b => (a == b) = false

/-- Choices at one address have one value, if addresses decide values. -/
theorem value_eq {first second : Way P} {values : Path → Option Value}
    (hfirst : ∀ visit ∈ first, values visit.address = some visit.value)
    (hsecond : ∀ visit ∈ second, values visit.address = some visit.value) {a b : Visit P}
    (ha : a ∈ first) (hb : b ∈ second) (haddress : a.address = b.address) : a.value = b.value := by
  have hvalue := hfirst a ha
  rw [haddress, hsecond b hb] at hvalue
  exact (Option.some.inj hvalue).symm

theorem addresses_under (key : Value) (way : Way P) :
    (way.under key).addresses = way.addresses.map (key :: ·) := by
  rw [addresses, addresses, under, List.map_map, List.map_map]
  rfl

theorem entries_under (key : Value) (way : Way P) :
    (way.under key).entries = way.entries.map fun entry => (key :: entry.1, entry.2) := by
  rw [entries, entries, under, List.map_map, List.map_map]
  rfl

theorem pairwise_under {addresses : List Path} (h : addresses.Pairwise fun a b => (a == b) = false)
    (key : Value) : (addresses.map (key :: ·)).Pairwise fun a b => (a == b) = false := by
  rw [List.pairwise_map]
  apply h.imp
  intro a b hab
  rw [List.cons_beq_cons, hab, Bool.and_false]

theorem addresses_append (first second : Way P) :
    addresses (first ++ second) = first.addresses ++ second.addresses :=
  List.map_append

theorem under_append (key : Value) (first second : Way P) :
    under key (first ++ second) = under key first ++ under key second :=
  List.map_append

end Way

namespace Sampler

variable {P α β : Type}

/-- `Reaches s way t`: after the choices of `way`, `s` goes on as `t`. -/
inductive Reaches : Sampler P α → Way P → Sampler P α → Prop
  | refl (s : Sampler P α) : Reaches s [] s
  | note {record : Record} {rest t : Sampler P α} {way : Way P} :
      Reaches rest way t → Reaches (note record rest) way t
  | choose {address : Path} {dist : Distribution P} {value : Value} {next : Value → Sampler P α}
      {way : Way P} {t : Sampler P α} :
      Reaches (next value) way t →
        Reaches (choose address dist next) (⟨address, dist, value⟩ :: way) t

/-- A way that ends in a result. -/
def Follows (s : Sampler P α) (way : Way P) (result : α) : Prop := Reaches s way (pure result)

namespace Reaches

theorem trans {s t u : Sampler P α} {first second : Way P} (h : Reaches s first t)
    (k : Reaches t second u) : Reaches s (first ++ second) u := by
  induction h with
  | refl => exact k
  | note _ ih => exact note (ih k)
  | choose _ ih => exact choose (ih k)

theorem bind {s t : Sampler P α} {way : Way P} (h : Reaches s way t) (f : α → Sampler P β) :
    Reaches (s.bind f) way (t.bind f) := by
  induction h with
  | refl => exact refl _
  | note _ ih => exact note ih
  | choose _ ih => exact choose ih

theorem under {s t : Sampler P α} {way : Way P} (h : Reaches s way t) (key : Value) :
    Reaches (s.under key) (way.under key) (t.under key) := by
  induction h with
  | refl => exact refl _
  | note _ ih => exact note ih
  | choose _ ih => exact choose ih

/-- A way through a sequence ends in its first part, or completes that part and goes on. -/
theorem of_bind {s : Sampler P α} {f : α → Sampler P β} {way : Way P} {t : Sampler P β}
    (h : Reaches (s.bind f) way t) :
    (∃ s', Reaches s way s' ∧ t = s'.bind f) ∨
      ∃ a first second, way = first ++ second ∧ Follows s first a ∧ Reaches (f a) second t := by
  induction s generalizing way with
  | pure a => exact .inr ⟨a, [], way, rfl, refl _, h⟩
  | fail fault =>
    cases h
    exact .inl ⟨_, refl _, rfl⟩
  | note record rest ih =>
    cases h with
    | refl => exact .inl ⟨_, refl _, rfl⟩
    | note h =>
      rcases ih h with ⟨s', hs, ht⟩ | ⟨a, first, second, hway, hs, ht⟩
      · exact .inl ⟨s', note hs, ht⟩
      · exact .inr ⟨a, first, second, hway, note hs, ht⟩
  | choose address dist next ih =>
    cases h with
    | refl => exact .inl ⟨_, refl _, rfl⟩
    | choose h =>
      rcases ih _ h with ⟨s', hs, ht⟩ | ⟨a, first, second, hway, hs, ht⟩
      · exact .inl ⟨s', choose hs, ht⟩
      · exact .inr ⟨a, _ :: first, second, by rw [hway]; rfl, choose hs, ht⟩

theorem of_under {s : Sampler P α} {key : Value} {way : Way P} {t : Sampler P α}
    (h : Reaches (s.under key) way t) :
    ∃ inner s', way = Way.under key inner ∧ t = s'.under key ∧ Reaches s inner s' := by
  induction s generalizing way with
  | pure a => cases h; exact ⟨[], _, rfl, rfl, refl _⟩
  | fail fault => cases h; exact ⟨[], _, rfl, rfl, refl _⟩
  | note record rest ih =>
    cases h with
    | refl => exact ⟨[], _, rfl, rfl, refl _⟩
    | note h =>
      obtain ⟨inner, s', hway, ht, hs⟩ := ih h
      exact ⟨inner, s', hway, ht, note hs⟩
  | choose address dist next ih =>
    cases h with
    | refl => exact ⟨[], _, rfl, rfl, refl _⟩
    | choose h =>
      obtain ⟨inner, s', hway, ht, hs⟩ := ih _ h
      exact ⟨⟨address, dist, _⟩ :: inner, s', by rw [hway]; rfl, ht, choose hs⟩

end Reaches

theorem follows_pure {a b : α} {way : Way P} :
    Follows (.pure a : Sampler P α) way b ↔ way = [] ∧ a = b := by
  constructor
  · intro h; cases h; exact ⟨rfl, rfl⟩
  · rintro ⟨rfl, rfl⟩; exact .refl _

theorem not_follows_fail {fault : Fault} {way : Way P} {b : α} :
    ¬ Follows (.fail fault : Sampler P α) way b := nofun

theorem follows_note {record : Record} {rest : Sampler P α} {way : Way P} {b : α} :
    Follows (.note record rest) way b ↔ Follows rest way b := by
  constructor
  · intro h; cases h with | note h => exact h
  · exact .note

theorem follows_choose {address : Path} {dist : Distribution P} {next : Value → Sampler P α}
    {way : Way P} {b : α} :
    Follows (.choose address dist next) way b ↔
      ∃ value rest, way = ⟨address, dist, value⟩ :: rest ∧ Follows (next value) rest b := by
  constructor
  · intro h; cases h with | choose h => exact ⟨_, _, rfl, h⟩
  · rintro ⟨value, rest, rfl, h⟩; exact .choose h

theorem follows_bind {s : Sampler P α} {f : α → Sampler P β} {way : Way P} {b : β} :
    Follows (s.bind f) way b ↔
      ∃ a first second, way = first ++ second ∧ Follows s first a ∧ Follows (f a) second b := by
  constructor
  · intro h
    rcases h.of_bind with ⟨s', hs, ht⟩ | h
    · cases s' with
      | pure a =>
        have hresult : f a = .pure b := ht.symm
        exact ⟨a, way, [], by simp, hs, by rw [hresult]; exact .refl _⟩
      | fail => cases ht
      | note => cases ht
      | choose => cases ht
    · exact h
  · rintro ⟨a, first, second, rfl, hs, hf⟩
    exact (hs.bind f).trans hf

theorem follows_under {s : Sampler P α} {key : Value} {way : Way P} {b : α} :
    Follows (s.under key) way b ↔ ∃ inner : Way P, way = inner.under key ∧ Follows s inner b := by
  constructor
  · intro h
    obtain ⟨inner, s', hway, ht, hs⟩ := h.of_under
    cases s' with
    | pure a => cases ht; exact ⟨inner, hway, hs⟩
    | fail => cases ht
    | note => cases ht
    | choose => cases ht
  · rintro ⟨inner, rfl, h⟩
    exact h.under key

theorem follows_sample {key : Value} {dist : Distribution P} {way : Way P} {value : Value} :
    Follows (sample key dist) way value ↔ way = [⟨[key], dist, value⟩] := by
  rw [sample, follows_choose]
  constructor
  · rintro ⟨_, _, rfl, h⟩
    obtain ⟨rfl, rfl⟩ := follows_pure.mp h
    rfl
  · rintro rfl
    exact ⟨_, _, rfl, .refl _⟩

theorem follows_ofExcept {result : Except Fault α} {way : Way P} {a : α} :
    Follows (ofExcept result) way a ↔ way = [] ∧ result = .ok a := by
  cases result with
  | error => exact ⟨fun h => (not_follows_fail h).elim, fun h => by cases h.2⟩
  | ok b => rw [ofExcept, follows_pure, Except.ok.injEq]

/-- Two complete ways on which each address has one value are the same way. -/
theorem Follows.unique {s : Sampler P α} {first second : Way P} {a b : α}
    (h : Follows s first a) (k : Follows s second b) (values : Path → Option Value)
    (hfirst : ∀ visit ∈ first, values visit.address = some visit.value)
    (hsecond : ∀ visit ∈ second, values visit.address = some visit.value) :
    first = second ∧ a = b := by
  induction s generalizing first second with
  | pure =>
    obtain ⟨rfl, rfl⟩ := follows_pure.mp h
    obtain ⟨rfl, rfl⟩ := follows_pure.mp k
    exact ⟨rfl, rfl⟩
  | fail => exact (not_follows_fail h).elim
  | note record rest ih => exact ih (follows_note.mp h) (follows_note.mp k) hfirst hsecond
  | choose address dist next ih =>
    obtain ⟨value, _, rfl, hnext⟩ := follows_choose.mp h
    obtain ⟨value', _, rfl, knext⟩ := follows_choose.mp k
    obtain ⟨hvalue, hrest⟩ := List.forall_mem_cons.mp hfirst
    obtain ⟨hvalue', hrest'⟩ := List.forall_mem_cons.mp hsecond
    obtain rfl : value = value' := Option.some.inj (hvalue.symm.trans hvalue')
    obtain ⟨rfl, rfl⟩ := ih value hnext knext hrest hrest'
    exact ⟨rfl, rfl⟩

end Sampler

end Deontic
