import Deontic.Move
import Deontic.Proofs.Nesting
import Deontic.Proofs.Operations

/-! Replacements taken apart.  A replacement is an update with `Choices.edits`, the choices of the
proposal that grow the new part, moved from `"subtree"` to `"tree"`.  The choices that undo it are
`Choices.undoing`: those of the proposal that pick the node, and the discard of the update moved
from `"tree"` to `"subtree"`. -/

namespace Deontic

namespace Choices

/-- The edits that carry out a proposal. -/
def edits (proposed : Choices) : Choices :=
  empty.place (.text "tree") (proposed.under (.text "subtree"))

/-- The choices of the proposal that undoes a replacement. -/
def undoing (proposed discard : Choices) : Choices :=
  (empty.place (.text "pick_node") (proposed.under (.text "pick_node"))).place (.text "subtree")
    (discard.under (.text "tree"))

/-- The values below a key, read below another one. -/
def rekeyed (choices : Choices) (source target : String) : Path → Option Value
  | key :: next :: rest =>
    if Value.text target == key then choices.at? (.text source :: next :: rest) else none
  | _ => none

theorem rekeyed_text (choices : Choices) (source target : String) (next : Value) (rest : Path) :
    choices.rekeyed source target (.text target :: next :: rest) =
      choices.at? (.text source :: next :: rest) := by
  rw [rekeyed, BEq.rfl, if_pos rfl]

/-- Values that were moved to another key are moved on. -/
theorem rekeyed_of_at? {choices moved : Choices} {source target : String}
    (h : ∀ path, moved.at? path = choices.rekeyed source target path) (last : String) :
    moved.rekeyed target last = choices.rekeyed source last := by
  funext path
  rcases path with _ | ⟨key, _ | ⟨next, rest⟩⟩
  · rfl
  · rfl
  · rw [rekeyed, rekeyed, h, rekeyed_text]

theorem rekeyed_congr {a b : Choices} (h : ∀ path, a.at? path = b.at? path)
    (source target : String) : a.rekeyed source target = b.rekeyed source target := by
  funext path
  rcases path with _ | ⟨key, _ | ⟨next, rest⟩⟩
  · rfl
  · rfl
  · rw [rekeyed, rekeyed, h]

/-- The values of a way below one key, read below another one. -/
theorem rekeyed_eq_value? {P : Type} {choices : Choices} {way : Way P} {source target : String}
    (hway : ∀ visit ∈ way, visit.address ≠ [])
    (h : ∀ next rest, choices.at? (.text source :: next :: rest) = way.value? (next :: rest))
    (path : Path) :
    choices.rekeyed source target path = Way.value? (way.under (.text target)) path := by
  rcases path with _ | ⟨key, _ | ⟨next, rest⟩⟩
  · exact (Way.value?_under_nil _ way).symm
  · have hnil : way.value? [] = none := Way.value?_eq_none fun visit hvisit => by
      obtain ⟨_, _, haddress⟩ := List.exists_cons_of_ne_nil (hway visit hvisit)
      rw [haddress]
      rfl
    rw [Way.value?_under, hnil]
    exact (ite_self none).symm
  · rw [rekeyed, Way.value?_under, h]

/-- All values stand at two keys, the first of them a label. -/
def Labelled (labels : List String) (choices : Choices) : Prop :=
  ∀ path, (choices.at? path).isSome → ∃ label ∈ labels, ∃ key, path = [.text label, key]

theorem rekeyed_self (choices : Choices) (label : String) (key next : Value) (rest : Path) :
    choices.rekeyed label label (key :: next :: rest) =
      if Value.text label == key then choices.at? (key :: next :: rest) else none := by
  rw [rekeyed]
  split
  · next hkey => rw [Value.text_beq hkey]
  · rfl

theorem Labelled.eq_none {labels : List String} {choices : Choices} (h : choices.Labelled labels)
    {path : Path} (hpath : ∀ label ∈ labels, ∀ key, path ≠ [.text label, key]) :
    choices.at? path = none := by
  rw [← Option.not_isSome_iff_eq_none]
  intro hsome
  obtain ⟨label, hlabel, key, heq⟩ := h path hsome
  exact hpath label hlabel key heq

/-- Under one label, all values are those below it. -/
theorem Labelled.rekeyed_eq {label : String} {choices : Choices} (h : choices.Labelled [label])
    (path : Path) : choices.rekeyed label label path = choices.at? path := by
  rcases path with _ | ⟨key, _ | ⟨next, rest⟩⟩
  · exact (h.eq_none (by simp)).symm
  · exact (h.eq_none (by simp)).symm
  · rw [rekeyed_self]
    split
    · rfl
    · next hkey =>
      symm
      apply h.eq_none
      rintro _ hlabel _ ⟨⟩
      obtain rfl := List.mem_singleton.mp hlabel
      exact hkey BEq.rfl

/-- Under two labels, all values are those below the one or below the other. -/
theorem Labelled.or_rekeyed_eq {first second : String} {choices : Choices}
    (h : choices.Labelled [first, second]) (path : Path) :
    (choices.rekeyed second second path).or (choices.rekeyed first first path) =
      choices.at? path := by
  rcases path with _ | ⟨key, _ | ⟨next, rest⟩⟩
  · exact (h.eq_none (by simp)).symm
  · exact (h.eq_none (by simp)).symm
  · rw [rekeyed_self, rekeyed_self]
    cases hsecond : Value.text second == key with
    | true =>
      rw [if_pos rfl]
      split <;> simp
    | false =>
      cases hfirst : Value.text first == key with
      | true => simp
      | false =>
        symm
        apply h.eq_none
        rintro _ hlabel _ ⟨⟩
        rcases List.mem_cons.mp hlabel with rfl | hlabel
        · rw [BEq.rfl] at hfirst; cases hfirst
        · obtain rfl := List.mem_singleton.mp hlabel
          rw [BEq.rfl] at hsecond; cases hsecond

theorem Tidied.edits {proposed : Choices} (h : proposed.Tidied) : proposed.edits.Tidied :=
  Tidied.place (show empty.Tidied from trivial) (h.under _) _

theorem Tidied.undoing {proposed discard : Choices} (h : proposed.Tidied)
    (hdiscard : discard.Tidied) : (proposed.undoing discard).Tidied :=
  (Tidied.place (show empty.Tidied from trivial) (h.under _) _).place (hdiscard.under _) _

theorem at?_edits {proposed : Choices} (h : proposed.Tidied) (path : Path) :
    proposed.edits.at? path = proposed.rekeyed "subtree" "tree" path := by
  rcases path with _ | ⟨key, _ | ⟨next, rest⟩⟩
  · exact at?_nil _
  · exact value?_place ..
  · rw [edits, at?_place (show empty.Tidied from trivial) (h.under _), at?_under, at?_empty]
    rfl

theorem at?_undoing {proposed discard : Choices} (h : proposed.Tidied) (hdiscard : discard.Tidied)
    (path : Path) : (proposed.undoing discard).at? path =
      (discard.rekeyed "tree" "subtree" path).or
        (proposed.rekeyed "pick_node" "pick_node" path) := by
  have hempty : empty.Tidied := trivial
  have hpicked : (empty.place (.text "pick_node") (proposed.under (.text "pick_node"))).Tidied :=
    hempty.place (h.under _) _
  rcases path with _ | ⟨key, _ | ⟨next, rest⟩⟩
  · exact at?_nil _
  · exact (value?_place ..).trans (value?_place ..)
  · rw [undoing, at?_place hpicked (hdiscard.under _), at?_under, at?_place hempty (h.under _),
      at?_under, at?_empty, rekeyed, rekeyed]
    cases hkey : Value.text "subtree" == key with
    | false => rfl
    | true =>
      obtain rfl := Value.text_beq hkey
      have hne : (Value.text "pick_node" == Value.text "subtree") = false := by decide
      simp [hne]

/-- Below `"subtree"` the undoing choices are the discard, and below `"pick_node"` the proposal. -/
theorem rekeyed_undoing {proposed discard : Choices} (h : proposed.Tidied)
    (hdiscard : discard.Tidied) (source target : String) :
    (proposed.undoing discard).rekeyed source target =
      if source = "subtree" then discard.rekeyed "tree" target
      else if source = "pick_node" then proposed.rekeyed "pick_node" target
      else fun _ => none := by
  funext path
  rcases path with _ | ⟨key, _ | ⟨next, rest⟩⟩
  · split_ifs <;> rfl
  · split_ifs <;> rfl
  · rw [rekeyed, at?_undoing h hdiscard, rekeyed, rekeyed]
    simp only [Value.text_beq_text]
    rcases eq_or_ne source "subtree" with rfl | hsubtree
    · simp [rekeyed]
    rcases eq_or_ne source "pick_node" with rfl | hpick
    · simp [rekeyed]
    · simp [hsubtree, hsubtree.symm, hpick, hpick.symm]

end Choices

variable {P W α : Type} [Scale P W]

theorem Act.yields_lift {result : Except AddressFault α} {a b : α} (h : result = .ok a)
    {supply rest : Supply P} :
    (liftM result : Act P α).Yields supply b rest ↔ a = b ∧ supply = rest := by
  subst h
  exact Act.yields_pure

/-- What a replacement comes to. -/
theorem Trace.yields_replace {trace : Trace P W α} {proposed : Choices} {shown : String}
    {supply rest : Supply P} {moved : Option (Trace P W α)} {undo : Choices} {weight : W} :
    (trace.replace proposed shown).Yields supply (moved, undo, weight) rest ↔
      ∃ discard left, (trace.update proposed.edits).Yields supply (moved, weight, discard) left ∧
        undo = proposed.undoing discard ∧
        rest = { left with
          records := .replaced shown (Scale.weightDouble P weight) :: left.records } := by
  have hempty (s : String) (inner : Choices) : Choices.empty.setUnder (.text s) inner =
      .ok (Choices.empty.place (.text s) inner) := Choices.setUnder_eq_place inner rfl rfl
  have hpicked (s t : String) (first second : Choices) :
      (Choices.empty.place (.text s) first).setUnder (.text t) second =
        .ok ((Choices.empty.place (.text s) first).place (.text t) second) :=
    Choices.setUnder_eq_place second rfl (Choices.value?_place ..)
  constructor
  · intro h
    obtain ⟨_, _, hedits, h⟩ := Act.yields_bind.mp h
    obtain ⟨rfl, rfl⟩ := (Act.yields_lift (hempty _ _)).mp hedits
    obtain ⟨⟨_, _, discard⟩, left, hupdate, h⟩ := Act.yields_bind.mp h
    obtain ⟨_, _, hpick, h⟩ := Act.yields_bind.mp h
    obtain ⟨rfl, rfl⟩ := (Act.yields_lift (hempty _ _)).mp hpick
    obtain ⟨_, _, hundo, h⟩ := Act.yields_bind.mp h
    obtain ⟨rfl, rfl⟩ := (Act.yields_lift (hpicked _ _ _ _)).mp hundo
    obtain ⟨⟨⟩, _, htell, h⟩ := Act.yields_bind.mp h
    obtain ⟨htriple, rfl⟩ := Act.yields_pure.mp h
    cases htriple
    exact ⟨discard, left, hupdate, rfl, Act.yields_tell.mp htell⟩
  · rintro ⟨discard, left, hupdate, rfl, rfl⟩
    refine Act.yields_bind.mpr ⟨_, _, (Act.yields_lift (hempty _ _)).mpr ⟨rfl, rfl⟩, ?_⟩
    refine Act.yields_bind.mpr ⟨_, _, hupdate, ?_⟩
    refine Act.yields_bind.mpr ⟨_, _, (Act.yields_lift (hempty _ _)).mpr ⟨rfl, rfl⟩, ?_⟩
    refine Act.yields_bind.mpr ⟨_, _, (Act.yields_lift (hpicked _ _ _ _)).mpr ⟨rfl, rfl⟩, ?_⟩
    exact Act.yields_bind.mpr ⟨(), _, Act.yields_tell.mpr rfl, Act.yields_pure.mpr ⟨rfl, rfl⟩⟩

end Deontic
