import Deontic.Proofs.Return
import Deontic.Proofs.Revisions

/-! Runs of selections with flags.  A flag keeps the walk from stopping at branches, another one
from stopping at its start; `Permits` says what is left to select, and every walk over possible
values comes to such a selection (`Picked.permits`).  A selection of a leaf that is its own excluded
start fails at once (`fails_runSelect`).  Every other run comes to a selection that is permitted, or
it lacks a value or a draw, or it stops at a value of density zero (`selects`): it never comes to
where the walk has not stopped and has no part to go to.  Only a walk from the index 0 or -1, which
is the index of one of its own parts, may come back to an address. -/

namespace Deontic

namespace Tree

/-! ### What the flags permit -/

/-- The sides to which a walk turns: every second choice is a turn. -/
def turns : Way ℚ → List Side
  | _ :: turn :: rest => (if turn.value.isTrue then .left else .right) :: turns rest
  | _ => []

/-- The node at the end of a way down, with its index and its level, may be selected. -/
structure Permits (leafOnly excludeRoot : Bool) (t : Tree) (index depth : Int) (steps : List Side)
    (picked : Selection) : Prop where
  node : t.follow? steps = some picked.node
  position : picked.index = descend index steps
  level : picked.depth = depth + steps.length
  leaf : leafOnly = true → picked.node.shape.isTerminal = true
  below : excludeRoot = true → steps ≠ []

section Permits

variable {leafOnly excludeRoot : Bool} {index depth : Int} {steps : List Side}
  {picked : Selection}

/-- What may be selected in the part on a side may be selected, even if the start is excluded. -/
theorem Permits.of_part {t part : Tree} {side : Side}
    (hpart : ∀ rest, t.follow? (side :: rest) = part.follow? rest)
    (h : Permits leafOnly false part (descend index [side]) (depth + 1) steps picked) :
    Permits leafOnly excludeRoot t index depth (side :: steps) picked := by
  refine ⟨(hpart steps).trans h.node, ?_, ?_, h.leaf, fun _ => List.cons_ne_nil _ _⟩
  · rw [h.position, ← descend_append]
    rfl
  · rw [h.level, List.length_cons]
    omega

theorem Permits.le_depth {t : Tree}
    (h : Permits leafOnly excludeRoot t index depth steps picked) : depth ≤ picked.depth := by
  rw [h.level]
  omega

end Permits

/-- Stopping at a node is possible if the flags permit it. -/
theorem Sound.stop_pos_iff {t : Tree} (ht : t.Sound) {leafOnly excludeRoot : Bool} {stop : ℚ}
    (hstop : t.stopProbability leafOnly excludeRoot = .ok stop) :
    0 < stop ↔ excludeRoot = false ∧ (leafOnly = true → t.shape.isTerminal = true) := by
  cases ht with
  | leaf | missing =>
    cases excludeRoot with
    | true => cases hstop
    | false =>
      obtain rfl := Except.ok.inj hstop
      exact iff_of_true zero_lt_one ⟨rfl, fun _ => rfl⟩
  | @branch kind left right hleft hright =>
    have hsize := one_lt_size_ofBranch kind hleft hright
    obtain rfl := Except.ok.inj hstop
    cases excludeRoot <;> cases leafOnly
    · exact iff_of_true (one_div_pos.mpr (zero_lt_one.trans hsize)) ⟨rfl, nofun⟩
    · exact iff_of_false (lt_irrefl 0) fun h => nomatch h.2 rfl
    · exact iff_of_false (lt_irrefl 0) nofun
    · exact iff_of_false (lt_irrefl 0) nofun

/-- A walk over possible values comes to a node that may be selected. -/
theorem Picked.permits {leafOnly excludeRoot : Bool} {t : Tree} {index depth : Int} {way : Way ℚ}
    {picked : Selection} (h : Picked leafOnly excludeRoot t index depth way picked) (ht : t.Sound)
    (hpossible : ∀ visit ∈ way, (visit.density : LogWeight) ≠ ⊥) :
    Permits leafOnly excludeRoot t index depth (turns way) picked := by
  induction h with
  | @stop excludeRoot t index depth stop done hstop hdone =>
    have hpos := Scale.logOf_ne_bot.mp (hpossible _ List.mem_cons_self)
    rw [stopVisit, Distribution.density, if_pos hdone, ht.stop_pos_iff hstop] at hpos
    obtain ⟨rfl, hleaf⟩ := hpos
    exact ⟨follow?_nil t, rfl, (add_zero depth).symm, hleaf,
      fun hroot => (Bool.false_ne_true hroot).elim⟩
  | left _ _ hturn _ ih =>
    cases ht with
    | branch kind hleft hright =>
      rw [turns, turnVisit, if_pos hturn]
      exact .of_part (fun _ => rfl)
        (ih hleft fun visit hvisit => hpossible visit (.tail _ (.tail _ hvisit)))
  | right _ _ hturn _ ih =>
    cases ht with
    | branch kind hleft hright =>
      rw [turns, turnVisit, if_neg (by rw [hturn]; exact Bool.false_ne_true)]
      exact .of_part (fun _ => rfl)
        (ih hright fun visit hvisit => hpossible visit (.tail _ (.tail _ hvisit)))

/-! ### What a run comes to -/

/-- The selection as a program that does not bound its calls. -/
def selector (leafOnly excludeRoot : Bool) (t : Tree) (index depth : Int) : Program ℚ Selection :=
  fun _ => t.select leafOnly excludeRoot index depth

abbrev runSelect (leafOnly excludeRoot : Bool) (t : Tree) (index depth : Int) (setting : Setting) :
    Act ℚ (Except Path Selection × Run ℚ LogWeight) :=
  (selector leafOnly excludeRoot t index depth).execute setting

/-- What a run of a selection comes to.  Where it has come to a node, some constraint may still be
left over. -/
inductive Selects (leafOnly excludeRoot : Bool) (t : Tree) (index depth : Int) (setting : Setting)
    (supply : Supply ℚ) : Prop
  | reached {way : Way ℚ} {picked : Selection}
      (hfollows : (t.select leafOnly excludeRoot index depth).Follows way picked)
      (hadmits : (Run.start supply.draws [] : Run ℚ LogWeight).AdmitsAll setting way)
      (hpermits : Permits leafOnly excludeRoot t index depth (turns way) picked)
      (hends : (∃ run rest, (runSelect leafOnly excludeRoot t index depth setting).Yields supply
          (.ok picked, run) rest) ∨
        ∃ address, (runSelect leafOnly excludeRoot t index depth setting).Fails supply
          (.execution (.unvisited address)))
  | impossible {address : Path} {run : Run ℚ LogWeight} {rest : Supply ℚ}
      (hyields : (runSelect leafOnly excludeRoot t index depth setting).Yields supply
        (.error address, run) rest)
  | exhausted
      (hfails : (runSelect leafOnly excludeRoot t index depth setting).Fails supply
        (.supply .exhausted))
  | unvalued {address : Path}
      (hfails : (runSelect leafOnly excludeRoot t index depth setting).Fails supply
        (.execution (.unvalued address)))
  | repeated {address : Path} (hindex : index = 0 ∨ index = -1)
      (hfails : (runSelect leafOnly excludeRoot t index depth setting).Fails supply
        (.execution (.repeated address)))

section Runs

variable {leafOnly excludeRoot : Bool} {t : Tree} {index depth : Int} {setting : Setting}
  {supply : Supply ℚ}

/-- A selection that may not stop at its start, and has nowhere else to stop, fails. -/
theorem fails_runSelect (hleaf : t.shape.isTerminal = true) :
    (runSelect leafOnly true t index depth setting).Fails supply (.leafExcluded t) := by
  cases t with
  | branch => cases hleaf
  | leaf | empty => exact Program.fails_execute rfl

/-- Other selections fail over their draws or their addresses, and not over the tree. -/
theorem Selects.not_fails (h : Selects leafOnly excludeRoot t index depth setting supply)
    {fault : Fault} (hsupply : ∀ reason, fault ≠ .supply reason)
    (hexecution : ∀ reason, fault ≠ .execution reason) :
    ¬ (runSelect leafOnly excludeRoot t index depth setting).Fails supply fault := by
  intro hfails
  cases h with
  | reached _ _ _ hends =>
    rcases hends with ⟨run, rest, hyields⟩ | ⟨address, hfails'⟩
    · exact hfails.not_yields hyields
    · exact hexecution _ (hfails.unique hfails')
  | impossible hyields => exact hfails.not_yields hyields
  | exhausted hfails' => exact hsupply _ (hfails.unique hfails')
  | unvalued hfails' => exact hexecution _ (hfails.unique hfails')
  | repeated _ hfails' => exact hexecution _ (hfails.unique hfails')

/-- Walks that start elsewhere than at 0 and -1 do not come back to an address. -/
theorem index_of_repeated {way : Way ℚ} {address : Path} {dist : Distribution ℚ}
    {next : Value → Sampler ℚ Selection}
    (hreaches : (t.select leafOnly excludeRoot index depth).Reaches way
      (.choose address dist next))
    (hvisited : way.addresses.contains address = true) : index = 0 ∨ index = -1 := by
  by_contra hindex
  obtain ⟨hzero, hone⟩ := not_or.mp hindex
  obtain ⟨value, rest, picked, hpicked⟩ := exists_picked_of_reaches hreaches
  have hdistinct := hpicked.distinct_of_ne hzero hone
  rw [Way.Distinct, Way.addresses_append] at hdistinct
  obtain ⟨earlier, hearlier, hsame⟩ := List.contains_iff_exists_mem_beq.mp hvisited
  have hne := (List.pairwise_append.mp hdistinct).2.2 earlier hearlier address List.mem_cons_self
  rw [BEq.comm, hsame] at hne
  cases hne

theorem keyed_of_reaches (way : Way ℚ) (address : Path) (dist : Distribution ℚ)
    (next : Value → Sampler ℚ Selection)
    (hreaches : (t.select leafOnly excludeRoot index depth).Reaches way
      (.choose address dist next)) :
    ∀ place ∈ way.addresses ++ [address], place.check = .ok () ∧ place.length = 0 + 1 := by
  obtain ⟨value, rest, picked, hpicked⟩ := exists_picked_of_reaches hreaches
  intro place hplace
  apply hpicked.keyed place
  rw [Way.addresses_append]
  rcases List.mem_append.mp hplace with hearlier | hlast
  · exact List.mem_append_left _ hearlier
  · obtain rfl := List.mem_singleton.mp hlast
    exact List.mem_append_right _ List.mem_cons_self

theorem permits_of_admits (ht : t.Sound) (hdraws : UnitDraws supply.draws) {way : Way ℚ}
    {picked : Selection} (hfollows : (t.select leafOnly excludeRoot index depth).Follows way picked)
    (hadmits : (Run.start supply.draws [] : Run ℚ LogWeight).AdmitsAll setting way) :
    Permits leafOnly excludeRoot t index depth (turns way) picked := by
  have hfair := (fair_select leafOnly excludeRoot t index depth).of_follows hfollows
  exact (Picked.of_follows hfollows).permits ht (hadmits.possible hfair hdraws).1

/-- **Ends of selections.** -/
theorem selects (ht : t.Sound) (hopen : t.shape.isTerminal = true → excludeRoot = false)
    (hdraws : UnitDraws supply.draws) :
    Selects leafOnly excludeRoot t index depth setting supply := by
  cases hrun : (selector leafOnly excludeRoot t index depth
    (Program.calls setting supply.draws)).run setting
      (Run.start supply.draws supply.records : Run ℚ LogWeight) with
  | mk outcome run =>
  rcases outcome with (address | fault) | picked
  · exact .impossible (Program.yields_execute_run.mpr ⟨hrun, rfl⟩)
  · have hfails := Program.fails_execute hrun
    rcases Sampler.Lasts.faults (lasts_select hopen index depth) keyed_of_reaches hdraws hrun with
      rfl | ⟨address, rfl⟩ | ⟨way, address, dist, next, hreaches, hvisited, rfl⟩ |
        ⟨way, picked, address, hfollows, hadmits, rfl⟩
    · exact .exhausted hfails
    · exact .unvalued hfails
    · exact .repeated (index_of_repeated hreaches hvisited) hfails
    · have hadmits : (Run.start supply.draws [] : Run ℚ LogWeight).AdmitsAll setting way :=
        Run.admitsAll_withRecords.mp hadmits
      exact .reached hfollows hadmits (permits_of_admits ht hdraws hfollows hadmits)
        (.inr ⟨address, hfails⟩)
  · have hyields : (runSelect leafOnly excludeRoot t index depth setting).Yields supply
        (.ok picked, run) ⟨run.draws, run.records⟩ :=
      Program.yields_execute_run.mpr ⟨hrun, rfl⟩
    obtain ⟨way, _, hcompletes, -, -⟩ := Program.exists_way_of_yields hyields
    exact .reached hcompletes.follows hcompletes.admits
      (permits_of_admits ht hdraws hcompletes.follows hcompletes.admits)
      (.inl ⟨run, _, hyields⟩)

end Runs

end Tree

end Deontic
