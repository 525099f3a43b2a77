import Deontic.Proofs.Arrangement
import Deontic.Proofs.Completion
import Deontic.Proofs.Inference
import Mathlib.Data.Nat.Digits.Defs

/-! Growth at other positions.  A derivation at one position is a derivation at every other one, of
the same tree and with the same choices, each of them made on the same way down from the other
position (`Grown.exists_moved`).  Such choices are drawn from the same draws and have the same
log-weights, so growth does not depend on where it starts (`exists_moved_of_simulate`).  In binary
digits, a way down is written behind the position that it starts from (`binary_descend`). -/

namespace Deontic

open Deontic.Tree (leftOf rightOf descend)

/-! ### Records of single keys -/

namespace Choices

/-- A value under a new key stands behind the values of its level. -/
theorem parts_put {choices : Choices} {key : Value} (h : choices.value? key = none)
    (chosen : Value) : (choices.put key chosen).parts =
      (choices.parts.1 ++ [([key], chosen)], choices.parts.2) := by
  induction choices with
  | empty => rfl
  | value old was rest ih =>
    rw [value?] at h
    split at h
    · cases h
    · next hold => rw [put, if_neg hold, parts, parts, ih h]; rfl
  | nested old inner rest _ ih => rw [put, parts, parts, ih h]

theorem parts_setAll {choices result : Choices} {entries : List (Path × Value)}
    (hset : choices.setAll entries = .ok result)
    (hdistinct : entries.Pairwise fun a b => (a.1 == b.1) = false)
    (hnew : ∀ entry ∈ entries, ∃ key, entry.1 = [key] ∧ choices.value? key = none) :
    result.parts = (choices.parts.1 ++ entries, choices.parts.2) := by
  induction entries generalizing choices with
  | nil =>
    cases hset
    rw [List.append_nil]
  | cons entry rest ih =>
    obtain ⟨next, hnext, hrest⟩ := setAll_cons_eq_ok.mp hset
    obtain ⟨hne, hdistinct⟩ := List.pairwise_cons.mp hdistinct
    obtain ⟨⟨key, hkey, hnone⟩, hnew⟩ := List.forall_mem_cons.mp hnew
    rw [hkey, set_singleton] at hnext
    obtain ⟨-, -, rfl⟩ := setItem_eq_ok.mp hnext
    have hentry : ([key], entry.2) = entry := by rw [← hkey]
    rw [ih hrest hdistinct, parts_put hnone, hentry, List.append_assoc]
    · rfl
    · intro other hother
      obtain ⟨wanted, hwanted, hwas⟩ := hnew other hother
      have hkeys := hne other hother
      rw [hkey, hwanted, List.cons_beq_cons, BEq.rfl, Bool.and_true] at hkeys
      exact ⟨wanted, hwanted, by rw [value?_put, hkeys]; exact hwas⟩

/-- Values under single keys, all of them different, are recorded in the order of their choice. -/
theorem entries_flatten_setAll {result : Choices} {entries : List (Path × Value)}
    (hset : empty.setAll entries = .ok result)
    (hdistinct : entries.Pairwise fun a b => (a.1 == b.1) = false)
    (hsingle : ∀ entry ∈ entries, ∃ key, entry.1 = [key]) : result.flatten.entries = entries := by
  have hparts := parts_setAll hset hdistinct fun entry hentry =>
    (hsingle entry hentry).imp fun _ hkey => ⟨hkey, rfl⟩
  have htidied : result.Tidied := Tidied.invariant.of_setAll hset
  rw [htidied.entries_flatten, Choices.entries, hparts]
  exact List.append_nil entries

end Choices

/-! ### Choices moved -/

variable {P W : Type}

namespace Visit

/-- The same choice, on the same way down from another position. -/
def Moved (i k : Int) (visit moved : Visit P) : Prop :=
  ∃ steps name, visit.address = [Grammar.key (descend i steps) name] ∧
    moved = { visit with address := [Grammar.key (descend k steps) name] }

theorem Moved.dist_eq {i k : Int} {visit moved : Visit P} (h : Moved i k visit moved) :
    moved.dist = visit.dist := by
  obtain ⟨_, _, -, rfl⟩ := h
  rfl

theorem Moved.value_eq {i k : Int} {visit moved : Visit P} (h : Moved i k visit moved) :
    moved.value = visit.value := by
  obtain ⟨_, _, -, rfl⟩ := h
  rfl

theorem Moved.up {i k : Int} (side : Tree.Side) {visit moved : Visit P}
    (h : Moved (descend i [side]) (descend k [side]) visit moved) : Moved i k visit moved := by
  obtain ⟨steps, name, haddress, hmoved⟩ := h
  rw [← Tree.descend_append] at haddress hmoved
  exact ⟨side :: steps, name, haddress, hmoved⟩

theorem moved_wordVisit (i k : Int) (weights : Table String P) (word : String) :
    Moved i k (Grammar.wordVisit i weights word) (Grammar.wordVisit k weights word) :=
  ⟨[], "node_type", rfl, rfl⟩

theorem moved_textVisit (i k : Int) (word : String) (texts : Table String P) (text : String) :
    Moved i k (Grammar.textVisit i word texts text) (Grammar.textVisit k word texts text) :=
  ⟨[], word, rfl, rfl⟩

end Visit

namespace Way

variable [Scale P W] {i k : Int} {way other : Way P}

/-- What is drawn does not depend on where it is recorded. -/
theorem DrawnFrom.moved {draws rest : List P} (h : way.DrawnFrom draws rest)
    (hmoved : List.Forall₂ (Visit.Moved i k) way other) : other.DrawnFrom draws rest := by
  induction hmoved generalizing draws with
  | nil => exact h
  | cons hvisit _ ih =>
    obtain ⟨hsample, hrest⟩ := h
    rw [← hvisit.dist_eq, ← hvisit.value_eq] at hsample
    exact ⟨hsample, ih hrest⟩

theorem score_moved (hmoved : List.Forall₂ (Visit.Moved i k) way other) :
    (other.score : W) = way.score := by
  suffices h : ∀ start : W, other.scoreFrom start = way.scoreFrom start from h _
  induction hmoved with
  | nil => exact fun _ => rfl
  | @cons visit moved way later hvisit _ ih =>
    have hdensity : (moved.density : W) = visit.density := by
      rw [Visit.density, Visit.density, hvisit.dist_eq, hvisit.value_eq]
    intro start
    show scoreFrom (Scale.plus P start moved.density) later =
      scoreFrom (Scale.plus P start visit.density) way
    rw [hdensity, ih]

end Way

namespace Grammar

variable {grammar : Grammar P}

/-- A derivation at one position is one at every other. -/
theorem Grown.exists_moved {i : Int} {rule : String} {way : Way P} {t : Tree}
    (h : Grown grammar i rule way t) (k : Int) :
    ∃ moved, Grown grammar k rule moved t ∧ List.Forall₂ (Visit.Moved i k) way moved := by
  induction h generalizing k with
  | leaf hweights hparts htexts hbuilt =>
    exact ⟨_, .leaf hweights hparts htexts hbuilt,
      .cons (Visit.moved_wordVisit ..) (.cons (Visit.moved_textVisit ..) .nil)⟩
  | single hweights hparts _ hbuilt ih =>
    obtain ⟨way, hleft, hmoved⟩ := ih (leftOf k)
    exact ⟨_, .single hweights hparts hleft hbuilt,
      .cons (Visit.moved_wordVisit ..) (hmoved.imp fun _ _ => Visit.Moved.up .left)⟩
  | pair hweights hparts _ _ hbuilt ihl ihr =>
    obtain ⟨leftWay, hleft, hmovedl⟩ := ihl (leftOf k)
    obtain ⟨rightWay, hright, hmovedr⟩ := ihr (rightOf k)
    exact ⟨_, .pair hweights hparts hleft hright hbuilt, .cons (Visit.moved_wordVisit ..)
      (List.rel_append (hmovedl.imp fun _ _ => Visit.Moved.up .left)
        (hmovedr.imp fun _ _ => Visit.Moved.up .right))⟩

/-- What a growth records are its choices, one after the other. -/
theorem Grown.entries_recorded {i : Int} {rule : String} {way : Way P} {t : Tree}
    (h : Grown grammar i rule way t) (hdistinct : way.Distinct) {choices : Choices}
    (hset : Choices.empty.setAll way.entries = .ok choices) :
    choices.flatten.entries = way.entries := by
  refine Choices.entries_flatten_setAll hset (Way.pairwise_entries hdistinct) fun entry hentry => ?_
  obtain ⟨visit, hvisit, rfl⟩ := List.mem_map.mp hentry
  obtain ⟨j, name, -, haddress⟩ := h.exists_key visit hvisit
  exact ⟨_, haddress⟩

/-- What is grown at one position on some draws is grown on them at every other, and what is
recorded there is moved. -/
theorem exists_moved_of_simulate [Scale P W] (hnames : grammar.Distinguished) {i k : Int}
    (hk : 1 ≤ k) {rule : String} {supply rest : Supply P} {trace : Trace P W Tree}
    (h : (grammar.growth i rule).simulate.Yields supply trace rest) :
    ∃ (other : Trace P W Tree) (records : List Record),
      (grammar.growth k rule).simulate.Yields supply other ⟨rest.draws, records⟩ ∧
        other.result = trace.result ∧ other.score = trace.score ∧
        ∃ way moved : Way P, List.Forall₂ (Visit.Moved i k) way moved ∧
          trace.choices.flatten.entries = way.entries ∧
          other.choices.flatten.entries = moved.entries := by
  obtain ⟨way, ⟨calls, hfollows⟩, hdistinct, hdrawn, hset, hscore⟩ :=
    Program.exists_drawnFrom_of_simulate h
  have hgrown := Grown.of_follows hfollows
  obtain ⟨moved, hgrown', hmoved⟩ := hgrown.exists_moved k
  have horderly : Path.Orderly 0 moved.addresses :=
    ⟨hgrown'.distinct hnames hk, hgrown'.within.keyed⟩
  obtain ⟨other, records, hyields, hresult, hset', hscore'⟩ :=
    Program.exists_simulate_of_drawnFrom (W := W)
      (fun _ => hgrown'.follows) horderly.distinct horderly.exists_recorded (hdrawn.moved hmoved)
      supply.records
  refine ⟨other, records, hyields, hresult, ?_, way, moved, hmoved,
    hgrown.entries_recorded hdistinct hset, hgrown'.entries_recorded horderly.distinct hset'⟩
  rw [hscore', hscore, Way.score_moved hmoved]

end Grammar

/-! ### Binary digits -/

namespace Tree

/-- The binary digits of an index, the leading one first. -/
def binary (index : Int) : List Nat := (Nat.digits 2 index.toNat).reverse

theorem binary_step {index : Int} (h : 1 ≤ index) (side : Side) :
    binary (2 * index + side.digit) = binary index ++ [side.digit] := by
  have hdigit := side.digit_le_one
  have hindex : (2 * index + side.digit).toNat = 2 * index.toNat + side.digit := by omega
  rw [binary, binary, hindex, Nat.digits_def' (by omega) (by omega), List.reverse_cons]
  congr 3 <;> omega

/-- The digits of a way down are written behind those of the index that it starts from. -/
theorem binary_descend {index : Int} (h : 1 ≤ index) (steps : List Side) :
    binary (descend index steps) = binary index ++ steps.map Side.digit := by
  induction steps generalizing index with
  | nil => exact (List.append_nil _).symm
  | cons side rest ih =>
    rw [descend_cons, ih (by omega), binary_step h, List.append_assoc]
    rfl

end Tree

namespace Grammar

open Deontic.Tree (binary)

/-- An entry of a growth at the root and the same one of a growth at an index: the digits of the
index take the place of the leading one. -/
def Relocated (index : Int) (root below : Path × Value) : Prop :=
  ∃ k j label, 1 ≤ k ∧ 1 ≤ j ∧ root.1 = [key k label] ∧ below.1 = [key j label] ∧
    binary j = binary index ++ (binary k).tail ∧ below.2 = root.2

theorem relocated_of_moved {index : Int} (hindex : 1 ≤ index) {visit moved : Visit P}
    (h : Visit.Moved 1 index visit moved) : Relocated index visit.entry moved.entry := by
  obtain ⟨steps, name, haddress, rfl⟩ := h
  refine ⟨descend 1 steps, descend index steps, name, Tree.descend_pos (le_refl 1) steps,
    Tree.descend_pos hindex steps, haddress, rfl, ?_, rfl⟩
  rw [Tree.binary_descend hindex, Tree.binary_descend (le_refl 1)]
  rfl

/-- **Growth does not depend on where it is rooted.**  In a validated grammar, growth under a rule
at an index and at the root takes the same draws from a supply.  Either both come to an end, with
equal trees and equal scores, and the choices at the index are those at the root with the digits of
the index put for the leading one; or both run out of draws. -/
theorem growth_relocates {grammar : Grammar ℚ} (hvalid : grammar.validate = .ok ())
    (hstandard : grammar.vocabulary = .standard) {rule : String}
    (hrule : grammar.rules.contains rule = true) {index : Int} (hindex : 1 ≤ index)
    {supply : Supply ℚ} (hdraws : UnitDraws supply.draws) :
    (∃ (root below : Trace ℚ LogWeight Tree) (rest rest' : Supply ℚ),
      (grammar.growth 1 rule).simulate.Yields supply root rest ∧
        (grammar.growth index rule).simulate.Yields supply below rest' ∧
        rest'.draws = rest.draws ∧ below.result = root.result ∧ below.score = root.score ∧
        List.Forall₂ (Relocated index) root.choices.flatten.entries
          below.choices.flatten.entries) ∨
    ∃ records records',
      ((grammar.growth 1 rule).simulate : Act ℚ (Trace ℚ LogWeight Tree)).run.run supply =
          (.error (.supply .exhausted), ⟨[], records⟩) ∧
        ((grammar.growth index rule).simulate : Act ℚ (Trace ℚ LogWeight Tree)).run.run supply =
          (.error (.supply .exhausted), ⟨[], records'⟩) := by
  have hnames := distinguished_of_validate hvalid hstandard
  rcases growth_completes hvalid hstandard hrule (le_refl 1) hdraws with
    ⟨root, rest, hroot, -⟩ | ⟨records, hroot⟩
  · obtain ⟨below, records, hbelow, hresult, hscore, way, moved, hmoved, hentries, hentries'⟩ :=
      exists_moved_of_simulate hnames hindex hroot
    refine .inl ⟨root, below, rest, _, hroot, hbelow, rfl, hresult, hscore, ?_⟩
    rw [hentries, hentries', Way.entries, Way.entries, List.forall₂_map_left_iff,
      List.forall₂_map_right_iff]
    exact hmoved.imp fun _ _ => relocated_of_moved hindex
  · rcases growth_completes hvalid hstandard hrule hindex hdraws with
      ⟨below, rest, hbelow, -⟩ | ⟨records', hbelow⟩
    · -- what is grown at the index is grown at the root as well
      obtain ⟨other, later, hother, -⟩ := exists_moved_of_simulate hnames (le_refl 1) hbelow
      cases hroot.symm.trans hother
    · exact .inr ⟨records, records', hroot, hbelow⟩

/-- An obligation with one colour, grown at the right part of the root. -/
theorem growth_relocates_uneven :
    ∃ (root below : Trace ℚ LogWeight Tree) (rest rest' : Supply ℚ),
      (uneven.growth 1 "DUTY").simulate.Yields ⟨[0, 0, 1 / 2, 1 / 3], []⟩ root rest ∧
        (uneven.growth 3 "DUTY").simulate.Yields ⟨[0, 0, 1 / 2, 1 / 3], []⟩ below rest' ∧
        rest'.draws = rest.draws ∧ below.result = root.result ∧
        List.Forall₂ (Relocated 3) root.choices.flatten.entries below.choices.flatten.entries := by
  have hdraws : UnitDraws (⟨[0, 0, 1 / 2, 1 / 3], []⟩ : Supply ℚ).draws := by decide +kernel
  have hrule : uneven.rules.contains "DUTY" = true := by decide +kernel
  have hgrown : (uneven.growth 1 "DUTY").simulate.any ⟨[0, 0, 1 / 2, 1 / 3], []⟩
      (fun (_ : Trace ℚ LogWeight Tree) _ => true) = true := by decide +kernel
  rcases growth_relocates validate_uneven rfl hrule (show (1 : Int) ≤ 3 by decide) hdraws with
    ⟨root, below, rest, rest', hroot, hbelow, hrest, hresult, -, hentries⟩ | ⟨records, -, hroot, -⟩
  · exact ⟨root, below, rest, rest', hroot, hbelow, hrest, hresult, hentries⟩
  · rw [Act.any, hroot] at hgrown
    cases hgrown

example : Relocated 3 ([key 2 "Colour"], .text "red") ([key 6 "Colour"], .text "red") :=
  ⟨2, 6, "Colour", by decide, by decide, rfl, rfl, by decide +kernel, rfl⟩

end Grammar

end Deontic
