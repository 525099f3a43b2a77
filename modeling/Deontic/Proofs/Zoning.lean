import Deontic.Proofs.Placements
import Deontic.Proofs.Totals

/-! How a norm spreads a task over the zones.  A norm that bears on tasks of a colour names a zone
by the label of its second part, and rules out that zone or all others; the weights of the zones
that are left are equal and sum to one (`Spread`).  There are such weights, or the label is refused
as no zone's, in all cases but three, which `zones_spread_iff` gives: a row that is too long, a
label of digits that is no numeral, and the only zone ruled out. -/

namespace Deontic.Placement

/-- A row of digits. -/
def IsDigits (label : String) : Prop :=
  label.toList ≠ [] ∧ ∀ c ∈ label.toList, Text.isDigit c = true

/-- A row of digits that is the numeral of a zone. -/
def Names (label : String) (zone : Int) : Prop :=
  IsDigits label ∧ Text.readInteger label = .ok zone

/-- A row of digits that is no numeral, such as superscripts. -/
def Unreadable (label : String) : Prop :=
  IsDigits label ∧ ∃ fault, Text.readInteger label = .error fault

/-- A norm of a kind that bears on tasks of a colour, with the label of its zone. -/
inductive Bears (colour : String) (kind : BranchKind) (label : String) : Tree → Prop
  | mk {normColour : String} (happlies : applies normColour colour = true) (first second : Extent)
      (whole : Extent) : Bears colour kind label
        (.branch kind (.leaf .colour normColour first) (.leaf .zone label second) whole)

/-- Whether a norm rules out a zone for tasks of a colour: an obligation rules out the zones that it
does not name, and a prohibition the one that it names. -/
inductive RulesOut (colour : String) (norm : Tree) (zone : Int) : Prop
  | obliged {label : String} {named : Int} (h : Bears colour .obligation label norm)
      (hlabel : Names label named) (hne : named ≠ zone)
  | prohibited {label : String} (h : Bears colour .prohibition label norm)
      (hlabel : Names label zone)

/-- Weights of zones that are zero for those ruled out, equal for the others, and sum to one. -/
structure Spread (count : Int) (out : Int → Prop) (weights : List ℚ) : Prop where
  length : (weights.length : Int) = count
  nonneg : ∀ p ∈ weights, 0 ≤ p
  sum : weights.sum = 1
  zero_iff : ∀ (i : Nat) (p : ℚ), weights[i]? = some p → (p = 0 ↔ out (i + 1))
  even : ∀ p ∈ weights, ∀ q ∈ weights, p ≠ 0 → q ≠ 0 → p = q

/-- Weights are spread if each of them is zero or one share, and they sum to one. -/
theorem Spread.of_share {count : Int} {out : Int → Prop} {weights : List ℚ} (share : ℚ)
    (hlength : (weights.length : Int) = count) (hshare : 0 < share) (hsum : weights.sum = 1)
    (hentry : ∀ (i : Nat) (p : ℚ), weights[i]? = some p →
      (out (i + 1) ∧ p = 0) ∨ (¬out (i + 1) ∧ p = share)) : Spread count out weights := by
  have hmem (p : ℚ) (hp : p ∈ weights) : p = 0 ∨ p = share := by
    obtain ⟨i, hi⟩ := List.mem_iff_getElem?.mp hp
    exact (hentry i p hi).imp And.right And.right
  refine ⟨hlength, fun p hp => ?_, hsum, fun i p hi => ?_, fun p hp q hq hpne hqne => ?_⟩
  · rcases hmem p hp with rfl | rfl
    · exact le_rfl
    · exact hshare.le
  · rcases hentry i p hi with ⟨hout, rfl⟩ | ⟨hin, rfl⟩
    · exact iff_of_true rfl hout
    · exact iff_of_false hshare.ne' hin
  · rw [(hmem p hp).resolve_left hpne, (hmem q hq).resolve_left hqne]

variable {colour label : String} {norm : Tree} {count : Int}

/-! ### Labels -/

theorem Names.eq {zone zone' : Int} (h : Names label zone) (h' : Names label zone') :
    zone = zone' := Except.ok.inj (h.2.symm.trans h'.2)

/-- A single digit names a zone if it is read as its number. -/
theorem Names.single {c : Char} {zone : Int} (hlabel : label.toList = [c])
    (hdigit : Text.isDigit c = true) (hread : Text.readInteger label = .ok zone) :
    Names label zone := by
  refine ⟨?_, hread⟩
  rw [IsDigits, hlabel]
  exact ⟨List.cons_ne_nil _ _, List.forall_mem_singleton.mpr hdigit⟩

theorem Names.not_unreadable {zone : Int} (h : Names label zone) : ¬Unreadable label := by
  rintro ⟨-, fault, hfault⟩
  exact nomatch h.2.symm.trans hfault

theorem not_isDigits_of_check {label : String}
    (h : (label.toList.isEmpty || !label.toList.all Text.isDigit) = true) : ¬IsDigits label := by
  rintro ⟨hne, hall⟩
  rcases Bool.or_eq_true_iff.mp h with h | h
  · exact hne (List.isEmpty_iff.mp h)
  · rw [List.all_eq_true.mpr hall] at h
    cases h

theorem isDigits_of_check {label : String}
    (h : (label.toList.isEmpty || !label.toList.all Text.isDigit) = false) : IsDigits label := by
  rw [Bool.or_eq_false_iff, Bool.not_eq_false'] at h
  exact ⟨List.isEmpty_eq_false_iff.mp h.1, List.all_eq_true.mp h.2⟩

/-- What becomes of a label: it is the numeral of a zone, it is refused as no zone's, or it is
digits that are no numeral. -/
theorem zoneIndex_cases (label : String) (count : Int) :
    (∃ zone, Names label zone ∧ 1 ≤ zone ∧ zone ≤ count ∧
      zoneIndex label count = .ok (zone.toNat - 1)) ∨
    (¬Unreadable label ∧ (∀ zone, Names label zone → ¬(1 ≤ zone ∧ zone ≤ count)) ∧
      zoneIndex label count = .error (.grammar (.noSuchZone label count))) ∨
    (Unreadable label ∧ ∃ fault, zoneIndex label count = .error fault ∧
      ∀ cause, fault ≠ .grammar cause) := by
  cases hcheck : (label.toList.isEmpty || !label.toList.all Text.isDigit) with
  | true =>
    have hnot := not_isDigits_of_check hcheck
    refine .inr (.inl ⟨fun h => hnot h.1, fun _ h => (hnot h.1).elim, ?_⟩)
    simp only [zoneIndex, hcheck, if_true]
  | false =>
    have hdigits := isDigits_of_check hcheck
    cases hread : Text.readInteger label with
    | error fault =>
      refine .inr (.inr ⟨⟨hdigits, fault, hread⟩, ?_⟩)
      cases fault with
      | notNumeral =>
        exact ⟨.notInteger label, by simp [zoneIndex, hcheck, hread], nofun⟩
      | tooLong digits =>
        exact ⟨.tooManyDigits digits, by simp [zoneIndex, hcheck, hread], nofun⟩
    | ok n =>
      have hnames : Names label n := ⟨hdigits, hread⟩
      have hindex : zoneIndex label count = if 1 ≤ n ∧ n ≤ count then .ok (n.toNat - 1)
          else .error (.grammar (.noSuchZone label count)) := by
        simp [zoneIndex, hcheck, hread]
      rw [hindex]
      split
      · next hrange => exact .inl ⟨n, hnames, hrange.1, hrange.2, rfl⟩
      · next hrange =>
        refine .inr (.inl ⟨hnames.not_unreadable, fun zone hzone => ?_, rfl⟩)
        rwa [hzone.eq hnames]

/-- The numeral of a zone names the place of that zone. -/
theorem zoneIndex_of_names {zone : Int} (h : Names label zone) (hzone : 1 ≤ zone ∧ zone ≤ count) :
    zoneIndex label count = .ok (zone.toNat - 1) := by
  rcases zoneIndex_cases label count with ⟨named, hnames, -, -, hindex⟩ | ⟨-, hnot, -⟩ | ⟨hread, -⟩
  · rwa [h.eq hnames]
  · exact (hnot zone h hzone).elim
  · exact (h.not_unreadable hread).elim

/-! ### Norms that bear on a colour -/

theorem Bears.unique {kind kind' : BranchKind} {label' : String} (h : Bears colour kind label norm)
    (h' : Bears colour kind' label' norm) : kind = kind' ∧ label = label' := by
  cases h
  cases h'
  exact ⟨rfl, rfl⟩

theorem rulesOut_obligation {named : Int} (h : Bears colour .obligation label norm)
    (hlabel : Names label named) (zone : Int) : RulesOut colour norm zone ↔ named ≠ zone := by
  constructor
  · rintro (⟨h', hlabel', hne⟩ | ⟨h', -⟩)
    · obtain ⟨-, rfl⟩ := h.unique h'
      rwa [hlabel.eq hlabel']
    · exact nomatch (h.unique h').1
  · exact .obliged h hlabel

theorem rulesOut_prohibition {named : Int} (h : Bears colour .prohibition label norm)
    (hlabel : Names label named) (zone : Int) : RulesOut colour norm zone ↔ named = zone := by
  constructor
  · rintro (⟨h', -, -⟩ | ⟨h', hlabel'⟩)
    · exact nomatch (h.unique h').1
    · obtain ⟨-, rfl⟩ := h.unique h'
      exact hlabel.eq hlabel'
  · rintro rfl
    exact .prohibited h hlabel

/-- The weights under an obligation that bears on the colour. -/
theorem zones_obligation (h : Bears colour .obligation label norm) (count : Int) :
    (zones colour norm count : Except Fault (List ℚ)) =
      (do let n ← checkCount count
          let ruled ← zoneIndex label count
          return (List.replicate n 0).set ruled 1) := by
  obtain ⟨happlies⟩ := h
  simp only [zones, obliged, happlies, Bool.not_true, Bool.false_eq_true, if_false]
  rfl

/-- The weights under a prohibition that bears on the colour. -/
theorem zones_prohibition (h : Bears colour .prohibition label norm) (count : Int) :
    (zones colour norm count : Except Fault (List ℚ)) =
      (do let n ← checkCount count
          let ruled ← zoneIndex label count
          let allowed : List ℚ := (List.replicate n 1).set ruled 0
          let total := allowed.foldl Scale.add 0
          if Scale.le total 0 then throw (.number .realDivision)
          return allowed.map fun p => Scale.div p total) := by
  obtain ⟨happlies⟩ := h
  simp only [zones, prohibited, happlies, Bool.not_true, Bool.false_eq_true, if_false]
  rfl

/-- All other norms leave every zone as likely. -/
theorem zones_of_not_bears (ho : ∀ label, ¬Bears colour .obligation label norm)
    (hp : ∀ label, ¬Bears colour .prohibition label norm) (count : Int) :
    (zones colour norm count : Except Fault (List ℚ)) = uniform count := by
  unfold zones
  split
  · next normColour _ _ _ _ =>
    cases happlies : applies normColour colour with
    | true => exact (ho _ (.mk happlies ..)).elim
    | false => simp [obliged, happlies]
  · next normColour _ _ _ _ =>
    cases happlies : applies normColour colour with
    | true => exact (hp _ (.mk happlies ..)).elim
    | false => simp [prohibited, happlies]
  · rfl

/-! ### Rows of zones -/

theorem checkCount_of_le (hpos : 1 ≤ count) (hmax : count ≤ maxZones) :
    checkCount count = .ok count.toNat := by
  have hlow : ¬(count < Int64.minValue.toInt ∨ Int64.maxValue.toInt < count) := by
    rw [show Int64.minValue.toInt = -9223372036854775808 from rfl,
      show Int64.maxValue.toInt = 9223372036854775807 from rfl]
    rw [maxZones] at hmax
    omega
  rw [checkCount, if_neg hlow, if_neg hmax.not_gt]

theorem checkCount_of_lt (hmax : maxZones < count) : ∃ fault, checkCount count = .error fault := by
  rw [checkCount, if_pos hmax]
  split_ifs <;> exact ⟨_, rfl⟩

/-- A row of one entry but for one place. -/
theorem getElem?_set_replicate {n place i : Nat} {a b p : ℚ}
    (h : ((List.replicate n a).set place b)[i]? = some p) :
    (place = i ∧ p = b) ∨ (place ≠ i ∧ p = a) := by
  rw [List.getElem?_set] at h
  split at h
  · next heq =>
    split at h
    · exact .inl ⟨heq, (Option.some.inj h).symm⟩
    · cases h
  · next hne => exact .inr ⟨hne, List.eq_of_mem_replicate (List.mem_of_getElem? h)⟩

theorem sum_set_replicate {n place : Nat} {a b : ℚ} (h : place < n) :
    ((List.replicate n a).set place b).sum = (n - 1) * a + b := by
  obtain ⟨after, rfl⟩ := Nat.exists_eq_add_of_lt h
  rw [List.sum_set, List.length_replicate, if_pos h, List.take_replicate, List.drop_replicate,
    List.sum_replicate, List.sum_replicate, nsmul_eq_mul, nsmul_eq_mul, min_eq_left h.le,
    show place + after + 1 - (place + 1) = after by omega]
  push_cast
  ring

/-- Without a zone ruled out, all are as likely. -/
theorem spread_uniform (hpos : 1 ≤ count) (hmax : count ≤ maxZones) :
    ∃ weights, uniform count = .ok weights ∧ Spread count (fun _ => False) weights := by
  have hcount : (count : ℚ) ≠ 0 := by exact_mod_cast (show count ≠ 0 by omega)
  have hcast : ((count.toNat : Nat) : ℚ) = count := by
    exact_mod_cast congrArg (Int.cast : Int → ℚ) (Int.toNat_of_nonneg (show 0 ≤ count by omega))
  refine ⟨.replicate count.toNat (1 / count), ?_, ?_⟩
  · rw [uniform, if_neg (show count ≠ 0 by omega), checkCount_of_le hpos hmax]
    simp [Scale.ratio, Scale.ofInt, Scale.div]
    rfl
  · refine .of_share (1 / count) ?_ ?_ ?_ fun i p hi => .inr ⟨id, ?_⟩
    · rw [List.length_replicate, Int.toNat_of_nonneg (show 0 ≤ count by omega)]
    · exact div_pos one_pos (by exact_mod_cast (show 0 < count by omega))
    · rw [List.sum_replicate, nsmul_eq_mul, hcast, mul_one_div_cancel hcount]
    · exact List.eq_of_mem_replicate (List.mem_of_getElem? hi)

/-- All zones ruled out but one. -/
theorem spread_obliged {zone : Int} (hzone : 1 ≤ zone ∧ zone ≤ count) :
    Spread count (fun other => zone ≠ other)
      ((List.replicate count.toNat 0).set (zone.toNat - 1) 1) := by
  refine .of_share 1 ?_ one_pos ?_ fun i p hi => ?_
  · rw [List.length_set, List.length_replicate, Int.toNat_of_nonneg (by omega)]
  · rw [sum_set_replicate (by omega), mul_zero, zero_add]
  · rcases getElem?_set_replicate hi with ⟨hplace, rfl⟩ | ⟨hplace, rfl⟩
    · exact .inr ⟨not_not.mpr (by omega), rfl⟩
    · exact .inl ⟨by omega, rfl⟩

/-- One zone of several ruled out. -/
theorem spread_prohibited {zone : Int} (hzone : 1 ≤ zone ∧ zone ≤ count) (hmany : count ≠ 1) :
    Spread count (fun other => zone = other)
      (((List.replicate count.toNat 1).set (zone.toNat - 1) 0).map fun p =>
        p / ((count.toNat : ℚ) - 1)) := by
  have hleft : (0 : ℚ) < (count.toNat : ℚ) - 1 := by
    have : 1 < count.toNat := by omega
    rw [sub_pos]
    exact_mod_cast this
  refine .of_share (1 / ((count.toNat : ℚ) - 1)) ?_ (div_pos one_pos hleft) ?_
    fun i p hi => ?_
  · rw [List.length_map, List.length_set, List.length_replicate, Int.toNat_of_nonneg (by omega)]
  · simp only [div_eq_mul_inv]
    rw [List.sum_map_mul_right, List.map_id', sum_set_replicate (by omega), mul_one, add_zero,
      mul_inv_cancel₀ hleft.ne']
  · obtain ⟨q, hq, rfl⟩ := Option.map_eq_some_iff.mp ((List.getElem?_map ..).symm.trans hi)
    rcases getElem?_set_replicate hq with ⟨hplace, rfl⟩ | ⟨hplace, rfl⟩
    · exact .inl ⟨by omega, zero_div _⟩
    · exact .inr ⟨by omega, rfl⟩

/-! ### All norms -/

theorem Spread.congr {out out' : Int → Prop} {weights : List ℚ} (h : Spread count out weights)
    (hout : ∀ zone, out' zone ↔ out zone) : Spread count out' weights :=
  { h with zero_iff := fun i p hi => (h.zero_iff i p hi).trans (hout _).symm }

/-- The weights of the zones are spread by what the norm rules out, or its label is refused. -/
def SpreadOrRefused (colour : String) (norm : Tree) (count : Int) : Prop :=
  (∃ weights, zones colour norm count = .ok weights ∧
    Spread count (RulesOut colour norm) weights) ∨
  ∃ label, (zones colour norm count : Except Fault (List ℚ)) =
    .error (.grammar (.noSuchZone label count))

/-- A failure for another reason than a label that is no zone's. -/
theorem not_spreadOrRefused {fault : Fault}
    (h : (zones colour norm count : Except Fault (List ℚ)) = .error fault)
    (hfault : ∀ cause, fault ≠ .grammar cause) : ¬SpreadOrRefused colour norm count := by
  rintro (⟨weights, hweights, -⟩ | ⟨label, hlabel⟩)
  · exact nomatch h.symm.trans hweights
  · exact hfault _ (Except.error.inj (h.symm.trans hlabel))

/-- A row that is too long is no row. -/
theorem not_spreadOrRefused_of_lt (hpos : 1 ≤ count) (hmax : maxZones < count) :
    ¬SpreadOrRefused colour norm count := by
  obtain ⟨fault, hcount⟩ := checkCount_of_lt hmax
  have hlift : (liftM (checkCount count) : Except Fault Nat) = .error (.number fault) := by
    rw [hcount]
    rfl
  suffices h : (zones colour norm count : Except Fault (List ℚ)) = .error (.number fault) from
    not_spreadOrRefused h nofun
  by_cases ho : ∃ label, Bears colour .obligation label norm
  · obtain ⟨label, h⟩ := ho
    rw [zones_obligation h, hlift]
    rfl
  by_cases hp : ∃ label, Bears colour .prohibition label norm
  · obtain ⟨label, h⟩ := hp
    rw [zones_prohibition h, hlift]
    rfl
  rw [zones_of_not_bears (not_exists.mp ho) (not_exists.mp hp), uniform,
    if_neg (show count ≠ 0 by omega), hlift]
  rfl

theorem spreadOrRefused_obligation (hpos : 1 ≤ count) (hmax : count ≤ maxZones)
    (h : Bears colour .obligation label norm) :
    SpreadOrRefused colour norm count ↔ ¬Unreadable label := by
  have hzones := zones_obligation h count
  rw [checkCount_of_le hpos hmax] at hzones
  rcases zoneIndex_cases label count with ⟨zone, hnames, hlow, hhigh, hindex⟩ |
    ⟨hread, -, hindex⟩ | ⟨hread, fault, hindex, hfault⟩
  · rw [hindex] at hzones
    refine iff_of_true (.inl ⟨_, hzones, ?_⟩) hnames.not_unreadable
    exact (spread_obliged ⟨hlow, hhigh⟩).congr (rulesOut_obligation h hnames)
  · rw [hindex] at hzones
    exact iff_of_true (.inr ⟨label, hzones⟩) hread
  · rw [hindex] at hzones
    exact iff_of_false (not_spreadOrRefused hzones hfault) (not_not.mpr hread)

theorem zones_prohibition_of_refused (h : Bears colour .prohibition label norm) (hpos : 1 ≤ count)
    (hmax : count ≤ maxZones) {fault : Fault} (hindex : zoneIndex label count = .error fault) :
    (zones colour norm count : Except Fault (List ℚ)) = .error fault := by
  rw [zones_prohibition h, checkCount_of_le hpos hmax, hindex]
  rfl

/-- The zones that a prohibition leaves share the weight, if it leaves any. -/
theorem zones_prohibition_of_zone (h : Bears colour .prohibition label norm) {zone : Int}
    (hzone : 1 ≤ zone ∧ zone ≤ count) (hmax : count ≤ maxZones)
    (hindex : zoneIndex label count = .ok (zone.toNat - 1)) :
    (zones colour norm count : Except Fault (List ℚ)) =
      if count = 1 then .error (.number .realDivision)
      else .ok (((List.replicate count.toNat 1).set (zone.toNat - 1) 0).map fun p =>
        p / ((count.toNat : ℚ) - 1)) := by
  have htotal : ((List.replicate count.toNat (1 : ℚ)).set (zone.toNat - 1) 0).foldl Scale.add 0 =
      (count.toNat : ℚ) - 1 := by
    rw [Distribution.foldl_add_rat, sum_set_replicate (by omega), zero_add, mul_one, add_zero]
  have hnone : (Scale.le ((count.toNat : ℚ) - 1) 0 = true) ↔ count = 1 := by
    have hle : ((count.toNat : ℚ) ≤ 1) ↔ count = 1 := by
      rw [Nat.cast_le_one]
      omega
    exact decide_eq_true_iff.trans (sub_nonpos.trans hle)
  rw [zones_prohibition h, checkCount_of_le (by omega) hmax, hindex]
  show (if Scale.le (((List.replicate count.toNat (1 : ℚ)).set (zone.toNat - 1) 0).foldl
    Scale.add 0) 0 = true then _ else _) = _
  rw [htotal]
  by_cases hone : count = 1
  · rw [if_pos (hnone.mpr hone), if_pos hone]
    rfl
  · rw [if_neg (mt hnone.mp hone), if_neg hone]
    rfl

theorem spreadOrRefused_prohibition (hpos : 1 ≤ count) (hmax : count ≤ maxZones)
    (h : Bears colour .prohibition label norm) :
    SpreadOrRefused colour norm count ↔ ¬Unreadable label ∧ ¬(count = 1 ∧ Names label 1) := by
  rcases zoneIndex_cases label count with ⟨zone, hnames, hlow, hhigh, hindex⟩ |
    ⟨hread, hnot, hindex⟩ | ⟨hread, fault, hindex, hfault⟩
  · have hzones := zones_prohibition_of_zone h ⟨hlow, hhigh⟩ hmax hindex
    by_cases hone : count = 1
    · obtain rfl : zone = 1 := by omega
      rw [if_pos hone] at hzones
      exact iff_of_false (not_spreadOrRefused hzones nofun) fun hnot => hnot.2 ⟨hone, hnames⟩
    · rw [if_neg hone] at hzones
      refine iff_of_true (.inl ⟨_, hzones, ?_⟩) ⟨hnames.not_unreadable, fun hnot => hone hnot.1⟩
      exact (spread_prohibited ⟨hlow, hhigh⟩ hone).congr (rulesOut_prohibition h hnames)
  · have hzones := zones_prohibition_of_refused h hpos hmax hindex
    refine iff_of_true (.inr ⟨label, hzones⟩) ⟨hread, fun hone => hnot 1 hone.2 ?_⟩
    omega
  · have hzones := zones_prohibition_of_refused h hpos hmax hindex
    exact iff_of_false (not_spreadOrRefused hzones hfault) fun hnot => hnot.1 hread

/-- The weights of zones are spread by what a norm rules out, or its label is refused, unless the
row is longer than the memory that `maxZones` stands for, the label is digits that are no numeral,
or the only zone is ruled out. -/
theorem zones_spread_iff (colour : String) (norm : Tree) {count : Int} (hcount : 1 ≤ count) :
    SpreadOrRefused colour norm count ↔ count ≤ maxZones ∧
      (∀ label, Bears colour .obligation label norm ∨ Bears colour .prohibition label norm →
        ¬Unreadable label) ∧
      ¬(count = 1 ∧ ∃ label, Bears colour .prohibition label norm ∧ Names label 1) := by
  rcases lt_or_ge maxZones count with hmax | hmax
  · exact iff_of_false (not_spreadOrRefused_of_lt hcount hmax) fun h => h.1.not_gt hmax
  by_cases ho : ∃ label, Bears colour .obligation label norm
  · obtain ⟨label, h⟩ := ho
    rw [spreadOrRefused_obligation hcount hmax h]
    constructor
    · refine fun hread => ⟨hmax, fun label' h' => ?_, ?_⟩
      · rcases h' with h' | h'
        · rwa [(h'.unique h).2]
        · exact nomatch (h.unique h').1
      · rintro ⟨-, _, h', -⟩
        exact nomatch (h.unique h').1
    · exact fun hall => hall.2.1 label (.inl h)
  by_cases hp : ∃ label, Bears colour .prohibition label norm
  · obtain ⟨label, h⟩ := hp
    rw [spreadOrRefused_prohibition hcount hmax h]
    constructor
    · refine fun ⟨hread, hleft⟩ => ⟨hmax, fun label' h' => ?_, ?_⟩
      · rcases h' with h' | h'
        · exact nomatch (h.unique h').1
        · rwa [(h'.unique h).2]
      · rintro ⟨hone, label', h', hnames⟩
        rw [(h'.unique h).2] at hnames
        exact hleft ⟨hone, hnames⟩
    · exact fun hall => ⟨hall.2.1 label (.inr h), fun hone => hall.2.2 ⟨hone.1, label, h, hone.2⟩⟩
  · obtain ⟨weights, hweights, hspread⟩ := spread_uniform hcount hmax
    have hfree (zone : Int) : ¬RulesOut colour norm zone := by
      rintro (⟨h, -, -⟩ | ⟨h, -⟩)
      · exact ho ⟨_, h⟩
      · exact hp ⟨_, h⟩
    refine iff_of_true (.inl ⟨weights, ?_, hspread.congr fun zone => iff_of_false (hfree zone) id⟩)
      ⟨hmax, fun label h => ?_, fun hone => hp ⟨_, hone.2.choose_spec.1⟩⟩
    · rw [zones_of_not_bears (not_exists.mp ho) (not_exists.mp hp), hweights]
    · exact (h.elim (fun h => ho ⟨_, h⟩) fun h => hp ⟨_, h⟩).elim

/-- An obligation for the zone `²` neither gives weights nor is its label refused as no zone's. -/
theorem zones_spread_iff_superscript :
    ¬SpreadOrRefused "red"
      (.branch .obligation (.leaf .colour "red" default) (.leaf .zone "²" default) default) 3 := by
  have hlist : "²".toList = ['²'] := by decide
  have hdigits : IsDigits "²" := by
    rw [IsDigits, hlist]
    exact ⟨nofun, List.forall_mem_singleton.mpr Text.superscript_not_decimal.1⟩
  have hlabel : Unreadable "²" := ⟨hdigits, .notNumeral, by decide⟩
  exact fun h => ((zones_spread_iff "red" _ (by decide)).mp h).2.1 "²"
    (.inl (.mk (by decide) ..)) hlabel

end Deontic.Placement
