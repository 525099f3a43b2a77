import Deontic.Choices.Basic
import Deontic.Proofs.Lookup

/-! Choices as a finite map from paths to values.  `Choices.at?` reads the value at a path off the
levels.  A value can be written at a path exactly if its keys can be keys and the levels have room
for it, which `Choices.HasRoom` describes (`exists_set_iff`); writing changes the value at that path
alone (`at?_set`) and leaves room for the paths that are `compatible` with it, those that neither
lead through its place nor end on its way (`hasRoom_set`). -/

namespace Deontic

/-- Whether what stands for a value can be a key. -/
def Standing.isKey : Standing → Bool
  | close isTuple => isTuple
  | link head tail => head.isKey && tail.isKey
  | _ => true

namespace Value

theorem isKey_standings_false (items : List Value) : (standings false items).isKey = false := by
  induction items with
  | nil => rfl
  | cons item rest ih => rw [standings, Standing.isKey, ih, Bool.and_false]

mutual

theorem isKey_standing : (v : Value) → v.standing.isKey = v.isKey
  | null | bool _ | int _ | nan _ | text _ => rfl
  | float x => by cases x <;> rfl
  | list items => isKey_standings_false items
  | tuple items => isKey_standings items

theorem isKey_standings : (items : List Value) → (standings true items).isKey = areKeys items
  | [] => rfl
  | item :: rest => by
    rw [standings, Standing.isKey, areKeys, isKey_standing item, isKey_standings rest]

end

theorem int_beq_int {a b : Int} : (int a == int b) = true ↔ a = b := by
  rw [beq_iff, standing, standing, Standing.number.injEq]
  exact Rat.intCast_inj

theorem text_beq_text {s t : String} : (text s == text t) = true ↔ s = t :=
  ⟨fun h => (Value.text.inj (text_beq h)).symm, fun h => h ▸ BEq.rfl⟩

theorem pair_beq_pair {a b c d : Value} :
    (tuple [a, b] == tuple [c, d]) = true ↔ (a == c) = true ∧ (b == d) = true := by
  rw [beq_iff, beq_iff, beq_iff]
  simp only [standing, standings, Standing.link.injEq, and_true]

/-- Of equal values both or neither can be a key. -/
theorem checkKey_congr {a b : Value} (h : (a == b) = true) : a.checkKey = b.checkKey := by
  rw [checkKey, checkKey, ← isKey_standing, ← isKey_standing, beq_iff.mp h]

end Value

namespace Path

/-- Whether neither path leads through the place of the other. -/
def compatible : Path → Path → Bool
  | [], [] => true
  | a :: p, b :: q => !(a == b) || compatible p q
  | _, _ => false

theorem compatible_comm (p q : Path) : compatible p q = compatible q p := by
  induction p generalizing q with
  | nil => cases q <;> rfl
  | cons a p ih =>
    cases q with
    | nil => rfl
    | cons b q => rw [compatible, compatible, ih, BEq.comm]

/-- Being compatible does not depend on the spelling of a path. -/
theorem compatible_congr {p p' : Path} (h : (p == p') = true) (q : Path) :
    compatible p q = compatible p' q := by
  induction p generalizing p' q with
  | nil =>
    cases p' with
    | nil => rfl
    | cons => cases h
  | cons a p ih =>
    cases p' with
    | nil => cases h
    | cons a' p' =>
      rw [List.cons_beq_cons, Bool.and_eq_true] at h
      cases q with
      | nil => rfl
      | cons b q => rw [compatible, compatible, ih h.2, BEq.congr_left h.1]

theorem compatible_self (p : Path) : compatible p p = true := by
  induction p with
  | nil => rfl
  | cons a p ih => rw [compatible, ih, Bool.or_true]

/-- No path leads through the place of another one of its length. -/
theorem compatible_of_length {p q : Path} (h : p.length = q.length) : compatible p q = true := by
  induction p generalizing q with
  | nil =>
    cases q with
    | nil => rfl
    | cons => cases h
  | cons a p ih =>
    cases q with
    | nil => cases h
    | cons b q => rw [compatible, ih (Nat.succ.inj h), Bool.or_true]

theorem check_cons (key : Value) (rest : Path) :
    check (key :: rest) = .ok () ↔ key.checkKey = .ok () ∧ check rest = .ok () := by
  show (key.checkKey >>= fun _ => check rest) = .ok () ↔ _
  cases key.checkKey with
  | error fault => simp [bind, Except.bind]
  | ok => simp [bind, Except.bind]

theorem check_congr {p p' : Path} (h : (p == p') = true) (hp : p.check = .ok ()) :
    p'.check = .ok () := by
  induction p generalizing p' with
  | nil =>
    cases p' with
    | nil => rfl
    | cons => cases h
  | cons a p ih =>
    cases p' with
    | nil => cases h
    | cons a' p' =>
      rw [List.cons_beq_cons, Bool.and_eq_true] at h
      rw [check_cons] at hp ⊢
      exact ⟨(Value.checkKey_congr h.1).symm.trans hp.1, ih h.2 hp.2⟩

end Path

namespace Choices

/-- The value at a path. -/
def at? : Choices → Path → Option Value
  | _, [] => none
  | choices, [key] => choices.value? key
  | choices, key :: rest =>
    match choices.nested? key with
    | some inner => inner.at? rest
    | none => none

/-- Whether a value can be written at a path: no level on the way is a value, and the place is no
level. -/
def HasRoom : Choices → Path → Prop
  | _, [] => False
  | choices, [key] => choices.nested? key = none
  | choices, key :: rest =>
    match choices.nested? key with
    | some inner => inner.HasRoom rest
    | none => choices.value? key = none

@[simp] theorem at?_nil (choices : Choices) : choices.at? [] = none := by
  cases choices <;> rfl

theorem at?_cons_cons (choices : Choices) (key next : Value) (rest : Path) :
    choices.at? (key :: next :: rest) = (choices.nested? key).bind (·.at? (next :: rest)) := by
  rw [at?]
  · cases choices.nested? key <;> rfl
  · exact nofun

theorem hasRoom_cons_cons (choices : Choices) (key next : Value) (rest : Path) :
    choices.HasRoom (key :: next :: rest) ↔
      (match choices.nested? key with
        | some inner => inner.HasRoom (next :: rest)
        | none => choices.value? key = none) := by
  rw [HasRoom]
  exact nofun

@[simp] theorem at?_empty (path : Path) : empty.at? path = none := by
  match path with
  | [] => rfl
  | [_] => rfl
  | key :: next :: rest => rw [at?_cons_cons]; rfl

theorem hasRoom_empty {path : Path} (h : path ≠ []) : empty.HasRoom path := by
  match path with
  | [] => exact absurd rfl h
  | [_] => exact rfl
  | key :: next :: rest => rw [hasRoom_cons_cons]; exact rfl

/-! ### One level -/

theorem value?_congr (choices : Choices) {a b : Value} (h : (a == b) = true) :
    choices.value? a = choices.value? b := by
  induction choices with
  | empty => rfl
  | value key chosen rest ih => rw [value?, value?, ih, BEq.congr_right h]
  | nested key inner rest _ ih => rw [value?, value?, ih]

theorem nested?_congr (choices : Choices) {a b : Value} (h : (a == b) = true) :
    choices.nested? a = choices.nested? b := by
  induction choices with
  | empty => rfl
  | value key chosen rest ih => rw [nested?, nested?, ih]
  | nested key inner rest _ ih => rw [nested?, nested?, ih, BEq.congr_right h]

theorem value?_put (choices : Choices) (key chosen wanted : Value) :
    (choices.put key chosen).value? wanted =
      if key == wanted then some chosen else choices.value? wanted := by
  induction choices with
  | empty => rfl
  | value old was rest ih =>
    rw [put]
    split
    · next h => rw [value?, value?, BEq.congr_left h]; split <;> rfl
    · next h =>
      rw [value?, value?, ih]
      by_cases hold : (old == wanted) = true
      · have hne : (key == wanted) = false := by
          rw [Bool.eq_false_iff]
          exact fun hkey => h (BEq.trans hold (BEq.symm hkey))
        simp [hold, hne]
      · simp [hold]
  | nested old inner rest _ ih => rw [put, value?, value?, ih]

@[simp] theorem nested?_put (choices : Choices) (key chosen wanted : Value) :
    (choices.put key chosen).nested? wanted = choices.nested? wanted := by
  induction choices with
  | empty => rfl
  | value old was rest ih => rw [put]; split <;> simp only [nested?, ih]
  | nested old inner rest _ ih => rw [put, nested?, nested?, ih]

theorem nested?_graft (choices : Choices) (key : Value) (inner : Choices) (wanted : Value) :
    (choices.graft key inner).nested? wanted =
      if key == wanted then some inner else choices.nested? wanted := by
  induction choices with
  | empty => rfl
  | value old was rest ih => rw [graft, nested?, nested?, ih]
  | nested old was rest _ ih =>
    rw [graft]
    split
    · next h => rw [nested?, nested?, BEq.congr_left h]; split <;> rfl
    · next h =>
      rw [nested?, nested?, ih]
      by_cases hold : (old == wanted) = true
      · have hne : (key == wanted) = false := by
          rw [Bool.eq_false_iff]
          exact fun hkey => h (BEq.trans hold (BEq.symm hkey))
        simp [hold, hne]
      · simp [hold]

@[simp] theorem value?_graft (choices : Choices) (key : Value) (inner : Choices) (wanted : Value) :
    (choices.graft key inner).value? wanted = choices.value? wanted := by
  induction choices with
  | empty => rfl
  | value old was rest ih => rw [graft, value?, value?, ih]
  | nested old was rest _ ih => rw [graft]; split <;> simp only [value?, ih]

/-- Paths that are `==` lead to one value. -/
theorem at?_congr (choices : Choices) {p q : Path} (h : (p == q) = true) :
    choices.at? p = choices.at? q := by
  induction p generalizing choices q with
  | nil =>
    cases q with
    | nil => rfl
    | cons => cases h
  | cons a p ih =>
    cases q with
    | nil => cases h
    | cons b q =>
      rw [List.cons_beq_cons, Bool.and_eq_true] at h
      cases p with
      | nil =>
        cases q with
        | nil => exact value?_congr choices h.1
        | cons => cases h.2
      | cons c p =>
        cases q with
        | nil => cases h.2
        | cons d q =>
          rw [at?_cons_cons, at?_cons_cons, nested?_congr choices h.1]
          cases choices.nested? b with
          | none => rfl
          | some inner => exact ih inner h.2

/-! ### Writing -/

/-- Writing at a path of one key. -/
theorem set_singleton (choices : Choices) (key chosen : Value) :
    choices.set [key] chosen = choices.setItem key chosen := rfl

/-- What stands under a key before a path through it is written: a level, or nothing yet. -/
def levelFor (choices : Choices) (key : Value) : Except AddressFault Choices :=
  match choices.nested? key with
  | some inner => .ok inner
  | none => if (choices.value? key).isSome then .error (.holdsValue key) else .ok empty

theorem set_cons_cons (choices : Choices) (key next : Value) (rest : Path) (chosen : Value) :
    choices.set (key :: next :: rest) chosen = (do
      key.checkKey
      let inner ← choices.levelFor key
      return choices.graft key (← inner.set (next :: rest) chosen)) := by
  rw [set, levelFor]
  · cases key.checkKey with
    | error => rfl
    | ok =>
      cases choices.nested? key with
      | some inner => rfl
      | none => cases (choices.value? key).isSome <;> rfl
  · exact nofun

theorem levelFor_eq_ok {choices inner : Choices} {key : Value}
    (h : choices.levelFor key = .ok inner) :
    choices.nested? key = some inner ∨
      choices.nested? key = none ∧ choices.value? key = none ∧ inner = empty := by
  rw [levelFor] at h
  split at h
  · next hnested => exact .inl (hnested.trans (congrArg some (Except.ok.inj h)))
  · next hnested =>
    cases hvalue : choices.value? key with
    | some was => rw [hvalue] at h; cases h
    | none => rw [hvalue] at h; exact .inr ⟨hnested, rfl, (Except.ok.inj h).symm⟩

/-- What a level shows below a key, before a path through the key is written. -/
theorem at?_of_levelFor {choices inner : Choices} {key : Value}
    (h : choices.levelFor key = .ok inner) (next : Value) (rest : Path) :
    choices.at? (key :: next :: rest) = inner.at? (next :: rest) := by
  rw [at?_cons_cons]
  rcases levelFor_eq_ok h with hnested | ⟨hnested, -, rfl⟩
  · rw [hnested]; rfl
  · rw [hnested, at?_empty]; rfl

theorem hasRoom_of_levelFor {choices inner : Choices} {key : Value}
    (h : choices.levelFor key = .ok inner) (next : Value) (rest : Path) :
    choices.HasRoom (key :: next :: rest) ↔ inner.HasRoom (next :: rest) := by
  rw [hasRoom_cons_cons]
  rcases levelFor_eq_ok h with hnested | ⟨hnested, hvalue, rfl⟩
  · rw [hnested]
  · rw [hnested]; exact iff_of_true hvalue (hasRoom_empty (by simp))

theorem setItem_eq_ok {choices result : Choices} {key chosen : Value} :
    choices.setItem key chosen = .ok result ↔
      key.checkKey = .ok () ∧ choices.nested? key = none ∧ result = choices.put key chosen := by
  rw [setItem]
  cases key.checkKey with
  | error => simp [bind, Except.bind]
  | ok =>
    cases choices.nested? key with
    | some => simp [bind, Except.bind, throw, throwThe, MonadExceptOf.throw]
    | none => simp [bind, Except.bind, pure, Except.pure, eq_comm]

theorem set_cons_cons_eq_ok {choices result : Choices} {key next : Value} {rest : Path}
    {chosen : Value} (h : choices.set (key :: next :: rest) chosen = .ok result) :
    ∃ inner written, key.checkKey = .ok () ∧ choices.levelFor key = .ok inner ∧
      inner.set (next :: rest) chosen = .ok written ∧ result = choices.graft key written := by
  rw [set_cons_cons] at h
  cases hkey : key.checkKey with
  | error => rw [hkey] at h; cases h
  | ok =>
    cases hlevel : choices.levelFor key with
    | error => rw [hkey, hlevel] at h; cases h
    | ok inner =>
      cases hset : inner.set (next :: rest) chosen with
      | error => rw [hkey, hlevel] at h; simp [bind, Except.bind, hset] at h
      | ok written =>
        rw [hkey, hlevel] at h
        simp only [bind, Except.bind, hset, pure, Except.pure, Except.ok.injEq] at h
        exact ⟨inner, written, rfl, rfl, hset, h.symm⟩

/-- Writing a value changes what is read at its path and nothing else. -/
theorem at?_set {choices result : Choices} {path : Path} {chosen : Value}
    (h : choices.set path chosen = .ok result) (wanted : Path) :
    result.at? wanted = if path == wanted then some chosen else choices.at? wanted := by
  induction path generalizing choices result wanted with
  | nil => cases h
  | cons key rest ih =>
    cases rest with
    | nil =>
      obtain ⟨-, -, rfl⟩ := setItem_eq_ok.mp h
      match wanted with
      | [] => simp
      | [other] => simpa [at?] using value?_put choices key chosen other
      | other :: next :: later => simp [at?_cons_cons]
    | cons next rest =>
      obtain ⟨inner, written, -, hlevel, hset, rfl⟩ := set_cons_cons_eq_ok h
      match wanted with
      | [] => simp
      | [other] => simp [at?]
      | other :: step :: later =>
        rw [at?_cons_cons, nested?_graft, List.cons_beq_cons]
        by_cases hkey : (key == other) = true
        · rw [if_pos hkey, hkey, Bool.true_and]
          refine (ih hset (step :: later)).trans ?_
          rw [← at?_of_levelFor hlevel step later,
            at?_congr choices (q := other :: step :: later) (by simp [hkey])]
        · simp [hkey, at?_cons_cons]

/-- Writing needs keys that can be keys, and room. -/
theorem exists_set_iff {choices : Choices} {path : Path} (chosen : Value) :
    (∃ result, choices.set path chosen = .ok result) ↔
      path.check = .ok () ∧ choices.HasRoom path := by
  induction path generalizing choices with
  | nil => exact ⟨nofun, fun h => h.2.elim⟩
  | cons key rest ih =>
    cases rest with
    | nil =>
      rw [Path.check_cons, set_singleton]
      simp only [setItem_eq_ok]
      constructor
      · rintro ⟨_, hkey, hroom, -⟩
        exact ⟨⟨hkey, rfl⟩, hroom⟩
      · rintro ⟨⟨hkey, -⟩, hroom⟩
        exact ⟨_, hkey, hroom, rfl⟩
    | cons next rest =>
      rw [Path.check_cons]
      constructor
      · rintro ⟨result, h⟩
        obtain ⟨inner, written, hkey, hlevel, hset, -⟩ := set_cons_cons_eq_ok h
        obtain ⟨hrest, hroom⟩ := ih.mp ⟨written, hset⟩
        exact ⟨⟨hkey, hrest⟩, (hasRoom_of_levelFor hlevel next rest).mpr hroom⟩
      · rintro ⟨⟨hkey, hrest⟩, hroom⟩
        obtain ⟨inner, hlevel⟩ : ∃ inner, choices.levelFor key = .ok inner := by
          rw [hasRoom_cons_cons] at hroom
          rw [levelFor]
          split at hroom
          · exact ⟨_, rfl⟩
          · rw [hroom]; exact ⟨_, rfl⟩
        obtain ⟨written, hset⟩ := ih.mpr ⟨hrest, (hasRoom_of_levelFor hlevel next rest).mp hroom⟩
        refine ⟨choices.graft key written, ?_⟩
        rw [set_cons_cons, hkey, hlevel]
        simp [bind, Except.bind, hset, pure, Except.pure]

/-- A written value leaves room for the paths that are compatible with its own. -/
theorem hasRoom_set {choices result : Choices} {path : Path} {chosen : Value}
    (h : choices.set path chosen = .ok result) (wanted : Path) :
    result.HasRoom wanted ↔ choices.HasRoom wanted ∧ path.compatible wanted = true := by
  -- values and nested choices of one level have separate keys, so both paths are followed together
  induction path generalizing choices result wanted with
  | nil => cases h
  | cons key rest ih =>
    cases rest with
    | nil =>
      obtain ⟨-, hnone, rfl⟩ := setItem_eq_ok.mp h
      match wanted with
      | [] => simp [HasRoom]
      | [other] => simp [HasRoom, Path.compatible]
      | other :: next :: later =>
        rw [hasRoom_cons_cons, hasRoom_cons_cons, nested?_put, value?_put]
        by_cases hkey : (key == other) = true
        · rw [← nested?_congr choices hkey, hnone]
          simp [hkey, Path.compatible]
        · cases choices.nested? other <;> simp [hkey, Path.compatible]
    | cons next rest =>
      obtain ⟨inner, written, -, hlevel, hset, rfl⟩ := set_cons_cons_eq_ok h
      match wanted with
      | [] => simp [HasRoom]
      | [other] =>
        by_cases hkey : (key == other) = true <;>
          simp [HasRoom, nested?_graft, hkey, Path.compatible]
      | other :: step :: later =>
        rw [hasRoom_cons_cons, nested?_graft, value?_graft]
        by_cases hkey : (key == other) = true
        · rw [if_pos hkey]
          have hroom := hasRoom_of_levelFor hlevel step later
          have hother : choices.HasRoom (other :: step :: later) ↔
              choices.HasRoom (key :: step :: later) := by
            rw [hasRoom_cons_cons, hasRoom_cons_cons, nested?_congr choices hkey,
              value?_congr choices hkey]
          rw [hother, hroom]
          refine Iff.trans (ih hset (step :: later)) ?_
          simp [hkey, Path.compatible]
        · rw [if_neg hkey, hasRoom_cons_cons]
          simp [hkey, Path.compatible]

end Choices

end Deontic
