import Deontic.Grammar.Loading
import Deontic.Proofs.Criterion

/-! Grammars with the same tables.  Whether a grammar passes its check is told by look-ups
(`Grammar.validate_eq_ok_iff`) and by sums of weights, which do not depend on the order of the
entries; so grammars that agree pass together.  A description of a grammar is read back as the
grammar itself if it passes, and refused for the same fault otherwise
(`Grammar.ofMembers_members`). -/

namespace Deontic

namespace Table

variable {ν μ : Type}

/-- Two tables with the same look-ups. -/
def Alike (t u : Table String ν) : Prop := ∀ key, t.get? key = u.get? key

theorem Alike.symm {t u : Table String ν} (h : t.Alike u) : u.Alike t := fun key => (h key).symm

theorem mem_entries_iff {t : Table String ν} {entry : String × ν} :
    entry ∈ t.entries ↔ t.get? entry.1 = some entry.2 :=
  ⟨get?_of_mem, mem_of_get?_eq⟩

theorem nodup_entries (t : Table String ν) : t.entries.Nodup :=
  t.distinct.imp fun hne heq => by rw [heq, beq_self_eq_true] at hne; cases hne

/-- The same look-ups leave only the order of the entries open. -/
theorem Alike.perm {t u : Table String ν} (h : t.Alike u) : t.values.Perm u.values := by
  refine List.Perm.map _ ((List.perm_ext_iff_of_nodup t.nodup_entries u.nodup_entries).mpr ?_)
  intro entry
  rw [mem_entries_iff, mem_entries_iff, h]

theorem agrees_iff_alike {agree : ν → ν → Bool} (hagree : ∀ a b, agree a b = true ↔ a = b)
    {t u : Table String ν} : t.agrees agree u = true ↔ t.Alike u := by
  rw [agrees_iff]
  refine forall_congr' fun key => ?_
  cases t.get? key <;> cases u.get? key <;> simp [hagree]

theorem get?_mapValues (f : ν → μ) (t : Table String ν) (key : String) :
    (t.mapValues f).get? key = (t.get? key).map f := by
  rw [get?, get?, find?, find?, entries_mapValues, List.find?_map, Option.map_map, Option.map_map]
  rfl

theorem contains_mapValues (f : ν → μ) (t : Table String ν) (key : String) :
    (t.mapValues f).contains key = t.contains key := by
  rw [contains_eq_isSome_get?, contains_eq_isSome_get?, get?_mapValues, Option.isSome_map]

theorem keys_mapValues (f : ν → μ) (t : Table String ν) : (t.mapValues f).keys = t.keys :=
  List.map_map

theorem mapValues_mapValues {ο : Type} (f : ν → μ) (g : μ → ο) (t : Table String ν) :
    (t.mapValues f).mapValues g = t.mapValues (g ∘ f) :=
  ext List.map_map

theorem mapValues_self (t : Table String ν) : (t.mapValues fun value => value) = t :=
  ext (List.map_id _)

end Table

namespace Grammar

/-- Two tables of tables that look up to tables with the same look-ups. -/
def SameTables {ν : Type} (t u : Table String (Table String ν)) : Prop :=
  ∀ name, Option.Rel Table.Alike (t.get? name) (u.get? name)

section SameTables

variable {ν : Type} {t u : Table String (Table String ν)} {name : String}

theorem SameTables.refl (t : Table String (Table String ν)) : SameTables t t := by
  intro name
  cases t.get? name with
  | none => exact .none
  | some => exact .some fun _ => rfl

theorem SameTables.symm (h : SameTables t u) : SameTables u t := by
  intro name
  have hname := h name
  generalize t.get? name = a, u.get? name = b at hname
  cases hname with
  | none => exact .none
  | some halike => exact .some halike.symm

/-- What one of the tables looks up has its like in the other. -/
theorem SameTables.exists_alike (h : SameTables t u) {inner : Table String ν}
    (hinner : t.get? name = some inner) :
    ∃ other, u.get? name = some other ∧ inner.Alike other := by
  have hname := h name
  rw [hinner] at hname
  generalize u.get? name = b at hname
  cases hname with
  | some halike => exact ⟨_, rfl, halike⟩

theorem SameTables.isSome (h : SameTables t u) (hname : (t.get? name).isSome = true) :
    (u.get? name).isSome = true := by
  obtain ⟨inner, hinner⟩ := Option.isSome_iff_exists.mp hname
  obtain ⟨other, hother, -⟩ := h.exists_alike hinner
  rw [hother]
  rfl

theorem agrees_iff_sameTables {agree : ν → ν → Bool} (hagree : ∀ a b, agree a b = true ↔ a = b) :
    t.agrees (fun x y => x.agrees agree y) u = true ↔ SameTables t u := by
  rw [Table.agrees_iff]
  simp only [Table.agrees_iff_alike hagree, SameTables]

end SameTables

/-- Two grammars with one vocabulary and the same tables. -/
structure Same (a b : Grammar ℚ) : Prop where
  vocabulary : a.vocabulary = b.vocabulary
  root : a.root = b.root
  rules : SameTables a.rules b.rules
  wordWeights : SameTables a.wordWeights b.wordWeights
  textWeights : SameTables a.textWeights b.textWeights

theorem agrees_iff_same {a b : Grammar ℚ} (hvocabulary : a.vocabulary = b.vocabulary) :
    a.agrees b = true ↔ Same a b := by
  have hequal (p q : ℚ) : (Scale.le p q && Scale.le q p) = true ↔ p = q :=
    Bool.and_eq_true_iff.trans
      ((and_congr decide_eq_true_iff decide_eq_true_iff).trans le_antisymm_iff.symm)
  rw [agrees, Bool.and_eq_true, Bool.and_eq_true, Bool.and_eq_true, beq_iff_eq,
    agrees_iff_sameTables (fun _ _ => beq_iff_eq), agrees_iff_sameTables hequal,
    agrees_iff_sameTables hequal]
  constructor
  · rintro ⟨⟨⟨hrules, hwords⟩, htexts⟩, hroot⟩
    exact ⟨hvocabulary, hroot, hrules, hwords, htexts⟩
  · intro h
    exact ⟨⟨⟨h.rules, h.wordWeights⟩, h.textWeights⟩, h.root⟩

section Same

variable {a b : Grammar ℚ}

theorem Same.refl (grammar : Grammar ℚ) : Same grammar grammar :=
  ⟨rfl, rfl, .refl _, .refl _, .refl _⟩

theorem Same.symm (h : Same a b) : Same b a :=
  ⟨h.vocabulary.symm, h.root.symm, h.rules.symm, h.wordWeights.symm, h.textWeights.symm⟩

/-- Of the weights only their sum could depend on the order. -/
theorem Distributes.perm {weights others : List ℚ} (h : Distributes weights)
    (hperm : weights.Perm others) : Distributes others where
  nonempty hnil := h.nonempty (List.perm_nil.mp (hnil ▸ hperm))
  nonneg p hp := h.nonneg p (hperm.mem_iff.mpr hp)
  nearlyOne := hperm.sum_eq ▸ h.nearlyOne

theorem Same.usable (h : Same a b) {name : String} {parts : List String}
    (husable : a.Usable name parts) : b.Usable name parts := by
  cases husable with
  | leaf hword hshape htexts hregrowth hoffered halone =>
    obtain ⟨texts, htexts, -⟩ := h.textWeights.exists_alike htexts
    obtain ⟨offered, hoffered, halike⟩ := h.rules.exists_alike hoffered
    exact .leaf (h.vocabulary ▸ hword) hshape htexts hregrowth hoffered
      fun other => halike other ▸ halone other
  | branch hword hshape hnonempty hfew hparts =>
    exact .branch (h.vocabulary ▸ hword) hshape hnonempty hfew
      fun part hpart => h.rules.isSome (hparts part hpart)

theorem Same.valid (h : Same a b) (hvalid : a.Valid) : b.Valid where
  root := h.root ▸ h.rules.isSome hvalid.root
  weighed hoffered := by
    obtain ⟨offered, hoffered, halike⟩ := h.symm.rules.exists_alike hoffered
    obtain ⟨weights, hweights, hnames, hproper⟩ := hvalid.weighed hoffered
    obtain ⟨others, hothers, hsame⟩ := h.wordWeights.exists_alike hweights
    refine ⟨others, hothers, fun name => ?_, hproper.perm hsame.perm⟩
    rw [← hsame name, halike name, hnames]
  usable hoffered hparts := by
    obtain ⟨offered, hoffered, halike⟩ := h.symm.rules.exists_alike hoffered
    exact h.usable (hvalid.usable hoffered (halike _ ▸ hparts))
  known hweights := by
    obtain ⟨weights, hweights, -⟩ := h.symm.wordWeights.exists_alike hweights
    exact h.rules.isSome (hvalid.known hweights)
  texts hweights := by
    obtain ⟨weights, hweights, halike⟩ := h.symm.textWeights.exists_alike hweights
    exact (hvalid.texts hweights).perm halike.symm.perm

end Same

/-! ### Reading a description -/

section Reading

variable {P W : Type} [Scale P W]

/-- Reading one after the other what is read alone. -/
theorem mapM_map_eq_ok {ε α β γ : Type} {f : β → Except ε γ} {g : α → β} {k : α → γ}
    (h : ∀ x, f (g x) = .ok (k x)) (xs : List α) : (xs.map g).mapM f = .ok (xs.map k) := by
  induction xs with
  | nil => rfl
  | cons x rest ih =>
    rw [List.map_cons, List.mapM_cons, h, ih]
    rfl

/-- A table whose values are read back is read back. -/
theorem readTable_ofTable {ν μ : Type} {read : Document P → Except Fault μ}
    {describe : ν → Document P} {f : ν → μ} (h : ∀ value, read (describe value) = .ok (f value))
    (table : Table String ν) :
    readTable read (.ofTable describe table) = .ok (table.mapValues f) := by
  have hsame : Table.ofList (table.mapValues f).entries = table.mapValues f :=
    Table.ext (Table.entries_ofList (table.mapValues f).distinct)
  rw [← hsame]
  refine congrArg
    (· >>= fun entries => (.ok (Table.ofList entries) : Except Fault (Table String μ)))
    (mapM_map_eq_ok (fun entry => ?_) table.entries)
  show (read (describe entry.2) >>= fun value => Except.ok (entry.1, value)) = _
  rw [h]
  rfl

/-- A grammar in which the rules are named by documents. -/
def drafted (grammar : Grammar P) : Grammar P (Document P) where
  rules := grammar.rules.mapValues (Table.mapValues (List.map .text))
  wordWeights := grammar.wordWeights
  textWeights := grammar.textWeights
  root := .text grammar.root
  vocabulary := grammar.vocabulary

variable {grammar : Grammar P}

theorem hasRule_drafted (rule : String) :
    grammar.drafted.hasRule (.text rule) = grammar.hasRule rule := by
  show Except.ok (grammar.drafted.rules.contains rule) = .ok (grammar.rules.contains rule)
  rw [drafted, Table.contains_mapValues]

theorem checkParts_drafted {rule : String} (parts : List String) :
    grammar.drafted.checkParts rule (parts.map .text) = grammar.checkParts rule parts := by
  induction parts with
  | nil => rfl
  | cons part rest ih =>
    rw [List.map_cons, checkParts, hasRule_drafted, ih, checkParts]
    rfl

theorem checkLeaf_drafted (word : Word) :
    grammar.drafted.checkLeaf word = grammar.checkLeaf word := by
  rw [checkLeaf, checkLeaf]
  cases hregrowth : word.regrowth with
  | none => rfl
  | some rule =>
    have hoffered : grammar.drafted.rules.get? rule = (grammar.rules.get? rule).map _ :=
      Table.get?_mapValues _ grammar.rules rule
    rw [Option.bind_some, Option.bind_some, hoffered]
    cases grammar.rules.get? rule with
    | none => rfl
    | some offered =>
      rw [Option.map_some, Option.map_some, Option.map_some]
      dsimp only
      rw [Table.keys_mapValues]
      rfl

theorem checkOffer_drafted (rule name : String) (parts : List String) :
    grammar.drafted.checkOffer rule name (parts.map .text) =
      grammar.checkOffer rule name parts := by
  simp only [checkOffer, checkParts_drafted, checkLeaf_drafted, List.length_map, List.isEmpty_map]
  rfl

theorem checkRule_drafted (rule : String) (offered : Table String (List String)) :
    grammar.drafted.checkRule rule (offered.mapValues (List.map .text)) =
      grammar.checkRule rule offered := by
  simp only [checkRule, Table.keys_mapValues, Table.entries_mapValues, List.forM_eq_forM,
    List.forM_map, checkOffer_drafted]
  rfl

/-- The check does not see whether the rules are named by documents. -/
theorem validate_drafted : grammar.drafted.validate = grammar.validate := by
  have hentries : grammar.drafted.rules.entries = grammar.rules.entries.map fun entry =>
      (entry.1, entry.2.mapValues (List.map .text)) := rfl
  have hcontains (rule : String) :
      grammar.drafted.rules.contains rule = grammar.rules.contains rule :=
    Table.contains_mapValues _ grammar.rules rule
  have hroot : grammar.drafted.hasRule grammar.drafted.root = grammar.hasRule grammar.root :=
    hasRule_drafted grammar.root
  simp only [validate, hroot, hentries, hcontains, List.forM_eq_forM, List.forM_map,
    checkRule_drafted]
  rfl

theorem named_drafted : grammar.drafted.named = grammar := by
  have hparts (parts : List String) :
      (parts.map (.text : String → Document P)).filterMap Reference.name? = parts := by
    simp [List.filterMap_map, Reference.name?]
  have hrules : grammar.drafted.named.rules = grammar.rules := by
    simp only [named, drafted, Table.mapValues_mapValues, Function.comp_def, hparts,
      Table.mapValues_self]
  exact congrArg (fun rules => { grammar with rules }) hrules

/-- Reading the description of a grammar checks the grammar and returns it. -/
theorem ofMembers_members (grammar : Grammar P) :
    ofMembers grammar.vocabulary grammar.members = grammar.validate.map fun _ => grammar := by
  have hrules :
      readRules (.ofTable (.ofTable fun parts => .array (parts.map .text)) grammar.rules) =
        .ok grammar.drafted.rules :=
    readTable_ofTable (readTable_ofTable fun parts => by rfl) grammar.rules
  have hweights (t : Table String (Table String P)) :
      readWeights (.ofTable (.ofTable .real) t) = .ok t := by
    refine (readTable_ofTable (readTable_ofTable (f := fun p => p) fun p => by rfl) t).trans ?_
    show Except.ok (t.mapValues fun weights => weights.mapValues fun p => p) = .ok t
    simp only [Table.mapValues_self]
  have hread : ofMembers grammar.vocabulary grammar.members =
      (readRules (.ofTable (.ofTable fun parts => .array (parts.map .text)) grammar.rules) >>=
        fun rules => readWeights (.ofTable (.ofTable .real) grammar.wordWeights) >>=
        fun wordWeights => readWeights (.ofTable (.ofTable .real) grammar.textWeights) >>=
        fun textWeights =>
          let draft : Grammar P (Document P) :=
            ⟨rules, wordWeights, textWeights, .text grammar.root, grammar.vocabulary⟩
          draft.validate >>= fun _ => .ok draft.named) := rfl
  rw [hread, hrules, hweights, hweights]
  show (grammar.drafted.validate >>= fun _ => .ok grammar.drafted.named) = _
  rw [validate_drafted, named_drafted]
  cases grammar.validate <;> rfl

end Reading

/-- **The check of a grammar does not depend on the order of its tables.**  Grammars with one
vocabulary that agree pass together, whatever the order of their entries at every level, and a
grammar that passes is read back from its description, agreeing with itself. -/
theorem validate_reordered :
    (∀ a b : Grammar ℚ, a.vocabulary = b.vocabulary → a.agrees b = true →
      (a.validate = .ok () ↔ b.validate = .ok ())) ∧
    ∀ grammar : Grammar ℚ, grammar.validate = .ok () →
      ofMembers grammar.vocabulary grammar.members = .ok grammar ∧
      grammar.agrees grammar = true := by
  refine ⟨fun a b hvocabulary hagrees => ?_, fun grammar hvalid =>
    ⟨?_, (agrees_iff_same rfl).mpr (.refl grammar)⟩⟩
  · have hsame := (agrees_iff_same hvocabulary).mp hagrees
    rw [validate_eq_ok_iff, validate_eq_ok_iff]
    exact ⟨hsame.valid, hsame.symm.valid⟩
  · rw [ofMembers_members, hvalid]
    rfl

/-- The standard grammar with its tables written in another order. -/
def turned : Grammar ℚ where
  rules := .ofList
    [("NO_NORM", .ofList [("No_norm", [])]), ("COLOUR", .ofList [("Colour", [])]),
     ("NORMS", .ofList
        [("Pro", ["COLOUR", "ZONE"]), ("No_norm", []), ("Obl", ["COLOUR", "ZONE"])]),
     ("ZONE", .ofList [("Zone", [])])]
  wordWeights := .ofList
    [("COLOUR", .ofList [("Colour", 1)]), ("NO_NORM", .ofList [("No_norm", 1)]),
     ("NORMS", .ofList [("Pro", 3 / 10), ("No_norm", 3 / 10), ("Obl", 4 / 10)]),
     ("ZONE", .ofList [("Zone", 1)])]
  textWeights := .ofList
    [("Zone", .ofList [("3", 1 / 4), ("1", 1 / 2), ("2", 1 / 4)]),
     ("Colour", .ofList [("any", 1 / 6), ("blue", 1 / 6), ("green", 1 / 2), ("red", 1 / 6)]),
     ("No_norm", .ofList [("true", 1)])]
  root := "NORMS"
  vocabulary := .standard

/-- The standard grammar passes because the turned one does, and is read back. -/
theorem validate_reordered_standard :
    (turned.vocabulary = (standard : Grammar ℚ).vocabulary ∧
      turned.agrees (standard : Grammar ℚ) = true ∧ turned.validate = .ok ()) ∧
    (standard : Grammar ℚ).validate = .ok () ∧
    ofMembers (standard : Grammar ℚ).vocabulary (standard : Grammar ℚ).members = .ok standard := by
  have hagrees : turned.agrees (standard : Grammar ℚ) = true := by decide +kernel
  have hturned : turned.validate = .ok () := validate_of_isOk (by decide +kernel)
  have hvalid := (validate_reordered.1 turned standard rfl hagrees).mp hturned
  exact ⟨⟨rfl, hagrees, hturned⟩, hvalid, (validate_reordered.2 standard hvalid).1⟩

end Grammar

end Deontic
