import Deontic.Proofs.Reordering

/-! Documents that are no grammar.  Loading a text refuses it for a fault of the grammar that it
describes, or it stumbles: over values that cannot be read as tables, over references that cannot be
looked up, over weights that cannot be added up.  For each check it is said when it stumbles
(`Grammar.stumbles_validate`), and so for the loading as a whole (`Grammar.loads_or_refuses_iff`).
What is loaded passes the check once more, with names for its references (`validate_named`). -/

namespace Deontic

variable {P W α β : Type}

/-- Whether a failure reports a fault of a grammar. -/
def Fault.blamesGrammar : Fault → Bool
  | grammar _ => true
  | vocabulary fault => fault != .textForEmpty
  | _ => false

/-- That something fails, and not for a fault of a grammar. -/
def Stumbles (result : Except Fault α) : Prop :=
  ∃ fault, result = .error fault ∧ fault.blamesGrammar = false

theorem not_stumbles_ok (a : α) : ¬Stumbles (.ok a : Except Fault α) := by
  rintro ⟨_, ⟨⟩, _⟩

theorem stumbles_error {fault : Fault} :
    Stumbles (.error fault : Except Fault α) ↔ fault.blamesGrammar = false := by
  constructor
  · rintro ⟨_, ⟨⟩, h⟩; exact h
  · intro h; exact ⟨fault, rfl, h⟩

theorem not_stumbles_grammar (fault : GrammarFault) :
    ¬Stumbles (.error (.grammar fault) : Except Fault α) := by
  rw [stumbles_error]
  exact Bool.true_eq_false.mp

instance (result : Except Fault α) : Decidable (Stumbles result) :=
  match result with
  | .ok a => isFalse (not_stumbles_ok a)
  | .error _ => decidable_of_iff' _ stumbles_error

/-- A sequence stumbles in its first part, or after it. -/
theorem stumbles_bind {x : Except Fault α} {f : α → Except Fault β} :
    Stumbles (x >>= f) ↔ Stumbles x ∨ ∃ a, x = .ok a ∧ Stumbles (f a) := by
  cases x with
  | error fault =>
    constructor
    · intro h; exact .inl (stumbles_error.mpr (stumbles_error.mp h))
    · rintro (h | ⟨_, h, _⟩)
      · exact stumbles_error.mpr (stumbles_error.mp h)
      · cases h
  | ok a =>
    constructor
    · intro h; exact .inr ⟨a, rfl, h⟩
    · rintro (h | ⟨_, ⟨⟩, h⟩)
      · exact (not_stumbles_ok a h).elim
      · exact h

theorem Stumbles.bind {x : Except Fault α} {f : α → Except Fault β} (h : Stumbles x) :
    Stumbles (x >>= f) :=
  stumbles_bind.mpr (.inl h)

theorem Stumbles.after {x : Except Fault α} {f : α → Except Fault β} {a : α} (hx : x = .ok a)
    (h : Stumbles (f a)) : Stumbles (x >>= f) :=
  stumbles_bind.mpr (.inr ⟨a, hx, h⟩)

/-- A check that refuses does not stumble, so what comes after it does. -/
theorem stumbles_guard {failed : Prop} [Decidable failed] {fault : GrammarFault}
    {rest : Except Fault β} :
    Stumbles (if failed then throw (.grammar fault) >>= fun _ : PUnit => rest else rest) ↔
      ¬failed ∧ Stumbles rest := by
  by_cases h : failed
  · rw [if_pos h]
    exact iff_of_false (not_stumbles_grammar fault) fun k => k.1 h
  · rw [if_neg h]
    exact (and_iff_right h).symm

/-- That a member of a list is met after members that are passed. -/
def First (passed met : α → Prop) (xs : List α) : Prop :=
  ∃ before x after, xs = before ++ x :: after ∧ (∀ y ∈ before, passed y) ∧ met x

theorem not_first_nil {passed met : α → Prop} : ¬First passed met [] := by
  rintro ⟨before, x, after, h, -⟩
  cases before <;> cases h

theorem first_cons {passed met : α → Prop} {x : α} {xs : List α} :
    First passed met (x :: xs) ↔ met x ∨ passed x ∧ First passed met xs := by
  constructor
  · rintro ⟨before, y, after, h, hbefore, hmet⟩
    cases before with
    | nil => cases h; exact .inl hmet
    | cons z before =>
      cases h
      obtain ⟨hz, hbefore⟩ := List.forall_mem_cons.mp hbefore
      exact .inr ⟨hz, before, y, after, rfl, hbefore, hmet⟩
  · rintro (hmet | ⟨hx, before, y, after, rfl, hbefore, hmet⟩)
    · exact ⟨[], x, xs, rfl, nofun, hmet⟩
    · exact ⟨x :: before, y, after, rfl, List.forall_mem_cons.mpr ⟨hx, hbefore⟩, hmet⟩

/-- A check of all members stumbles over one if it passes those before. -/
theorem stumbles_forM {f : α → Except Fault Unit} {xs : List α} :
    Stumbles (xs.forM f) ↔ First (fun x => f x = .ok ()) (fun x => Stumbles (f x)) xs := by
  induction xs with
  | nil => exact iff_of_false (not_stumbles_ok ()) not_first_nil
  | cons x rest ih =>
    show Stumbles (f x >>= fun _ => rest.forM f) ↔ _
    rw [stumbles_bind, first_cons, ← ih]
    refine or_congr_right ⟨?_, fun h => ⟨(), h⟩⟩
    rintro ⟨⟨⟩, h⟩
    exact h

theorem First.mono {passed passed' met met' : α → Prop} {xs : List α} (h : First passed met xs)
    (hpassed : ∀ x, passed x → passed' x) (hmet : ∀ x, met x → met' x) : First passed' met' xs := by
  obtain ⟨before, x, after, rfl, hbefore, hx⟩ := h
  exact ⟨before, x, after, rfl, fun y hy => hpassed y (hbefore y hy), hmet x hx⟩

theorem first_of_not_forall {passed : α → Prop} {xs : List α} (h : ¬∀ x ∈ xs, passed x) :
    First passed (fun x => ¬passed x) xs := by
  induction xs with
  | nil => exact (h nofun).elim
  | cons x rest ih =>
    rw [first_cons]
    by_cases hx : passed x
    · exact .inr ⟨hx, ih fun hrest => h (List.forall_mem_cons.mpr ⟨hx, hrest⟩)⟩
    · exact .inl hx

theorem exists_mapM {f : α → Except Fault β} {xs : List α} (h : ∀ x ∈ xs, ∃ y, f x = .ok y) :
    ∃ ys, xs.mapM f = .ok ys := by
  induction xs with
  | nil => exact ⟨[], rfl⟩
  | cons x rest ih =>
    obtain ⟨⟨y, hy⟩, hrest⟩ := List.forall_mem_cons.mp h
    obtain ⟨ys, hys⟩ := ih hrest
    exact ⟨y :: ys, by rw [List.mapM_cons, hy, hys]; rfl⟩

theorem stumbles_mapM {f : α → Except Fault β} {xs : List α} :
    Stumbles (xs.mapM f) ↔ First (fun x => ∃ y, f x = .ok y) (fun x => Stumbles (f x)) xs := by
  induction xs with
  | nil => exact iff_of_false (not_stumbles_ok []) not_first_nil
  | cons x rest ih =>
    rw [List.mapM_cons, stumbles_bind, first_cons, ← ih]
    apply or_congr_right
    constructor
    · rintro ⟨y, hy, h⟩
      rcases stumbles_bind.mp h with hrest | ⟨ys, -, h⟩
      · exact ⟨⟨y, hy⟩, hrest⟩
      · exact (not_stumbles_ok (y :: ys) h).elim
    · rintro ⟨⟨y, hy⟩, hrest⟩
      exact ⟨y, hy, hrest.bind⟩

theorem Table.mapValues_eq_self {ν : Type} {f : ν → ν} {t : Table String ν}
    (h : ∀ entry ∈ t.entries, f entry.2 = entry.2) : t.mapValues f = t :=
  Table.ext ((List.map_congr_left fun entry hentry => by rw [h entry hentry]; rfl).trans
    (List.map_id _))

/-! ### Reading -/

namespace Document

/-- An object whose members all have a form. -/
def IsTable (form : Document P → Prop) : Document P → Prop
  | object members => ∀ member ∈ members, form member.2
  | _ => False

/-- What the parts of a word can be read from. -/
def HasParts : Document P → Prop
  | array _ | text _ | object _ => True
  | _ => False

/-- What a weight can be read from: a number that is not too large, a truth value, or a numeral. -/
def IsWeight : Document P → Prop
  | bool _ | real _ => True
  | integer n => (Binary64.ofInt n).isFinite = true
  | text s => (Text.readReal? s).isSome = true
  | _ => False

/-- That a reader reads the documents of a form, and stumbles over all others. -/
structure Reads {ν : Type} (read : Document P → Except Fault ν) (form : Document P → Prop) :
    Prop where
  exists_read : ∀ {document}, form document → ∃ value, read document = .ok value
  stumbles : ∀ {document}, ¬form document → Stumbles (read document)

theorem Reads.stumbles_iff {ν : Type} {read : Document P → Except Fault ν}
    {form : Document P → Prop} (h : Reads read form) {document : Document P} :
    Stumbles (read document) ↔ ¬form document := by
  refine ⟨fun hstumbles hform => ?_, h.stumbles⟩
  obtain ⟨value, hvalue⟩ := h.exists_read hform
  rw [hvalue] at hstumbles
  exact not_stumbles_ok _ hstumbles

theorem reads_parts :
    Reads (fun document : Document P => (document.parts : Except Fault _)) HasParts where
  exists_read {document} h := by
    cases document with
    | array | text | object => exact ⟨_, rfl⟩
    | null | bool | integer | real => cases h
  stumbles {document} h := by
    cases document with
    | array | text | object => exact (h trivial).elim
    | null | bool | integer | real => exact ⟨_, rfl, rfl⟩

theorem reads_weight [Scale P W] : Reads (weight : Document P → Except Fault P) IsWeight where
  exists_read {document} h := by
    cases document with
    | bool | real => exact ⟨_, rfl⟩
    | integer n => exact ⟨_, if_pos h⟩
    | text s =>
      obtain ⟨x, hx⟩ := Option.isSome_iff_exists.mp h
      exact ⟨_, by rw [weight, hx]⟩
    | null | array | object => cases h
  stumbles {document} h := by
    cases document with
    | bool | real => exact (h trivial).elim
    | integer n => exact ⟨_, if_neg h, rfl⟩
    | text s =>
      have hnone := Option.not_isSome_iff_eq_none.mp h
      exact ⟨_, by rw [weight, hnone], rfl⟩
    | null | array | object => exact ⟨_, rfl, rfl⟩

end Document

namespace Grammar

open Document

/-- The values of a table are read one after the other. -/
theorem reads_readTable {ν : Type} {read : Document P → Except Fault ν}
    {form : Document P → Prop} (h : Reads read form) : Reads (readTable read) (IsTable form) := by
  let entry (member : String × Document P) : Except Fault (String × ν) :=
    read member.2 >>= fun value => .ok (member.1, value)
  have hread (members : List (String × Document P)) : readTable read (.object members) =
      (members.mapM entry >>= fun entries => .ok (.ofList entries)) := rfl
  have hentry (member : String × Document P) (hmember : form member.2) :
      ∃ found, entry member = .ok found := by
    obtain ⟨value, hvalue⟩ := h.exists_read hmember
    exact ⟨(member.1, value), by simp only [entry, hvalue]; rfl⟩
  constructor
  · intro document hform
    cases document with
    | object members =>
      obtain ⟨entries, hentries⟩ :=
        exists_mapM fun member hmember => hentry member (hform member hmember)
      exact ⟨.ofList entries, by rw [hread, hentries]; rfl⟩
    | null | bool | integer | real | text | array => cases hform
  · intro document hform
    cases document with
    | object members =>
      have hfirst : First (fun member => ∃ found, entry member = .ok found)
          (fun member => Stumbles (entry member)) members := by
        apply (first_of_not_forall hform).mono hentry
        intro member hmember
        exact (h.stumbles hmember).bind
      rw [hread]
      exact (stumbles_mapM.mpr hfirst).bind
    | null | bool | integer | real | text | array => exact ⟨_, rfl, rfl⟩

theorem reads_readRules :
    Reads (readRules : Document P → Except Fault _) (IsTable (IsTable HasParts)) :=
  reads_readTable (reads_readTable reads_parts)

theorem reads_readWeights [Scale P W] :
    Reads (readWeights : Document P → Except Fault _) (IsTable (IsTable IsWeight)) :=
  reads_readTable (reads_readTable reads_weight)

/-! ### Checking -/

variable [Scale P W]

/-- Weights that cannot be added up, and that are not refused before they are. -/
structure Overflows (weights : List P) : Prop where
  nonempty : weights ≠ []
  nonneg : ∀ p ∈ weights, Scale.lt p (Scale.zero P) = false
  overflow : ∃ fault, (Scale.exactSum weights : Except NumberFault P) = .error fault

theorem stumbles_checkWeights {subject : Subject} {weights : List P} :
    Stumbles (checkWeights subject weights) ↔ Overflows weights := by
  have hnonneg : ¬(weights.any fun p => Scale.lt p (Scale.zero P)) = true ↔
      ∀ p ∈ weights, Scale.lt p (Scale.zero P) = false := by
    simp only [List.any_eq_true, not_exists, not_and, Bool.not_eq_true]
  rw [checkWeights, stumbles_guard, stumbles_guard, hnonneg, List.isEmpty_iff]
  cases hsum : (Scale.exactSum weights : Except NumberFault P) with
  | error fault =>
    constructor
    · rintro ⟨hnonempty, hnonneg, -⟩
      exact ⟨hnonempty, hnonneg, fault, hsum⟩
    · intro h
      exact ⟨h.nonempty, h.nonneg, .number fault, rfl, rfl⟩
  | ok total =>
    refine iff_of_false ?_ fun h => ?_
    · rintro ⟨-, -, h⟩
      replace h : Stumbles (if !Scale.isNearlyOne total then
        throw (.grammar (.wrongTotal subject (Scale.double total))) else .ok ()) := h
      split at h
      · exact not_stumbles_grammar _ h
      · exact not_stumbles_ok () h
    · obtain ⟨fault, hfault⟩ := h.overflow
      rw [hsum] at hfault
      cases hfault

variable {ρ : Type} [Reference ρ] {grammar : Grammar P ρ}

theorem stumbles_hasRule {reference : ρ} :
    Stumbles (grammar.hasRule reference) ↔ (Reference.refused? reference).isSome = true := by
  rw [hasRule]
  cases Reference.refused? reference with
  | none => exact iff_of_false (not_stumbles_ok _) Bool.false_ne_true
  | some fault => exact iff_of_true ⟨_, rfl, rfl⟩ rfl

/-- Rules are looked up one after the other, until one is unknown. -/
theorem stumbles_checkParts {rule : String} {parts : List ρ} :
    Stumbles (grammar.checkParts rule parts) ↔
      First (fun part => grammar.hasRule part = .ok true)
        (fun part => (Reference.refused? part).isSome = true) parts := by
  induction parts with
  | nil => exact iff_of_false (not_stumbles_ok ()) not_first_nil
  | cons part rest ih =>
    rw [checkParts, stumbles_bind, first_cons, ← ih, stumbles_hasRule]
    apply or_congr_right
    constructor
    · rintro ⟨known, hknown, hrest⟩
      obtain ⟨htrue, hrest⟩ := stumbles_guard.mp hrest
      rw [Bool.not_eq_true', Bool.not_eq_false] at htrue
      exact ⟨htrue ▸ hknown, hrest⟩
    · rintro ⟨hpart, hrest⟩
      exact ⟨true, hpart, hrest⟩

omit [Reference ρ] in
theorem not_stumbles_checkLeaf {word : Word} : ¬Stumbles (grammar.checkLeaf word) := by
  rw [checkLeaf, stumbles_guard, stumbles_guard]
  rintro ⟨-, -, h⟩
  split at h
  · exact not_stumbles_grammar _ h
  · split at h
    · exact not_stumbles_grammar _ h
    · exact not_stumbles_ok () h

/-- A word that is known, with a reference among its one or two parts that cannot be looked up. -/
structure OfferStumbles (grammar : Grammar P ρ) (name : String) (parts : List ρ) : Prop where
  known : (grammar.vocabulary.words.get? name).isSome = true
  few : parts.length ≤ 2
  part : First (fun part => grammar.hasRule part = .ok true)
    (fun part => (Reference.refused? part).isSome = true) parts

theorem stumbles_checkOffer {rule name : String} {parts : List ρ} :
    Stumbles (grammar.checkOffer rule name parts) ↔ grammar.OfferStumbles name parts := by
  cases hword : grammar.vocabulary.words.get? name with
  | none =>
    have hunknown : grammar.checkOffer rule name parts = .error (.vocabulary (.unknown name)) := by
      rw [checkOffer, Vocabulary.lookup, hword]
      rfl
    rw [hunknown, stumbles_error]
    refine iff_of_false Bool.true_eq_false.mp fun h => ?_
    have hknown := h.known
    rw [hword] at hknown
    cases hknown
  | some word =>
    rw [checkOffer, lookup_eq_ok.mpr hword]
    refine stumbles_guard.trans ?_
    rw [stumbles_bind, stumbles_checkParts, not_lt]
    constructor
    · rintro ⟨hfew, hpart | ⟨_, -, h⟩⟩
      · exact ⟨by rw [hword]; rfl, hfew, hpart⟩
      · -- what comes after the parts is refused or passes
        split at h
        · exact (not_stumbles_checkLeaf h).elim
        · split at h
          · exact (not_stumbles_grammar _ h).elim
          · exact (not_stumbles_ok () h).elim
    · intro h
      exact ⟨h.few, .inl h.part⟩

/-- A rule whose weights belong to the words that it offers, with weights that cannot be added up,
or with a word over which the check stumbles. -/
structure RuleStumbles (grammar : Grammar P ρ) (rule : String)
    (offered : Table String (List ρ)) (weights : Table String P) : Prop where
  weighed : grammar.wordWeights.get? rule = some weights
  sameNames : sameNames weights.keys offered.keys = true
  stumbles : Overflows weights.values ∨ checkWeights (.rule rule) weights.values = .ok () ∧
    First (fun entry => grammar.checkOffer rule entry.1 entry.2 = .ok ())
      (fun entry => grammar.OfferStumbles entry.1 entry.2) offered.entries

theorem stumbles_checkRule {rule : String} {offered : Table String (List ρ)} :
    Stumbles (grammar.checkRule rule offered) ↔
      ∃ weights, grammar.RuleStumbles rule offered weights := by
  rw [checkRule]
  cases hweights : grammar.wordWeights.get? rule with
  | none =>
    refine iff_of_false (not_stumbles_grammar _) ?_
    rintro ⟨weights, h⟩
    have hweighed := h.weighed
    rw [hweights] at hweighed
    cases hweighed
  | some weights =>
    refine stumbles_guard.trans ?_
    rw [stumbles_bind, stumbles_checkWeights, Bool.not_eq_true', Bool.not_eq_false]
    have hoffers : Stumbles (offered.entries.forM fun entry =>
        grammar.checkOffer rule entry.1 entry.2) ↔ First _ _ offered.entries := stumbles_forM
    simp only [stumbles_checkOffer] at hoffers
    constructor
    · rintro ⟨hnames, hoverflows | ⟨⟨⟩, hchecked, h⟩⟩
      · exact ⟨weights, hweights, hnames, .inl hoverflows⟩
      · exact ⟨weights, hweights, hnames, .inr ⟨hchecked, hoffers.mp h⟩⟩
    · rintro ⟨weights', h⟩
      obtain rfl : weights = weights' := Option.some.inj (hweights.symm.trans h.weighed)
      refine ⟨h.sameNames, ?_⟩
      rcases h.stumbles with hoverflows | ⟨hchecked, hoffer⟩
      · exact .inl hoverflows
      · exact .inr ⟨(), hchecked, hoffers.mpr hoffer⟩

/-- How the check of a grammar stumbles: over the root, over a rule after rules that pass, or over
texts after all rules and texts that pass. -/
inductive CheckStumbles (grammar : Grammar P ρ) : Prop
  | root (h : (Reference.refused? grammar.root).isSome = true)
  | rule (hroot : grammar.hasRule grammar.root = .ok true)
      (h : First (fun entry => grammar.checkRule entry.1 entry.2 = .ok ())
        (fun entry => ∃ weights, grammar.RuleStumbles entry.1 entry.2 weights)
        grammar.rules.entries)
  | texts (hroot : grammar.hasRule grammar.root = .ok true)
      (hrules : ∀ entry ∈ grammar.rules.entries, grammar.checkRule entry.1 entry.2 = .ok ())
      (hknown : ∀ rule ∈ grammar.wordWeights.keys, grammar.rules.contains rule = true)
      (h : First (fun entry => checkWeights (.word entry.1) entry.2.values = .ok ())
        (fun entry => Overflows entry.2.values) grammar.textWeights.entries)

theorem stumbles_validate : Stumbles grammar.validate ↔ grammar.CheckStumbles := by
  have hrules : Stumbles (grammar.rules.entries.forM fun entry =>
      grammar.checkRule entry.1 entry.2) ↔ First _ _ grammar.rules.entries := stumbles_forM
  have htexts : Stumbles (grammar.textWeights.entries.forM fun entry =>
      checkWeights (.word entry.1) entry.2.values) ↔ First _ _ grammar.textWeights.entries :=
    stumbles_forM
  simp only [stumbles_checkRule] at hrules
  simp only [stumbles_checkWeights] at htexts
  have hknown (rule : String) : (if grammar.rules.contains rule then .ok ()
      else .error (.grammar (.weightsForUnknownRule rule)) : Except Fault Unit) = .ok () ↔
        grammar.rules.contains rule = true := by
    split <;> simp_all
  have hnames : ¬Stumbles (grammar.wordWeights.keys.forM fun rule =>
      if grammar.rules.contains rule then .ok ()
      else .error (.grammar (.weightsForUnknownRule rule))) := by
    rw [stumbles_forM]
    rintro ⟨_, rule, _, -, -, h⟩
    split at h
    · exact not_stumbles_ok () h
    · exact not_stumbles_grammar _ h
  rw [validate, stumbles_bind, stumbles_hasRule]
  constructor
  · rintro (hrefused | ⟨known, hroot, h⟩)
    · exact .root hrefused
    obtain ⟨htrue, h⟩ := stumbles_guard.mp h
    rw [Bool.not_eq_true', Bool.not_eq_false] at htrue
    subst htrue
    rcases stumbles_bind.mp h with h | ⟨⟨⟩, hpassed, h⟩
    · exact .rule hroot (hrules.mp h)
    rcases stumbles_bind.mp h with h | ⟨⟨⟩, hnamed, h⟩
    · exact (hnames h).elim
    · exact .texts hroot (Except.forM_eq_ok_iff.mp hpassed)
        (fun rule hrule => (hknown rule).mp (Except.forM_eq_ok_iff.mp hnamed rule hrule))
        (htexts.mp h)
  · intro h
    cases h with
    | root hrefused => exact .inl hrefused
    | rule hroot h =>
      exact .inr ⟨true, hroot, stumbles_guard.mpr ⟨Bool.false_ne_true, (hrules.mpr h).bind⟩⟩
    | texts hroot hpassed hcontained h =>
      refine .inr ⟨true, hroot, stumbles_guard.mpr ⟨Bool.false_ne_true, ?_⟩⟩
      refine .after (Except.forM_eq_ok_iff.mpr hpassed) ?_
      refine .after (Except.forM_eq_ok_iff.mpr fun rule hrule => ?_) (htexts.mpr h)
      exact (hknown rule).mpr (hcontained rule hrule)

/-! ### Passing -/

section Naming

variable {draft : Grammar P (Document P)}

theorem exists_name_of_hasRule {part : Document P} (h : draft.hasRule part = .ok true) :
    ∃ name, part = .text name := by
  cases part with
  | text name => exact ⟨name, rfl⟩
  | null | bool | integer | real | array | object => cases h

theorem exists_names_of_checkParts {rule : String} {parts : List (Document P)}
    (h : draft.checkParts rule parts = .ok ()) :
    ∃ names : List String, parts = names.map .text := by
  induction parts with
  | nil => exact ⟨[], rfl⟩
  | cons part rest ih =>
    obtain ⟨known, hpart, hguard⟩ := Except.bind_eq_ok_iff.mp h
    obtain ⟨htrue, hrest⟩ := Except.guard_eq_ok_iff.mp hguard
    rw [Bool.not_eq_true', Bool.not_eq_false] at htrue
    obtain ⟨name, hname⟩ := exists_name_of_hasRule (htrue ▸ hpart)
    obtain ⟨names, hnames⟩ := ih hrest
    exact ⟨name :: names, by rw [hname, hnames]; rfl⟩

theorem exists_names_of_checkOffer {rule name : String} {parts : List (Document P)}
    (h : draft.checkOffer rule name parts = .ok ()) :
    ∃ names : List String, parts = names.map .text := by
  obtain ⟨word, -, h⟩ := Except.bind_eq_ok_iff.mp h
  obtain ⟨-, h⟩ := Except.guard_eq_ok_iff.mp h
  obtain ⟨⟨⟩, hparts, -⟩ := Except.bind_eq_ok_iff.mp h
  exact exists_names_of_checkParts hparts

theorem exists_names_of_checkRule {rule : String} {offered : Table String (List (Document P))}
    (h : draft.checkRule rule offered = .ok ()) :
    ∀ entry ∈ offered.entries, ∃ names : List String, entry.2 = names.map .text := by
  rw [checkRule] at h
  split at h
  · cases h
  · obtain ⟨-, h⟩ := Except.guard_eq_ok_iff.mp h
    obtain ⟨⟨⟩, -, h⟩ := Except.bind_eq_ok_iff.mp h
    intro entry hentry
    exact exists_names_of_checkOffer (Except.forM_eq_ok_iff.mp h entry hentry)

/-- In a draft that passes the check all references are names. -/
theorem drafted_named (h : draft.validate = .ok ()) : draft.named.drafted = draft := by
  obtain ⟨known, hroot, hguard⟩ := Except.bind_eq_ok_iff.mp h
  obtain ⟨htrue, hrest⟩ := Except.guard_eq_ok_iff.mp hguard
  rw [Bool.not_eq_true', Bool.not_eq_false] at htrue
  obtain ⟨⟨⟩, hpassed, -⟩ := Except.bind_eq_ok_iff.mp hrest
  obtain ⟨root, hname⟩ := exists_name_of_hasRule (htrue ▸ hroot)
  have hrules : draft.named.drafted.rules = draft.rules := by
    simp only [named, drafted, Table.mapValues_mapValues, Function.comp_def]
    refine Table.mapValues_eq_self fun rule hrule => Table.mapValues_eq_self fun offer hoffer => ?_
    have hchecked := Except.forM_eq_ok_iff.mp hpassed rule hrule
    obtain ⟨names, hnames⟩ := exists_names_of_checkRule hchecked offer hoffer
    rw [hnames]
    simp [List.filterMap_map, Reference.name?]
  cases draft
  subst hname
  exact congrArg (fun rules => Grammar.mk rules _ _ _ _) hrules

/-- A draft that passes the check passes it with names for its references. -/
theorem validate_named (h : draft.validate = .ok ()) : draft.named.validate = .ok () := by
  rw [← validate_drafted, drafted_named h]
  exact h

end Naming

/-! ### Loading -/

section Loading

variable {vocabulary : Vocabulary} {members : List (String × Document P)}

omit [Scale P W] in
theorem readField_eq_ok_iff {name : String} {document : Document P} :
    readField members name = .ok document ↔ member? members name = some document := by
  rw [readField]
  cases member? members name <;> simp

omit [Scale P W] in
theorem not_stumbles_readField {name : String} : ¬Stumbles (readField members name) := by
  rw [readField]
  cases member? members name with
  | none => exact not_stumbles_grammar _
  | some document => exact not_stumbles_ok document

/-- The draft of a grammar that members describe. -/
structure Drafts (vocabulary : Vocabulary) (members : List (String × Document P))
    (draft : Grammar P (Document P)) : Prop where
  rules : ∃ document, member? members "rules" = some document ∧
    readRules document = .ok draft.rules
  wordWeights : ∃ document, member? members "node_type_probabilities" = some document ∧
    readWeights document = .ok draft.wordWeights
  textWeights : ∃ document, member? members "terminal_value_probabilities" = some document ∧
    readWeights document = .ok draft.textWeights
  root : draft.root = (member? members "root_rule").getD (.text "NORMS")
  vocabulary : draft.vocabulary = vocabulary

/-- How members fail that describe no grammar, but not for a fault of it: all tables are there, but
some cannot be read, or all are read and the check stumbles over them. -/
inductive Derails (vocabulary : Vocabulary) (members : List (String × Document P)) : Prop
  | table {rules words texts : Document P} (hrules : member? members "rules" = some rules)
      (hwords : member? members "node_type_probabilities" = some words)
      (htexts : member? members "terminal_value_probabilities" = some texts)
      (hform : ¬(rules.IsTable (IsTable HasParts) ∧ words.IsTable (IsTable IsWeight) ∧
        texts.IsTable (IsTable IsWeight)))
  | check {draft : Grammar P (Document P)} (hdraft : Drafts vocabulary members draft)
      (hcheck : draft.CheckStumbles)

theorem ofMembers_eq : ofMembers vocabulary members =
    (readField members "rules" >>= fun rules =>
      readField members "node_type_probabilities" >>= fun words =>
      readField members "terminal_value_probabilities" >>= fun texts =>
      readRules rules >>= fun rules =>
      readWeights words >>= fun wordWeights =>
      readWeights texts >>= fun textWeights =>
        let root := (member? members "root_rule").getD (.text "NORMS")
        let draft : Grammar P (Document P) := ⟨rules, wordWeights, textWeights, root, vocabulary⟩
        draft.validate >>= fun _ => .ok draft.named) := rfl

/-- Once all tables are there, they are read one after the other, and the draft is checked. -/
theorem stumbles_ofMembers :
    Stumbles (ofMembers vocabulary members) ↔ Derails vocabulary members := by
  rw [ofMembers_eq]
  constructor
  · intro h
    rcases stumbles_bind.mp h with h | ⟨rules, hrules, h⟩
    · exact (not_stumbles_readField h).elim
    rcases stumbles_bind.mp h with h | ⟨words, hwords, h⟩
    · exact (not_stumbles_readField h).elim
    rcases stumbles_bind.mp h with h | ⟨texts, htexts, h⟩
    · exact (not_stumbles_readField h).elim
    rw [readField_eq_ok_iff] at hrules hwords htexts
    rcases stumbles_bind.mp h with h | ⟨ruleTable, hruleTable, h⟩
    · exact .table hrules hwords htexts fun hform => reads_readRules.stumbles_iff.mp h hform.1
    rcases stumbles_bind.mp h with h | ⟨wordTable, hwordTable, h⟩
    · exact .table hrules hwords htexts fun hform => reads_readWeights.stumbles_iff.mp h hform.2.1
    rcases stumbles_bind.mp h with h | ⟨textTable, htextTable, h⟩
    · exact .table hrules hwords htexts fun hform => reads_readWeights.stumbles_iff.mp h hform.2.2
    rcases stumbles_bind.mp h with h | ⟨_, -, h⟩
    · exact .check ⟨⟨rules, hrules, hruleTable⟩, ⟨words, hwords, hwordTable⟩,
        ⟨texts, htexts, htextTable⟩, rfl, rfl⟩ (stumbles_validate.mp h)
    · exact (not_stumbles_ok _ h).elim
  · intro h
    cases h with
    | @table rules words texts hrules hwords htexts hform =>
      rw [← readField_eq_ok_iff] at hrules hwords htexts
      refine .after hrules (.after hwords (.after htexts ?_))
      by_cases hformed : rules.IsTable (IsTable HasParts)
      · obtain ⟨ruleTable, hruleTable⟩ := reads_readRules.exists_read hformed
        refine .after hruleTable ?_
        by_cases hformed' : words.IsTable (IsTable IsWeight)
        · obtain ⟨wordTable, hwordTable⟩ := reads_readWeights.exists_read hformed'
          refine .after hwordTable (.bind (reads_readWeights.stumbles fun htextForm => ?_))
          exact hform ⟨hformed, hformed', htextForm⟩
        · exact (reads_readWeights.stumbles hformed').bind
      · exact (reads_readRules.stumbles hformed).bind
    | @check draft hdraft hcheck =>
      obtain ⟨⟨rules, hrules, hruleTable⟩, ⟨words, hwords, hwordTable⟩,
        ⟨texts, htexts, htextTable⟩, hroot, rfl⟩ := hdraft
      rw [← readField_eq_ok_iff] at hrules hwords htexts
      refine .after hrules (.after hwords (.after htexts ?_))
      refine .after hruleTable (.after hwordTable (.after htextTable ?_))
      rw [← hroot]
      exact (stumbles_validate.mpr hcheck).bind

/-- What is read from members passes the check. -/
theorem validate_of_ofMembers {grammar : Grammar P}
    (h : ofMembers vocabulary members = .ok grammar) : grammar.validate = .ok () := by
  rw [ofMembers_eq] at h
  obtain ⟨rules, -, h⟩ := Except.bind_eq_ok_iff.mp h
  obtain ⟨words, -, h⟩ := Except.bind_eq_ok_iff.mp h
  obtain ⟨texts, -, h⟩ := Except.bind_eq_ok_iff.mp h
  obtain ⟨ruleTable, -, h⟩ := Except.bind_eq_ok_iff.mp h
  obtain ⟨wordTable, -, h⟩ := Except.bind_eq_ok_iff.mp h
  obtain ⟨textTable, -, h⟩ := Except.bind_eq_ok_iff.mp h
  obtain ⟨⟨⟩, hvalid, hnamed⟩ := Except.bind_eq_ok_iff.mp h
  cases hnamed
  exact validate_named hvalid

end Loading

/-- How a text that is not malformed fails to be loaded, but not for a fault of the grammar that it
describes: an integer in it is too long, or the members of an object derail. -/
def TextDerails (P : Type) {W : Type} [Scale P W] (vocabulary : Vocabulary) (source : String) :
    Prop :=
  (∃ digits, Document.parse source = .error (.tooLong digits)) ∨
    ∃ members, Document.parse source = .ok (.object members) ∧
      Derails vocabulary (mapMembers (Scale.ofDouble : Binary64 → P) members)

theorem stumbles_load {vocabulary : Vocabulary} {place source : String}
    (h : Document.parse source ≠ .error .malformed) :
    Stumbles (load vocabulary place source : Except Fault (Grammar P)) ↔
      TextDerails P vocabulary source := by
  rw [load, TextDerails]
  cases hparse : Document.parse source with
  | error misread =>
    cases misread with
    | malformed => exact (h hparse).elim
    | tooLong digits => exact iff_of_true ⟨_, rfl, rfl⟩ (.inl ⟨digits, rfl⟩)
  | ok document =>
    cases document with
    | object members =>
      have hload : Stumbles (ofMembers vocabulary
          (mapMembers (Scale.ofDouble : Binary64 → P) members)) ↔ _ := stumbles_ofMembers
      refine hload.trans ⟨fun h => .inr ⟨members, rfl, h⟩, ?_⟩
      rintro (⟨_, ⟨⟩⟩ | ⟨_, ⟨⟩, h⟩)
      exact h
    | null | bool | integer | real | text | array =>
      refine iff_of_false (not_stumbles_grammar (.notAnObject place)) ?_
      rintro (⟨_, ⟨⟩⟩ | ⟨_, ⟨⟩, _⟩)

theorem validate_of_load {vocabulary : Vocabulary} {place source : String} {grammar : Grammar P}
    (h : load vocabulary place source = .ok grammar) : grammar.validate = .ok () := by
  rw [load] at h
  obtain ⟨document, -, h⟩ := Except.bind_eq_ok_iff.mp h
  cases document with
  | object members => exact validate_of_ofMembers h
  | null | bool | integer | real | text | array => cases h

/-- **Loading a grammar.**  From a text that is not malformed either a grammar is loaded that passes
its check, or the text is refused for a fault of the grammar, exactly unless the text derails. -/
theorem loads_or_refuses_iff (vocabulary : Vocabulary) (place source : String)
    (h : Document.parse source ≠ .error .malformed) :
    ((∃ grammar : Grammar P,
        load vocabulary place source = .ok grammar ∧ grammar.validate = .ok ()) ∨
      ∃ fault, (load vocabulary place source : Except Fault (Grammar P)) = .error fault ∧
        fault.blamesGrammar = true) ↔ ¬TextDerails P vocabulary source := by
  rw [← stumbles_load h]
  cases hload : (load vocabulary place source : Except Fault (Grammar P)) with
  | ok grammar =>
    exact iff_of_true (.inl ⟨grammar, rfl, validate_of_load hload⟩) (not_stumbles_ok grammar)
  | error fault =>
    rw [stumbles_error, Bool.not_eq_false]
    constructor
    · rintro (⟨_, ⟨⟩, _⟩ | ⟨_, ⟨⟩, hfault⟩)
      exact hfault
    · intro hfault
      exact .inr ⟨fault, rfl, hfault⟩

/-- A grammar whose root is named by an array. -/
def listedRoot : String :=
  "\x7b\"rules\": \x7b\x7d, \"node_type_probabilities\": \x7b\x7d, " ++
    "\"terminal_value_probabilities\": \x7b\x7d, \"root_rule\": [\"NORMS\"]\x7d"

theorem loads_or_refuses_iff_listedRoot :
    Document.parse listedRoot ≠ .error .malformed ∧
      Stumbles (load .standard "config.json" listedRoot : Except Fault (Grammar ℚ)) ∧
      TextDerails ℚ .standard listedRoot := by
  have hparse : (Document.parse listedRoot).isOk = true := by decide +kernel
  have hread : Document.parse listedRoot ≠ .error .malformed := by
    intro h
    rw [h] at hparse
    cases hparse
  have hstumbles :
      Stumbles (load .standard "config.json" listedRoot : Except Fault (Grammar ℚ)) := by
    decide +kernel
  refine ⟨hread, hstumbles, ?_⟩
  by_contra hkept
  obtain ⟨fault, hload, hfault⟩ := hstumbles
  rcases (loads_or_refuses_iff .standard "config.json" listedRoot hread).mpr hkept with
    ⟨grammar, h, -⟩ | ⟨blamed, h, hblamed⟩
  · rw [hload] at h
    cases h
  · rw [hload] at h
    cases h
    rw [hfault] at hblamed
    cases hblamed

end Grammar

end Deontic
