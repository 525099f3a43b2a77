import Deontic.Proofs.Hosting
import Deontic.Proofs.Readiness

/-! Even grammars.  A grammar is even if a branch has as many parts under one rule as under another.
Under each rule of such a grammar a tree that was grown from another rule is grown again, or growth
comes to a value of weight zero before anything else can go wrong (`Grown.hosts`): the values at
hand are used up in the same order, because at each position both rules go on to the same places. -/

namespace Deontic

theorem Vocabulary.Names.unique {vocabulary : Vocabulary} {word : String} {first second : Shape}
    (h : vocabulary.Names word first) (k : vocabulary.Names word second) : first = second := by
  obtain ⟨found, hfound, rfl⟩ := h
  obtain ⟨other, hother, rfl⟩ := k
  rw [Except.ok.inj (hfound.symm.trans hother)]

namespace Grammar

/-- A word for branches has the same number of parts under all rules that offer it. -/
def Even (grammar : Grammar ℚ) : Prop :=
  ∀ rule rule' word kind parts parts', grammar.vocabulary.Names word (.branch kind) →
    grammar.parts? rule word = some parts → grammar.parts? rule' word = some parts' →
      parts'.length = parts.length

variable {grammar : Grammar ℚ}

theorem even_of_entries (h : ∀ entry ∈ grammar.rules.entries, ∀ entry' ∈ grammar.rules.entries,
    ∀ offer ∈ entry.2.entries, ∀ offer' ∈ entry'.2.entries, offer.1 = offer'.1 →
      offer'.2.length = offer.2.length) : grammar.Even := by
  intro rule rule' word kind parts parts' _ hparts hparts'
  obtain ⟨offered, hoffered, hfound⟩ := Option.bind_eq_some_iff.mp hparts
  obtain ⟨offered', hoffered', hfound'⟩ := Option.bind_eq_some_iff.mp hparts'
  exact h _ (Table.mem_of_get?_eq hoffered) _ (Table.mem_of_get?_eq hoffered') _
    (Table.mem_of_get?_eq hfound) _ (Table.mem_of_get?_eq hfound') rfl

theorem Fits.eq_nil {word : String} {kind : LeafKind} {parts : List String}
    (h : grammar.Fits word parts) (hnames : grammar.vocabulary.Names word (.leaf kind)) :
    parts = [] := by
  cases h with
  | leaf => rfl
  | single hbranch | pair hbranch => cases hnames.unique hbranch

theorem Fits.contains {word : String} {parts : List String} (h : grammar.Fits word parts) :
    ∀ part ∈ parts, grammar.rules.contains part = true := by
  cases h with
  | leaf => exact nofun
  | single _ hpart => exact List.forall_mem_singleton.mpr hpart
  | pair _ hfirst hsecond =>
    exact List.forall_mem_cons.mpr ⟨hfirst, List.forall_mem_singleton.mpr hsecond⟩

theorem Grown.contains {index : Int} {rule : String} {way : Way ℚ} {t : Tree}
    (h : Grown grammar index rule way t) : grammar.rules.contains rule = true := by
  obtain ⟨_, word, parts, _, -, hparts, -⟩ := h.exists_word
  obtain ⟨offered, hoffered, -⟩ := Option.bind_eq_some_iff.mp hparts
  rw [Table.contains_eq_isSome_get?, hoffered]
  rfl

/-- A rule weighs a word with zero, or gives it parts. -/
theorem Ready.exists_parts_or_barred (h : grammar.Ready) {rule : String}
    (hrule : grammar.rules.contains rule = true) (index : Int) (word : String) :
    ∃ weights, grammar.wordWeights.get? rule = some weights ∧
      (Scale.isImpossible ℚ ((wordVisit index weights word).density : LogWeight) = true ∨
        Scale.isImpossible ℚ ((wordVisit index weights word).density : LogWeight) = false ∧
          ∃ parts, grammar.parts? rule word = some parts) := by
  obtain ⟨weights, hweights, -⟩ := h.weights hrule
  refine ⟨weights, hweights, ?_⟩
  cases hpossible : Scale.isImpossible ℚ ((wordVisit index weights word).density : LogWeight) with
  | true => exact .inl rfl
  | false =>
    have hkey := Distribution.mem_keys_of_possible (Scale.isImpossible_rat.mp hpossible)
    exact .inr ⟨rfl, h.parts hweights hkey⟩

/-- In an even grammar every rule takes a tree that was grown from another one. -/
theorem Grown.hosts (h : grammar.Ready) (heven : grammar.Even) {index : Int} {rule rule' : String}
    {way : Way ℚ} {t : Tree} (hgrown : Grown grammar index rule way t)
    {values : Path → Option Value} (hvalues : AtHand LogWeight values way)
    (hrule : grammar.rules.contains rule' = true) :
    grammar.Hosts LogWeight values index rule' t := by
  induction hgrown generalizing rule' with
  | @leaf index _ word _ _ _ _ _ _ htexts hbuilt =>
    obtain ⟨hword, htext⟩ := List.forall_mem_cons.mp hvalues
    obtain ⟨kind, hnames, -⟩ := Vocabulary.buildLeaf_eq_ok.mp hbuilt
    obtain ⟨weights, hweights, himpossible | ⟨hpossible, parts, hparts⟩⟩ :=
      h.exists_parts_or_barred hrule index word
    · exact .barred (.word hweights) nofun hword.1 himpossible
    obtain rfl := (h.fits hparts).eq_nil hnames
    exact .derived (.leaf hweights hparts htexts hbuilt)
      (List.forall_mem_cons.mpr ⟨⟨hword.1, hpossible⟩, htext⟩)
  | @single index _ word _ _ _ _ _ _ hparts _ hbuilt ih =>
    obtain ⟨hword, hlefts⟩ := List.forall_mem_cons.mp hvalues
    obtain ⟨kind, hnames, -⟩ := Vocabulary.buildBranch_eq_ok.mp hbuilt
    obtain ⟨weights, hweights, himpossible | ⟨hpossible, parts, hparts'⟩⟩ :=
      h.exists_parts_or_barred hrule index word
    · exact .barred (.word hweights) nofun hword.1 himpossible
    obtain ⟨part, rfl⟩ :=
      List.length_eq_one_iff.mp (heven _ _ _ _ _ _ hnames hparts hparts')
    cases ih hlefts ((h.fits hparts').contains part List.mem_cons_self) with
    | derived hleft hgiven =>
      exact .derived (.single hweights hparts' hleft hbuilt)
        (List.forall_mem_cons.mpr ⟨⟨hword.1, hpossible⟩, hgiven⟩)
    | barred hbegun hgiven hvalue himpossible =>
      exact .barred (.single hweights hparts' hbegun)
        (List.forall_mem_cons.mpr ⟨⟨hword.1, hpossible⟩, hgiven⟩) hvalue himpossible
  | @pair index _ word _ _ _ _ _ _ _ _ _ hparts _ _ hbuilt ihl ihr =>
    obtain ⟨hword, hrest⟩ := List.forall_mem_cons.mp hvalues
    obtain ⟨hlefts, hrights⟩ := List.forall_mem_append.mp hrest
    obtain ⟨kind, hnames, -⟩ := Vocabulary.buildBranch_eq_ok.mp hbuilt
    obtain ⟨weights, hweights, himpossible | ⟨hpossible, parts, hparts'⟩⟩ :=
      h.exists_parts_or_barred hrule index word
    · exact .barred (.word hweights) nofun hword.1 himpossible
    obtain ⟨first, second, rfl⟩ :=
      List.length_eq_two.mp (heven _ _ _ _ _ _ hnames hparts hparts')
    have hcontains := (h.fits hparts').contains
    cases ihl hlefts (hcontains first List.mem_cons_self) with
    | barred hbegun hgiven hvalue himpossible =>
      exact .barred (.first hweights hparts' hbegun)
        (List.forall_mem_cons.mpr ⟨⟨hword.1, hpossible⟩, hgiven⟩) hvalue himpossible
    | derived hleft hlefts' =>
      cases ihr hrights (hcontains second (.tail _ List.mem_cons_self)) with
      | barred hbegun hgiven hvalue himpossible =>
        exact .barred (.second hweights hparts' hleft hbegun)
          (List.forall_mem_cons.mpr ⟨⟨hword.1, hpossible⟩,
            List.forall_mem_append.mpr ⟨hlefts', hgiven⟩⟩) hvalue himpossible
      | derived hright hrights' =>
        exact .derived (.pair hweights hparts' hleft hright hbuilt)
          (List.forall_mem_cons.mpr ⟨⟨hword.1, hpossible⟩,
            List.forall_mem_append.mpr ⟨hlefts', hrights'⟩⟩)

end Grammar

end Deontic
