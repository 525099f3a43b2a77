import Deontic.Proofs.Sentences
import Deontic.Proofs.Spelling

/-! Which trees are read.  `Phrase.Denotes` gives the trees that written nodes stand for, with the
names of a vocabulary, and `Phrase.Faulty` the nodes that stand for none, whatever their parts are.
A source is read as a tree exactly if it can be split into the lexemes of a sentence that denotes
the tree (`parse_accepts`), and the text of a tree is such a source (`parse_pretty`). -/

namespace Deontic

/-- A name means the variant that is called so, or else that of a word with the name. -/
def Vocabulary.Means (vocabulary : Vocabulary) (name : String) (shape : Shape) : Prop :=
  shape.name = name ∨ (∀ other : Shape, other.name ≠ name) ∧
    ∃ word, vocabulary.words.get? name = some word ∧ word.shape = shape

namespace Tree

theorem shapeOf?_eq_some_iff {vocabulary : Vocabulary} {name : String} {shape : Shape} :
    shapeOf? vocabulary name = some shape ↔ vocabulary.Means name shape := by
  rw [shapeOf?, Vocabulary.Means]
  cases hfound : Shape.ofName? name with
  | some found =>
    have hname := Shape.name_of_ofName? hfound
    constructor
    · intro h
      cases h
      exact .inl hname
    · rintro (rfl | ⟨hother, -⟩)
      · rw [Shape.ofName?_name] at hfound
        exact hfound.symm
      · exact absurd hname (hother found)
  | none =>
    have hother (other : Shape) : other.name ≠ name := by
      rintro rfl
      rw [Shape.ofName?_name] at hfound
      cases hfound
    constructor
    · intro h
      obtain ⟨word, hword, hshape⟩ := Option.map_eq_some_iff.mp h
      exact .inr ⟨hother, word, hword, hshape⟩
    · rintro (hname | ⟨-, word, hword, hshape⟩)
      · exact absurd hname (hother shape)
      · exact Option.map_eq_some_iff.mpr ⟨word, hword, hshape⟩

/-- The trees that written nodes stand for: what a name means takes nothing, a text or two nodes. -/
inductive Phrase.Denotes (vocabulary : Vocabulary) : Phrase → Tree → Prop
  | missing {name : List Char} : vocabulary.Means (String.ofList name) .empty →
      Denotes vocabulary (.bare name) .missing
  | leaf {name content : List Char} {kind : LeafKind} :
      vocabulary.Means (String.ofList name) (.leaf kind) →
      Denotes vocabulary (.text name content) (.ofLeaf kind (String.ofList content))
  | branch {name : List Char} {kind : BranchKind} {first second : Phrase} {left right : Tree} :
      vocabulary.Means (String.ofList name) (.branch kind) →
      first.Denotes vocabulary left → second.Denotes vocabulary right →
      Denotes vocabulary (.pair name first second) (.ofBranch kind left right)

section Denotes

variable {vocabulary : Vocabulary} {name content : List Char} {first second : Phrase} {t : Tree}

theorem denotes_bare_iff : (Phrase.bare name).Denotes vocabulary t ↔
    vocabulary.Means (String.ofList name) .empty ∧ t = missing := by
  constructor
  · intro h
    cases h with
    | missing h => exact ⟨h, rfl⟩
  · rintro ⟨h, rfl⟩
    exact .missing h

theorem denotes_text_iff : (Phrase.text name content).Denotes vocabulary t ↔
    ∃ kind, vocabulary.Means (String.ofList name) (.leaf kind) ∧
      t = ofLeaf kind (String.ofList content) := by
  constructor
  · intro h
    cases h with
    | leaf h => exact ⟨_, h, rfl⟩
  · rintro ⟨kind, h, rfl⟩
    exact .leaf h

theorem denotes_pair_iff : (Phrase.pair name first second).Denotes vocabulary t ↔
    ∃ kind left right, vocabulary.Means (String.ofList name) (.branch kind) ∧
      first.Denotes vocabulary left ∧ second.Denotes vocabulary right ∧
      t = ofBranch kind left right := by
  constructor
  · intro h
    cases h with
    | branch h hleft hright => exact ⟨_, _, _, h, hleft, hright, rfl⟩
  · rintro ⟨kind, left, right, h, hleft, hright, rfl⟩
    exact .branch h hleft hright

end Denotes

/-- Building a call gives the tree that its phrase denotes. -/
theorem Call.build_eq_ok_iff {vocabulary : Vocabulary} {source : List Char} {call : Call}
    {t : Tree} :
    call.build vocabulary source = .ok t ↔ call.phrase.Denotes vocabulary t := by
  induction call generalizing t with
  | bare name span =>
    rw [Call.phrase, denotes_bare_iff, ← shapeOf?_eq_some_iff, build.eq_def]
    simp only [Call.name]
    cases shapeOf? vocabulary (String.ofList name) with
    | none => simp
    | some shape => cases shape <;> simp [eq_comm]
  | text name content span =>
    rw [Call.phrase, denotes_text_iff, build.eq_def]
    simp only [Call.name, ← shapeOf?_eq_some_iff]
    cases shapeOf? vocabulary (String.ofList name) with
    | none => simp
    | some shape => cases shape <;> simp [eq_comm]
  | pair name left right span ihleft ihright =>
    rw [Call.phrase, denotes_pair_iff, build.eq_def]
    simp only [Call.name, ← shapeOf?_eq_some_iff, ← ihleft, ← ihright]
    cases shapeOf? vocabulary (String.ofList name) with
    | none => simp
    | some shape =>
      cases shape with
      | leaf => simp
      | empty => simp
      | branch kind =>
        dsimp only
        cases left.build vocabulary source with
        | error => simp [bind, Except.bind]
        | ok left =>
          cases right.build vocabulary source with
          | error => simp [bind, Except.bind]
          | ok right => simp [bind, Except.bind, pure, Except.pure, eq_comm]

/-! ### Sources -/

/-- The tokens of a source that spells a sentence write a call, which is read. -/
theorem exists_readCall_of_sentence {source : List Char} {lexemes : List Lexeme} {phrase : Phrase}
    (hsplits : Splits source lexemes) (hsentence : Sentence lexemes phrase) :
    ∃ call, call.phrase = phrase ∧ Call.Written (scan source).tokens call ∧
      readCall source = .ok call := by
  obtain ⟨hlexemes, hrefused⟩ := hsplits.scanFrom (Text.length source)
  obtain ⟨call, hwritten, hphrase⟩ := hsentence.exists_written hlexemes
  exact ⟨call, hphrase, hwritten, Reader.run_eq_ok_iff.mpr ⟨hrefused, hwritten.complete []⟩⟩

theorem sentence_of_readCall {source : List Char} {call : Call} (h : readCall source = .ok call) :
    ∃ lexemes, Splits source lexemes ∧ Sentence lexemes call.phrase := by
  obtain ⟨hrefused, hcall⟩ := Reader.run_eq_ok_iff.mp h
  exact ⟨_, splits_scanFrom hrefused, Reader.sentence_of_complete hcall⟩

/-- A source spells a tree if it can be split into the lexemes of a sentence that denotes it. -/
def SpelledBy (t : Tree) (vocabulary : Vocabulary) (source : List Char) : Prop :=
  ∃ lexemes phrase, Splits source lexemes ∧ Sentence lexemes phrase ∧ phrase.Denotes vocabulary t

theorem parse_eq_ok_iff {vocabulary : Vocabulary} {source : String} {t : Tree} :
    parse vocabulary source = .ok t ↔ t.SpelledBy vocabulary source.toList := by
  rw [parse]
  constructor
  · intro h
    cases hcall : readCall source.toList with
    | error => rw [hcall] at h; cases h
    | ok call =>
      rw [hcall] at h
      obtain ⟨lexemes, hsplits, hsentence⟩ := sentence_of_readCall hcall
      exact ⟨lexemes, call.phrase, hsplits, hsentence, Call.build_eq_ok_iff.mp h⟩
  · rintro ⟨lexemes, phrase, hsplits, hsentence, hdenotes⟩
    obtain ⟨call, rfl, -, hcall⟩ := exists_readCall_of_sentence hsplits hsentence
    rw [hcall]
    exact Call.build_eq_ok_iff.mpr hdenotes

/-! ### Refused sources -/

/-- Why a node cannot be built, whatever its parts are: its name means nothing, or its brackets do
not hold what its name takes. -/
inductive Phrase.Faulty (vocabulary : Vocabulary) : Phrase → Problem → Prop
  | unknown {phrase : Phrase} :
      (∀ shape, ¬vocabulary.Means (String.ofList phrase.name) shape) →
      Faulty vocabulary phrase (.unknownName (String.ofList phrase.name))
  | nothing {phrase : Phrase} : vocabulary.Means (String.ofList phrase.name) .empty →
      (∀ name, phrase ≠ .bare name) → Faulty vocabulary phrase .needsNothing
  | text {phrase : Phrase} {kind : LeafKind} :
      vocabulary.Means (String.ofList phrase.name) (.leaf kind) →
      (∀ name content, phrase ≠ .text name content) → Faulty vocabulary phrase (.needsText kind)
  | parts {phrase : Phrase} {kind : BranchKind} :
      vocabulary.Means (String.ofList phrase.name) (.branch kind) →
      (∀ name first second, phrase ≠ .pair name first second) →
      Faulty vocabulary phrase (.needsParts kind)

theorem shapeOf?_eq_none_iff {vocabulary : Vocabulary} {name : String} :
    shapeOf? vocabulary name = none ↔ ∀ shape, ¬vocabulary.Means name shape := by
  simp only [Option.eq_none_iff_forall_ne_some, ne_eq, shapeOf?_eq_some_iff]

/-- What is not faulty: a name with what it takes in its brackets. -/
inductive Phrase.Fits (vocabulary : Vocabulary) : Phrase → Prop
  | bare {name : List Char} : vocabulary.Means (String.ofList name) .empty →
      Fits vocabulary (.bare name)
  | text {name content : List Char} {kind : LeafKind} :
      vocabulary.Means (String.ofList name) (.leaf kind) → Fits vocabulary (.text name content)
  | pair {name : List Char} {first second : Phrase} {kind : BranchKind} :
      vocabulary.Means (String.ofList name) (.branch kind) →
      Fits vocabulary (.pair name first second)

theorem Phrase.faulty_or_fits (vocabulary : Vocabulary) (phrase : Phrase) :
    (∃ problem, phrase.Faulty vocabulary problem) ∨ phrase.Fits vocabulary := by
  cases hshape : shapeOf? vocabulary (String.ofList phrase.name) with
  | none => exact .inl ⟨_, .unknown (shapeOf?_eq_none_iff.mp hshape)⟩
  | some shape =>
    have hname := shapeOf?_eq_some_iff.mp hshape
    cases shape with
    | empty =>
      cases phrase with
      | bare => exact .inr (.bare hname)
      | text | pair => exact .inl ⟨_, .nothing hname nofun⟩
    | leaf kind =>
      cases phrase with
      | text => exact .inr (.text hname)
      | bare | pair => exact .inl ⟨_, .text hname nofun⟩
    | branch kind =>
      cases phrase with
      | pair => exact .inr (.pair hname)
      | bare | text => exact .inl ⟨_, .parts hname nofun⟩

/-- A faulty call is not built, and its whole stretch of the source is to blame. -/
theorem Call.build_of_faulty {vocabulary : Vocabulary} {call : Call} {problem : Problem}
    (h : call.phrase.Faulty vocabulary problem) (source : List Char) :
    call.build vocabulary source = .error ⟨problem, call.span, source⟩ := by
  rw [build.eq_def, ← call.name_phrase]
  cases h with
  | unknown hname =>
    rw [shapeOf?_eq_none_iff.mpr hname]
    cases call with
    | bare | text | pair => rfl
  | nothing hname hphrase =>
    rw [shapeOf?_eq_some_iff.mpr hname]
    cases call with
    | bare name => exact absurd rfl (hphrase name)
    | text | pair => rfl
  | text hname hphrase =>
    rw [shapeOf?_eq_some_iff.mpr hname]
    cases call with
    | text name content => exact absurd rfl (hphrase name content)
    | bare | pair => rfl
  | parts hname hphrase =>
    rw [shapeOf?_eq_some_iff.mpr hname]
    cases call with
    | pair name left right => exact absurd rfl (hphrase name left.phrase right.phrase)
    | bare | text => rfl

/-- A call is not built if it is faulty or else if one of its parts is not built, the left before
the right. -/
theorem Call.build_eq_error {vocabulary : Vocabulary} {source : List Char} {call : Call}
    {misread : Misread} (h : call.build vocabulary source = .error misread) :
    (∃ problem, call.phrase.Faulty vocabulary problem ∧
      misread = ⟨problem, call.span, source⟩) ∨
    ∃ name kind left right span, call = .pair name left right span ∧
      vocabulary.Means (String.ofList name) (.branch kind) ∧
      (left.build vocabulary source = .error misread ∨
        ∃ t, left.build vocabulary source = .ok t ∧
          right.build vocabulary source = .error misread) := by
  rcases call.phrase.faulty_or_fits vocabulary with ⟨problem, hfaulty⟩ | hfits
  · rw [build_of_faulty hfaulty] at h
    exact .inl ⟨problem, hfaulty, (Except.error.inj h).symm⟩
  · cases call with
    | bare name span =>
      cases hfits with
      | bare hname =>
        rw [build_eq_ok_iff.mpr (.missing hname)] at h
        cases h
    | text name content span =>
      cases hfits with
      | text hname =>
        rw [build_eq_ok_iff.mpr (.leaf hname)] at h
        cases h
    | pair name left right span =>
      cases hfits with
      | @pair _ _ _ kind hname =>
        refine .inr ⟨name, kind, left, right, span, rfl, hname, ?_⟩
        rw [build.eq_def, Call.name, shapeOf?_eq_some_iff.mpr hname] at h
        dsimp only at h
        cases hleft : left.build vocabulary source with
        | error =>
          rw [hleft] at h
          exact .inl h
        | ok t =>
          cases hright : right.build vocabulary source with
          | error =>
            rw [hleft, hright] at h
            exact .inr ⟨t, rfl, h⟩
          | ok =>
            rw [hleft, hright] at h
            cases h

theorem Reader.source_of_run_eq_error {reader : Reader} {source : List Char}
    {refused : Option (Nat × Text.CodePoint)} {tokens : List Token} {misread : Misread}
    (h : reader.run source refused tokens = .error misread) : misread.source = some source := by
  rcases run_eq_error h with ⟨_, _, _, _, _, _, _, rfl⟩ | ⟨_, _, ⟨_, _, _, rfl⟩ | ⟨_, _, rfl⟩⟩
  · rfl
  · rfl
  · rfl

theorem Call.source_of_build_eq_error {vocabulary : Vocabulary} {source : List Char} {call : Call}
    {misread : Misread} (h : call.build vocabulary source = .error misread) :
    misread.source = some source := by
  induction call with
  | bare | text =>
    rcases build_eq_error h with ⟨_, _, rfl⟩ | ⟨_, _, _, _, _, hcall, _⟩
    · rfl
    · cases hcall
  | pair name left right span ihleft ihright =>
    rcases build_eq_error h with ⟨_, _, rfl⟩ | ⟨_, _, _, _, _, hcall, _, hparts⟩
    · rfl
    · cases hcall
      rcases hparts with hleft | ⟨_, _, hright⟩
      · exact ihleft hleft
      · exact ihright hright

theorem source_of_parse_eq_error {vocabulary : Vocabulary} {source : String} {misread : Misread}
    (h : parse vocabulary source = .error misread) : misread.source = some source.toList := by
  rw [parse] at h
  cases hcall : readCall source.toList with
  | error =>
    rw [hcall] at h
    cases h
    exact Reader.source_of_run_eq_error hcall
  | ok call =>
    rw [hcall] at h
    exact Call.source_of_build_eq_error h

/-- **What is read.**  A source is read as a tree exactly if its characters split into lexemes that
form a sentence, every name in the sentence means a variant, every node has what its variant takes,
and the tree is the one that is so written.  Every other source is refused, with the source at
hand. -/
theorem parse_accepts (vocabulary : Vocabulary) (source : String) :
    (∀ t, parse vocabulary source = .ok t ↔
      ∃ lexemes phrase, Splits source.toList lexemes ∧ Sentence lexemes phrase ∧
        phrase.Denotes vocabulary t) ∧
    ((∃ problem span, parse vocabulary source = .error ⟨problem, span, some source.toList⟩) ↔
      ¬∃ t lexemes phrase, Splits source.toList lexemes ∧ Sentence lexemes phrase ∧
        phrase.Denotes vocabulary t) := by
  refine ⟨fun t => parse_eq_ok_iff, ?_⟩
  constructor
  · rintro ⟨problem, span, herror⟩ ⟨t, hspelled⟩
    rw [parse_eq_ok_iff.mpr hspelled] at herror
    cases herror
  · intro hnone
    cases hparse : parse vocabulary source with
    | ok t => exact absurd ⟨t, parse_eq_ok_iff.mp hparse⟩ hnone
    | error misread =>
      obtain ⟨problem, span, origin⟩ := misread
      obtain rfl := source_of_parse_eq_error hparse
      exact ⟨problem, span, rfl⟩

/-! ### The text of a tree -/

theorem isName_name (shape : Shape) : isName shape.name.toList = true := by
  rcases shape with ⟨⟨⟩⟩ | _ | ⟨⟨⟩⟩ <;> decide

theorem parted_closing (rest : List Char) : Parted (')' :: rest) := by
  rintro c ⟨⟩
  decide

/-- The text of a leaf spells a value. -/
theorem exists_spelled_renderText (chars : List Char) :
    ∃ value : Lexeme, value.content? = some chars ∧ value.Spelled (renderText chars) := by
  rw [renderText]
  split
  · next h =>
    rcases Bool.or_eq_true_iff.mp h with h | h
    · exact ⟨.name chars, rfl, .name h⟩
    · exact ⟨.numeral chars, rfl, .numeral h⟩
  · exact ⟨.quoted chars, rfl, .quoted (quotes_protect chars)⟩

/-- The name of a variant and an opening bracket may stand before anything. -/
theorem Splits.called {rest : List Char} {lexemes : List Lexeme} (h : Splits rest lexemes)
    (shape : Shape) :
    Splits (shape.name.toList ++ '(' :: rest)
      (.name shape.name.toList :: .opening :: lexemes) := by
  have hopening : Parted ('(' :: rest) := by
    rintro c ⟨⟩
    decide
  have hbracket : Splits ('(' :: rest) (.opening :: lexemes) := h.read rfl
  exact hbracket.read
    (Lexeme.Spelled.readLexeme (.name (isName_name shape)) hopening)

theorem Splits.closed {rest : List Char} {lexemes : List Lexeme} (h : Splits rest lexemes) :
    Splits (')' :: rest) (.closing :: lexemes) :=
  h.read rfl

/-- The text of a tree splits into a sentence that denotes it, whatever comes after it. -/
theorem Sound.exists_sentence {t : Tree} (h : t.Sound) (vocabulary : Vocabulary) :
    ∃ lexemes phrase, Sentence lexemes phrase ∧ phrase.Denotes vocabulary t ∧
      ∀ rest later, Splits rest later → Splits (t.render ++ rest) (lexemes ++ later) := by
  have hmeans (shape : Shape) :
      vocabulary.Means (String.ofList shape.name.toList) shape :=
    .inl String.ofList_toList.symm
  induction h with
  | leaf kind text =>
    obtain ⟨value, hcontent, hspelled⟩ := exists_spelled_renderText text.toList
    have hdenotes : Phrase.Denotes vocabulary (.text _ text.toList) _ := .leaf (hmeans (.leaf kind))
    rw [String.ofList_toList] at hdenotes
    refine ⟨_, _, .text _ hcontent, hdenotes, fun rest later h => ?_⟩
    have hvalue := h.closed.read (hspelled.readLexeme (parted_closing rest))
    simpa [render, ofLeaf] using hvalue.called (.leaf kind)
  | missing =>
    refine ⟨_, _, .bare _, .missing (hmeans .empty), fun rest later h => ?_⟩
    simpa [render, Tree.missing] using h.closed.called .empty
  | @branch kind left right _ _ ihleft ihright =>
    obtain ⟨lefts, first, hfirst, hleft, hsplitleft⟩ := ihleft
    obtain ⟨rights, second, hsecond, hright, hsplitright⟩ := ihright
    refine ⟨_, _, .pair _ hfirst hsecond, .branch (hmeans (.branch kind)) hleft hright,
      fun rest later h => ?_⟩
    have hlast := Splits.skip (c := ' ') rfl (hsplitright _ _ h.closed)
    have hcomma : Splits (',' :: ' ' :: _) (.comma :: _) := hlast.read rfl
    have hparts := hsplitleft _ _ hcomma
    simpa [render, ofBranch] using hparts.called (.branch kind)

/-- **Reading undoes printing.**  The text of a tree is read as that tree, with any words. -/
theorem parse_pretty (vocabulary : Vocabulary) {t : Tree} (h : t.Sound) :
    parse vocabulary t.pretty = .ok t := by
  obtain ⟨lexemes, phrase, hsentence, hdenotes, hsplits⟩ := h.exists_sentence vocabulary
  have hall := hsplits [] [] .nil
  rw [List.append_nil, List.append_nil] at hall
  rw [parse_eq_ok_iff, pretty, String.toList_ofList]
  exact ⟨lexemes, phrase, hall, hsentence, hdenotes⟩

/-- A text may end in a backslash, hold quotes and line feeds, or be empty. -/
theorem parse_pretty_quoted :
    Sound (ofBranch .norm (ofBranch .obligation (ofLeaf .colour "\\\n\"") (ofLeaf .zone "٣"))
      (ofLeaf .noNorm "")) ∧
    parse .standard (ofBranch .norm (ofBranch .obligation (ofLeaf .colour "\\\n\"")
        (ofLeaf .zone "٣")) (ofLeaf .noNorm "")).pretty =
      .ok (ofBranch .norm (ofBranch .obligation (ofLeaf .colour "\\\n\"") (ofLeaf .zone "٣"))
        (ofLeaf .noNorm "")) := by
  have h : Sound (ofBranch .norm (ofBranch .obligation (ofLeaf .colour "\\\n\"")
      (ofLeaf .zone "٣")) (ofLeaf .noNorm "")) :=
    .branch _ (.branch _ (.leaf _ _) (.leaf _ _)) (.leaf _ _)
  exact ⟨h, parse_pretty .standard h⟩

end Tree

end Deontic
