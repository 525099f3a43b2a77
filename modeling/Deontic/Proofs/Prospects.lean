import Deontic.Proofs.Reading

/-! What can still become of the tokens that have been read.  Whatever a reader has taken can be
continued to a sentence (`Reader.Reached.continuable`).  What it has taken and a token that it
refuses cannot (`Reader.not_sentence_of_step`), so a reader stops at the first token that spoils
what came before it. -/

namespace Deontic.Tree

/-! ### Continuations -/

def Lexeme.Spellable (lexeme : Lexeme) : Prop := ∃ text, lexeme.Spelled text

@[simp] theorem spellable_opening : Lexeme.opening.Spellable := ⟨_, .opening⟩

@[simp] theorem spellable_closing : Lexeme.closing.Spellable := ⟨_, .closing⟩

@[simp] theorem spellable_comma : Lexeme.comma.Spellable := ⟨_, .comma⟩

@[simp] theorem spellable_name (shape : Shape) : (Lexeme.name shape.name.toList).Spellable :=
  ⟨_, .name (isName_name shape)⟩

/-- Whether lexemes are the first ones of a sentence, of which the others can be spelled. -/
def Continuable (lexemes : List Lexeme) : Prop :=
  ∃ more phrase, (∀ lexeme ∈ more, lexeme.Spellable) ∧ Sentence (lexemes ++ more) phrase

theorem Sentence.continuable {lexemes : List Lexeme} {phrase : Phrase}
    (h : Sentence lexemes phrase) : Continuable lexemes :=
  ⟨[], phrase, nofun, by rwa [List.append_nil]⟩

theorem Continuable.of_append {lexemes later : List Lexeme} (h : Continuable (lexemes ++ later))
    (hlater : ∀ lexeme ∈ later, lexeme.Spellable) : Continuable lexemes := by
  obtain ⟨more, phrase, hmore, hsentence⟩ := h
  refine ⟨later ++ more, phrase, ?_, by rwa [← List.append_assoc]⟩
  exact List.forall_mem_append.mpr ⟨hlater, hmore⟩

namespace Reader

variable {read lexemes own : List Lexeme} {above : List Pending} {reader : Reader}

/-- A node in the place of one that calls wait for can be continued to a sentence. -/
theorem Opened.continuable (h : Opened read above) {phrase : Phrase} (hown : Sentence own phrase) :
    Continuable (read ++ own) := by
  induction h generalizing own phrase with
  | nil => exact hown.continuable
  | first name _ _ ih =>
    -- the second node is still to come
    have hpair := ih (.pair name hown (.bare Shape.empty.name.toList))
    have hlater : ∀ lexeme ∈ [Lexeme.comma, .name Shape.empty.name.toList, .opening, .closing,
        .closing], lexeme.Spellable := by simp
    refine Continuable.of_append ?_ hlater
    simpa only [List.append_assoc, List.cons_append, List.nil_append] using hpair
  | second name _ _ hleft ih =>
    have hpair := ih (.pair name hleft hown)
    have hlater : ∀ lexeme ∈ [Lexeme.closing], lexeme.Spellable := by simp
    refine Continuable.of_append ?_ hlater
    simpa only [List.append_assoc, List.cons_append, List.nil_append] using hpair

/-- Whatever has been read can be continued to a sentence. -/
theorem Reached.continuable (h : Reached lexemes reader) : Continuable lexemes := by
  have close {read : List Lexeme} (own : List Lexeme)
      (h : Continuable (read ++ (own ++ [.closing]))) : Continuable (read ++ own) := by
    rw [← List.append_assoc] at h
    exact h.of_append (by simp)
  cases h with
  | node habove => exact (habove.continuable (.bare Shape.empty.name.toList)).of_append (by simp)
  | bracket name _ habove =>
    have hbare := habove.continuable (.bare name)
    have hopening := close [.name name, .opening] hbare
    rw [List.append_cons] at hopening
    exact hopening.of_append (by simp)
  | content name _ habove => exact close _ (habove.continuable (.bare name))
  | word name inner _ _ habove =>
    have hcontent : (Lexeme.name inner).content? = some inner := rfl
    exact close _ (habove.continuable (.text name hcontent))
  | close name _ habove hvalue => exact close _ (habove.continuable (.text name hvalue))
  | complete habove hcall => exact habove.continuable hcall

/-! ### Refusals -/

variable {tokens : List Token} {token : Token}

theorem continuable_of_after? (h : start.after? tokens = some reader) :
    Continuable (tokens.map Token.lexeme) := by
  have hreached : Reached ([] ++ tokens.map Token.lexeme) reader := Reached.after (.node .nil) h
  exact hreached.continuable

/-- No sentence starts with what has been read and a token that is refused after it. -/
theorem not_sentence_of_step (h : start.after? tokens = some reader)
    (hstep : reader.step token = none) (more : List Lexeme) (phrase : Phrase) :
    ¬Sentence (tokens.map Token.lexeme ++ token.lexeme :: more) phrase := by
  intro hsentence
  have hlexemes : (tokens ++ token :: more.map (⟨·, 0, 0⟩)).map Token.lexeme =
      tokens.map Token.lexeme ++ token.lexeme :: more := by
    simp [Function.comp_def]
  obtain ⟨call, -, hcomplete⟩ := hsentence.exists_complete hlexemes []
  rw [← start, after?_append, h, Option.bind_some, after?_cons, hstep] at hcomplete
  cases hcomplete

/-- What has been read is no sentence where it may not end. -/
theorem not_sentence_of_result? (h : start.after? tokens = some reader)
    (hresult : reader.result? = none) (phrase : Phrase) :
    ¬Sentence (tokens.map Token.lexeme) phrase := by
  intro hsentence
  obtain ⟨call, -, hcomplete⟩ := hsentence.exists_complete rfl []
  rw [← start, h] at hcomplete
  cases hcomplete
  cases hresult

end Reader

end Deontic.Tree
