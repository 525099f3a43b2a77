import Deontic.Tree.Parser

/-! The sentences that a reader accepts.  `Sentence` is the grammar of written nodes: a name with
nothing, one value or two nodes in brackets.  `Reader.Reached` says for each state of a reader which
lexemes lead there.  Every step keeps it (`Reached.step`), so a reader completes only sentences
(`sentence_of_complete`); and it completes every sentence (`Sentence.exists_complete`), with the
call that the tokens write (`Call.Written`). -/

namespace Deontic.Tree

/-- A node as written, apart from its place in the source. -/
inductive Phrase where
  | bare (name : List Char)
  | text (name content : List Char)
  | pair (name : List Char) (left right : Phrase)

def Call.phrase : Call → Phrase
  | bare name _ => .bare name
  | text name content _ => .text name content
  | pair name left right _ => .pair name left.phrase right.phrase

def Phrase.name : Phrase → List Char
  | bare name | text name _ | pair name _ _ => name

@[simp] theorem Call.name_phrase (call : Call) : call.phrase.name = call.name := by
  cases call <;> rfl

/-- The text that a lexeme stands for as a value. -/
def Lexeme.content? : Lexeme → Option (List Char)
  | name text | numeral text | quoted text => some text
  | opening | closing | comma => none

/-- The rows of lexemes that write a node. -/
inductive Sentence : List Lexeme → Phrase → Prop
  | bare (name : List Char) : Sentence [.name name, .opening, .closing] (.bare name)
  | text (name : List Char) {value : Lexeme} {content : List Char} :
      value.content? = some content →
      Sentence [.name name, .opening, value, .closing] (.text name content)
  | pair (name : List Char) {left right : List Lexeme} {first second : Phrase} :
      Sentence left first → Sentence right second →
      Sentence (.name name :: .opening :: (left ++ .comma :: (right ++ [.closing])))
        (.pair name first second)

/-- Every node starts with a name and an opening bracket. -/
theorem Sentence.starts {lexemes : List Lexeme} {phrase : Phrase} (h : Sentence lexemes phrase) :
    ∃ name rest, lexemes = .name name :: .opening :: rest := by
  cases h with
  | bare name => exact ⟨name, _, rfl⟩
  | text name => exact ⟨name, _, rfl⟩
  | pair name => exact ⟨name, _, rfl⟩

namespace Reader

/-! ### Reading as a fold of steps -/

/-- The reader after a row of tokens, if each of them may come next. -/
def after? (reader : Reader) (tokens : List Token) : Option Reader := tokens.foldlM step reader

@[simp] theorem after?_nil (reader : Reader) : reader.after? [] = some reader := rfl

@[simp] theorem after?_cons (reader : Reader) (token : Token) (tokens : List Token) :
    reader.after? (token :: tokens) = (reader.step token).bind (·.after? tokens) := rfl

theorem after?_append (reader : Reader) (front tokens : List Token) :
    reader.after? (front ++ tokens) = (reader.after? front).bind (·.after? tokens) := by
  simp [after?]

theorem result?_eq_some_iff {reader : Reader} {call : Call} :
    reader.result? = some call ↔ reader = complete call [] := by
  constructor
  · intro h
    rw [result?.eq_def] at h
    split at h
    · rw [Option.some.inj h]
    · cases h
  · rintro rfl
    rfl

/-- A run gives a call if nothing was refused and the tokens complete the call. -/
theorem run_eq_ok_iff {reader : Reader} {source : List Char}
    {refused : Option (Nat × Text.CodePoint)} {tokens : List Token} {call : Call} :
    reader.run source refused tokens = .ok call ↔
      refused = none ∧ reader.after? tokens = some (complete call []) := by
  induction tokens generalizing reader with
  | nil =>
    rw [after?_nil, Option.some.injEq, ← result?_eq_some_iff, run.eq_def]
    cases refused with
    | some => simp
    | none => cases reader.result? <;> simp
  | cons token tokens ih =>
    rw [run.eq_def, after?_cons]
    dsimp only
    cases reader.step token with
    | none => simp
    | some next => exact ih

/-- A run fails at the first token that may not come next, or else where the tokens end. -/
theorem run_eq_error {reader : Reader} {source : List Char}
    {refused : Option (Nat × Text.CodePoint)} {tokens : List Token} {misread : Misread}
    (h : reader.run source refused tokens = .error misread) :
    (∃ front token later next, tokens = front ++ token :: later ∧
      reader.after? front = some next ∧ next.step token = none ∧
      misread = ⟨.unexpectedToken, ⟨token.start, token.stop⟩, source⟩) ∨
    ∃ next, reader.after? tokens = some next ∧
      ((∃ place point, refused = some (place, point) ∧
        misread = ⟨.unexpected point, ⟨place, place + 1⟩, source⟩) ∨
      refused = none ∧ next.result? = none ∧
        misread = ⟨.unexpectedEnd, ⟨Text.length source, Text.length source⟩, source⟩) := by
  induction tokens generalizing reader with
  | nil =>
    refine .inr ⟨reader, rfl, ?_⟩
    rw [run.eq_def] at h
    cases refused with
    | some found =>
      cases h
      exact .inl ⟨found.1, found.2, rfl, rfl⟩
    | none =>
      cases hresult : reader.result? with
      | some call => rw [hresult] at h; cases h
      | none =>
        rw [hresult] at h
        cases h
        exact .inr ⟨rfl, rfl, rfl⟩
  | cons token tokens ih =>
    rw [run.eq_def] at h
    dsimp only at h
    split at h
    · next next hstep =>
      rcases ih h with ⟨front, stopped, later, last, rfl, hfront, hstopped⟩ | ⟨last, hlast, hend⟩
      · exact .inl ⟨token :: front, stopped, later, last, rfl, by simp [hstep, hfront], hstopped⟩
      · exact .inr ⟨last, by simp [hstep, hlast], hend⟩
    · next hstep =>
      cases h
      exact .inl ⟨[], token, tokens, reader, rfl, rfl, hstep, rfl⟩

/-! ### What has been read -/

/-- The lexemes that lead to calls waiting for a node. -/
inductive Opened : List Lexeme → List Pending → Prop
  | nil : Opened [] []
  | first {read : List Lexeme} {above : List Pending} (name : List Char) (start : Nat) :
      Opened read above →
      Opened (read ++ [.name name, .opening]) (.first name start :: above)
  | second {read left : List Lexeme} {above : List Pending} (name : List Char) (start : Nat)
      {call : Call} : Opened read above → Sentence left call.phrase →
      Opened (read ++ .name name :: .opening :: (left ++ [.comma]))
        (.second name start call :: above)

/-- The lexemes that lead to a reader. -/
inductive Reached : List Lexeme → Reader → Prop
  | node {read : List Lexeme} {above : List Pending} :
      Opened read above → Reached read (node above)
  | bracket {read : List Lexeme} {above : List Pending} (name : List Char) (start : Nat) :
      Opened read above → Reached (read ++ [.name name]) (bracket name start above)
  | content {read : List Lexeme} {above : List Pending} (name : List Char) (start : Nat) :
      Opened read above → Reached (read ++ [.name name, .opening]) (content name start above)
  | word {read : List Lexeme} {above : List Pending} (name inner : List Char)
      (start innerStart : Nat) : Opened read above →
      Reached (read ++ [.name name, .opening, .name inner])
        (word name start above inner innerStart)
  | close {read : List Lexeme} {above : List Pending} (name : List Char) (start : Nat)
      {value : Lexeme} {inner : List Char} : Opened read above → value.content? = some inner →
      Reached (read ++ [.name name, .opening, value]) (close name start above inner)
  | complete {read own : List Lexeme} {above : List Pending} {call : Call} :
      Opened read above → Sentence own call.phrase →
      Reached (read ++ own) (complete call above)

/-- A token that may come next leads to the reader after it. -/
theorem Reached.step {lexemes : List Lexeme} {reader next : Reader} {token : Token}
    (h : Reached lexemes reader) (hstep : reader.step token = some next) :
    Reached (lexemes ++ [token.lexeme]) next := by
  fun_cases Reader.step reader token with
  | case1 above name start stop =>
    cases hstep
    cases h with
    | node habove => exact .bracket name start habove
  | case2 name start above _ _ =>
    cases hstep
    cases h with
    | bracket _ _ habove =>
      rw [List.append_assoc]
      exact .content name start habove
  | case3 name start above _ stop =>
    cases hstep
    cases h with
    | content _ _ habove =>
      rw [List.append_assoc]
      exact .complete habove (.bare name)
  | case4 name start above inner innerStart _ =>
    cases hstep
    cases h with
    | content _ _ habove =>
      rw [List.append_assoc]
      exact .word name inner start innerStart habove
  | case5 name start above inner _ _ =>
    cases hstep
    cases h with
    | content _ _ habove =>
      rw [List.append_assoc]
      have hcontent : (Lexeme.numeral inner).content? = some inner := rfl
      exact .close name start habove hcontent
  | case6 name start above inner _ _ =>
    cases hstep
    cases h with
    | content _ _ habove =>
      rw [List.append_assoc]
      have hcontent : (Lexeme.quoted inner).content? = some inner := rfl
      exact .close name start habove hcontent
  | case7 name start above inner _ _ stop =>
    cases hstep
    cases h with
    | word _ _ _ _ habove =>
      rw [List.append_assoc]
      have hcontent : (Lexeme.name inner).content? = some inner := rfl
      exact .complete habove (.text name hcontent)
  | case8 name start above inner innerStart _ _ =>
    -- a name with an opening bracket after it is a node, so the name before it waits for that node
    cases hstep
    cases h with
    | @word read _ _ _ _ _ habove =>
      have h := Reached.content inner innerStart (.first name start habove)
      rw [List.append_assoc] at h ⊢
      exact h
  | case9 name start above inner _ stop =>
    cases hstep
    cases h with
    | close _ _ habove hvalue =>
      rw [List.append_assoc]
      exact .complete habove (.text name hvalue)
  | case10 call name start above _ _ =>
    cases hstep
    cases h with
    | complete habove hcall =>
      cases habove with
      | first _ _ habove =>
        have h := Reached.node (.second name start habove hcall)
        rw [List.append_assoc, List.append_assoc]
        exact h
  | case11 call name start left above _ stop =>
    cases hstep
    cases h with
    | complete habove hcall =>
      cases habove with
      | second _ _ habove hleft =>
        have hpair : Sentence _ (Call.phrase (.pair name left call ⟨start, stop⟩)) :=
          .pair name hleft hcall
        have h := Reached.complete habove hpair
        simpa only [List.append_assoc, List.cons_append, List.nil_append] using h
  | case12 =>
    rw [Reader.step.eq_12] at hstep
    · cases hstep
    all_goals assumption

/-- A row of tokens that may come next leads to the reader after it. -/
theorem Reached.after {lexemes : List Lexeme} {reader next : Reader} {tokens : List Token}
    (h : Reached lexemes reader) (hafter : reader.after? tokens = some next) :
    Reached (lexemes ++ tokens.map Token.lexeme) next := by
  induction tokens generalizing lexemes reader with
  | nil =>
    cases hafter
    simpa using h
  | cons token tokens ih =>
    obtain ⟨middle, hstep, hafter⟩ := Option.bind_eq_some_iff.mp hafter
    have h := ih (h.step hstep) hafter
    rw [List.append_assoc] at h
    exact h

/-- The tokens of a complete call are a sentence. -/
theorem sentence_of_complete {tokens : List Token} {call : Call}
    (h : start.after? tokens = some (complete call [])) :
    Sentence (tokens.map Token.lexeme) call.phrase := by
  have hreached : Reached (tokens.map Token.lexeme) (complete call []) := by
    simpa using Reached.after (.node .nil) h
  generalize tokens.map Token.lexeme = lexemes at hreached
  cases hreached with
  | complete habove hcall =>
    cases habove
    exact hcall

/-! ### Reading sentences -/

/-- A node in brackets is read like one at the start. -/
theorem after?_content {tokens : List Token} {phrase : Phrase}
    (h : Sentence (tokens.map Token.lexeme) phrase) (name : List Char) (start : Nat)
    (above : List Pending) :
    (content name start above).after? tokens =
      (node (.first name start :: above)).after? tokens := by
  obtain ⟨inner, rest, hstarts⟩ := h.starts
  match tokens, hstarts with
  | ⟨.name _, _, _⟩ :: ⟨.opening, _, _⟩ :: tokens, _ => rfl

end Reader

/-- The call that a row of tokens writes.  Its span is from the start of its name to the end of its
closing bracket. -/
inductive Call.Written : List Token → Call → Prop
  | bare {called opened closed : Token} {name : List Char} :
      called.lexeme = .name name → opened.lexeme = .opening → closed.lexeme = .closing →
      Written [called, opened, closed] (.bare name ⟨called.start, closed.stop⟩)
  | text {called opened value closed : Token} {name content : List Char} :
      called.lexeme = .name name → opened.lexeme = .opening →
      value.lexeme.content? = some content → closed.lexeme = .closing →
      Written [called, opened, value, closed] (.text name content ⟨called.start, closed.stop⟩)
  | pair {called opened between closed : Token} {lefts rights : List Token} {name : List Char}
      {left right : Call} :
      called.lexeme = .name name → opened.lexeme = .opening → between.lexeme = .comma →
      closed.lexeme = .closing → Written lefts left → Written rights right →
      Written (called :: opened :: (lefts ++ between :: (rights ++ [closed])))
        (.pair name left right ⟨called.start, closed.stop⟩)

namespace Call.Written

variable {tokens : List Token} {call : Call}

theorem sentence (h : Written tokens call) : Sentence (tokens.map Token.lexeme) call.phrase := by
  induction h with
  | bare hcalled hopened hclosed =>
    simp only [List.map_cons, List.map_nil, hcalled, hopened, hclosed]
    exact .bare _
  | text hcalled hopened hvalue hclosed =>
    simp only [List.map_cons, List.map_nil, hcalled, hopened, hclosed]
    exact .text _ hvalue
  | pair hcalled hopened hbetween hclosed _ _ ihleft ihright =>
    simp only [List.map_cons, List.map_append, List.map_nil, hcalled, hopened, hbetween, hclosed]
    exact .pair _ ihleft ihright

open Reader in
/-- Reading the tokens of a call completes it, whatever waits for it. -/
theorem complete (h : Written tokens call) (above : List Pending) :
    (node above).after? tokens = some (complete call above) := by
  induction h generalizing above with
  | @bare called opened closed name hcalled hopened hclosed =>
    obtain ⟨_, start, _⟩ := called
    obtain ⟨_, _, _⟩ := opened
    obtain ⟨_, _, stop⟩ := closed
    cases hcalled
    cases hopened
    cases hclosed
    rfl
  | @text called opened value closed name content hcalled hopened hvalue hclosed =>
    obtain ⟨_, start, _⟩ := called
    obtain ⟨_, _, _⟩ := opened
    obtain ⟨value, _, _⟩ := value
    obtain ⟨_, _, stop⟩ := closed
    cases hcalled
    cases hopened
    cases hclosed
    cases value with
    | name | numeral | quoted =>
      cases hvalue
      rfl
    | opening | closing | comma => cases hvalue
  | @pair called opened between closed lefts rights name left right hcalled hopened hbetween
      hclosed hleft hright ihleft ihright =>
    obtain ⟨_, start, _⟩ := called
    obtain ⟨_, _, _⟩ := opened
    obtain ⟨_, _, _⟩ := between
    obtain ⟨_, _, stop⟩ := closed
    cases hcalled
    cases hopened
    cases hbetween
    cases hclosed
    show (content name start above).after? (lefts ++ ⟨.comma, _, _⟩ :: (rights ++ [_])) = _
    rw [after?_append, after?_content hleft.sentence, ihleft]
    show (node (.second name start left :: above)).after? (rights ++ [_]) = _
    rw [after?_append, ihright]
    rfl

theorem exists_ends (h : Written tokens call) :
    ∃ first middle last, tokens = first :: (middle ++ [last]) ∧
      call.span = ⟨first.start, last.stop⟩ := by
  cases h with
  | @bare called opened closed => exact ⟨called, [opened], closed, rfl, rfl⟩
  | @text called opened value closed => exact ⟨called, [opened, value], closed, rfl, rfl⟩
  | @pair called opened between closed lefts rights =>
    exact ⟨called, opened :: (lefts ++ between :: rights), closed, by simp, rfl⟩

end Call.Written

/-- Every sentence writes a call. -/
theorem Sentence.exists_written {lexemes : List Lexeme} {phrase : Phrase}
    (h : Sentence lexemes phrase) {tokens : List Token}
    (htokens : tokens.map Token.lexeme = lexemes) :
    ∃ call, Call.Written tokens call ∧ call.phrase = phrase := by
  induction h generalizing tokens with
  | bare name =>
    match tokens, htokens with
    | [⟨.name _, _, _⟩, ⟨.opening, _, _⟩, ⟨.closing, _, _⟩], rfl =>
      exact ⟨_, .bare rfl rfl rfl, rfl⟩
  | text name hvalue =>
    match tokens, htokens with
    | [⟨.name _, _, _⟩, ⟨.opening, _, _⟩, ⟨_, _, _⟩, ⟨.closing, _, _⟩], rfl =>
      exact ⟨_, .text rfl rfl hvalue rfl, rfl⟩
  | pair name _ _ ihleft ihright =>
    obtain ⟨called, tokens, rfl, hcalled, hbracket⟩ := List.map_eq_cons_iff.mp htokens
    obtain ⟨opened, tokens, rfl, hopened, hparts⟩ := List.map_eq_cons_iff.mp hbracket
    obtain ⟨lefts, tokens, rfl, hlefts, hcomma⟩ := List.map_eq_append_iff.mp hparts
    obtain ⟨between, tokens, rfl, hbetween, hlater⟩ := List.map_eq_cons_iff.mp hcomma
    obtain ⟨rights, ending, rfl, hrights, hending⟩ := List.map_eq_append_iff.mp hlater
    obtain ⟨closed, rfl, hclosed⟩ := List.map_eq_singleton_iff.mp hending
    obtain ⟨left, hleft, rfl⟩ := ihleft hlefts
    obtain ⟨right, hright, rfl⟩ := ihright hrights
    exact ⟨_, .pair hcalled hopened hbetween hclosed hleft hright, rfl⟩

open Reader in
/-- Every sentence completes a call, whatever waits for it. -/
theorem Sentence.exists_complete {lexemes : List Lexeme} {phrase : Phrase}
    (h : Sentence lexemes phrase) {tokens : List Token}
    (htokens : tokens.map Token.lexeme = lexemes) (above : List Pending) :
    ∃ call, call.phrase = phrase ∧ (node above).after? tokens = some (complete call above) := by
  obtain ⟨call, hwritten, hphrase⟩ := h.exists_written htokens
  exact ⟨call, hphrase, hwritten.complete above⟩

end Deontic.Tree
