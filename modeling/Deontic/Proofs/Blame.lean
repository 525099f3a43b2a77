import Deontic.Proofs.Cutting
import Deontic.Proofs.Prospects

/-! Where a text is misread.  A text that is no sentence is misread where its tokens can no longer
be continued to one, or do not go on (`exists_broken`).  In a sentence it is the first node that
cannot be built (`exists_unbuilt`), and its text alone is misread for the same reason
(`Unbuilt.parse_own`).  Either way the span of the error covers exactly what is at fault
(`misread_at_fault`). -/

namespace Deontic

open Text (CodePoint spell)

/-! ### Spans -/

/-- A span as the part `own` of a text, with what stands before and after it. -/
structure Span.Covers (span : Span) (points front own rest : List CodePoint) : Prop where
  split : points = front ++ own ++ rest
  start : span.start = front.length
  stop : span.stop = front.length + own.length

/-- A position within a text counts from its start. -/
theorem Span.offset_natCast {length position : Nat} (h : position ≤ length) :
    offset length position = position := by
  rw [offset, if_neg (by omega), Int.toNat_natCast]
  omega

namespace Span.Covers

variable {span : Span} {points front own rest : List CodePoint}

theorem bounds (h : span.Covers points front own rest) :
    0 ≤ span.start ∧ span.start ≤ span.stop ∧ span.stop ≤ points.length := by
  rw [h.start, h.stop, h.split]
  simp only [List.length_append]
  omega

theorem length (h : span.Covers points front own rest) :
    span.stop - span.start = own.length := by
  rw [h.start, h.stop]
  omega

theorem snippet (h : span.Covers points front own rest) :
    span.snippet (spell points) = String.ofList (spell own) := by
  have hstart : offset points.length span.start = front.length := by
    rw [h.start, offset_natCast]
    simp only [h.split, List.length_append]
    omega
  have hstop : offset points.length span.stop = (front ++ own).length := by
    rw [h.stop, ← Int.natCast_add, offset_natCast, List.length_append]
    simp only [h.split, List.length_append]
    omega
  rw [Span.snippet, Text.codePoints_spell, extract, hstart, hstop, h.split, List.take_left,
    List.drop_left]

end Span.Covers

/-- A span is found from how much of the text is left at its start and at its end. -/
theorem Span.covers_of_left {span : Span} {points front own rest : List CodePoint}
    (hpoints : points = front ++ (own ++ rest))
    (hstart : span.start = (points.length - (own ++ rest).length : Nat))
    (hstop : span.stop = (points.length - rest.length : Nat)) :
    span.Covers points front own rest := by
  have hlength := congrArg List.length hpoints
  simp only [List.length_append] at hlength hstart
  exact ⟨by rw [hpoints, List.append_assoc], by omega, by omega⟩

namespace Tree

/-! ### Texts that are no sentences -/

/-- Why a text is no sentence although `read`, the lexemes before `own`, can be continued to one. -/
inductive Stuck (read : List Lexeme) : List CodePoint → List CodePoint → Problem → Prop
  | token {lexeme : Lexeme} {own rest : List CodePoint} :
      lexeme.Spelled (spell own) → Longest (spell own) (spell (own ++ rest)) →
      (∀ more phrase, ¬Sentence (read ++ lexeme :: more) phrase) →
      Stuck read own rest .unexpectedToken
  | character {point : CodePoint} {rest : List CodePoint} :
      Stray point rest → Stuck read [point] rest (.unexpected point)
  | ended : (∀ phrase, ¬Sentence read phrase) → Stuck read [] [] .unexpectedEnd

/-- A text is no sentence: the lexemes before `own` can be continued to one, but not as the text
goes on. -/
def Broken (points own rest : List CodePoint) (problem : Problem) : Prop :=
  (∀ lexemes phrase, Splits (spell points) lexemes → ¬Sentence lexemes phrase) ∧
    ∃ read, Starts points read (own ++ rest) ∧ Continuable read ∧ Stuck read own rest problem

/-- What cannot be read is stuck at the span of its error. -/
theorem exists_stuck {points : List CodePoint} {misread : Misread}
    (h : readCall (spell points) = .error misread) :
    ∃ front own rest, misread.span.Covers points front own rest ∧
      ∃ read, Starts points read (own ++ rest) ∧ Continuable read ∧
        Stuck read own rest misread.problem := by
  have hscan := scans_scanFrom points.length points
  rw [readCall, scan, length_spell] at h
  rcases Reader.run_eq_error h with
    ⟨before, token, later, reader, htokens, hreader, hstep, rfl⟩ | ⟨reader, hreader, hend⟩
  · obtain ⟨own, rest, hstarts, hstands, -⟩ := hscan.cut htokens
    obtain ⟨front, hpoints, -⟩ := hstarts.exists_front
    have hcovers : Span.Covers ⟨token.start, token.stop⟩ points front own rest :=
      Span.covers_of_left hpoints (congrArg Nat.cast hstands.start) (congrArg Nat.cast hstands.stop)
    refine ⟨front, own, rest, hcovers, _, hstarts, Reader.continuable_of_after? hreader, ?_⟩
    exact .token hstands.spelled hstands.longest (Reader.not_sentence_of_step hreader hstep)
  · -- all tokens have been taken, so the scan ends at the fault
    obtain ⟨rest, hstarts, hrest⟩ := hscan.stop
    obtain ⟨front, hpoints, -⟩ := hstarts.exists_front
    have hcontinuable := Reader.continuable_of_after? hreader
    rcases hrest with ⟨rfl, hnone⟩ | ⟨point, later, rfl, hstray, hsome⟩
    · rcases hend with ⟨place, point, hrefused, -⟩ | ⟨-, hresult, rfl⟩
      · rw [hnone] at hrefused
        cases hrefused
      · have hstuck := Stuck.ended (Reader.not_sentence_of_result? hreader hresult)
        refine ⟨front, [], [], Span.covers_of_left hpoints ?_ ?_, _, hstarts, hcontinuable, hstuck⟩
        · simp [length_spell]
        · simp [length_spell]
    · rcases hend with ⟨place, found, hrefused, rfl⟩ | ⟨hrefused, -, -⟩
      · rw [hsome] at hrefused
        cases hrefused
        have hlength := congrArg List.length hpoints
        simp only [List.length_append, List.length_cons] at hlength
        refine ⟨front, [point], later, Span.covers_of_left hpoints rfl ?_, _, hstarts, hcontinuable,
          .character hstray⟩
        simp only [List.length_cons]
        omega
      · rw [hsome] at hrefused
        cases hrefused

theorem exists_broken {points : List CodePoint} {misread : Misread}
    (h : readCall (spell points) = .error misread) :
    ∃ front own rest, misread.span.Covers points front own rest ∧
      Broken points own rest misread.problem := by
  obtain ⟨front, own, rest, hcovers, hstuck⟩ := exists_stuck h
  refine ⟨front, own, rest, hcovers, fun lexemes phrase hsplits hsentence => ?_, hstuck⟩
  obtain ⟨call, -, -, hread⟩ := exists_readCall_of_sentence hsplits hsentence
  rw [h] at hread
  cases hread

/-! ### Sentences that are not built -/

/-- The first node of a sentence that cannot be built, `part` with the lexemes `run`, among the
lexemes before and after it.  A node comes before its parts, and the left part before the right. -/
inductive Offends (vocabulary : Vocabulary) (problem : Problem) (run : List Lexeme)
    (part : Phrase) : Phrase → List Lexeme → List Lexeme → Prop
  | here : Sentence run part → part.Faulty vocabulary problem →
      Offends vocabulary problem run part part [] []
  | left {name : List Char} {kind : BranchKind} {first second : Phrase}
      {before after right : List Lexeme} :
      vocabulary.Means (String.ofList name) (.branch kind) →
      Offends vocabulary problem run part first before after → Sentence right second →
      Offends vocabulary problem run part (.pair name first second)
        (.name name :: .opening :: before) (after ++ .comma :: (right ++ [.closing]))
  | right {name : List Char} {kind : BranchKind} {first second : Phrase} {t : Tree}
      {before after left : List Lexeme} :
      vocabulary.Means (String.ofList name) (.branch kind) →
      Sentence left first → first.Denotes vocabulary t →
      Offends vocabulary problem run part second before after →
      Offends vocabulary problem run part (.pair name first second)
        (.name name :: .opening :: (left ++ .comma :: before)) (after ++ [.closing])

theorem Offends.faulty {vocabulary : Vocabulary} {problem : Problem}
    {run before after : List Lexeme} {part phrase : Phrase}
    (h : Offends vocabulary problem run part phrase before after) :
    Sentence run part ∧ part.Faulty vocabulary problem := by
  induction h with
  | here hrun hfaulty => exact ⟨hrun, hfaulty⟩
  | left _ _ _ ih => exact ih
  | right _ _ _ _ ih => exact ih

/-- A text is a sentence, and `own` is the text of its first node that cannot be built. -/
def Unbuilt (vocabulary : Vocabulary) (points own rest : List CodePoint) (problem : Problem) :
    Prop :=
  ∃ before run after phrase part, Splits (spell points) (before ++ run ++ after) ∧
    Sentence (before ++ run ++ after) phrase ∧
    Offends vocabulary problem run part phrase before after ∧
    Starts points before (own ++ rest) ∧ Starts (own ++ rest) run rest ∧ Trimmed own

/-- A call that is not built has a first part that is to blame. -/
theorem Call.Written.exists_offends {vocabulary : Vocabulary} {source : List Char}
    {misread : Misread} {tokens : List Token} {call : Call} (h : Written tokens call)
    (herror : call.build vocabulary source = .error misread) :
    ∃ problem before run after part, tokens = before ++ run ++ after ∧ Written run part ∧
      misread = ⟨problem, part.span, source⟩ ∧
      Offends vocabulary problem (run.map Token.lexeme) part.phrase call.phrase
        (before.map Token.lexeme) (after.map Token.lexeme) := by
  induction h with
  | bare hcalled hopened hclosed =>
    have h := Written.bare hcalled hopened hclosed
    rcases build_eq_error herror with ⟨problem, hfaulty, rfl⟩ | ⟨_, _, _, _, _, hcall, -⟩
    · exact ⟨problem, [], _, [], _, by simp, h, rfl, .here h.sentence hfaulty⟩
    · cases hcall
  | text hcalled hopened hvalue hclosed =>
    have h := Written.text hcalled hopened hvalue hclosed
    rcases build_eq_error herror with ⟨problem, hfaulty, rfl⟩ | ⟨_, _, _, _, _, hcall, -⟩
    · exact ⟨problem, [], _, [], _, by simp, h, rfl, .here h.sentence hfaulty⟩
    · cases hcall
  | @pair called opened between closed lefts rights name left right hcalled hopened hbetween hclosed
      hleft hright ihleft ihright =>
    have h := Written.pair hcalled hopened hbetween hclosed hleft hright
    rcases build_eq_error herror with
      ⟨problem, hfaulty, rfl⟩ | ⟨_, _, _, _, _, hcall, hname, hparts⟩
    · exact ⟨problem, [], _, [], _, by simp, h, rfl, .here h.sentence hfaulty⟩
    · cases hcall
      rcases hparts with herror | ⟨t, hbuilt, herror⟩
      · obtain ⟨problem, before, run, after, part, rfl, hrun, rfl, hoffends⟩ := ihleft herror
        refine ⟨problem, called :: opened :: before, run,
          after ++ between :: (rights ++ [closed]), part, by simp, hrun, rfl, ?_⟩
        simp only [List.map_cons, List.map_append, List.map_nil, hcalled, hopened, hbetween,
          hclosed]
        exact .left hname hoffends hright.sentence
      · obtain ⟨problem, before, run, after, part, rfl, hrun, rfl, hoffends⟩ := ihright herror
        refine ⟨problem, called :: opened :: (lefts ++ between :: before), run,
          after ++ [closed], part, by simp, hrun, rfl, ?_⟩
        simp only [List.map_cons, List.map_append, List.map_nil, hcalled, hopened, hbetween,
          hclosed]
        exact .right hname hleft.sentence (build_eq_ok_iff.mp hbuilt) hoffends

/-- A node that cannot be built is misread as a whole where nothing stands around it. -/
theorem parse_of_faulty {vocabulary : Vocabulary} {own : List CodePoint} {run : List Lexeme}
    {part : Phrase} {problem : Problem} (hstarts : Starts own run []) (htrimmed : Trimmed own)
    (hrun : Sentence run part) (hfaulty : part.Faulty vocabulary problem) :
    parse vocabulary (String.ofList (spell own)) =
      .error ⟨problem, ⟨0, own.length⟩, spell own⟩ := by
  obtain ⟨call, rfl, hwritten, hcall⟩ := exists_readCall_of_sentence hstarts.splits hrun
  obtain ⟨first, middle, last, htokens, hspan⟩ := hwritten.exists_ends
  rw [scan, length_spell] at htokens
  have hscan : Scans own.length own ⟨first :: (middle ++ [last]), none⟩ := by
    rw [← htokens, ← (hstarts.splits.scanFrom own.length).2]
    exact scans_scanFrom own.length own
  obtain ⟨hstart, hstop⟩ := hscan.ends_of_trimmed htrimmed
  rw [parse, String.toList_ofList, hcall]
  show call.build vocabulary (spell own) = _
  rw [Call.build_of_faulty hfaulty, hspan, hstart, hstop]
  rfl

/-- A sentence that is not built is misread at its first faulty node. -/
theorem exists_unbuilt {vocabulary : Vocabulary} {points : List CodePoint} {misread : Misread}
    {lexemes : List Lexeme} {phrase : Phrase} (hsplits : Splits (spell points) lexemes)
    (hsentence : Sentence lexemes phrase)
    (h : parse vocabulary (String.ofList (spell points)) = .error misread) :
    ∃ front own rest, misread.span.Covers points front own rest ∧
      Unbuilt vocabulary points own rest misread.problem := by
  obtain ⟨call, rfl, hwritten, hcall⟩ := exists_readCall_of_sentence hsplits hsentence
  rw [parse, String.toList_ofList, hcall] at h
  obtain ⟨problem, before, run, after, part, htokens, hrun, rfl, hoffends⟩ :=
    hwritten.exists_offends h
  obtain ⟨first, middle, last, rfl, hspan⟩ := hrun.exists_ends
  have hlexemes := (hsplits.scanFrom points.length).1
  rw [scan, length_spell] at htokens
  rw [htokens, List.map_append, List.map_append] at hlexemes
  subst hlexemes
  have hcut : (scanFrom points.length (spell points)).tokens =
      before ++ first :: (middle ++ last :: after) := by
    rw [htokens]
    simp
  obtain ⟨own, rest, hstarts, hown, htrimmed, hstart, hstop⟩ :=
    (scans_scanFrom points.length points).cut_run hcut
  obtain ⟨front, hpoints, -⟩ := hstarts.exists_front
  have hcovers : part.span.Covers points front own rest := by
    rw [hspan]
    exact Span.covers_of_left hpoints (congrArg Nat.cast hstart) (congrArg Nat.cast hstop)
  exact ⟨front, own, rest, hcovers, _, _, _, _, _, hsplits, hsentence, hoffends, hstarts, hown,
    htrimmed⟩

/-- An unbuilt node is misread as a whole where nothing stands around it. -/
theorem Unbuilt.parse_own {vocabulary : Vocabulary} {points own rest : List CodePoint}
    {problem : Problem} (h : Unbuilt vocabulary points own rest problem) :
    parse vocabulary (String.ofList (spell own)) =
      .error ⟨problem, ⟨0, own.length⟩, spell own⟩ := by
  obtain ⟨before, run, after, phrase, part, -, -, hoffends, -, hrun, htrimmed⟩ := h
  obtain ⟨hsentence, hfaulty⟩ := hoffends.faulty
  exact parse_of_faulty hrun.alone htrimmed hsentence hfaulty

/-- **Where a text is misread.**  The span of an error is a stretch `own` of the text.  If the text
is no sentence, the lexemes before `own` can be continued to one; either `own` is a token with
which they no longer can, or it is a code point that starts no token, or the text ends before they
are a sentence.  If the text is a sentence, `own` is the text of the first node in it that cannot be
built, and alone it is misread for the same reason and from its start to its end. -/
theorem misread_at_fault (vocabulary : Vocabulary) (points : List CodePoint) {misread : Misread}
    (h : parse vocabulary (String.ofList (spell points)) = .error misread) :
    (0 ≤ misread.span.start ∧ misread.span.start ≤ misread.span.stop ∧
      misread.span.stop ≤ points.length) ∧
    ∃ front own rest, misread.span.Covers points front own rest ∧
      (Broken points own rest misread.problem ∨
        Unbuilt vocabulary points own rest misread.problem ∧
          parse vocabulary (misread.span.snippet (spell points)) =
            .error ⟨misread.problem, ⟨0, misread.span.stop - misread.span.start⟩, spell own⟩) := by
  cases hcall : readCall (spell points) with
  | error found =>
    have hfound : misread = found := by
      rw [parse, String.toList_ofList, hcall] at h
      exact (Except.error.inj h).symm
    subst hfound
    obtain ⟨front, own, rest, hcovers, hbroken⟩ := exists_broken hcall
    exact ⟨hcovers.bounds, front, own, rest, hcovers, .inl hbroken⟩
  | ok call =>
    obtain ⟨lexemes, hsplits, hsentence⟩ := sentence_of_readCall hcall
    obtain ⟨front, own, rest, hcovers, hunbuilt⟩ := exists_unbuilt hsplits hsentence h
    refine ⟨hcovers.bounds, front, own, rest, hcovers, .inr ⟨hunbuilt, ?_⟩⟩
    rw [hcovers.snippet, hcovers.length]
    exact hunbuilt.parse_own

/-- A node whose name is unknown, after an escaped quote, with a digit that is no ASCII one. -/
def misnamed : List CodePoint := "Obl(Colour(\"\\\"é\"), Foo( ٣ ))".toList.map .char

theorem misread_at_fault_misnamed :
    parse .standard (String.ofList (spell misnamed)) =
      .error ⟨.unknownName "Foo", ⟨19, 27⟩, spell misnamed⟩ ∧
    ∃ front own rest, Span.Covers ⟨19, 27⟩ misnamed front own rest ∧
      (Broken misnamed own rest (.unknownName "Foo") ∨
        Unbuilt .standard misnamed own rest (.unknownName "Foo") ∧
          parse .standard (Span.snippet ⟨19, 27⟩ (spell misnamed)) =
            .error ⟨.unknownName "Foo", ⟨0, 8⟩, spell own⟩) := by
  have h : parse .standard (String.ofList (spell misnamed)) =
      .error ⟨.unknownName "Foo", ⟨19, 27⟩, spell misnamed⟩ := by
    with_unfolding_all rfl
  exact ⟨h, (misread_at_fault .standard misnamed h).2⟩

end Tree

end Deontic
