import NetSpec.Proofs.Result
import NetSpec.Proofs.Script.Step
import NetSpec.Proofs.Token.Cut

/-!
# Parsers make progress

A parser may be asked for commands and terms in any order, and it may be asked again after an error.
What is left of its text then goes down: `Parser.remaining` counts the tokens still to be taken,
apart from the end of the text. Success takes one of them at least, and a failure gives none back.

The count is not the size that the recursion of the readers goes down by, for the end of the text is
an upcoming token there until it is reached. That the two agree on what is progress rests on the end
being the last of the tokens. This is the invariant `Parser.EndsLast`, which every call keeps, also
where it meets an error of the lexer and leaves the current token in place.
-/

namespace NetSpec

namespace Parser

variable {p q : Parser} {α β : Type}

/-- The tokens that are still to come and the current one, without the end of the text. -/
def remaining (p : Parser) : Nat :=
  p.upcoming.countP (·.value ≠ .eof) + if p.current.value = .eof then 0 else 1

/-- The end of the text is the last token, and a source that fails has none. -/
structure EndsLast (p : Parser) : Prop where
  last : (p.current :: p.upcoming).Pairwise fun t _ => t.value ≠ .eof
  failing : p.failure ≠ none → ∀ t ∈ p.current :: p.upcoming, t.value ≠ .eof

namespace EndsLast

/-- Behind the end of the text there is nothing to be read and nothing to be met. -/
theorem advance_of_eof (h : p.EndsLast) (atEnd : p.current.value = .eof) :
    p.advance = (.ok p.current, p) := by
  obtain ⟨⟨value, span⟩, upcoming, failure, symbols, warnings⟩ := p
  obtain rfl : value = .eof := atEnd
  have nothing : upcoming = [] := by
    refine List.eq_nil_iff_forall_not_mem.mpr fun t mem => ?_
    exact List.rel_of_pairwise_cons h.last mem rfl
  have complete : failure = none := by
    by_contra fails
    exact h.failing fails _ List.mem_cons_self rfl
  subst nothing complete
  rfl

/-- To take a token gives nothing back, and another token than the end is gone. -/
theorem advance (h : p.EndsLast) : p.advance.2.EndsLast ∧ p.advance.2.remaining ≤ p.remaining ∧
    ∀ t, p.advance.1 = .ok t → t.value ≠ .eof → p.advance.2.remaining < p.remaining := by
  by_cases atEnd : p.current.value = .eof
  · rw [h.advance_of_eof atEnd]
    refine ⟨h, Nat.le_refl _, ?_⟩
    rintro _ ⟨⟩ more
    exact absurd atEnd more
  · obtain ⟨current, upcoming, failure, symbols, warnings⟩ := p
    have counted (ts : List (Placed Token)) (failure : Option (Placed LexicalError)) :
        (Parser.mk current ts failure symbols warnings).remaining =
          ts.countP (·.value ≠ .eof) + 1 := congrArg (_ + ·) (if_neg atEnd)
    rw [counted]
    cases upcoming with
    | cons u us =>
      -- The next token is counted as current or is the end, and the one taken is not.
      have next : (Parser.mk u us failure symbols warnings).remaining =
          (u :: us).countP (·.value ≠ .eof) := by
        rw [remaining, List.countP_cons]
        by_cases last : u.value = .eof <;> simp [last]
      refine ⟨⟨h.last.of_cons, fun fails t mem => ?_⟩, ?_, fun _ _ _ => ?_⟩
      · exact h.failing fails t (List.mem_cons_of_mem _ mem)
      · exact Nat.le_of_lt (Nat.lt_succ_of_le (Nat.le_of_eq next))
      · exact Nat.lt_succ_of_le (Nat.le_of_eq next)
    | nil =>
      cases failure with
      | some e =>
        refine ⟨⟨h.last, fun fails => absurd rfl fails⟩, Nat.le_of_eq (counted [] none), ?_⟩
        rintro _ ⟨⟩
      | none =>
        have none : (Parser.mk ⟨.eof, current.span⟩ [] none symbols warnings).remaining = 0 := rfl
        refine ⟨⟨List.pairwise_singleton _ _, fun fails => absurd rfl fails⟩, ?_, fun _ _ _ => ?_⟩
        · exact Nat.le_trans (Nat.le_of_eq none) (Nat.zero_le _)
        · exact Nat.lt_of_le_of_lt (Nat.le_of_eq none) (Nat.zero_lt_succ _)

theorem remark (h : p.EndsLast) (name : String) :
    (p.remark name).EndsLast ∧ (p.remark name).remaining = p.remaining := by
  simp only [Parser.remark]
  split
  next => exact ⟨⟨h.last, h.failing⟩, rfl⟩
  next => exact ⟨h, rfl⟩

theorem declare (h : p.EndsLast) (name sort : String) :
    (p.declare name sort).EndsLast ∧ (p.declare name sort).remaining = p.remaining :=
  ⟨⟨h.last, h.failing⟩, rfl⟩

end EndsLast

/-- Success takes something, a failure gives nothing back, and either leaves the end last. -/
def Step.Progresses : Step p α → Prop
  | .ok _ q _ => q.EndsLast ∧ q.remaining < p.remaining
  | .error _ q => q.EndsLast ∧ q.remaining ≤ p.remaining

namespace Step.Progresses

variable {s : Step p α}

theorem bind {f : (a : α) → (q : Parser) → q.size < p.size → Step q β} (first : s.Progresses)
    (next : ∀ a q shorter, q.EndsLast → (f a q shorter).Progresses) : (s.bind f).Progresses := by
  cases s with
  | error e q => exact first
  | ok a q shorter =>
    obtain ⟨ends, less⟩ := first
    have later := next a q shorter ends
    simp only [Step.bind]
    generalize f a q shorter = second at later ⊢
    cases second with
    | error e r => exact ⟨later.1, Nat.le_of_lt (Nat.lt_of_le_of_lt later.2 less)⟩
    | ok b r _ => exact ⟨later.1, Nat.lt_trans later.2 less⟩

theorem map (first : s.Progresses) (f : α → β) : (s.map f).Progresses := by
  cases s with
  | error e q => exact first
  | ok a q shorter => exact first

theorem check (first : s.Progresses) (f : α → Except (Placed SyntaxError) β) :
    (s.check f).Progresses := by
  cases s with
  | error e q => exact first
  | ok a q shorter =>
    simp only [Step.check]
    cases f a with
    | error e => exact ⟨first.1, Nat.le_of_lt first.2⟩
    | ok b => exact first

end Step.Progresses

namespace EndsLast

theorem accept (h : p.EndsLast) (acceptable : Token → Option α) (proper : acceptable .eof = none) :
    (p.accept acceptable proper).Progresses := by
  obtain ⟨ends, kept, taken⟩ := h.advance
  rcases advanced : p.advance with ⟨e | t, q⟩ <;> rw [advanced] at ends kept taken
  · rw [accept_of_failed advanced]
    exact ⟨ends, kept⟩
  · cases found : acceptable t.value with
    | none =>
      rw [accept_of_refused advanced found]
      exact ⟨ends, kept⟩
    | some a =>
      obtain ⟨shorter, accepted⟩ : ∃ shorter, p.accept acceptable proper =
          .ok ⟨a, t.span⟩ q shorter := accept_of_taken advanced found
      have more : t.value ≠ .eof := by
        intro atEnd
        rw [atEnd, proper] at found
        cases found
      rw [accepted]
      exact ⟨ends, taken t rfl more⟩

theorem refuse (h : p.EndsLast) : (p.refuse : Step p α).Progresses := (h.accept _ rfl).map _

theorem expect (h : p.EndsLast) (kind : TokenKind) (proper : kind ≠ .eof) :
    (p.expect kind proper).Progresses := by
  simp only [Parser.expect]
  split
  next => exact h.accept _ _
  next => exact ⟨h, Nat.le_refl _⟩

theorem symbol (h : p.EndsLast) : p.symbol.Progresses := h.accept _ rfl

theorem literal (h : p.EndsLast) : p.literal.Progresses := (h.accept _ rfl).check _

theorem symbolTerm (h : p.EndsLast) : p.symbolTerm.Progresses := by
  have first := h.symbol
  simp only [Parser.symbolTerm]
  generalize p.symbol = s at first ⊢
  cases s with
  | error e q => exact first
  | ok name q shorter =>
    obtain ⟨ends, less⟩ := first
    obtain ⟨ends, same⟩ := ends.remark name.value
    rw [← same] at less
    dsimp only
    split
    next => exact ⟨ends, Nat.le_of_lt less⟩
    next => exact ⟨ends, less⟩

theorem term_of_args (h : p.EndsLast)
    (args : ∀ q : Parser, q.size < p.size → q.EndsLast → q.args.Progresses) :
    p.term.Progresses := by
  unfold Parser.term
  split
  next => exact h.symbolTerm
  next =>
    refine (h.expect .openParen _).bind fun _ p₁ shorter₁ h₁ => ?_
    refine h₁.symbol.bind fun head p₂ shorter₂ h₂ => ?_
    split
    next => exact ⟨h₂, Nat.le_refl _⟩
    next => exact (args p₂ (Nat.lt_trans shorter₂ shorter₁) h₂).map _
  next => exact h.refuse
  next => exact h.refuse
  all_goals exact h.literal

theorem args_of_term (term : p.term.Progresses)
    (args : ∀ q : Parser, q.size < p.size → q.EndsLast → q.args.Progresses) :
    p.args.Progresses := by
  unfold Parser.args
  refine term.bind fun t q shorter ends => ?_
  split
  next => exact (ends.expect .closeParen _).map _
  next => exact (args q shorter ends).map _

theorem term_args (h : p.EndsLast) : p.term.Progresses ∧ p.args.Progresses := by
  induction size : p.size using Nat.strongRecOn generalizing p with
  | ind n ih =>
    have args (q : Parser) (shorter : q.size < p.size) (ends : q.EndsLast) :=
      (ih q.size (size ▸ shorter) ends rfl).2
    have term := h.term_of_args args
    exact ⟨term, args_of_term term args⟩

theorem declaration (h : p.EndsLast) : p.declaration.Progresses := by
  refine h.symbol.bind fun name p₁ _ h₁ => ?_
  have second := h₁.symbol
  generalize p₁.symbol = s at second ⊢
  cases s with
  | error e q => exact second
  | ok sort q shorter =>
    dsimp only
    split
    next => exact ⟨second.1, Nat.le_of_lt second.2⟩
    next s _ => exact ⟨(second.1.declare name.value s).1, second.2⟩

theorem command (h : p.EndsLast) : p.command.Progresses := by
  refine (h.expect .openParen _).bind fun _ p₁ _ h₁ => ?_
  refine h₁.symbol.bind fun keyword p₂ _ h₂ => ?_
  refine Step.Progresses.bind ?_ fun c p₃ _ h₃ => (h₃.expect .closeParen _).map _
  split_ifs
  · exact h₂.term_args.1.map _
  · exact h₂.declaration
  · exact ⟨h₂, Nat.le_refl _⟩

end EndsLast

/-- The parser behind a step, whether it has succeeded or not. -/
def Step.rest : Step p α → Parser
  | .ok _ q _ => q
  | .error _ q => q

theorem Step.Progresses.endsLast {s : Step p α} (progress : s.Progresses) : s.rest.EndsLast := by
  cases s with
  | ok a q shorter => exact progress.1
  | error e q => exact progress.1

/-- The parsers that commands and terms, asked for in any order, leave behind in a source, whether
they are there or not. -/
inductive Reached (source : Source) (strict : Bool) : Parser → Prop where
  | begun {p : Parser} (started : ofStream (Lexer.new source strict).stream = .ok p) :
      Reached source strict p
  | command {p : Parser} (before : Reached source strict p) : Reached source strict p.command.rest
  | term {p : Parser} (before : Reached source strict p) : Reached source strict p.term.rest

/-- A parser of tokens that end once has the end of the text last. -/
theorem endsLast_of_ofStream {s : TokenStream} (ends : s.EndsOnce) (started : ofStream s = .ok p) :
    p.EndsLast := by
  have others {own : List Token} (absent : .eof ∉ own) : own.Pairwise fun t _ => t ≠ .eof :=
    List.pairwise_of_forall_mem_list fun t mem _ _ atEnd => absent (atEnd ▸ mem)
  have placed {ts : List (Placed Token)}
      (values : (ts.map (·.value)).Pairwise fun t _ => t ≠ .eof) :
      ts.Pairwise fun t _ => t.value ≠ .eof := List.pairwise_map.mp values
  obtain ⟨_ | ⟨t, ts⟩, _ | e⟩ := s
  · cases started
    exact ⟨List.pairwise_singleton _ _, fun fails => absurd rfl fails⟩
  · cases started
  · cases started
    obtain ⟨own, same, absent⟩ := ends
    refine ⟨placed ?_, fun fails => absurd rfl fails⟩
    have last : (own ++ [Token.eof]).Pairwise fun t _ => t ≠ .eof :=
      List.pairwise_append.mpr ⟨others absent, List.pairwise_singleton _ _,
        fun t mem _ _ atEnd => absent (atEnd ▸ mem)⟩
    rwa [← same] at last
  · cases started
    have absent : .eof ∉ (t :: ts).map (·.value) := ends
    exact ⟨placed (others absent),
      fun _ u mem atEnd => absent (List.mem_map.mpr ⟨u, mem, atEnd⟩)⟩

/-- Every parser that is reached has the end of the text last. -/
theorem Reached.endsLast {source : Source} {strict : Bool} (reached : p.Reached source strict) :
    p.EndsLast := by
  induction reached with
  | begun started => exact endsLast_of_ofStream (Lexer.endsOnce_new source strict) started
  | command _ ih => exact ih.command.endsLast
  | term _ ih => exact ih.term_args.1.endsLast

/-- At the end of the text neither a command nor a term begins, and the parser stays as it is. -/
theorem EndsLast.stays (h : p.EndsLast) (atEnd : p.current.value = .eof) :
    (∃ e, p.command = .error e p) ∧ ∃ e, p.term = .error e p := by
  have refused : p.accept (fun _ => (none : Option Term)) rfl =
      .error (p.current.map .unexpectedToken) p :=
    accept_of_refused (h.advance_of_eof atEnd) rfl
  constructor
  · have other : p.current.value.kind ≠ .openParen := by
      rw [atEnd]
      decide
    rw [Parser.command, Parser.expect, if_neg other]
    exact ⟨_, rfl⟩
  · have kind : p.current.value.kind = .eof := congrArg Token.kind atEnd
    rw [Parser.term, kind]
    exact ⟨_, congrArg (Step.map _) refused⟩

/-- The rounds that a reader of commands goes, one for each command up to the end of the text or up
to an error. -/
inductive Rounds : Nat → Parser → Except (Placed SyntaxError) (List Command) → Parser → Prop where
  | done {p : Parser} (atEnd : p.current.value = .eof) : Rounds 0 p (.ok []) p
  | failed {p q : Parser} {e : Placed SyntaxError} (more : p.current.value ≠ .eof)
      (call : p.command = .error e q) : Rounds 0 p (.error e) q
  | next {p q r : Parser} {c : Command} {shorter : q.size < p.size} {n : Nat}
      {result : Except (Placed SyntaxError) (List Command)} (more : p.current.value ≠ .eof)
      (call : p.command = .ok c q shorter) (others : Rounds n q result r) :
      Rounds (n + 1) p (result.map (c :: ·)) r

/-- There are no more rounds than tokens. -/
theorem EndsLast.exists_rounds (h : p.EndsLast) :
    ∃ n ≤ p.remaining, Rounds n p p.commands.1 p.commands.2 := by
  induction size : p.remaining using Nat.strongRecOn generalizing p with
  | ind n ih =>
    unfold Parser.commands
    split
    next atEnd => exact ⟨0, Nat.zero_le n, .done atEnd⟩
    next more =>
      have progress := h.command
      cases call : p.command with
      | error e q => exact ⟨0, Nat.zero_le n, .failed more call⟩
      | ok c q shorter =>
        rw [call] at progress
        have less : q.remaining < n := size ▸ progress.2
        obtain ⟨k, few, others⟩ := ih q.remaining less progress.1 rfl
        exact ⟨k + 1, Nat.succ_le_of_lt (Nat.lt_of_le_of_lt few less), .next more call others⟩

/-- Every call makes progress, whatever calls there have been before it and whatever came of them. A
command or a term that is there takes a token at least, and one that is not gives none back. At the
end of the text there is neither, and the parser stays as it is. So a script is read in no more
rounds than there are tokens left. -/
theorem calls_progress {source : Source} {strict : Bool} (reached : p.Reached source strict) :
    p.command.Progresses ∧ p.term.Progresses ∧
    (p.current.value = .eof → (∃ e, p.command = .error e p) ∧ ∃ e, p.term = .error e p) ∧
    ∃ n ≤ p.remaining, Rounds n p p.commands.1 p.commands.2 := by
  have ends := reached.endsLast
  exact ⟨ends.command, ends.term_args.1, ends.stays, ends.exists_rounds⟩

/-- Computing what a parser begins with finds the parser. -/
theorem exists_begun {source : Source} {strict : Bool} {P : Parser → Prop} [DecidablePred P]
    (computed : (ofStream (Lexer.new source strict).stream).toOption.any (fun p => decide (P p)) =
      true) :
    ∃ p, p.Reached source strict ∧ P p := by
  obtain ⟨p, started, held⟩ := Except.exists_of_any computed
  exact ⟨p, .begun started, held⟩

/-- The quote is no token, so the assertion fails and its term is left. It can be asked for, and it
is the last that there is. -/
theorem calls_progress_afterError : ∃ p : Parser, p.Reached (.ofText "(assert true '") true ∧
    p.current.value = .symbol "true" ∧ p.remaining = 1 ∧ p.term.Progresses ∧
    (∃ n ≤ 1, Rounds n p p.commands.1 p.commands.2) ∧ p.term.rest.current.value = .eof ∧
    (∃ e, p.term.rest.command = .error e p.term.rest) ∧
    ∃ e, p.term.rest.term = .error e p.term.rest := by
  obtain ⟨p, begun, current, one, atEnd⟩ : ∃ p : Parser, p.Reached (.ofText "(assert true '") true ∧
      p.command.rest.current.value = .symbol "true" ∧ p.command.rest.remaining = 1 ∧
      p.command.rest.term.rest.current.value = .eof := exists_begun (by decide +kernel)
  have reached := begun.command
  obtain ⟨-, term, -, rounds⟩ := calls_progress reached
  obtain ⟨-, -, stays, -⟩ := calls_progress reached.term
  exact ⟨p.command.rest, reached, current, one, term, one ▸ rounds, atEnd, stays atEnd⟩

end Parser

end NetSpec
