import NetSpec.Proofs.Script.Stream
import NetSpec.Proofs.Script.Tokens

/-!
# The tokens of a script are read

The tokens of a readable and writable term derive the term, and those of arguments and of
commands derive these. So the parser finds a script in the tokens of the script, wherever they
stand, and it finds it in a text that lexes to them.
-/

namespace NetSpec

variable {scope : Scope} {strict : Bool}

/-- A symbol that is interpreted as a term stands for it. -/
theorem Scope.reading_of_interpret {name : String} {t : Term}
    (meaning : scope.interpret name = .ok t) : Nonempty (scope.Reading name t) := by
  rcases scope.interpret_cases name with ⟨t', means, reading⟩ | ⟨e, failed, -⟩
  · cases means.symm.trans meaning
    exact reading
  · cases failed.symm.trans meaning

namespace Term

theorem phrase_constant {c : Constant} (writable : c.Writable strict) (readable : c.Readable) :
    Phrase scope [c.token] (.constant c) := by
  rcases c.token_cases with ⟨x, rfl, negative, token⟩ | literal
  · rw [token]
    obtain ⟨reading⟩ :=
      Scope.reading_of_interpret (Constant.interpret_text writable.1 negative scope)
    exact ⟨.symbol reading⟩
  · exact ⟨.literal (Constant.ofToken?_token writable readable literal)⟩

theorem argsDerivation_tokensArgs {args : List Term} (some : args ≠ [])
    (each : ∀ arg ∈ args, Phrase scope arg.tokens arg) :
    Nonempty (ArgsDerivation scope (tokensArgs args) args) := by
  induction args with
  | nil => exact absurd rfl some
  | cons arg args ih =>
    obtain ⟨first⟩ := each arg List.mem_cons_self
    cases args with
    | nil =>
      rw [tokensArgs, tokensArgs, List.append_nil]
      exact ⟨.one first⟩
    | cons next args =>
      obtain ⟨others⟩ := ih (List.cons_ne_nil _ _) fun other mem =>
        each other (List.mem_cons_of_mem arg mem)
      exact ⟨.more first others⟩

/-- The tokens of a readable and writable term derive it. -/
theorem phrase_tokens {t : Term} (writable : t.Writable strict) (readable : t.Readable scope) :
    Phrase scope t.tokens t := by
  induction t with
  | constant c => exact phrase_constant writable readable
  | identifier name => exact ⟨.symbol (.name writable.2 readable)⟩
  | apply function args ih =>
    obtain ⟨-, writableArgs⟩ := writable
    obtain ⟨inside, some, readableArgs⟩ := readable
    obtain ⟨d⟩ := argsDerivation_tokensArgs some fun arg mem =>
      ih arg mem (allWritable_iff.mp writableArgs arg mem) (allReadable_iff.mp readableArgs arg mem)
    exact ⟨.apply inside d⟩

end Term

theorem Command.phrase_tokens {command : Command} (writable : command.Writable strict)
    (readable : command.Readable scope) : Phrase scope command.tokens command := by
  cases command with
  | declareConst name sort => exact ⟨.declareConst readable⟩
  | assert term =>
    obtain ⟨d⟩ := Term.phrase_tokens writable readable
    exact ⟨.assert d⟩

namespace Script

/-- The tokens of commands derive them, each in the scope that those before it leave. -/
theorem phrase_flatMap_tokens {commands : List Command}
    (writable : ∀ command ∈ commands, command.Writable strict)
    (readable : AllReadable scope commands) :
    Phrase scope (commands.flatMap Command.tokens ++ [.eof]) commands := by
  induction commands generalizing scope with
  | nil => exact ⟨.nil⟩
  | cons command commands ih =>
    obtain ⟨first⟩ := Command.phrase_tokens (writable command List.mem_cons_self) readable.1
    obtain ⟨others⟩ :=
      ih (fun other mem => writable other (List.mem_cons_of_mem _ mem)) readable.2
    rw [List.flatMap_cons, List.append_assoc]
    exact ⟨.cons first others⟩

/-- A source whose tokens are those of a script holds the script. -/
theorem ofSource_eq {s : Script} {cs : List Char} (writable : s.Writable strict)
    (readable : AllReadable .empty s.commands) (lexes : Lexes strict cs s.tokens) :
    ofSource ⟨cs, none⟩ strict = .ok s := by
  obtain ⟨complete, tokens⟩ := lexes (.point .origin)
  have phrase := phrase_flatMap_tokens writable readable
  rw [ofSource_eq_ofStream]
  have stream : (Lexer.new ⟨cs, none⟩ strict).stream =
      ⟨(Lexer.new ⟨cs, none⟩ strict).stream.tokens, none⟩ := congrArg (TokenStream.mk _) complete
  rw [stream]
  exact ofStream_of_phrase (tokens ▸ phrase)

/-- The text of a script that a reader can have found is read as the script. -/
theorem ofSource_text {s : Script} (writable : s.Writable strict)
    (readable : AllReadable .empty s.commands) : ofSource (.ofText s.text) strict = .ok s :=
  ofSource_eq writable readable (Script.lexes writable readable)

end Script

end NetSpec
