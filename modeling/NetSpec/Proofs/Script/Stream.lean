import NetSpec.Proofs.Script.Recognition
import NetSpec.Proofs.Token.Splitting

/-!
# The script in a stream of tokens

The parser finds in a stream the script that derives its tokens, or it fails where the stream
does or at the first token that is wrong. To be accepted is a property of the tokens alone:
neither their places nor the text that they come from matter.
-/

namespace NetSpec

namespace Parser

/-- Tokens that end once are all in front of the parser. -/
theorem upToEnd_of_endsOnce {failure : Option (Placed LexicalError)} {t : Placed Token}
    {ts : List (Placed Token)} (ends : TokenStream.EndsOnce ⟨t :: ts, failure⟩) :
    upToEnd failure t ts = t :: ts := by
  induction ts generalizing t with
  | nil =>
    refine if_pos ?_
    cases failure with
    | some e => exact .inr rfl
    | none =>
      obtain ⟨own, same, -⟩ := ends
      have last : [] ++ [t.value] = own ++ [.eof] := same
      exact .inl (List.singleton_inj.mp (List.append_inj' last rfl).2)
  | cons u us ih =>
    have more : t.value ≠ .eof ∧ TokenStream.EndsOnce ⟨u :: us, failure⟩ := by
      cases failure with
      | some e =>
        have absent := List.ne_and_not_mem_of_not_mem_cons ends
        exact ⟨absent.1.symm, absent.2⟩
      | none =>
        obtain ⟨own, same, absent⟩ := ends
        cases own with
        | nil => exact absurd (congrArg List.length same) (by simp)
        | cons v own =>
          obtain ⟨first, behind⟩ := List.cons.inj same
          have absent := List.ne_and_not_mem_of_not_mem_cons absent
          exact ⟨fun last => absent.1 (last.symm.trans first), own, behind, absent.2⟩
    rw [upToEnd, if_neg more.1, ih more.2]

/-- Whatever follows, a parser has the tokens before the end in front of it, and the next. -/
theorem exists_upToEnd_append {failure : Option (Placed LexicalError)} {t bad : Placed Token}
    {ts before after : List (Placed Token)} (inside : .eof ∉ before.map (·.value))
    (same : t :: ts = before ++ bad :: after) :
    ∃ others, upToEnd failure t ts = before ++ bad :: others := by
  induction before generalizing t ts with
  | nil =>
    obtain ⟨rfl, rfl⟩ := List.cons.inj same
    exact Parser.exists_ahead ⟨t, ts, failure, .empty, []⟩
  | cons u before ih =>
    obtain ⟨rfl, behind⟩ := List.cons.inj same
    have inside := List.ne_and_not_mem_of_not_mem_cons inside
    cases ts with
    | nil => cases before <;> cases behind
    | cons v vs =>
      obtain ⟨others, ahead⟩ := ih inside.2 behind
      rw [upToEnd, if_neg inside.1.symm, ahead]
      exact ⟨others, rfl⟩

end Parser

/-- The script that the parser finds in a stream of tokens. -/
def Script.ofStream (s : TokenStream) : Except (Placed SyntaxError) Script :=
  (Parser.ofStream s).bind fun p => p.commands.1.map Script.mk

theorem Script.ofSource_eq_ofStream (source : Source) (strict : Bool) :
    Script.ofSource source strict = Script.ofStream (Lexer.new source strict).stream := by
  simp only [Script.ofSource, Script.read, Script.ofStream]
  cases Parser.ofStream (Lexer.new source strict).stream <;> rfl

namespace Script

/-- Whatever is in front of the parser derives its script, or the parser refuses it. -/
theorem ofStream_cons_cases (failure : Option (Placed LexicalError)) (t : Placed Token)
    (ts : List (Placed Token)) :
    (∃ commands, ofStream ⟨t :: ts, failure⟩ = .ok ⟨commands⟩ ∧
      Phrase .empty ((Parser.upToEnd failure t ts).map (·.value)) commands) ∨
    ∃ e, ofStream ⟨t :: ts, failure⟩ = .error e ∧
      (Parser.mk t ts failure .empty []).Refuses (Phrase .empty) e := by
  have started : ofStream ⟨t :: ts, failure⟩ =
    (Parser.mk t ts failure .empty []).commands.1.map Script.mk := rfl
  rw [started]
  rcases (Parser.mk t ts failure .empty []).commands_recognizes with
    ⟨commands, read, phrase⟩ | ⟨e, failed, refused⟩
  · exact .inl ⟨commands, by rw [read]; rfl, phrase⟩
  · exact .inr ⟨e, by rw [failed]; rfl, refused⟩

/-- What is found in a stream is derived by some tokens. -/
theorem phrase_of_ofStream {s : TokenStream} {script : Script} (found : ofStream s = .ok script) :
    ∃ ts, Phrase .empty ts script.commands := by
  obtain ⟨tokens, failure⟩ := s
  obtain ⟨t, ts, same⟩ : ∃ t ts, ofStream ⟨tokens, failure⟩ = ofStream ⟨t :: ts, failure⟩ := by
    cases tokens with
    | cons t ts => exact ⟨t, ts, rfl⟩
    | nil =>
      -- A stream without tokens is read like one that has the end of the text alone.
      cases failure with
      | none => exact ⟨⟨.eof, .point .origin⟩, [], rfl⟩
      | some l => cases found
  rw [same] at found
  rcases ofStream_cons_cases failure t ts with ⟨commands, read, phrase⟩ | ⟨e, failed, -⟩
  · cases read.symm.trans found
    exact ⟨_, phrase⟩
  · cases failed.symm.trans found

/-- In tokens that end once the parser finds the script that derives them, or it fails: at the
failure of the stream, or at the first token that is wrong. -/
theorem ofStream_cases {s : TokenStream} (ends : s.EndsOnce) :
    (∃ script, ofStream s = .ok script ∧ s.failure = none ∧
      Phrase .empty (s.tokens.map (·.value)) script.commands) ∨
    (∃ l, ofStream s = .error (l.map .lexical) ∧ s.failure = some l) ∨
    (∃ e before bad after, ofStream s = .error e ∧ s.tokens = before ++ bad :: after ∧
      e.span = bad.span ∧ e.value.Blames bad.value ∧
      FirstWrong (Phrase .empty) (before.map (·.value)) bad.value) := by
  obtain ⟨tokens, failure⟩ := s
  cases tokens with
  | nil =>
    cases failure with
    | none =>
      obtain ⟨own, same, -⟩ := ends
      cases own <;> cases same
    | some l => exact .inr (.inl ⟨l, rfl, rfl⟩)
  | cons t ts =>
    have ahead := Parser.upToEnd_of_endsOnce ends
    rcases ofStream_cons_cases failure t ts with ⟨commands, read, phrase⟩ | ⟨e, failed, refused⟩
    · rw [ahead] at phrase
      refine .inl ⟨⟨commands⟩, read, ?_, phrase⟩
      cases failure with
      | none => rfl
      | some l =>
        obtain ⟨d⟩ := phrase
        obtain ⟨own, same, -⟩ := d.exists_concat
        have absent : .eof ∉ (t :: ts).map (·.value) := ends
        simp [same] at absent
    · cases refused with
      | lexical failure => exact .inr (.inl ⟨_, failed, failure⟩)
      | syntactic split span blames wrong =>
        rw [Parser.ahead, ahead] at split
        exact .inr (.inr ⟨e, _, _, _, failed, split, span, blames, wrong⟩)

/-- What is found in tokens that end once is derived by all of them. -/
theorem phrase_of_ok {s : TokenStream} {script : Script} (ends : s.EndsOnce)
    (found : ofStream s = .ok script) :
    s.failure = none ∧ Phrase .empty (s.tokens.map (·.value)) script.commands := by
  rcases ofStream_cases ends with
    ⟨_, same, complete, phrase⟩ | ⟨_, failed, _⟩ | ⟨_, _, _, _, failed, _⟩
  · cases same.symm.trans found
    exact ⟨complete, phrase⟩
  · cases failed.symm.trans found
  · cases failed.symm.trans found

/-- The parser accepts tokens if it finds a script in them, wherever they stand. -/
def Accepted (ts : List Token) : Prop :=
  ∃ tokens : List (Placed Token), tokens.map (·.value) = ts ∧
    ∃ script, ofStream ⟨tokens, none⟩ = .ok script

theorem ofStream_of_phrase {tokens : List (Placed Token)} {commands : List Command}
    (phrase : Phrase .empty (tokens.map (·.value)) commands) :
    ofStream ⟨tokens, none⟩ = .ok ⟨commands⟩ := by
  have ends : TokenStream.EndsOnce ⟨tokens, none⟩ := by
    obtain ⟨d⟩ := phrase
    exact d.exists_concat
  rcases ofStream_cases ends with
    ⟨script, found, -, phrase'⟩ | ⟨l, -, failure⟩ | ⟨e, before, bad, after, -, split, -, -, wrong⟩
  · obtain ⟨d⟩ := phrase
    obtain ⟨d'⟩ := phrase'
    obtain ⟨rfl, -⟩ := d.unique d' rfl
    exact found
  · cases failure
  · dsimp only at split
    rw [split, List.map_append] at phrase
    exact absurd (List.append_nil _) (wrong.dead _ [] _ _ phrase)

/-- The tokens before the first wrong one can be completed to tokens that are accepted. -/
theorem exists_accepted {before : List Token} {bad : Token}
    (wrong : FirstWrong (Phrase .empty) before bad) : ∃ rest, Accepted (before ++ rest) := by
  obtain ⟨rest, commands, phrase⟩ := wrong.viable
  have values : ((before ++ rest).map fun t => Placed.mk t (.point .origin)).map (·.value) =
      before ++ rest := by simp [Function.comp_def]
  exact ⟨rest, _, values, ⟨commands⟩, ofStream_of_phrase (values.symm ▸ phrase)⟩

/-- No tokens that are accepted begin with them and the wrong one. -/
theorem not_accepted {before : List Token} {bad : Token} (inside : .eof ∉ before)
    (wrong : FirstWrong (Phrase .empty) before bad) (rest : List Token) :
    ¬ Accepted (before ++ bad :: rest) := by
  rintro ⟨tokens, values, script, accepted⟩
  obtain ⟨read, left, rfl, rfl, behind⟩ := List.map_eq_append_iff.mp values
  obtain ⟨next, others, rfl, rfl, -⟩ := List.map_eq_cons_iff.mp behind
  obtain ⟨t, ts, begins⟩ := List.exists_cons_of_ne_nil
    (List.append_ne_nil_of_right_ne_nil read (List.cons_ne_nil next others))
  obtain ⟨others', ahead⟩ : ∃ others', Parser.upToEnd none t ts = read ++ next :: others' :=
    Parser.exists_upToEnd_append inside begins.symm
  rw [begins] at accepted
  rcases ofStream_cons_cases none t ts with ⟨commands, -, phrase⟩ | ⟨e, failed, -⟩
  · rw [ahead, List.map_append] at phrase
    exact wrong.dead _ [] _ _ phrase (List.append_nil _)
  · cases failed.symm.trans accepted

end Script

end NetSpec
