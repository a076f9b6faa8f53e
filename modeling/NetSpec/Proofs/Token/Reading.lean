import NetSpec.Proofs.Token.Cut

/-!
# Reading one lexeme

A lexeme stands in a text in front of something that does not go on with it, or in front of nothing.
Then a lexer reads it and stands behind it, whatever it has read before. This is so in a source that
fails as well if there is a character in between, for nobody looks further than one.

Conversely whatever token a lexer gives is that of a lexeme, or the end of the text.
-/

namespace NetSpec

namespace Scan

variable {failure : Option ReadError} {w rest : List Char} {d : Char}
  {outcome : Except LexicalError Token}

/-! ### In front of a character no failure is met -/

theorem run_of_next {fits : Char → Bool} {token : String → Token} {taken cs : List Char}
    (read : run none fits token taken cs = ⟨w, d :: rest, outcome⟩) :
    run failure fits token taken cs = ⟨w, d :: rest, outcome⟩ := by
  simp only [run, Scan.mk.injEq] at read ⊢
  obtain ⟨taken, behind, settled⟩ := read
  rw [behind] at settled ⊢
  exact ⟨taken, rfl, settled⟩

theorem string_of_next {cs : List Char} (read : string none cs = ⟨w, d :: rest, outcome⟩) :
    string failure cs = ⟨w, d :: rest, outcome⟩ := by
  rw [string] at read ⊢
  split at read
  next body behind found =>
    simp only [Scan.mk.injEq] at read
    obtain ⟨rfl, rfl, rfl⟩ := read
    rfl
  next => cases read

theorem quotedSymbol_of_next {cs : List Char}
    (read : quotedSymbol none cs = ⟨w, d :: rest, outcome⟩) :
    quotedSymbol failure cs = ⟨w, d :: rest, outcome⟩ := by
  simp only [quotedSymbol] at read ⊢
  split at read
  next => exact read
  next => cases read

theorem exponent_of_next {strict : Bool} {number cs : List Char}
    (read : exponent strict none number cs = ⟨w, d :: rest, outcome⟩) :
    exponent strict failure number cs = ⟨w, d :: rest, outcome⟩ := by
  simp only [exponent] at read ⊢
  split_ifs at read ⊢
  · exact read
  · cases read
  · exact run_of_next read

theorem numberEnd_of_next {strict : Bool} {token : String → Token} {number cs : List Char}
    (read : numberEnd strict none token number cs = ⟨w, d :: rest, outcome⟩) :
    numberEnd strict failure token number cs = ⟨w, d :: rest, outcome⟩ := by
  cases cs with
  | nil => cases read
  | cons c cs =>
    rw [numberEnd] at read ⊢
    split_ifs at read ⊢
    · exact exponent_of_next read
    · exact read

theorem number_of_next {strict : Bool} {c : Char} {cs : List Char}
    (read : number strict none c cs = ⟨w, d :: rest, outcome⟩) :
    number strict failure c cs = ⟨w, d :: rest, outcome⟩ := by
  simp only [number] at read ⊢
  generalize (if c = '0' then fun _ => false else Char.isDigit) = fits at read ⊢
  split at read
  next =>
    split_ifs at read ⊢
    · cases read
    · exact numberEnd_of_next read
  next => exact numberEnd_of_next read

theorem markedNumber_of_next {cs : List Char}
    (read : markedNumber none cs = ⟨w, d :: rest, outcome⟩) :
    markedNumber failure cs = ⟨w, d :: rest, outcome⟩ := by
  cases cs with
  | nil => cases read
  | cons c cs =>
    rw [markedNumber] at read ⊢
    split_ifs at read ⊢
    · exact run_of_next read
    · exact run_of_next read
    · exact read

/-- A lexeme in front of a character is read alike whether its source fails later or not. -/
theorem lexeme_of_next {strict : Bool} {c : Char} {cs : List Char}
    (read : lexeme strict none c cs = ⟨w, d :: rest, outcome⟩) :
    lexeme strict failure c cs = ⟨w, d :: rest, outcome⟩ := by
  simp only [lexeme] at read ⊢
  split_ifs at read ⊢
  · exact read
  · exact read
  · exact string_of_next read
  · exact quotedSymbol_of_next read
  · exact markedNumber_of_next read
  · exact number_of_next read
  · exact run_of_next read
  · exact read

end Scan

namespace Lexer

/-- A lexer in front of characters reads them as one token, if nothing goes on with them and their
source does not fail right behind them. -/
def Reads (strict : Bool) (more : Char → Bool) (cs : List Char) (t : Token) : Prop :=
  ∀ (rest : List Char) (failure : Option ReadError) (location : Span), Stops more rest →
    (rest = [] → failure = none) → ∃ span,
      (Lexer.mk ⟨cs ++ rest, failure⟩ strict location false).next =
        (some (.ok ⟨t, span⟩), ⟨⟨rest, failure⟩, strict, span, false⟩)

end Lexer

variable {strict : Bool} {more : Char → Bool} {w : List Char} {t : Token}

/-- A lexeme that does not break off is read as its token. -/
theorem Lexeme.reads (own : Lexeme strict more w t) (complete : ∀ rest, Complete w t rest) :
    Lexer.Reads strict more w t := by
  intro rest failure location stops fails
  obtain ⟨first, others, rfl, begins, taken⟩ := own.scan stops (complete rest)
  have skipped : Scan.gap false (first :: others ++ rest) = ([], first :: (others ++ rest)) :=
    Scan.gap_of_begins (forall_mem_head?_cons begins _)
  have read : Scan.lexeme strict failure first (others ++ rest) =
      ⟨first :: others, rest, .ok t⟩ := by
    cases rest with
    | nil =>
      rw [fails rfl]
      exact taken
    | cons d rest => exact Scan.lexeme_of_next taken
  exact ⟨_, Lexer.next_of_lexeme skipped read location⟩

/-- A token that a lexer gives is the end of the text or that of a lexeme. -/
theorem Lexer.exists_lexeme (strict : Bool) (cs : List Char) (failure : Option ReadError)
    (location : Span) :
    ∀ t ∈ (Lexer.mk ⟨cs, failure⟩ strict location false).stream.tokens,
      t.value = .eof ∨ ∃ more w, Lexeme strict more w t.value := by
  induction size : cs.length using Nat.strongRecOn generalizing cs location with
  | ind n ih =>
    rcases skipped : Scan.gap false cs with ⟨gap, _ | ⟨c, behind⟩⟩
    · cases failure with
      | none =>
        rw [stream_of_end skipped]
        exact List.forall_mem_singleton.mpr (.inl rfl)
      | some e =>
        rw [stream_of_read skipped]
        exact List.forall_mem_nil _
    · rcases read : Scan.lexeme strict failure c behind with ⟨w, rest, e | t⟩
      · rw [stream_of_wrong skipped read]
        exact List.forall_mem_nil _
      · have shorter : rest.length < n := size ▸ length_rest_lt skipped read
        obtain ⟨more, own, -⟩ := Scan.isTaken_of_lexeme read
        rw [stream_of_lexeme skipped read]
        exact List.forall_mem_cons.mpr ⟨.inr ⟨more, w, own⟩, ih rest.length shorter rest _ rfl⟩

end NetSpec
