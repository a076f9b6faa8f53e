import NetSpec.Proofs.Token.Errors
import NetSpec.Proofs.Token.Places
import NetSpec.Proofs.Token.Reading

/-!
# Lexers come to an end

A lexer can be asked for items without end, so that it stops has to be said of what it gives. Each
token takes a character at least, and so there are no more tokens than characters. Behind them one
last item follows, the end of the text or an error, and behind that nothing: the lexer stays as it
is, however often it is asked.

Nothing of the source is lost on the way. What a step takes stands in front of what it leaves, and
the failure of the source is kept until it is met. So the end of the text is given only where
nothing but a gap is left and the source does not fail, and an error only where no token stands.

`Lexer.next_cases` is the step and `Lexer.Ending` the whole run, which is put together from its end.
-/

namespace NetSpec

namespace Source

/-- What a reader gets of items one by one, some of which may fail: the characters in front of the
first failure, and that failure. -/
def ofItems : List (Except ReadError Char) → Source
  | [] => ⟨[], none⟩
  | .ok c :: items => (ofItems items).cons c
  | .error e :: _ => ⟨[], some e⟩

/-- The source has the characters of the items, all of them or those in front of the first
failure. -/
inductive IsOf : Source → List (Except ReadError Char) → Prop where
  | whole (chars : List Char) : IsOf ⟨chars, none⟩ (chars.map .ok)
  | failing (chars : List Char) (e : ReadError) (others : List (Except ReadError Char)) :
    IsOf ⟨chars, some e⟩ (chars.map .ok ++ .error e :: others)

theorem isOf_ofItems (items : List (Except ReadError Char)) : (ofItems items).IsOf items := by
  induction items with
  | nil => exact .whole []
  | cons item items ih =>
    cases item with
    | error e => exact .failing [] e items
    | ok c =>
      rw [ofItems]
      generalize ofItems items = source at ih ⊢
      cases ih with
      | whole chars => exact .whole (c :: chars)
      | failing chars e others => exact .failing (c :: chars) e others

namespace IsOf

variable {source : Source} {items : List (Except ReadError Char)}

theorem length_le (isOf : source.IsOf items) : source.chars.length ≤ items.length := by
  cases isOf with
  | whole chars => rw [List.length_map]
  | failing chars e others =>
    rw [List.length_append, List.length_map]
    exact Nat.le_add_right _ _

theorem eq_of_whole (isOf : source.IsOf items) (whole : source.failure = none) :
    items = source.chars.map .ok := by
  cases isOf with
  | whole => rfl
  | failing => cases whole

theorem eq_of_failing (isOf : source.IsOf items) {e : ReadError}
    (failing : source.failure = some e) :
    ∃ others, items = source.chars.map .ok ++ .error e :: others := by
  cases isOf with
  | whole => cases failing
  | failing chars e' others =>
    cases failing
    exact ⟨others, rfl⟩

end IsOf

end Source

namespace Lexer

/-- Between two lexers characters have been taken from the front of the source. What stands behind
them is left, and the failure of the source and the dialect are kept. -/
structure Takes (l : Lexer) (taken : List Char) (l' : Lexer) : Prop where
  chars : l.source.chars = taken ++ l'.source.chars
  failure : l'.source.failure = l.source.failure
  strict : l'.strict = l.strict

namespace Takes

variable {l l' l'' : Lexer} {v w : List Char}

theorem refl (l : Lexer) : l.Takes [] l := ⟨rfl, rfl, rfl⟩

theorem trans (first : l.Takes v l') (second : l'.Takes w l'') : l.Takes (v ++ w) l'' where
  chars := by rw [first.chars, second.chars, List.append_assoc]
  failure := second.failure.trans first.failure
  strict := second.strict.trans first.strict

end Takes

/-- A token stands in front of a lexer, behind a gap. -/
structure TokenAt (l : Lexer) (gap w rest : List Char) (t : Token) : Prop where
  chars : l.source.chars = gap ++ (w ++ rest)
  isGap : IsGap false gap
  settled : IsSettled l.strict l.source.failure w rest t

/-- A step gives the token that stands there, and takes its lexeme: one character at least. -/
inductive GivesToken (l : Lexer) (t : Token) (l' : Lexer) : Prop where
  | lexeme {gap w : List Char} {c : Char} (stands : l.TokenAt gap (c :: w) l'.source.chars t)
    (takes : l.Takes (gap ++ c :: w) l')

/-- No token stands in front of a lexer. -/
def LacksToken (l : Lexer) : Prop := ∀ gap w rest t, ¬ l.TokenAt gap w rest t

/-- A step gives the last item. -/
inductive GivesLast (l : Lexer) : Item → Lexer → Prop where
  /-- The end of the text: only a gap is left, and the source does not fail behind it. -/
  | eof {t : Placed Token} {gap : List Char} {l' : Lexer} (isEof : t.value = .eof)
    (isGap : IsGap true gap) (takes : l.Takes gap l') (exhausted : l'.source = ⟨[], none⟩) :
    GivesLast l (.ok t) l'
  /-- The failure of the source, behind a gap or behind what a lexeme goes on with. -/
  | read {e : Placed LexicalError} {r : ReadError} {gap w : List Char} {l' : Lexer}
    (isRead : e.value = .read r) (lacks : l.LacksToken) (isGap : IsGap w.isEmpty gap)
    (goesOn : GoesOn l.strict w) (takes : l.Takes (gap ++ w) l')
    (exhausted : l'.source = ⟨[], some r⟩) : GivesLast l (.error e) l'
  /-- The text ends inside a lexeme. -/
  | unfinished {e : Placed LexicalError} {gap w : List Char} {c : Char} {l' : Lexer}
    (atEnd : e.value = .unexpectedEnd) (lacks : l.LacksToken) (isGap : IsGap false gap)
    (goesOn : GoesOn l.strict (c :: w)) (takes : l.Takes (gap ++ c :: w) l')
    (exhausted : l'.source = ⟨[], none⟩) : GivesLast l (.error e) l'
  /-- A character is in the way, the first with which no lexeme goes on. -/
  | wrong {e : Placed LexicalError} {gap w : List Char} {d : Char} {l' : Lexer}
    (notRead : ∀ r, e.value ≠ .read r) (lacks : l.LacksToken) (isGap : IsGap false gap)
    (begins : ∀ c ∈ (w ++ [d]).head?, BeginsLexeme c) (goesOn : GoesOn l.strict w)
    (stuck : ¬ GoesOn l.strict (w ++ [d])) (takes : l.Takes (gap ++ (w ++ [d])) l') :
    GivesLast l (.error e) l'

/-! ### One step -/

section Step

variable {l l' : Lexer} {gap behind w rest : List Char} {c : Char}

theorem TokenAt.scan {t : Token} (stands : l.TokenAt gap w rest t) :
    ∃ first others, Scan.gap false l.source.chars = (gap, first :: others) ∧
      Scan.lexeme l.strict l.source.failure first others = ⟨w, rest, .ok t⟩ := by
  obtain ⟨first, others, rfl, begins, read⟩ := stands.settled.scan
  rw [stands.chars]
  exact ⟨first, others ++ rest,
    stands.isGap.skipped nofun (forall_mem_head?_cons begins (others ++ rest)), read⟩

theorem GivesToken.ne_eof {t : Token} (gives : l.GivesToken t l') : t ≠ .eof := by
  obtain ⟨stands, -⟩ := gives
  obtain ⟨more, own, -⟩ := stands.settled.own
  exact own.ne_eof

theorem GivesToken.length_lt {t : Token} (gives : l.GivesToken t l') :
    l'.source.chars.length < l.source.chars.length := by
  obtain ⟨-, takes⟩ := gives
  rw [takes.chars, List.length_append, List.length_append, List.length_cons]
  omega

section End

variable (skipped : Scan.gap false l.source.chars = (gap, []))

include skipped

theorem lacksToken_of_end : l.LacksToken := by
  intro gap' w rest t stands
  obtain ⟨first, others, skipped', -⟩ := stands.scan
  cases skipped.symm.trans skipped'

theorem takes_of_end (source : l'.source = ⟨[], l.source.failure⟩)
    (dialect : l'.strict = l.strict) : l.Takes gap l' where
  chars := by
    have whole := Scan.gap_append false l.source.chars
    rw [skipped] at whole
    rw [source]
    exact whole.symm
  failure := by rw [source]
  strict := dialect

end End

section Lexeme

variable (skipped : Scan.gap false l.source.chars = (gap, c :: behind))
  {outcome : Except LexicalError Token}
  (source : l'.source = ⟨rest, l.source.failure⟩) (dialect : l'.strict = l.strict)

include skipped

theorem lacksToken_of_wrong {e : LexicalError}
    (read : Scan.lexeme l.strict l.source.failure c behind = ⟨w, rest, .error e⟩) :
    l.LacksToken := by
  intro gap' w' rest' t stands
  obtain ⟨first, others, skipped', read'⟩ := stands.scan
  cases skipped.symm.trans skipped'
  cases read.symm.trans read'

include source dialect

theorem takes_of_lexeme
    (read : Scan.lexeme l.strict l.source.failure c behind = ⟨w, rest, outcome⟩) :
    l.Takes (gap ++ w) l' where
  chars := by
    have whole := Scan.gap_append false l.source.chars
    have lexeme := Scan.lexeme_append l.strict l.source.failure c behind
    rw [skipped] at whole
    rw [read] at lexeme
    rw [source, List.append_assoc, lexeme]
    exact whole.symm
  failure := by rw [source]
  strict := dialect

theorem givesToken_of_lexeme {t : Token}
    (read : Scan.lexeme l.strict l.source.failure c behind = ⟨w, rest, .ok t⟩) :
    l.GivesToken t l' := by
  have takes : l.Takes (gap ++ w) l' := takes_of_lexeme skipped source dialect read
  have settled : IsSettled l.strict l.source.failure w l'.source.chars t := by
    rw [source]
    exact Scan.isSettled_of_lexeme read
  obtain ⟨w, rfl⟩ := Scan.exists_taken read
  exact .lexeme ⟨by rw [takes.chars, List.append_assoc], Scan.isGap_gap skipped, settled⟩ takes

theorem givesLast_of_wrong {e : LexicalError} (span : Span)
    (read : Scan.lexeme l.strict l.source.failure c behind = ⟨w, rest, .error e⟩) :
    l.GivesLast (.error ⟨e, span⟩) l' := by
  have lacks : l.LacksToken := lacksToken_of_wrong skipped read
  have takes : l.Takes (gap ++ w) l' := takes_of_lexeme skipped source dialect read
  have isGap : IsGap false gap := Scan.isGap_gap skipped
  have breaks : Scan.Breaks l.strict l.source.failure w rest e := Scan.lexeme_breaks read
  obtain ⟨w', taken⟩ := Scan.exists_taken read
  cases breaks with
  | unfinished goesOn =>
    rw [taken] at takes goesOn
    cases failure : l.source.failure with
    | none =>
      rw [failure] at source
      exact .unfinished rfl lacks isGap goesOn takes source
    | some r =>
      rw [failure] at source
      exact .read (w := c :: w') rfl lacks isGap goesOn takes source
  | wrong goesOn stuck notRead =>
    have begins : ∀ d ∈ (c :: w').head?, BeginsLexeme d :=
      forall_mem_head?_cons (Scan.begins_of_gap skipped) w'
    exact .wrong notRead lacks isGap (taken ▸ begins) goesOn stuck takes

end Lexeme

end Step

/-- A lexer that has not come to its end gives a token and goes on, or it gives the last item. -/
theorem next_cases {l : Lexer} (going : l.finished = false) :
    (∃ t l', l.next = (some (.ok t), l') ∧ l.GivesToken t.value l' ∧ l'.finished = false) ∨
    ∃ final l', l.next = (some final, l') ∧ l.GivesLast final l' ∧ l'.finished = true := by
  obtain ⟨⟨cs, failure⟩, strict, location, _⟩ := l
  cases going
  rcases skipped : Scan.gap false cs with ⟨gap, behind⟩
  cases behind with
  | nil =>
    right
    have isGap : IsGap true gap := Scan.isGap_gap skipped
    cases failure with
    | none =>
      exact ⟨_, _, next_of_end skipped location,
        .eof rfl isGap (takes_of_end skipped rfl rfl) rfl, rfl⟩
    | some r =>
      refine ⟨_, _, next_of_read skipped location, ?_, rfl⟩
      refine .read (w := []) rfl (lacksToken_of_end skipped) isGap goesOn_nil ?_ rfl
      rw [List.append_nil]
      exact takes_of_end skipped rfl rfl
  | cons c behind =>
    rcases read : Scan.lexeme strict failure c behind with ⟨w, rest, outcome⟩
    cases outcome with
    | ok t =>
      left
      refine ⟨_, _, next_of_lexeme skipped read location, ?_, rfl⟩
      refine givesToken_of_lexeme skipped ?_ ?_ read
      · rfl
      · rfl
    | error e =>
      right
      refine ⟨_, _, next_of_wrong skipped read location, ?_, rfl⟩
      refine givesLast_of_wrong skipped ?_ ?_ _ read
      · rfl
      · rfl

/-! ### The whole run -/

/-- How a lexer comes to its end: tokens, the last item, and nothing behind it. -/
structure Ending (l : Lexer) (tokens : List (Placed Token)) (final : Item) : Prop where
  /-- However often the lexer is asked, it gives these items as far as they go. -/
  items (n : Nat) : (l.items n).1 = (tokens.map Except.ok ++ [final]).take n
  /-- The end of the text is no token among others. -/
  proper : ∀ t ∈ tokens, t.value ≠ .eof
  /-- Each token is taken from the front of what the one before it has left. -/
  gives (n : Nat) (fewer : n < tokens.length) :
    (l.items n).2.GivesToken tokens[n].value (l.items (n + 1)).2
  /-- The last item is given for what they all have left. -/
  last : (l.items tokens.length).2.GivesLast final (l.items (tokens.length + 1)).2
  /-- Behind the last item nothing is given and nothing changes. -/
  still (n : Nat) (more : tokens.length < n) :
    (l.items n).2 = (l.items (tokens.length + 1)).2 ∧ (l.items n).2.next = (none, (l.items n).2)

namespace Ending

variable {l l' : Lexer} {tokens : List (Placed Token)} {final : Item}

theorem nil (given : l.next = (some final, l')) (last : l.GivesLast final l')
    (done : l'.finished = true) : l.Ending [] final := by
  have behind (n : Nat) : l.items (n + 1) = ([final], l') := by
    rw [items_of_next given, items_of_finished done]
  exact {
    items := by
      intro n
      cases n with
      | zero => rfl
      | succ n =>
        rw [behind, List.map_nil, List.nil_append, List.take_succ_cons, List.take_nil]
    proper := List.forall_mem_nil _
    gives := fun n fewer => absurd fewer (Nat.not_lt_zero n)
    last := by
      rw [behind]
      exact last
    still := by
      intro n more
      obtain ⟨n, rfl⟩ := Nat.exists_eq_succ_of_ne_zero (Nat.ne_of_gt more)
      rw [Nat.succ_eq_add_one, behind, behind]
      exact ⟨rfl, next_of_finished done⟩ }

theorem cons {t : Placed Token} (given : l.next = (some (.ok t), l'))
    (gives : l.GivesToken t.value l') (others : l'.Ending tokens final) :
    l.Ending (t :: tokens) final := by
  have behind (n : Nat) : l.items (n + 1) = (.ok t :: (l'.items n).1, (l'.items n).2) :=
    items_of_next given n
  exact {
    items := by
      intro n
      cases n with
      | zero => rfl
      | succ n =>
        rw [behind, others.items]
        rfl
    proper := List.forall_mem_cons.mpr ⟨gives.ne_eof, others.proper⟩
    gives := by
      intro n fewer
      cases n with
      | zero =>
        rw [behind]
        exact gives
      | succ n =>
        rw [behind, behind]
        exact others.gives n (Nat.lt_of_succ_lt_succ fewer)
    last := by
      rw [List.length_cons, behind, behind]
      exact others.last
    still := by
      intro n more
      obtain ⟨n, rfl⟩ := Nat.exists_eq_succ_of_ne_zero (Nat.ne_of_gt (Nat.zero_lt_of_lt more))
      rw [Nat.succ_eq_add_one, List.length_cons, behind, behind]
      exact others.still n (Nat.lt_of_succ_lt_succ more) }

/-- The tokens in front take characters from the front of the source and nothing else. -/
theorem exists_takes (ending : l.Ending tokens final) (n : Nat) (few : n ≤ tokens.length) :
    ∃ taken, l.Takes taken (l.items n).2 := by
  induction n with
  | zero => exact ⟨[], .refl l⟩
  | succ n ih =>
    obtain ⟨taken, before⟩ := ih (Nat.le_of_succ_le few)
    obtain ⟨-, takes⟩ := ending.gives n few
    exact ⟨_, before.trans takes⟩

/-- The end of the text is given by a source that does not fail. -/
theorem whole_of_eof {t : Placed Token} (ending : l.Ending tokens (.ok t)) :
    l.source.failure = none := by
  obtain ⟨taken, before⟩ := ending.exists_takes tokens.length (Nat.le_refl _)
  cases ending.last with
  | eof _ _ takes exhausted => rw [← before.failure, ← takes.failure, exhausted]

/-- A failure is that of the source. -/
theorem failing_of_read {e : Placed LexicalError} {r : ReadError}
    (ending : l.Ending tokens (.error e)) (isRead : e.value = .read r) :
    l.source.failure = some r := by
  obtain ⟨taken, before⟩ := ending.exists_takes tokens.length (Nat.le_refl _)
  cases ending.last with
  | read isRead' _ _ _ takes exhausted =>
    cases isRead.symm.trans isRead'
    rw [← before.failure, ← takes.failure, exhausted]
  | unfinished atEnd => cases isRead.symm.trans atEnd
  | wrong notRead => exact absurd isRead (notRead r)

end Ending

/-- A lexer that has not come to its end comes there, with no more tokens than characters. -/
theorem exists_ending {l : Lexer} (going : l.finished = false) :
    ∃ tokens final, l.Ending tokens final ∧ tokens.length ≤ l.source.chars.length := by
  induction size : l.source.chars.length using Nat.strongRecOn generalizing l with
  | ind n ih =>
    obtain ⟨t, l', given, gives, going'⟩ | ⟨final, l', given, last, done⟩ := next_cases going
    · have shorter : l'.source.chars.length < n := size ▸ gives.length_lt
      obtain ⟨tokens, final, others, few⟩ := ih _ shorter going' rfl
      exact ⟨t :: tokens, final, others.cons given gives,
        Nat.succ_le_of_lt (Nat.lt_of_le_of_lt few shorter)⟩
    · exact ⟨[], final, .nil given last done, Nat.zero_le n⟩

/-- The tokens of every source come to an end, once. Asked without end, a lexer gives a list of
tokens, at most one for each item of its source, then the end of the text or an error, and then
nothing more. Each token takes the lexeme that stands in front, so nothing is lost. The end of the
text is given only if no item fails and nothing but a gap is left, and a failure only if it is the
first among the items and nothing is left in front of it; behind the last item the lexer stays as
it is. -/
theorem tokens_end_once (items : List (Except ReadError Char)) (strict : Bool) :
    let l := Lexer.new (.ofItems items) strict
    (l.source.IsOf items ∧ l.strict = strict) ∧
    ∃ tokens final, l.Ending tokens final ∧ tokens.length ≤ items.length ∧
      (∀ t, final = .ok t → items = l.source.chars.map .ok) ∧
      ∀ e r, final = .error e → e.value = .read r →
        ∃ others, items = l.source.chars.map .ok ++ .error r :: others := by
  intro l
  have isOf : l.source.IsOf items := Source.isOf_ofItems items
  have going : l.finished = false := rfl
  obtain ⟨tokens, final, ending, few⟩ := exists_ending going
  refine ⟨⟨isOf, rfl⟩, tokens, final, ending, Nat.le_trans few isOf.length_le, ?_, ?_⟩
  · rintro t rfl
    exact isOf.eq_of_whole ending.whole_of_eof
  · rintro e r rfl isRead
    exact isOf.eq_of_failing (ending.failing_of_read isRead)

end Lexer

end NetSpec
