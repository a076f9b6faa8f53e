import NetSpec.Proofs.Token.Cut

/-!
# Where tokens stand

A lexer counts positions one character at a time, so the place of a token could get out of step
with the characters that have been taken. It does not: the place of a token is that of its lexeme
in the text. `Places` says how the characters of a text are divided among the items that a lexer
gives, and that each item stands where its characters do. One step keeps a lexer `InStep`: its piece
stops at the position behind all that it has taken.

An error stands where the lexeme begins that is none, and goes up to what has been taken of it.
Where a source fails there are no positions to speak of.
-/

namespace NetSpec

namespace Scan

/-- What is left behind a gap begins a lexeme. -/
theorem begins_of_gap {comment : Bool} {cs gap rest : List Char} {c : Char}
    (skipped : Scan.gap comment cs = (gap, c :: rest)) : BeginsLexeme c := by
  induction cs generalizing comment gap with
  | nil => cases skipped
  | cons d cs ih =>
    have goesOn {comment : Bool}
        (skipped : (d :: (Scan.gap comment cs).1, (Scan.gap comment cs).2) = (gap, c :: rest)) :
        BeginsLexeme c := by
      obtain ⟨-, behind⟩ := Prod.mk.inj skipped
      exact ih (Prod.ext rfl behind)
    rw [Scan.gap] at skipped
    split_ifs at skipped with inside blank
    · exact goesOn skipped
    · exact goesOn skipped
    · cases skipped
      simpa [BeginsLexeme] using blank

/-- A lexeme takes its first character at least, also where it is none. -/
theorem exists_taken {strict : Bool} {failure : Option ReadError} {c : Char}
    {behind w rest : List Char} {outcome : Except LexicalError Token}
    (read : Scan.lexeme strict failure c behind = ⟨w, rest, outcome⟩) : ∃ w', w = c :: w' := by
  have begins := lexeme_begins strict failure c behind
  rw [read] at begins
  obtain ⟨w', same⟩ := begins
  exact ⟨w', same.symm⟩

end Scan

namespace Position

/-- The position behind a text. -/
def behind (cs : List Char) : Position := origin.advance cs

theorem behind_append (cs ds : List Char) : behind (cs ++ ds) = (behind cs).advance ds :=
  advance_append origin cs ds

end Position

namespace Span

/-- Where a piece of a text stands, behind what is in front of it: from its first character up to
the end of its last one, which stands at `last`. -/
def ofPiece (u w : List Char) : Span where
  start := .behind u
  last := .behind (u ++ w.dropLast)
  stop := .behind (u ++ w)

/-- A new piece that is extended by characters stands where they do. -/
theorem extend_point_behind (u w : List Char) :
    (point (.behind u)).extend w = ofPiece u w := by
  have start : ((point (.behind u)).extend w).start = .behind u := extend_start _ w
  have stop : ((point (.behind u)).extend w).stop = .behind (u ++ w) := by
    rw [extend_stop, Position.behind_append]
    rfl
  have last : ((point (.behind u)).extend w).last = .behind (u ++ w.dropLast) := by
    rcases List.eq_nil_or_concat w with rfl | ⟨front, c, rfl⟩
    · rw [List.dropLast_nil, List.append_nil]
      rfl
    · rw [List.concat_eq_append, List.dropLast_concat, extend_last_concat, Position.behind_append]
      rfl
  calc (point (.behind u)).extend w
      = ⟨((point (.behind u)).extend w).start, ((point (.behind u)).extend w).last,
          ((point (.behind u)).extend w).stop⟩ := rfl
    _ = ofPiece u w := by rw [start, last, stop, ofPiece]

variable {s : Span} {u : List Char}

theorem stop_extend (inStep : s.stop = .behind u) (cs : List Char) :
    (s.extend cs).stop = .behind (u ++ cs) := by
  rw [extend_stop, inStep, Position.behind_append]

/-- Behind a gap a new piece begins. -/
theorem clear_extend (inStep : s.stop = .behind u) (gap : List Char) :
    (s.extend gap).clear = .point (.behind (u ++ gap)) := by
  rw [clear, stop_extend inStep]

end Span

namespace Lexer

/-- The items that a lexer gives when it is asked so often, and the lexer behind them. -/
def items : Nat → Lexer → List Item × Lexer
  | 0, l => ([], l)
  | n + 1, l =>
    match l.next with
    | (none, l) => ([], l)
    | (some item, l) =>
      let (others, l) := items n l
      (item :: others, l)

theorem items_of_finished {l : Lexer} (done : l.finished = true) (n : Nat) :
    l.items n = ([], l) := by
  cases n with
  | zero => rfl
  | succ n => rw [items, next_of_finished done]

theorem items_of_next {l l' : Lexer} {item : Item} (given : l.next = (some item, l')) (n : Nat) :
    l.items (n + 1) = (item :: (l'.items n).1, (l'.items n).2) := by
  rw [items, given]

end Lexer

/-- How the characters behind `u` are divided among items, up to those that are left: gaps and
lexemes in turn, or a gap and the end, or a gap and what is no lexeme. Each item stands where its
characters do. -/
inductive Places (strict : Bool) : (u cs : List Char) → List Lexer.Item → (left : List Char) →
    Prop where
  | nil (u cs : List Char) : Places strict u cs [] cs
  | lexeme {u gap w rest left : List Char} {more : Char → Bool} {t : Token}
      {items : List Lexer.Item} (isGap : IsGap false gap) (own : Lexeme strict more w t)
      (maximal : ∀ c ∈ rest.head?, ¬ Extends w c) (complete : Complete w t rest)
      (others : Places strict (u ++ gap ++ w) rest items left) :
      Places strict u (gap ++ (w ++ rest)) (.ok ⟨t, .ofPiece (u ++ gap) w⟩ :: items) left
  | last {u gap : List Char} (isGap : IsGap true gap) :
      Places strict u gap [.ok ⟨.eof, .point (.behind (u ++ gap))⟩] []
  | wrong {u gap w left : List Char} {c : Char} {e : LexicalError} (isGap : IsGap false gap)
      (begins : BeginsLexeme c) :
      Places strict u (gap ++ (c :: w ++ left)) [.error ⟨e, .ofPiece (u ++ gap) (c :: w)⟩] left
  | read {u gap : List Char} {e : ReadError} {span : Span} (isGap : IsGap true gap)
      (stop : span.stop = .behind (u ++ gap)) : Places strict u gap [.error ⟨.read e, span⟩] []

/-- The items of a lexer stand where their characters do, if its piece stops behind all that it has
taken. -/
theorem Lexer.places_items (n : Nat) {strict : Bool} {u cs : List Char} {failure : Option ReadError}
    {location : Span} (inStep : location.stop = .behind u) :
    Places strict u cs ((Lexer.mk ⟨cs, failure⟩ strict location false).items n).1
      ((Lexer.mk ⟨cs, failure⟩ strict location false).items n).2.source.chars := by
  induction n generalizing u cs location with
  | zero => exact .nil u cs
  | succ n ih =>
    have whole := Scan.gap_append false cs
    rcases skipped : Scan.gap false cs with ⟨gap, _ | ⟨c, behind⟩⟩
    · have isGap : IsGap true gap := Scan.isGap_gap skipped
      rw [skipped, List.append_nil] at whole
      cases failure with
      | none =>
        rw [items_of_next (next_of_end skipped location), items_of_finished rfl,
          Span.clear_extend inStep, ← whole]
        exact .last isGap
      | some e =>
        rw [items_of_next (next_of_read skipped location), items_of_finished rfl, ← whole]
        exact .read isGap (Span.stop_extend inStep gap)
    · have isGap : IsGap false gap := Scan.isGap_gap skipped
      have lexeme := Scan.lexeme_append strict failure c behind
      have place (w : List Char) :
          (location.extend gap).clear.extend w = .ofPiece (u ++ gap) w := by
        rw [Span.clear_extend inStep, Span.extend_point_behind]
      rw [skipped] at whole
      rcases read : Scan.lexeme strict failure c behind with ⟨w, rest, e | t⟩
      · obtain ⟨w', rfl⟩ := Scan.exists_taken read
        rw [read] at lexeme
        rw [items_of_next (next_of_wrong skipped read location), items_of_finished rfl, place,
          ← whole, ← lexeme]
        exact .wrong isGap (Scan.begins_of_gap skipped)
      · rw [read] at lexeme
        rw [items_of_next (next_of_lexeme skipped read location), place, ← whole, ← lexeme]
        obtain ⟨more, own, stops, complete⟩ := Scan.isTaken_of_lexeme read
        exact .lexeme isGap own (own.stops_iff.mp stops) complete (ih rfl)

namespace Places

variable {strict : Bool} {u cs left : List Char} {items : List Lexer.Item}

/-- A token is that of a lexeme of the text, and stands where the lexeme does. -/
theorem exists_lexeme (places : Places strict u cs items left) {t : Placed Token}
    (member : .ok t ∈ items) (notEnd : t.value ≠ .eof) :
    ∃ v w rest more, u ++ cs = v ++ (w ++ rest) ∧ Lexeme strict more w t.value ∧
      t.span = .ofPiece v w := by
  induction places with
  | nil => cases member
  | @lexeme u gap w rest left more t' items isGap own _ _ _ ih =>
    rcases List.mem_cons.mp member with same | later
    · cases same
      exact ⟨u ++ gap, w, rest, more, by simp, own, rfl⟩
    · obtain ⟨v, w', rest', more', split, own', place⟩ := ih later
      exact ⟨v, w', rest', more', by simpa using split, own', place⟩
  | last isGap =>
    cases List.mem_singleton.mp member
    exact absurd rfl notEnd
  | wrong => cases List.mem_singleton.mp member
  | read => cases List.mem_singleton.mp member

/-- The end of the text stands behind all of it. -/
theorem span_eof (places : Places strict u cs items left) {t : Placed Token}
    (member : .ok t ∈ items) (atEnd : t.value = .eof) : t.span = .point (.behind (u ++ cs)) := by
  induction places with
  | nil => cases member
  | @lexeme u gap w rest left more t' items isGap own _ _ _ ih =>
    rcases List.mem_cons.mp member with same | later
    · cases same
      exact absurd atEnd own.ne_eof
    · simpa using ih later
  | last isGap =>
    cases List.mem_singleton.mp member
    rfl
  | wrong => cases List.mem_singleton.mp member
  | read => cases List.mem_singleton.mp member

/-- An error stands where the lexeme begins that is none, and goes up to what is left. -/
theorem exists_wrong (places : Places strict u cs items left) {e : Placed LexicalError}
    (member : .error e ∈ items) (notRead : ∀ r, e.value ≠ .read r) :
    ∃ v c w, u ++ cs = v ++ (c :: w ++ left) ∧ BeginsLexeme c ∧ e.span = .ofPiece v (c :: w) := by
  induction places with
  | nil => cases member
  | @lexeme u gap w rest left more t' items isGap own _ _ _ ih =>
    rcases List.mem_cons.mp member with same | later
    · cases same
    · obtain ⟨v, c, w', split, begins, place⟩ := ih later
      exact ⟨v, c, w', by simpa using split, begins, place⟩
  | last isGap => cases List.mem_singleton.mp member
  | @wrong u gap w left c e isGap begins =>
    cases List.mem_singleton.mp member
    exact ⟨u ++ gap, c, w, by simp, begins, rfl⟩
  | read =>
    cases List.mem_singleton.mp member
    exact absurd rfl (notRead _)

end Places

/-- The places of the items that a lexer gives are exact. The characters of its source are divided
among the items in order, with nothing but blanks and comments in between: the place of a token is
where its lexeme begins, where its last character stands and where it ends, the end of the text
stands behind all characters, and an error goes from where the lexeme begins that is none up to
the characters that are left. -/
theorem Lexer.places_exact (source : Source) (strict : Bool) (n : Nat) :
    let (items, l) := (Lexer.new source strict).items n
    Places strict [] source.chars items l.source.chars ∧
    (∀ t, .ok t ∈ items → t.value ≠ .eof → ∃ u w v more, source.chars = u ++ (w ++ v) ∧
      Lexeme strict more w t.value ∧
      t.span = ⟨.behind u, .behind (u ++ w.dropLast), .behind (u ++ w)⟩) ∧
    (∀ t, .ok t ∈ items → t.value = .eof →
      t.span = ⟨.behind source.chars, .behind source.chars, .behind source.chars⟩) ∧
    ∀ e, .error e ∈ items → (∀ r, e.value ≠ .read r) → ∃ u c w,
      source.chars = u ++ (c :: w ++ l.source.chars) ∧ BeginsLexeme c ∧
      e.span.start = .behind u ∧ e.span.stop = .behind (u ++ c :: w) := by
  have places : Places strict [] source.chars ((Lexer.new source strict).items n).1
      ((Lexer.new source strict).items n).2.source.chars := Lexer.places_items n rfl
  refine ⟨places, fun t member notEnd => ?_, fun t member atEnd => ?_, fun e member notRead => ?_⟩
  · exact places.exists_lexeme member notEnd
  · exact places.span_eof member atEnd
  · obtain ⟨u, c, w, split, begins, place⟩ := places.exists_wrong member notRead
    exact ⟨u, c, w, split, begins, by rw [place]; rfl, by rw [place]; rfl⟩

/-- Two lines with a tabulation, and a number of no base at the end. -/
def twoLines : Source := .ofText "(a\n bc\t#o5"

/-- The second line begins a new count of columns, and the error goes up to the mark that is
none. -/
theorem Lexer.places_exact_twoLines :
    let (items, l) := (Lexer.new twoLines true).items 4
    items = [
      .ok ⟨.openParen, ⟨0, 0⟩, ⟨0, 0⟩, ⟨0, 1⟩⟩,
      .ok ⟨.symbol "a", ⟨0, 1⟩, ⟨0, 1⟩, ⟨0, 2⟩⟩,
      .ok ⟨.symbol "bc", ⟨1, 1⟩, ⟨1, 2⟩, ⟨1, 3⟩⟩,
      .error ⟨.invalidNumberMark 'o', ⟨1, 8⟩, ⟨1, 9⟩, ⟨1, 10⟩⟩] ∧
    l.source.chars = ['5'] ∧ Places true [] twoLines.chars items ['5'] ∧
    (∃ u w v more, twoLines.chars = u ++ (w ++ v) ∧ Lexeme true more w (.symbol "bc") ∧
      (⟨1, 1⟩ : Position) = .behind u ∧ (⟨1, 3⟩ : Position) = .behind (u ++ w)) ∧
    ∃ u c w, twoLines.chars = u ++ (c :: w ++ ['5']) ∧ BeginsLexeme c ∧
      (⟨1, 8⟩ : Position) = .behind u ∧ (⟨1, 10⟩ : Position) = .behind (u ++ c :: w) := by
  obtain ⟨places, tokens, -, errors⟩ := Lexer.places_exact twoLines true 4
  refine ⟨rfl, rfl, places, ?_, ?_⟩
  · obtain ⟨u, w, v, more, split, own, place⟩ :=
      tokens ⟨.symbol "bc", ⟨1, 1⟩, ⟨1, 2⟩, ⟨1, 3⟩⟩ (.tail _ (.tail _ (.head _))) nofun
    exact ⟨u, w, v, more, split, own, congrArg Span.start place, congrArg Span.stop place⟩
  · exact errors ⟨.invalidNumberMark 'o', ⟨1, 8⟩, ⟨1, 9⟩, ⟨1, 10⟩⟩
      (.tail _ (.tail _ (.tail _ (.head _)))) nofun

end NetSpec
