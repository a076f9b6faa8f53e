import NetSpec.Proofs.Token.Splitting

/-!
# The two dialects

The strict dialect differs from the other one in a single place: a number is cut off at the mark
of its exponent and refused. So two lexers that differ in their dialect go through a text side by
side, with the same tokens at the same places, up to the first decimal with an exponent. There the
strict one stops, with the text of the decimal up to its mark.

`Scan.Restricts` says this of one lexeme and `TokenStream.Restricts` of all tokens of a text.
-/

namespace NetSpec

namespace Token

/-- The text of the token has an `e` in it, in either case. -/
def hasMark (t : Token) : Bool := t.text.toList.any isExponentMark

/-- The token is a decimal with an exponent. -/
def hasExponent (t : Token) : Bool := t.kind = .decimal && t.hasMark

/-- The text of the token up to its first mark, which is the last character of it. -/
def throughMark (t : Token) : String :=
  String.ofList (t.text.toList.takeWhile (!isExponentMark ·) ++
    (t.text.toList.dropWhile (!isExponentMark ·)).take 1)

section Marked

variable {number behind : List Char} {m : Char}

theorem hasExponent_decimal (isMark : isExponentMark m = true) :
    (decimal (String.ofList (number ++ m :: behind))).hasExponent = true := by
  simp [hasExponent, kind, hasMark, text, isMark]

theorem throughMark_decimal (noMark : ∀ c ∈ number, isExponentMark c = false)
    (isMark : isExponentMark m = true) :
    (decimal (String.ofList (number ++ m :: behind))).throughMark =
      String.ofList (number ++ [m]) := by
  have all : ∀ c ∈ number, (!isExponentMark c) = true := by simpa using noMark
  have stops : Stops (!isExponentMark ·) (m :: behind) := .cons (by simp [isMark]) behind
  simp only [throughMark, text, String.toList_ofList]
  rw [takeWhile_append_of_stops all stops, dropWhile_append_of_stops all stops]
  rfl

end Marked

end Token

variable {strict : Bool} {more : Char → Bool} {w rest : List Char} {t : Token}

theorem isExponentMark_of_isDigit {c : Char} (digit : c.isDigit = true) :
    isExponentMark c = false := by
  cases isMark : isExponentMark c with
  | false => rfl
  | true =>
    rcases eq_of_isExponentMark isMark with rfl | rfl
    · cases digit
    · cases digit

/-- No number of the strict dialect has a mark in it. -/
theorem Lexeme.hasMark_of_strict (lexeme : Lexeme true more w t)
    (number : t.kind = .numeral ∨ t.kind = .decimal) : t.hasMark = false := by
  have noMark {cs : List Char} (digits : ∀ c ∈ cs, c.isDigit = true) :
      cs.any isExponentMark = false :=
    List.any_eq_false.mpr fun c mem => by simp [isExponentMark_of_isDigit (digits c mem)]
  cases lexeme with
  | numeral isWhole =>
    rw [Token.hasMark, Token.text, String.toList_ofList]
    exact noMark isWhole.digits
  | decimal isWhole own =>
    cases own with
    | point all =>
      rw [Token.hasMark, Token.text, String.toList_ofList, List.any_append, List.any_cons,
        noMark isWhole.digits, noMark all]
      rfl
    | exponent lax _ => cases lax
    | both lax _ _ => cases lax
  | openParen | closeParen | symbol | quotedSymbol | string | hexadecimal | binary =>
    rcases number with kind | kind <;> cases kind

theorem Lexeme.hasExponent_of_strict (lexeme : Lexeme true more w t) : t.hasExponent = false := by
  by_cases decimal : t.kind = .decimal
  · rw [Token.hasExponent, lexeme.hasMark_of_strict (.inr decimal), Bool.and_false]
  · rw [Token.hasExponent, decide_eq_false decimal, Bool.false_and]

/-! ### One lexeme -/

/-- What the strict dialect makes of a lexeme: the same, or a number that is cut off at the mark
of its exponent and refused. -/
inductive Scan.Restricts : Scan → Scan → Prop where
  | same (scan : Scan) : Restricts scan scan
  | refused {lax : Scan} {number others : List Char} {m : Char}
      (noMark : ∀ c ∈ number, isExponentMark c = false) (isMark : isExponentMark m = true)
      (begins : ∀ t, lax.outcome = .ok t →
        ∃ behind, t = .decimal (String.ofList (number ++ m :: behind))) :
      Restricts lax
        ⟨number ++ [m], others, .error (.strictDecimal (String.ofList (number ++ [m])))⟩

namespace Scan

/-- A number goes on at a mark with its exponent, or is refused there. -/
theorem numberEnd_restricts (token : String → Token) {number : List Char}
    (noMark : ∀ c ∈ number, isExponentMark c = false) (cs : List Char) :
    Restricts (numberEnd false none token number cs) (numberEnd true none token number cs) := by
  cases cs with
  | nil => exact .same _
  | cons m cs =>
    cases isMark : isExponentMark m with
    | false =>
      rw [numberEnd, numberEnd, isMark, if_neg Bool.false_ne_true]
      exact .same _
    | true =>
      have cut : numberEnd true none token number (m :: cs) =
          ⟨number ++ [m], cs, .error (.strictDecimal (String.ofList (number ++ [m])))⟩ := by
        rw [numberEnd, if_pos isMark]
        rfl
      rw [cut]
      refine .refused noMark isMark fun t ok => ?_
      have whole := numberEnd_append false none token number (m :: cs)
      rcases read : numberEnd false none token number (m :: cs) with ⟨w, rest, outcome⟩
      rw [read] at ok whole
      obtain rfl : outcome = .ok t := ok
      rw [numberEnd, if_pos isMark] at read
      obtain ⟨-, _, e, own, rfl, rfl, -⟩ := exponent_ok isMark read
      obtain ⟨m', behind, rfl, -⟩ := own.exists_cons
      have first : m' = m := by
        rw [List.append_assoc] at whole
        exact (List.cons.inj (List.append_cancel_left whole)).1
      exact ⟨behind, by rw [first]⟩

theorem number_restricts {c : Char} (digit : c.isDigit = true) (cs : List Char) :
    Restricts (number false none c cs) (number true none c cs) := by
  have noMark := fun d mem =>
    isExponentMark_of_isDigit ((isWhole_takeWhile digit cs).digits d mem)
  simp only [number]
  split
  next others _ =>
    split
    · exact .same _
    · have places : ∀ d ∈ others.takeWhile Char.isDigit, isExponentMark d = false :=
        fun d mem => isExponentMark_of_isDigit (List.mem_takeWhile_imp mem)
      exact numberEnd_restricts _ (List.forall_mem_append.mpr
        ⟨noMark, List.forall_mem_cons.mpr ⟨rfl, places⟩⟩) _
  next => exact numberEnd_restricts _ noMark _

/-- The dialect matters for numbers alone. -/
theorem lexeme_restricts (c : Char) (cs : List Char) :
    Restricts (lexeme false none c cs) (lexeme true none c cs) := by
  cases digit : c.isDigit with
  | true =>
    rw [lexeme_digit digit, lexeme_digit digit]
    exact number_restricts digit cs
  | false =>
    have same : lexeme false none c cs = lexeme true none c cs := by
      simp only [lexeme, digit, Bool.false_eq_true, if_false]
    rw [same]
    exact .same _

end Scan

/-! ### All tokens of a text -/

/-- What the strict dialect makes of the tokens of a text: the same, or those before the first
decimal with an exponent, where it fails. The other dialect may fail in the same number. -/
inductive TokenStream.Restricts : TokenStream → TokenStream → Prop where
  | same {s : TokenStream} (plain : ∀ t ∈ s.tokens, t.value.hasExponent = false) : Restricts s s
  | refused {before after : List (Placed Token)} {t : Placed Token} {span : Span}
      {failure : Option (Placed LexicalError)}
      (plain : ∀ u ∈ before, u.value.hasExponent = false) (own : t.value.hasExponent = true)
      (start : span.start = t.span.start) :
      Restricts ⟨before ++ t :: after, failure⟩
        ⟨before, some ⟨.strictDecimal t.value.throughMark, span⟩⟩
  | wrong {before : List (Placed Token)} {e e' : Placed LexicalError}
      (plain : ∀ u ∈ before, u.value.hasExponent = false) :
      Restricts ⟨before, some e⟩ ⟨before, some e'⟩

namespace TokenStream.Restricts

theorem cons {s s' : TokenStream} (restricts : Restricts s s') {t : Placed Token}
    (plain : t.value.hasExponent = false) : Restricts (s.cons t) (s'.cons t) := by
  cases restricts with
  | same others => exact .same (List.forall_mem_cons.mpr ⟨plain, others⟩)
  | refused others own start => exact .refused (List.forall_mem_cons.mpr ⟨plain, others⟩) own start
  | wrong others => exact .wrong (List.forall_mem_cons.mpr ⟨plain, others⟩)

end TokenStream.Restricts

/-- Lexers of the two dialects go through a text side by side, wherever it stands. -/
theorem Lexer.Run.restricts {cs : List Char} {ts : List Token} {e : Option LexicalError}
    (run : Run false cs ts e) (location : Span) :
    TokenStream.Restricts (Lexer.mk ⟨cs, none⟩ false location false).stream
      (Lexer.mk ⟨cs, none⟩ true location false).stream := by
  induction run generalizing location with
  | last skipped =>
    rw [stream_of_end skipped, stream_of_end skipped]
    exact .same (List.forall_mem_cons.mpr ⟨rfl, List.forall_mem_nil _⟩)
  | @token _ gap behind w rest c t _ _ skipped read _ ih =>
    have restricts := Scan.lexeme_restricts c behind
    rw [stream_of_lexeme skipped read]
    rw [read] at restricts
    generalize strictly : Scan.lexeme true none c behind = scan at restricts
    cases restricts with
    | same =>
      obtain ⟨_, own, -⟩ := Scan.lexeme_ok strictly
      rw [stream_of_lexeme skipped strictly]
      exact (ih _).cons own.hasExponent_of_strict
    | refused noMark isMark begins =>
      obtain ⟨others, rfl⟩ := begins t rfl
      rw [stream_of_wrong skipped strictly, ← Token.throughMark_decimal noMark isMark]
      refine .refused (List.forall_mem_nil _) (Token.hasExponent_decimal isMark) ?_
      rw [Span.extend_start, Span.extend_start]
  | @error _ gap behind w rest c e skipped read =>
    have restricts := Scan.lexeme_restricts c behind
    rw [stream_of_wrong skipped read]
    rw [read] at restricts
    generalize strictly : Scan.lexeme true none c behind = scan at restricts
    cases restricts with
    | same =>
      rw [stream_of_wrong skipped strictly]
      exact .same (List.forall_mem_nil _)
    | refused _ _ _ =>
      rw [stream_of_wrong skipped strictly]
      exact .wrong (List.forall_mem_nil _)

/-- The two dialects in a text. -/
theorem Source.stream_restricts (text : String) :
    TokenStream.Restricts (Lexer.new (.ofText text) false).stream
      (Lexer.new (.ofText text) true).stream :=
  (Lexer.run_stream false text.toList (.point .origin)).restricts (.point .origin)

/-- No number that a strict lexer gives has a mark in it. -/
theorem Lexer.Run.hasMark_of_strict {cs : List Char} {ts : List Token} {e : Option LexicalError}
    (run : Run true cs ts e) :
    ∀ t ∈ ts, t.kind = .numeral ∨ t.kind = .decimal → t.hasMark = false := by
  generalize dialect : true = strict at run
  induction run with
  | last _ =>
    intro t mem number
    rw [List.mem_singleton.mp mem] at number ⊢
    rfl
  | token _ read _ ih =>
    subst dialect
    obtain ⟨_, own, -⟩ := Scan.lexeme_ok read
    exact List.forall_mem_cons.mpr ⟨own.hasMark_of_strict, ih⟩
  | error _ _ => exact List.forall_mem_nil _

end NetSpec
