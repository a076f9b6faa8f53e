/-!
# Sources of characters

A source is what a reader can get before it stops: a list of characters, followed
either by the end of the text or by a failure to read further. Characters before a
failure are as good as any others; only a reader that looks past the last of them
meets the failure.

`Source.ofBytes` decodes UTF-8 with the usual lead and continuation bytes. It checks the
shape of a sequence and that its value is a character. It does not ask for the shortest
form, so several sequences may stand for one character.
-/

namespace NetSpec

/-- Why reading stopped before the end. -/
inductive ReadErrorKind where
  | invalidData
  | unexpectedEnd
  | notFound
  | other
deriving DecidableEq, Repr

/-- A failure to read, with its text as the reader gave it. -/
structure ReadError where
  kind : ReadErrorKind
  text : String
deriving DecidableEq, Repr

namespace ReadError

/-- A byte that cannot stand at its place, or a value that is no character. -/
def invalidSequence : ReadError := ⟨.invalidData, "invalid UTF-8 sequence."⟩

/-- The bytes end inside a sequence. -/
def truncatedSequence : ReadError := ⟨.unexpectedEnd, "unexpected end of UTF-8 sequence."⟩

/-- There is no file of that name. -/
def missingFile : ReadError := ⟨.notFound, "No such file or directory (os error 2)"⟩

end ReadError

/-- Characters, and what stands after them: `none` is the end of the text. -/
structure Source where
  chars : List Char
  failure : Option ReadError
deriving DecidableEq, Repr

namespace Source

/-- A text in memory can always be read to its end. -/
def ofText (s : String) : Source := ⟨s.toList, none⟩

/-- One more character in front. -/
def cons (c : Char) (s : Source) : Source := { s with chars := c :: s.chars }

end Source

namespace Utf8

/-- What a first byte says: the bits that it holds, and how many continuation bytes follow. -/
def lead (b : UInt8) : Option (Nat × Nat) :=
  let n := b.toNat
  if n < 0x80 then some (n, 0)
  else if n < 0xC0 then none
  else if n < 0xE0 then some (n - 0xC0, 1)
  else if n < 0xF0 then some (n - 0xE0, 2)
  else if n < 0xF8 then some (n - 0xF0, 3)
  else none

/-- The six bits of a continuation byte. -/
def continuation (b : UInt8) : Option Nat :=
  if 0x80 ≤ b.toNat ∧ b.toNat < 0xC0 then some (b.toNat - 0x80) else none

/-- The character of a code point; surrogates and values that are too large have none. -/
def scalar (n : Nat) : Option Char :=
  if h : n.isValidChar then some (Char.ofNatAux n h) else none

end Utf8

namespace Source

/-- Decode bytes that are followed by `failure`, or by the end. `value` and `pending` hold the
bits read and the continuation bytes still due of the sequence begun; between sequences
`pending` is zero. -/
def decode (failure : Option ReadError) (value pending : Nat) : List UInt8 → Source
  | [] =>
    if pending = 0 then ⟨[], failure⟩
    else ⟨[], some (failure.getD .truncatedSequence)⟩
  | b :: bytes =>
    let sequence := if pending = 0 then Utf8.lead b
      else (Utf8.continuation b).map fun bits => (value * 64 + bits, pending - 1)
    match sequence with
    | none => ⟨[], some .invalidSequence⟩
    | some (value, 0) =>
      match Utf8.scalar value with
      | none => ⟨[], some .invalidSequence⟩
      | some c => (decode failure 0 0 bytes).cons c
    | some (value, pending + 1) => decode failure value (pending + 1) bytes

/-- The characters that bytes stand for; `failure` is what the reader meets after the last byte. -/
def ofBytes (bytes : List UInt8) (failure : Option ReadError) : Source :=
  decode failure 0 0 bytes

end Source

end NetSpec
