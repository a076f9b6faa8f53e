/-!
# Positions in a text

A position counts lines and columns from zero. Reading a character moves it by the
rules of `Position.next`, so the position after a text depends on its characters only,
and reading two texts in turn is reading their concatenation.

A `Span` follows a reader: it keeps where the current piece began, where its last
character stands and where it stops. `Span.clear` starts a new piece at the current
stop without reading anything.
-/

namespace NetSpec

/-- A place between two characters of a text; both counts start at zero. -/
structure Position where
  line : Nat
  column : Nat
deriving DecidableEq, Repr

/-- Control characters are the code points below the space and those from `7F` to `9F`. -/
def isControl (c : Char) : Bool :=
  c.toNat < 0x20 || (0x7F ≤ c.toNat && c.toNat < 0xA0)

namespace Position

/-- The place before the first character. -/
def origin : Position := ⟨0, 0⟩

/-- The place after one more character. A tabulation goes to the next multiple of eight,
a carriage return to the start of the line, and other control characters take no room. -/
def next (p : Position) (c : Char) : Position :=
  if c = '\n' then ⟨p.line + 1, 0⟩
  else if c = '\r' then ⟨p.line, 0⟩
  else if c = '\t' then ⟨p.line, p.column / 8 * 8 + 8⟩
  else if isControl c then p
  else ⟨p.line, p.column + 1⟩

/-- The place after a piece of text. -/
def advance (p : Position) (cs : List Char) : Position :=
  cs.foldl next p

@[simp] theorem advance_nil (p : Position) : p.advance [] = p := rfl

@[simp] theorem advance_cons (p : Position) (c : Char) (cs : List Char) :
    p.advance (c :: cs) = (p.next c).advance cs := rfl

@[simp] theorem advance_append (p : Position) (cs ds : List Char) :
    p.advance (cs ++ ds) = (p.advance cs).advance ds :=
  List.foldl_append

/-- Readers count from one. -/
def text (p : Position) : String :=
  s!"line {p.line + 1} column {p.column + 1}"

end Position

/-- A piece of text: where it starts, where its last character stands and where it stops. -/
structure Span where
  start : Position
  last : Position
  stop : Position
deriving DecidableEq, Repr

namespace Span

/-- The empty piece at a place. -/
def point (p : Position) : Span := ⟨p, p, p⟩

/-- Extend the piece by one character. -/
def push (s : Span) (c : Char) : Span :=
  { s with last := s.stop, stop := s.stop.next c }

/-- Extend the piece by several characters. -/
def extend (s : Span) (cs : List Char) : Span :=
  cs.foldl push s

/-- Start a new piece where this one stops. -/
def clear (s : Span) : Span := point s.stop

@[simp] theorem extend_nil (s : Span) : s.extend [] = s := rfl

@[simp] theorem extend_append (s : Span) (cs ds : List Char) :
    s.extend (cs ++ ds) = (s.extend cs).extend ds :=
  List.foldl_append

@[simp] theorem extend_start (s : Span) (cs : List Char) : (s.extend cs).start = s.start := by
  induction cs generalizing s with
  | nil => rfl
  | cons c cs ih => exact ih (s.push c)

@[simp] theorem extend_stop (s : Span) (cs : List Char) :
    (s.extend cs).stop = s.stop.advance cs := by
  induction cs generalizing s with
  | nil => rfl
  | cons c cs ih => exact ih (s.push c)

theorem extend_last_concat (s : Span) (cs : List Char) (c : Char) :
    (s.extend (cs ++ [c])).last = s.stop.advance cs := by
  rw [extend_append]
  exact extend_stop s cs

end Span

/-- A value together with the piece of text that it was read from. -/
structure Placed (α : Type) where
  value : α
  span : Span
deriving DecidableEq, Repr

/-- Replace the value and keep its place. -/
def Placed.map {α β : Type} (f : α → β) (x : Placed α) : Placed β :=
  ⟨f x.value, x.span⟩

end NetSpec
