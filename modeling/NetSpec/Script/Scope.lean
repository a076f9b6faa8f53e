/-!
# Names in scope

Functions and two constants are built in; the sorts are a closed set. A declaration adds a
name to the scope, may take the name of something built in, and replaces an earlier
declaration of the same name.
-/

namespace NetSpec

/-- What is built in, with a signature that informs and is never checked. -/
structure Builtin where
  name : String
  signature : String
deriving DecidableEq, Repr

/-- Everything that is built in: arithmetic, comparisons and logic. -/
def builtins : List Builtin := [
  ⟨"+", "(A A) A"⟩,
  ⟨"-", "(A A) A"⟩,
  ⟨"*", "(A A) A"⟩,
  ⟨"/", "(A A) A"⟩,
  ⟨">", "(A A) Bool"⟩,
  ⟨">=", "(A A) Bool"⟩,
  ⟨"<", "(A A) Bool"⟩,
  ⟨"<=", "(A A) Bool"⟩,
  ⟨"=", "(A A) Bool"⟩,
  ⟨"true", "Bool"⟩,
  ⟨"false", "Bool"⟩,
  ⟨"not", "(Bool Bool)"⟩,
  ⟨"=>", "(Bool Bool) Bool"⟩,
  ⟨"or", "(Bool Bool) Bool"⟩,
  ⟨"and", "(Bool Bool) Bool"⟩,
  ⟨"xor", "(Bool Bool) Bool"⟩,
  ⟨"ite", "(Bool A A) A"⟩]

/-- The sorts that a declaration may name. -/
def sorts : List String := ["Bool", "Int", "Real"]

/-- What is built in under a name. -/
def builtin? (name : String) : Option Builtin :=
  builtins.find? (·.name == name)

/-- A sort by its name. -/
def sort? (name : String) : Option String :=
  sorts.find? (· == name)

/-- The declarations in scope, the latest first. -/
structure Scope where
  declared : List (String × String)
deriving DecidableEq, Repr

namespace Scope

def empty : Scope := ⟨[]⟩

/-- The sort that a name was last declared with. -/
def sortOf? (scope : Scope) (name : String) : Option String :=
  scope.declared.lookup name

/-- Declare a name; the declaration hides earlier ones of the name. -/
def declare (scope : Scope) (name sort : String) : Scope :=
  ⟨(name, sort) :: scope.declared⟩

/-- A name that a term may use: a declared or a built-in one. -/
def contains (scope : Scope) (name : String) : Bool :=
  (scope.sortOf? name).isSome || (builtin? name).isSome

theorem sortOf?_declare (scope : Scope) (name sort other : String) :
    (scope.declare name sort).sortOf? other =
      if other = name then some sort else scope.sortOf? other := by
  by_cases h : other = name
  · simp [declare, sortOf?, h]
  · have differs : (other == name) = false := by simpa using h
    simp [declare, sortOf?, List.lookup_cons, h, differs]

theorem contains_declare (scope : Scope) (name sort other : String) :
    (scope.declare name sort).contains other = (decide (other = name) || scope.contains other) := by
  by_cases h : other = name <;> simp [contains, sortOf?_declare, h]

end Scope

end NetSpec
