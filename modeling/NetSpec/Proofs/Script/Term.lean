import Mathlib
import NetSpec.Script.Basic
import NetSpec.Script.Scope

/-!
# Induction on terms, and the names of a script

Arguments are terms in a list, so the induction that serves here asks for a property of an
application given the property of every argument. What a script says apart from its order is
the list of names that it declares, the list of terms that it asserts, and the names that
occur in either, in the order in which a walk meets them. Its order matters where names are
in scope only behind their declarations.
-/

namespace NetSpec

/-- A property of all terms: of literals, of names, and of an application whenever all of its
arguments have it. -/
@[elab_as_elim, induction_eliminator]
theorem Term.induction {motive : Term → Prop}
    (apply : ∀ function args, (∀ arg ∈ args, motive arg) → motive (.apply function args))
    (constant : ∀ value, motive (.constant value))
    (identifier : ∀ name, motive (.identifier name)) (t : Term) : motive t :=
  Term.rec (motive_1 := motive) (motive_2 := fun args => ∀ arg ∈ args, motive arg)
    apply constant identifier (fun _ absent => absurd absent List.not_mem_nil)
    (fun _ _ first others => List.forall_mem_cons.mpr ⟨first, others⟩) t

mutual

/-- The names in a term that stand alone, from left to right. -/
def Term.names : Term → List String
  | .apply _ args => Term.namesArgs args
  | .constant _ => []
  | .identifier name => [name]

def Term.namesArgs : List Term → List String
  | [] => []
  | arg :: args => Term.names arg ++ Term.namesArgs args

end

theorem Term.namesArgs_eq (args : List Term) : Term.namesArgs args = args.flatMap Term.names := by
  induction args with
  | nil => rfl
  | cons arg args ih => rw [Term.namesArgs, ih, List.flatMap_cons]

namespace Command

/-- The names that a command declares or uses. -/
def names : Command → List String
  | declareConst symbol _ => [symbol]
  | assert term => term.names

/-- The name that a command declares. -/
def declared? : Command → Option String
  | declareConst symbol _ => some symbol
  | assert _ => none

/-- The term that a command asserts. -/
def asserted? : Command → Option Term
  | declareConst _ _ => none
  | assert term => some term

/-- The scope behind a command. -/
def scope (before : Scope) : Command → Scope
  | declareConst symbol sort => before.declare symbol sort
  | assert _ => before

end Command

namespace Script

/-- The names of a script in the order of its commands. -/
def names (s : Script) : List String := s.commands.flatMap Command.names

/-- The names that a script declares. -/
def declared (s : Script) : List String := s.commands.filterMap Command.declared?

/-- The terms that a script asserts. -/
def asserted (s : Script) : List Term := s.commands.filterMap Command.asserted?

end Script

end NetSpec
