import NetSpec.Proofs.Compiler.Component
import NetSpec.Proofs.Compiler.Evaluation

/-!
# States that a compiler goes through

A compiler goes from state to state as its handlers work, and a handler that fails leaves a state
behind as well. `Step` has one case for each handler, and `Reaches` is any number of steps. So a
state is reached by terms, commands and scripts in any order, whether they succeed or not;
`moves_script` and the lemmas in front of it say that every walk is made of steps.

`Step.cases` lists what one step can do. The configuration stays and the table of other names only
grows, hence a key that has been given to a name is its key for good. Two names share their key
only if they are spellings of one component.
-/

namespace NetSpec

namespace Compiler

variable {α : Type}

/-- The state that a run leaves, whether it succeeds or fails. -/
def left {β : Type} (run : M α β) (c : Compiler α) : Compiler α :=
  match run c with
  | .ok _ c' => c'
  | .error _ c' => c'

@[simp] theorem left_ofExcept {β : Type} (result : Except (CompileError α) β) (c : Compiler α) :
    left (ofExcept result) c = c := by
  cases result <;> rfl

variable [Scalar α]

/-- One handler works. -/
inductive Step (c : Compiler α) : Compiler α → Prop where
  | constant (value : Constant) : Step c (left (handlers.constant value) c)
  | identifier (name : String) : Step c (left (handlers.identifier name) c)
  | apply (function : String) (args : List (Value α)) :
    Step c (left (handlers.apply function args) c)
  | declareConst (symbol sort : String) : Step c (left (handlers.declareConst symbol sort) c)
  | assert (value : Value α) : Step c (left (handlers.assert value) c)
  | script (results : List Unit) : Step c (left (handlers.script results) c)

/-- Any number of handlers work. -/
def Reaches : Compiler α → Compiler α → Prop := Relation.ReflTransGen Step

theorem left_identifier (name : String) (c : Compiler α) :
    left (handlers.identifier name) c = c.noting [name] := by
  show (c.key name).2 = c.noting [name]
  rw [key_eq]

theorem left_assert (value : Value α) (c : Compiler α) :
    left (handlers.assert value) c = c ∨ c.assert value = .ok (left (handlers.assert value) c) := by
  cases value with
  | expression form => exact .inl rfl
  | atom a => exact .inr rfl
  | conjunction rows => exact .inr rfl
  | disjunction alternatives => exact .inr rfl

theorem left_script (results : List Unit) (c : Compiler α) :
    left (handlers.script results) c = c.reset := by
  rw [left, handlers_script]
  cases c.branches.properties c.dimensions <;> rfl

/-- A step does nothing, notes a name, declares a name, asserts a value or starts anew. -/
theorem Step.cases {c c' : Compiler α} (step : Step c c') :
    c' = c ∨ (∃ name, c' = c.noting [name]) ∨ (∃ name, c' = c.declare name) ∨
      (∃ value, c.assert value = .ok c') ∨ c' = c.reset := by
  cases step with
  | constant value => exact .inl (left_ofExcept _ c)
  | identifier name => exact .inr (.inl ⟨name, left_identifier name c⟩)
  | apply function args => exact .inl (left_ofExcept _ c)
  | declareConst symbol sort => exact .inr (.inr (.inl ⟨symbol, rfl⟩))
  | assert value =>
    refine (left_assert value c).imp id fun asserted => ?_
    exact .inr (.inr (.inl ⟨value, asserted⟩))
  | script results => exact .inr (.inr (.inr (.inr (left_script results c))))

omit [Scalar α] in
/-- An assertion changes the branches alone. -/
theorem eq_of_assert {c c' : Compiler α} {value : Value α} (asserted : c.assert value = .ok c') :
    c' = { c with branches := c'.branches } := by
  cases value with
  | expression form => cases asserted
  | atom a => exact (Except.ok.inj asserted) ▸ rfl
  | conjunction rows => exact (Except.ok.inj asserted) ▸ rfl
  | disjunction alternatives => exact (Except.ok.inj asserted) ▸ rfl

/-- The configuration stays, and the table of other names is extended. -/
theorem Step.grows {c c' : Compiler α} (step : Step c c') :
    c'.config = c.config ∧ c.others <+: c'.others := by
  obtain rfl | ⟨name, rfl⟩ | ⟨name, rfl⟩ | ⟨value, asserted⟩ | rfl := step.cases
  · exact ⟨rfl, List.prefix_rfl⟩
  · exact ⟨rfl, c.config.prefix_note c.others name⟩
  · rw [declare_eq]
    exact ⟨rfl, c.config.prefix_note c.others name⟩
  · rw [eq_of_assert asserted]
    exact ⟨rfl, List.prefix_rfl⟩
  · exact ⟨rfl, List.prefix_rfl⟩

namespace Reaches

theorem refl (c : Compiler α) : c.Reaches c := Relation.ReflTransGen.refl

theorem trans {c c' c'' : Compiler α} (first : c.Reaches c') (second : c'.Reaches c'') :
    c.Reaches c'' := Relation.ReflTransGen.trans first second

theorem of_step {c c' : Compiler α} (step : Step c c') : c.Reaches c' :=
  Relation.ReflTransGen.single step

/-- The table of other names is never changed, only extended. -/
theorem grows {c c' : Compiler α} (reaches : c.Reaches c') :
    c'.config = c.config ∧ c.others <+: c'.others := by
  induction reaches with
  | refl => exact ⟨rfl, List.prefix_rfl⟩
  | tail _ step ih =>
    obtain ⟨sameBefore, extendedBefore⟩ := ih
    obtain ⟨same, extended⟩ := step.grows
    exact ⟨same.trans sameBefore, extendedBefore.trans extended⟩

end Reaches

/-- A run made of steps. -/
def Moves {β : Type} (run : M α β) : Prop := ∀ c : Compiler α, c.Reaches (left run c)

namespace Moves

theorem bind {β γ : Type} {run : M α β} {next : β → M α γ} (first : Moves run)
    (second : ∀ value, Moves (next value)) : Moves (run >>= next) := by
  intro c
  have before := first c
  simp only [left] at before ⊢
  cases outcome : run c with
  | ok value c' =>
    rw [outcome] at before
    rw [EStateM.bind_of_ok outcome]
    exact before.trans (second value c')
  | error e c' =>
    rw [outcome] at before
    rw [EStateM.bind_of_error outcome]
    exact before

theorem pure {β : Type} (value : β) : Moves (Pure.pure value : M α β) := fun c => .refl c

end Moves

/-- Evaluating a term goes through steps. -/
theorem moves_eval (t : Term) : Moves (eval t : M α (Value α)) := by
  induction t with
  | constant value => exact fun c => .of_step (.constant value)
  | identifier name => exact fun c => .of_step (.identifier name)
  | apply function args ih =>
    have results : Moves (Term.walkArgs handlers args : M α (List (Value α))) := by
      induction args with
      | nil => exact .pure []
      | cons arg args others =>
        refine Moves.bind (ih arg List.mem_cons_self) fun value => ?_
        have behind : Moves (Term.walkArgs handlers args : M α (List (Value α))) :=
          others fun arg mem => ih arg (List.mem_cons_of_mem _ mem)
        exact behind.bind fun values => .pure (value :: values)
    exact results.bind fun values c => .of_step (.apply function values)

theorem moves_command (command : Command) :
    Moves (Compiler.command command : M α (Option Unit)) := by
  cases command with
  | declareConst symbol sort => exact fun c => .of_step (.declareConst symbol sort)
  | assert t => exact (moves_eval t).bind fun value c => .of_step (.assert value)

theorem moves_walkCommands (commands : List Command) :
    Moves (Script.walkCommands handlers commands : M α (List Unit)) := by
  induction commands with
  | nil => exact .pure []
  | cons command commands ih =>
    refine Moves.bind (moves_command command) fun result => ?_
    exact ih.bind fun results => .pure (result.toList ++ results)

/-- A whole script goes through steps, whether it fails or not. -/
theorem moves_script (s : Script) : Moves (script s : M α (List (Property α))) :=
  (moves_walkCommands s.commands).bind fun results _ => .of_step (.script results)

end Compiler

namespace Configuration

variable (config : Configuration)

theorem ne_other_of_component? {name : String} {key : Key}
    (found : config.component? name = some key) (id : Nat) : key ≠ .other id := by
  obtain ⟨i, -, rfl⟩ | ⟨j, -, -, rfl⟩ := component?_cases found
  · exact nofun
  · exact nofun

/-- Known names have the same key only if they are the same or spell the same component. -/
theorem keyIn_eq_iff {others : List String} {a b : String} (knownA : config.Knows others a)
    (knownB : config.Knows others b) :
    config.keyIn others a = config.keyIn others b ↔ a = b ∨ config.SameComponent a b := by
  simp only [sameComponent_iff, Knows, keyIn] at knownA knownB ⊢
  cases foundA : config.component? a with
  | some key =>
    cases foundB : config.component? b with
    | some key' =>
      have same : a = b → key = key' := by
        rintro rfl
        exact Option.some.inj (foundA.symm.trans foundB)
      simpa using same
    | none =>
      have differ : a ≠ b := by
        rintro rfl
        cases foundA.symm.trans foundB
      simp [differ, config.ne_other_of_component? foundA]
  | none =>
    cases foundB : config.component? b with
    | some key' =>
      have differ : a ≠ b := by
        rintro rfl
        cases foundA.symm.trans foundB
      simp [differ, (config.ne_other_of_component? foundB _).symm]
    | none =>
      have listed : a ∈ others := by simpa [foundA] using knownA
      simp [List.idxOf_inj listed]

end Configuration

namespace Compiler

variable {α : Type} [Scalar α]

/-- The key of a name is looked up once and is never another one later: two names have the same
key at two moments of a run only if they are the same or spell the same component. The same holds
of the keys that a script is compiled with. -/
theorem key_eq_key_iff (config : Configuration) :
    (∀ (c c' : Compiler α) (a b : String), c.config = config → (c.key a).2.Reaches c' →
      ((c.key a).1 = (c'.key b).1 ↔ a = b ∨ config.SameComponent a b)) ∧
    ∀ s : Script, ∀ a ∈ s.names, ∀ b ∈ s.names,
      (s.keyOf config a = s.keyOf config b ↔ a = b ∨ config.SameComponent a b) := by
  constructor
  · rintro c c' a b rfl later
    obtain ⟨same, extended⟩ := later.grows
    rw [key_eq] at same extended
    -- The table that `b` is looked up in extends the one that has the number of `a`.
    have noted : c.config.Knows (c.config.note c.others a) a := c.config.knows_note c.others a
    have kept : c.config.note c.others a <+: c.config.note c'.others b :=
      extended.trans (c.config.prefix_note c'.others b)
    have still : c.config.Knows (c.config.note c'.others b) a := noted.imp id kept.mem
    rw [key_eq, key_eq, show c'.config = c.config from same,
      ← c.config.keyIn_of_prefix noted kept]
    exact c.config.keyIn_eq_iff still (c.config.knows_note c'.others b)
  · intro s a memA b memB
    have known {name : String} (mem : name ∈ s.names) : config.Knows (s.others config) name :=
      config.knows_noteAll mem []
    exact config.keyIn_eq_iff (known memA) (known memB)

/-- Behind the first name there is a second one, and both have numbers of their own; so have two
indices of which one begins the other. -/
theorem key_eps_ne_key_delta :
    ((new {} : Compiler Float).key "eps").1 ≠
      (((new {} : Compiler Float).key "eps").2.key "delta").1 ∧
    (⟨[.declareConst "X_1" "Real", .declareConst "X_10" "Real"]⟩ : Script).keyOf {} "X_1" ≠
      (⟨[.declareConst "X_1" "Real", .declareConst "X_10" "Real"]⟩ : Script).keyOf {} "X_10" := by
  obtain ⟨run, compiled⟩ := key_eq_key_iff (α := Float) {}
  constructor
  · exact mt (run (new {}) _ "eps" "delta" rfl (.refl _)).mp (by decide)
  · exact mt (compiled _ "X_1" (by decide) "X_10" (by decide)).mp (by decide)

/-- A zero in front of an index makes another name of the same component. -/
theorem key_leading_zero : "X_0" ≠ "X_00" ∧
    ((new {} : Compiler Float).key "X_0").1 = ((new {} : Compiler Float).key "X_00").1 ∧
    ((new {} : Compiler Float).key "X_0").1 = ((new {} : Compiler Float).key "X_+0").1 := by
  decide

end Compiler

end NetSpec
