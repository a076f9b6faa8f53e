import NetSpec.Proofs.Compiler.Atomicity
import NetSpec.Proofs.Compiler.Keys
import NetSpec.Proofs.Property.Refusal

/-!
# The table of other names

A `Register` keeps the numbers of other names by name and the names by number, and enters a new
name in both. Each of the two tells the other, so a compiler does with one of them: it gives the
keys that the register gives, through any session.

Hence the table of a compiler lists the names that it has met and that are no components, in the
order in which it has met them first. The branches mention no numbers that are not listed, so the
variable that is not expected in a constraint has a name, and it is a name of the term that the
constraint comes from.
-/

namespace NetSpec

/-! ### Two tables -/

/-- The numbers of other names, and the names by their numbers. -/
structure Register where
  roles : Std.HashMap String Nat
  others : List String

namespace Register

def empty : Register := ⟨∅, []⟩

/-- Enter a name under the next number. -/
def insert (register : Register) (name : String) : Register :=
  ⟨register.roles.insert name register.others.length, register.others ++ [name]⟩

/-- The key of a name. A new name that is no component is entered. -/
def key (register : Register) (config : Configuration) (name : String) : Key × Register :=
  match config.component? name with
  | some key => (key, register)
  | none =>
    match register.roles[name]? with
    | some id => (.other id, register)
    | none => (.other register.others.length, register.insert name)

/-- Look up the keys of names, one after the other. -/
def meet (register : Register) (config : Configuration) (names : List String) : Register :=
  names.foldl (fun register name => (register.key config name).2) register

/-- Each table tells the other. -/
def Inverse (register : Register) : Prop :=
  ∀ (name : String) (id : Nat), register.roles[name]? = some id ↔ register.others[id]? = some name

theorem inverse_empty : empty.Inverse := by simp [Inverse, empty]

namespace Inverse

variable {register : Register} (inverse : register.Inverse)

include inverse

theorem insert {name : String} (absent : name ∉ register.others) :
    (register.insert name).Inverse := by
  intro name' id
  show (register.roles.insert name register.others.length)[name']? = some id ↔
    (register.others ++ [name])[id]? = some name'
  rw [Std.HashMap.getElem?_insert, List.getElem?_append]
  have listed : register.others[id]? = some name' → name' ∈ register.others := List.mem_of_getElem?
  by_cases same : name = name'
  · subst same
    rw [if_pos (beq_self_eq_true name)]
    split
    next inside =>
      have differ : register.others.length ≠ id := by omega
      simp [differ, mt listed absent]
    next outside =>
      rw [List.getElem?_singleton, Option.some_inj]
      split
      next first => simp; omega
      next later => simp; omega
  · rw [if_neg (by simpa using same), inverse]
    split
    next => rfl
    next outside =>
      rw [List.getElem?_eq_none (Nat.not_lt.mp outside), List.getElem?_singleton]
      split
      next => simp [same]
      next => rfl

variable {α : Type} {c : Compiler α}

/-- A compiler with the table of names gives the keys of the register. -/
theorem key (same : register.others = c.others) (name : String) :
    (register.key c.config name).1 = (c.key name).1 ∧
      (register.key c.config name).2.others = (c.key name).2.others ∧
      (register.key c.config name).2.Inverse := by
  unfold Register.key Compiler.key
  cases c.config.component? name with
  | some key => exact ⟨rfl, same, inverse⟩
  | none =>
    cases found : c.others.idxOf? name with
    | some id =>
      obtain ⟨inside, here, -⟩ := List.idxOf?_eq_some_iff.mp found
      have entered : register.roles[name]? = some id := by
        rw [inverse, same, List.getElem?_eq_some_iff]
        exact ⟨inside, here⟩
      simp only [entered]
      exact ⟨trivial, same, inverse⟩
    | none =>
      have absent : name ∉ register.others := same ▸ List.idxOf?_eq_none_iff.mp found
      have free : register.roles[name]? = none := by
        refine Option.eq_none_iff_forall_ne_some.mpr fun id entered => absent ?_
        exact List.mem_of_getElem? ((inverse name id).mp entered)
      simp only [free, same]
      exact ⟨trivial, congrArg (· ++ [name]) same, inverse.insert absent⟩

/-- Through all names that are met, the names by number are the table of a compiler. -/
theorem meet (config : Configuration) (names : List String) :
    (register.meet config names).others = config.noteAll register.others names ∧
      (register.meet config names).Inverse := by
  induction names generalizing register with
  | nil => exact ⟨rfl, inverse⟩
  | cons name names ih =>
    let c : Compiler Rat := ⟨config, 0, 0, register.others, .initial⟩
    obtain ⟨-, others, still⟩ := inverse.key (c := c) rfl name
    obtain ⟨later, last⟩ := ih still
    refine ⟨?_, last⟩
    rw [Compiler.key_eq] at others
    show (Register.meet (register.key config name).2 config names).others = _
    rw [later, others]
    rfl

end Inverse

end Register

namespace Configuration

variable (config : Configuration)

/-- A table lists names in the order in which they are met first. -/
theorem pairwise_noteAll (names : List String) :
    (config.noteAll [] names).Pairwise fun a b => names.idxOf a < names.idxOf b := by
  induction names using List.reverseRecOn with
  | nil => exact .nil
  | append_singleton names name ih =>
    have earlier {a : String} (listed : a ∈ config.noteAll [] names) :
        a ∈ names ∧ (names ++ [name]).idxOf a = names.idxOf a := by
      have met : a ∈ names := by
        simpa using (config.mem_noteAll.mp listed).resolve_left List.not_mem_nil |>.1
      exact ⟨met, List.idxOf_append_of_mem met⟩
    have before : (config.noteAll [] names).Pairwise fun a b =>
        (names ++ [name]).idxOf a < (names ++ [name]).idxOf b := by
      refine ih.imp_of_mem fun listed listed' below => ?_
      rwa [(earlier listed).2, (earlier listed').2]
    have noted : config.noteAll [] (names ++ [name]) = config.note (config.noteAll [] names) name :=
      List.foldl_concat ..
    rw [noted, note]
    split
    next => exact before
    next unknown =>
      obtain ⟨notComponent, unlisted⟩ := not_or.mp unknown
      have new : name ∉ names := fun met =>
        unlisted (config.mem_noteAll.mpr (.inr ⟨met, by simpa using notComponent⟩))
      refine List.pairwise_append.mpr
        ⟨before, List.pairwise_singleton _ _, fun a listed b here => ?_⟩
      obtain rfl := List.mem_singleton.mp here
      obtain ⟨met, place⟩ := earlier listed
      rw [place, List.idxOf_append_of_notMem new]
      exact Nat.lt_add_right _ (List.idxOf_lt_length_of_mem met)

end Configuration

/-! ### What the branches mention -/

namespace Branches

variable {α : Type} [Scalar α]

/-- Assembling stops at a constraint that is refused: all in front of it in its branch have roles,
and all branches in front of that one have been assembled. -/
inductive StopsAt (branches : Branches α) (dims : Dimensions) (e : CompileError α) :
    Atom α → Prop where
  | intro {earlier later : Disjunction α} {before after : Conjunction α} {atom : Atom α}
    (split : branches.rows = earlier ++ (before ++ atom :: after) :: later)
    (assembled : ∀ rows ∈ earlier, ∃ region?, Region.ofRows? rows dims = .ok region?)
    (playing : ∀ other ∈ before, ∃ role, other.role dims = .ok role)
    (refused : atom.role dims = .error e) : StopsAt branches dims e atom

theorem exists_stopsAt {branches : Branches α} {dims : Dimensions} {e : CompileError α}
    (failed : branches.properties dims = .error e) : ∃ atom, branches.StopsAt dims e atom := by
  have regions := Except.eq_error_of_bind failed fun _ => ⟨_, rfl⟩
  obtain ⟨earlier, rows, later, split, assembled, failed⟩ := Except.mapM_eq_error_iff.mp regions
  have roles := Except.eq_error_of_bind failed fun roles => by
    split
    · exact ⟨_, rfl⟩
    · exact ⟨_, rfl⟩
  obtain ⟨before, atom, after, rfl, playing, refused⟩ := Except.mapM_eq_error_iff.mp roles
  exact ⟨atom, .intro split assembled playing refused⟩

variable {branches : Branches α} {dims : Dimensions} {e : CompileError α} {atom : Atom α}

theorem StopsAt.refused (stops : branches.StopsAt dims e atom) : atom.role dims = .error e := by
  cases stops with
  | intro _ _ _ refused => exact refused

theorem StopsAt.exists_mem_rows (stops : branches.StopsAt dims e atom) :
    ∃ rows ∈ branches.rows, atom ∈ rows := by
  cases stops with
  | intro split _ _ _ => exact ⟨_, split ▸ List.mem_append_cons_self, List.mem_append_cons_self⟩

end Branches

/-- A variable that is not expected is one that the constraint mentions. -/
theorem Atom.exists_other_of_role {α : Type} [Scalar α] {atom : Atom α} {dims : Dimensions}
    {name : String} (refused : atom.role dims = .error (.unexpectedVariable name)) :
    ∃ id, atom.form.Mentions (.other id) ∧ name = dims.nameOf id := by
  rw [role_eq] at refused
  split at refused
  next id found =>
    have listed := List.mem_of_find?_eq_some found
    cases refused
    exact ⟨id, (LinearForm.mem_numbers Key.isKind_other).mp listed, rfl⟩
  next =>
    split at refused
    · cases refused
    · split at refused <;> cases refused
    · split at refused <;> cases refused
    · cases refused
    · cases refused

namespace Compiler

variable {α : Type}

/-- Looking up a name that is known changes nothing. -/
theorem key_of_knows {c : Compiler α} {name : String} (known : c.config.Knows c.others name) :
    c.key name = (c.config.keyIn c.others name, c) := by
  have silent : c.config.note c.others name = c.others := if_pos known
  rw [key_eq, silent, noting]
  show (_, { c with others := c.config.note c.others name }) = _
  rw [silent]

variable [Scalar α] {c c' : Compiler α} {terms : List Term} {e : CompileError α}

/-- A constraint mentions numbers of names in the term that it comes from. -/
theorem Asserts.exists_name {t : Term} {assertion : Assertion α} (asserts : c.Asserts t assertion)
    {atom : Atom α} (member : atom ∈ assertion.atoms) {id : Nat}
    (mentions : atom.form.Mentions (.other id)) :
    ∃ name ∈ t.names, c.others[id]? = some name ∧ c.key name = (.other id, c) := by
  let named (key : Key) : Prop := ∀ id, key = .other id →
    ∃ name ∈ t.names, c.others[id]? = some name ∧ c.key name = (.other id, c)
  have names : ∀ name ∈ t.names, named (c.config.keyIn c.others name) := by
    intro name inside id key
    have known := asserts.knows name inside
    exact ⟨name, inside, Configuration.getElem?_of_keyIn_other known key,
      key ▸ key_of_knows known⟩
  obtain ⟨coefficient, inForm⟩ := mentions
  have meets := t.assertion_meets (α := α) (P := named) nofun names
  exact meets.of_ok asserts.evaluated atom member _ inForm id rfl

/-- A term that has no value fails for another cause than constraints that cannot be assembled. -/
theorem isAssembly_of_eval {t : Term} (failed : eval t c = .error e c') : e.isAssembly = false := by
  have evaluated := result_eval t c List.prefix_rfl
  rw [result, failed] at evaluated
  exact (t.evaluate_meets (P := fun _ => True) trivial fun _ _ => trivial).of_error evaluated.symm

theorem isAssembly_of_command {k : Command} (failed : command k c = .error e c') :
    e.isAssembly = false := by
  cases k with
  | declareConst symbol sort => cases failed
  | assert t =>
    have walked := walk_assert t c List.prefix_rfl rfl
    split at walked
    next => cases walked.symm.trans failed
    next e' evaluated =>
      obtain ⟨met, stopped⟩ := walked
      cases stopped.symm.trans failed
      exact (t.assertion_meets (P := fun _ => True) trivial fun _ _ => trivial).of_error evaluated

/-- Finishing fails where the terms cannot be assembled. -/
theorem Holds.assembled (holds : c.Holds terms) {results : List Unit}
    (failed : handlers.script results c = .error e c') :
    ∃ assertions, List.Forall₂ c'.Asserts terms assertions ∧
      (Branches.ofAssertions assertions).properties c'.dimensions = .error e := by
  obtain ⟨assertions, asserted, made⟩ := holds
  rw [handlers_script] at failed
  cases outcome : c.branches.properties c.dimensions with
  | ok properties =>
    rw [outcome] at failed
    cases failed
  | error e' =>
    rw [outcome] at failed
    cases failed
    refine ⟨assertions, ?_, made ▸ outcome⟩
    exact asserted.imp fun _ _ asserts => asserts.extend rfl List.prefix_rfl

/-- A request that fails for constraints has terms to be assembled that cannot be. -/
theorem exists_assembled {request : Request} (holds : c.Holds terms)
    (failed : serve request c = .error e c') (assembly : e.isAssembly = true) :
    ∃ held assertions, List.Sublist held (terms ++ request.asserted) ∧
      List.Forall₂ c'.Asserts held assertions ∧
      (Branches.ofAssertions assertions).properties c'.dimensions = .error e := by
  cases request with
  | eval t =>
    have stopped := EStateM.eq_error_of_bind failed fun _ _ => ⟨_, _, rfl⟩
    cases (isAssembly_of_eval stopped).symm.trans assembly
  | command k =>
    have stopped := EStateM.eq_error_of_bind failed fun _ _ => ⟨_, _, rfl⟩
    cases (isAssembly_of_command stopped).symm.trans assembly
  | script s =>
    have stopped := EStateM.eq_error_of_bind failed fun _ _ => ⟨_, _, rfl⟩
    have run : script s c = (Script.walkCommands handlers s.commands >>= handlers.script) c := rfl
    obtain ⟨d, visited⟩ | ⟨before, t, after, d, e', met, -, -, ended, walked⟩ :=
      walkCommands_cases s.commands c
    · rw [run, EStateM.bind_of_ok visited] at stopped
      obtain ⟨held, among, corresponding⟩ := (Parallel.walkCommands s.commands (.refl holds)).left
      have behind : left (Script.walkCommands handlers s.commands) c = d := by rw [left, visited]
      rw [behind] at corresponding
      obtain ⟨assertions, asserted, assembled⟩ := corresponding.holds.assembled stopped
      exact ⟨held, assertions, among, asserted, assembled⟩
    · rw [run, EStateM.bind_of_error walked] at stopped
      cases stopped
      cases (isAssembly_of_command (k := .assert t) ended).symm.trans assembly
  | finish =>
    have stopped := EStateM.eq_error_of_bind failed fun _ _ => ⟨_, _, rfl⟩
    obtain ⟨assertions, asserted, assembled⟩ := holds.assembled stopped
    exact ⟨terms, assertions, List.sublist_append_left _ _, asserted, assembled⟩

/-! ### The table behind a session -/

/-- The table of a compiler that has met names: those that are no components, in the order in
which they are met first. A register that meets the names has the same table, another one that is
inverse to it, and the same keys. -/
structure HasTable (c : Compiler α) (met : List String) : Prop where
  nodup : c.others.Nodup
  mem_iff : ∀ name, name ∈ c.others ↔ name ∈ met ∧ c.config.component? name = none
  firstSight : c.others.Pairwise fun a b => met.idxOf a < met.idxOf b
  others : (Register.empty.meet c.config met).others = c.others
  inverse : (Register.empty.meet c.config met).Inverse
  keys : ∀ name, ((Register.empty.meet c.config met).key c.config name).1 = (c.key name).1

omit [Scalar α] in
/-- A compiler that has met names from the start has the table of these names. -/
theorem Noted.hasTable {config : Configuration} {met : List String}
    (noted : (new config : Compiler α).Noted met c) : c.HasTable met := by
  have same : c.config = config := noted.config
  have listed : c.others = config.noteAll [] met := noted.others
  obtain ⟨others, inverse⟩ := Register.inverse_empty.meet config met
  have agree : (Register.empty.meet config met).others = c.others := others.trans listed.symm
  subst same
  exact {
    nodup := listed ▸ c.config.nodup_noteAll .nil met
    mem_iff name := by simp [listed, c.config.mem_noteAll]
    firstSight := by
      rw [listed]
      exact c.config.pairwise_noteAll met
    others := agree
    inverse := inverse
    keys name := (inverse.key agree name).1 }

/-- Assembling terms stops at a constraint for a variable that is not expected. The name is that of
a variable which the constraint mentions, and stands in the term that the constraint comes from. -/
inductive Blames (c : Compiler α) (terms : List Term) (name : String) : Prop where
  | intro {assertions : List (Assertion α)} {t : Term} {assertion : Assertion α} {atom : Atom α}
    {id : Nat} (asserted : List.Forall₂ c.Asserts terms assertions)
    (stops :
      (Branches.ofAssertions assertions).StopsAt c.dimensions (.unexpectedVariable name) atom)
    (mentions : atom.form.Mentions (.other id)) (listed : c.others[id]? = some name)
    (key : c.key name = (.other id, c)) (member : t ∈ terms) (asserts : c.Asserts t assertion)
    (own : atom ∈ assertion.atoms) (inside : name ∈ t.names) : Blames c terms name

/-- Numbers in constraints of asserted terms are those of listed names. -/
theorem lt_length_others {assertions : List (Assertion α)}
    (asserted : List.Forall₂ c.Asserts terms assertions) {atom : Atom α}
    (member : ∃ assertion ∈ assertions, atom ∈ assertion.atoms) {id : Nat}
    (mentions : atom.form.Mentions (.other id)) : id < c.others.length := by
  obtain ⟨assertion, listed, own⟩ := member
  obtain ⟨t, -, asserts⟩ := exists_mem_of_forall₂ asserted.flip listed
  obtain ⟨name, -, number, -⟩ := asserts.exists_name own mentions
  exact (List.getElem?_eq_some_iff.mp number).1

/-- A variable that is not expected is one of the terms that are assembled. -/
theorem blames_of_assembled {assertions : List (Assertion α)} {name : String}
    (asserted : List.Forall₂ c.Asserts terms assertions)
    (failed : (Branches.ofAssertions assertions).properties c.dimensions =
      .error (.unexpectedVariable name)) : c.Blames terms name := by
  obtain ⟨atom, stops⟩ := Branches.exists_stopsAt failed
  obtain ⟨id, mentions, named⟩ := Atom.exists_other_of_role stops.refused
  obtain ⟨rows, branch, inRows⟩ := stops.exists_mem_rows
  obtain ⟨assertion, member, own⟩ := Branches.mem_atoms_of_mem_rows branch inRows
  obtain ⟨t, listed, asserts⟩ := exists_mem_of_forall₂ asserted.flip member
  obtain ⟨name', inside, number, key⟩ := asserts.exists_name own mentions
  have same : name = name' := by simp [named, Dimensions.nameOf, dimensions, number]
  subst same
  exact .intro asserted stops mentions number key listed asserts own inside

/-- The table of other names stays what it is through any session. Its names are no components, no
two are the same, and they have their numbers in the order in which the session meets them first;
numbers by name and names by number are inverse to each other, later requests only add names, and
all numbers in the branches are those of names. So if a request fails for a variable that is not
expected, then the message names a variable that stands in the terms which are assembled, and the
constraint at which assembling stops mentions its number. -/
theorem session_table (config : Configuration) (requests : List Request) :
    let c : Compiler α := session requests (new config)
    c.config = config ∧ (∃ met, Meets requests (new config : Compiler α) met ∧ c.HasTable met) ∧
    (∀ later : List Request, c.others <+: (session later c).others) ∧
    (∀ atom ∈ c.branches.common ++ c.branches.alternatives.flatten, ∀ id,
      atom.form.Mentions (.other id) → id < c.others.length) ∧
    ∀ request name c', serve request c = .error (.unexpectedVariable name) c' →
      ∃ held, held.Sublist ((requests ++ [request]).flatMap Request.asserted) ∧
        c'.Blames held name := by
  intro c
  obtain ⟨held, among, holds⟩ := exists_holds (α := α) config requests
  refine ⟨(reaches_session requests _).grows.1, ?_, fun later => (reaches_session later c).grows.2,
    ?_, ?_⟩
  · obtain ⟨met, meets, noted⟩ := exists_meets requests (new config : Compiler α)
    exact ⟨met, meets, noted.hasTable⟩
  · obtain ⟨assertions, asserted, made⟩ := holds
    intro atom member id mentions
    rw [made] at member
    refine lt_length_others asserted ?_ mentions
    rcases List.mem_append.mp member with common | chosen
    · exact Branches.mem_atoms_of_mem_common common
    · obtain ⟨rows, alternative, inRows⟩ := List.mem_flatten.mp chosen
      exact Branches.mem_atoms_of_mem_alternatives alternative inRows
  · intro request name c' failed
    obtain ⟨held', assertions, among', asserted, assembled⟩ := exists_assembled holds failed rfl
    refine ⟨held', among'.trans ?_, blames_of_assembled asserted assembled⟩
    rw [List.flatMap_append, List.flatMap_singleton]
    exact among.append_right _

/-- A comparison that fails behind a new name, and a bound on an output with another one. -/
def looseBound : List Request := [
  .command textBound,
  .command (.assert (.apply "<=" [
    .apply "+" [.identifier "Y_0", .identifier "eps"], .constant (.int 1)]))]

/-- The name that the first command has met keeps its number, and finishing fails for the other. -/
theorem session_table_looseBound :
    let c : Compiler Float := session looseBound (new {})
    ∃ c', serve .finish c = .error (.unexpectedVariable "eps") c' ∧ c.others = ["slack", "eps"] ∧
      (∃ met, Meets looseBound (new {} : Compiler Float) met ∧ c.HasTable met) ∧
      ∃ held, held.Sublist ((looseBound ++ [Request.finish]).flatMap Request.asserted) ∧
        c'.Blames held "eps" := by
  intro c
  have failed : serve .finish c = .error (.unexpectedVariable "eps") (left (serve .finish) c) := by
    rfl
  obtain ⟨-, table, -, -, blames⟩ := session_table (α := Float) {} looseBound
  exact ⟨_, failed, by decide +kernel, table, blames _ _ _ failed⟩

end Compiler

end NetSpec
