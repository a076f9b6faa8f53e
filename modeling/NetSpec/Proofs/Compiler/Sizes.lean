import NetSpec.Proofs.Compiler.Keys
import NetSpec.Proofs.Compiler.Runs
import NetSpec.Proofs.Script.RoundTrip

/-!
# Sizes that are found

A vector whose size is not given gets the size that the declared names need: one more than the
greatest index among them. Sizes only grow in a run, so what is inside the vectors at some moment
is inside them at the end.

A parsed script uses a name only behind its declaration, unless the name is built in, and nothing
built in is named like a component. So every component in a constraint has been declared before,
and none is out of range.
-/

namespace NetSpec

/-- One more than the greatest number in use, or zero if none is. -/
structure IsSizeOf (used : Nat → Prop) (size : Nat) : Prop where
  above : ∀ i, used i → i < size
  reached : size = 0 ∨ ∃ i, used i ∧ size = i + 1

theorem IsSizeOf.congr {used used' : Nat → Prop} {size : Nat} (isSize : IsSizeOf used size)
    (same : ∀ i, used i ↔ used' i) : IsSizeOf used' size :=
  (funext fun i => propext (same i) : used = used') ▸ isSize

/-- A further number in use. -/
theorem IsSizeOf.or {used : Nat → Prop} {size : Nat} (isSize : IsSizeOf used size) (i : Nat) :
    IsSizeOf (fun j => used j ∨ j = i) (max size (i + 1)) where
  above := by
    rintro j (before | rfl)
    · exact lt_max_of_lt_left (isSize.above j before)
    · exact lt_max_of_lt_right (Nat.lt_succ_self j)
  reached := by
    right
    by_cases larger : i + 1 ≤ size
    · obtain zero | ⟨j, own, same⟩ := isSize.reached
      · omega
      · exact ⟨j, .inl own, by omega⟩
    · exact ⟨i, .inr rfl, by omega⟩

namespace Configuration

variable (config : Configuration)

/-- The sizes are those that names need. -/
structure Fits (config : Configuration) (declared : List String) (dims : Dimensions) : Prop where
  input : IsSizeOf (fun i => ∃ name ∈ declared, config.component? name = some (.input i))
    dims.inputSize
  output : IsSizeOf (fun j => ∃ name ∈ declared, config.component? name = some (.output j))
    dims.outputSize

theorem isSizeOf_foldl (index? : Key → Option Nat) (names : List String) :
    IsSizeOf (fun i => ∃ name ∈ names, (config.component? name).bind index? = some i)
      (names.foldl (config.sizeWith none index?) 0) := by
  induction names using List.reverseRecOn with
  | nil => exact ⟨by simp, .inl rfl⟩
  | append_singleton names last ih =>
    rw [List.foldl_concat]
    cases found : (config.component? last).bind index? with
    | none =>
      have same (size : Nat) : config.sizeWith none index? size last = size := by
        simp [sizeWith, found]
      rw [same]
      exact ih.congr fun i => by simp [or_and_right, exists_or, found]
    | some i =>
      have larger (size : Nat) : config.sizeWith none index? size last = max size (i + 1) := by
        simp [sizeWith, found]
      rw [larger]
      exact (ih.or i).congr fun j => by simp [or_and_right, exists_or, found, eq_comm]

/-- Sizes that are not given come to fit the declared names. -/
theorem fits_of_inferred (inputs : config.inputSize = none) (outputs : config.outputSize = none)
    (declared others : List String) :
    config.Fits declared
      ⟨config.inputSizeOf (config.inputSize.getD 0) declared,
        config.outputSizeOf (config.outputSize.getD 0) declared, others⟩ := by
  have isSize {index? : Key → Option Nat} {component : Nat → Key}
      (reads : ∀ key i, index? key = some i ↔ key = component i) :
      IsSizeOf (fun i => ∃ name ∈ declared, config.component? name = some (component i))
        (declared.foldl (config.sizeWith none index?) 0) :=
    (config.isSizeOf_foldl index? declared).congr fun i => by
      simp [Option.bind_eq_some_iff, reads]
  constructor
  · rw [inputSizeOf, inputs]
    exact isSize fun key i => by cases key <;> simp [Key.inputIndex?]
  · rw [outputSizeOf, outputs]
    exact isSize fun key j => by cases key <;> simp [Key.outputIndex?]

/-- Nothing built in is named like a component. -/
theorem component?_of_builtin {name : String} (builtin : (builtin? name).isSome) :
    config.component? name = none := by
  obtain ⟨entry, found⟩ := Option.isSome_iff_exists.mp builtin
  have listed : entry ∈ builtins := List.mem_of_find?_eq_some found
  have same : entry.name = name := by simpa using List.find?_some found
  have plain : ∀ entry ∈ builtins, '_' ∉ entry.name.toList := by decide
  cases component : config.component? name with
  | none => rfl
  | some key =>
    have underscore := config.underscore_mem_of_component? component
    rw [← same] at underscore
    exact absurd underscore (plain entry listed)

variable {config} {declared : List String} {dims dims' : Dimensions}

/-- The key of a name that is declared or built in is inside the vectors. -/
theorem Fits.covers (fits : config.Fits declared dims) {name : String}
    (known : name ∈ declared ∨ (builtin? name).isSome) (others : List String) :
    dims.Covers (config.keyIn others name) := by
  rw [keyIn]
  cases component : config.component? name with
  | none => trivial
  | some key =>
    have mem : name ∈ declared := by
      refine known.resolve_right fun builtin => ?_
      cases component.symm.trans (config.component?_of_builtin builtin)
    obtain ⟨i, -, rfl⟩ | ⟨j, -, -, rfl⟩ := component?_cases component
    · exact fits.input.above i ⟨name, mem, component⟩
    · exact fits.output.above j ⟨name, mem, component⟩

/-- Sizes stay in the range of indices unless the last index is used. -/
theorem Fits.lt_indexLimit (fits : config.Fits declared dims)
    (bounded : ∀ name ∈ declared, ∀ vector ∈ [config.inputName, config.outputName],
      ¬ WritesIndex vector (indexLimit - 1) name) :
    dims.inputSize < indexLimit ∧ dims.outputSize < indexLimit := by
  have limit : 0 < indexLimit := by decide
  have bound {vector name : String} {i : Nat} (mem : name ∈ declared)
      (listed : vector ∈ [config.inputName, config.outputName])
      (writes : WritesIndex vector i name) : i + 1 < indexLimit := by
    have small : i < indexLimit := writes.1
    have notLast : i ≠ indexLimit - 1 := by
      rintro rfl
      exact bounded name mem vector listed writes
    omega
  constructor
  · obtain zero | ⟨i, ⟨name, mem, found⟩, same⟩ := fits.input.reached
    · omega
    · rw [same]
      exact bound mem List.mem_cons_self (config.component?_eq_input_iff.mp found)
  · obtain zero | ⟨j, ⟨name, mem, found⟩, same⟩ := fits.output.reached
    · omega
    · rw [same]
      exact bound mem (by simp) (config.component?_eq_output_iff.mp found).1

end Configuration

/-! ### Names in scope -/

/-- A term is a part of another one. -/
inductive Term.IsPart (t : Term) : Term → Prop where
  | whole : IsPart t t
  | argument {function : String} {args : List Term} {arg : Term} (mem : arg ∈ args)
      (inside : IsPart t arg) : IsPart t (.apply function args)

theorem Term.IsPart.names_subset {t whole : Term} (part : t.IsPart whole) :
    t.names ⊆ whole.names := by
  induction part with
  | whole => exact List.Subset.refl _
  | argument mem _ ih =>
    intro name inside
    rw [Term.names, Term.namesArgs_eq]
    exact List.mem_flatMap.mpr ⟨_, mem, ih inside⟩

theorem Command.assert_mem_of_asserted {commands : List Command} {t : Term}
    (asserted : t ∈ commands.filterMap Command.asserted?) : .assert t ∈ commands := by
  obtain ⟨command, listed, same⟩ := List.mem_filterMap.mp asserted
  cases command with
  | declareConst _ _ => cases same
  | assert _ => exact Option.some.inj same ▸ listed

/-- The names of a readable term are in scope. -/
theorem Term.contains_of_readable {scope : Scope} {t : Term} (readable : t.Readable scope) :
    ∀ name ∈ t.names, scope.contains name = true := by
  induction t with
  | constant _ => exact List.forall_mem_nil _
  | identifier name => exact List.forall_mem_singleton.mpr readable
  | apply function args ih =>
    intro name mem
    rw [Term.names, Term.namesArgs_eq] at mem
    obtain ⟨arg, listed, inside⟩ := List.mem_flatMap.mp mem
    exact ih arg listed (allReadable_iff.mp readable.2.2 arg listed) name inside

namespace Script

theorem AllReadable.of_append {scope : Scope} {before after : List Command}
    (readable : AllReadable scope (before ++ after)) : AllReadable scope before := by
  induction before generalizing scope with
  | nil => trivial
  | cons command before ih => exact ⟨readable.1, ih readable.2⟩

/-- Readable commands assert terms over names that they declare or that were in scope. -/
theorem AllReadable.declared_or_contains {scope : Scope} {commands : List Command}
    (readable : AllReadable scope commands) {t : Term} (asserted : .assert t ∈ commands)
    {name : String} (inside : name ∈ t.names) :
    name ∈ commands.filterMap Command.declared? ∨ scope.contains name = true := by
  induction commands generalizing scope with
  | nil => cases asserted
  | cons command commands ih =>
    rcases List.mem_cons.mp asserted with rfl | later
    · exact .inr (t.contains_of_readable readable.1 name inside)
    · rw [← List.singleton_append, List.filterMap_append, List.mem_append]
      cases command with
      | assert _ => exact (ih readable.2 later).imp_left .inr
      | declareConst symbol sort =>
        obtain declared | contained := ih readable.2 later
        · exact .inl (.inr declared)
        · rw [Command.scope, Scope.contains_declare, Bool.or_eq_true,
            decide_eq_true_eq] at contained
          refine contained.imp_left fun same => .inl ?_
          rw [same]
          exact List.mem_singleton_self symbol

end Script

/-! ### Sizes in a run -/

theorem Dimensions.Covers.mono {dims dims' : Dimensions} {key : Key} (covers : dims.Covers key)
    (sizes : dims.inputSize ≤ dims'.inputSize ∧ dims.outputSize ≤ dims'.outputSize) :
    dims'.Covers key := by
  cases key with
  | input i => exact lt_of_lt_of_le covers sizes.1
  | output j => exact lt_of_lt_of_le covers sizes.2
  | constant | other _ => trivial

theorem Configuration.le_sizeWith (config : Configuration) (given : Option Nat)
    (index? : Key → Option Nat) (size : Nat) (name : String) :
    size ≤ config.sizeWith given index? size name := by
  unfold sizeWith
  split
  · exact Nat.le_max_left ..
  · exact Nat.le_refl size

variable {α : Type} [Scalar α]

namespace Compiler

/-- No step takes anything away from a size. -/
theorem Step.sizes_le {c c' : Compiler α} (step : Step c c') :
    c.inputSize ≤ c'.inputSize ∧ c.outputSize ≤ c'.outputSize := by
  have same {c : Compiler α} : c.inputSize ≤ c.inputSize ∧ c.outputSize ≤ c.outputSize :=
    ⟨Nat.le_refl _, Nat.le_refl _⟩
  obtain rfl | ⟨name, rfl⟩ | ⟨name, rfl⟩ | ⟨value, asserted⟩ | rfl := step.cases
  · exact same
  · exact same
  · rw [declare_eq]
    exact ⟨c.config.le_sizeWith .., c.config.le_sizeWith ..⟩
  · rw [eq_of_assert asserted]
    exact same
  · exact same

theorem Reaches.sizes_le {c c' : Compiler α} (reaches : c.Reaches c') :
    c.inputSize ≤ c'.inputSize ∧ c.outputSize ≤ c'.outputSize := by
  induction reaches with
  | refl => exact ⟨Nat.le_refl _, Nat.le_refl _⟩
  | tail _ step ih => exact ⟨ih.1.trans step.sizes_le.1, ih.2.trans step.sizes_le.2⟩

end Compiler

namespace Script

variable {s : Script} {config : Configuration} {c : Compiler α} {before : List Command}

/-- The sizes behind commands that go well are those that their declarations need. -/
theorem fits_of_walk (inputs : config.inputSize = none) (outputs : config.outputSize = none)
    (reached : walkCommands Compiler.handlers before (.new config) = .ok [] c) :
    c.config = config ∧ config.Fits (before.filterMap Command.declared?) c.dimensions := by
  obtain ⟨assertions, -, rfl⟩ := Compiler.walkCommands_ok reached
  exact ⟨rfl, config.fits_of_inferred inputs outputs _ _⟩

/-- A component that is known at some moment is inside the final sizes. -/
theorem covers_final (inputs : config.inputSize = none) (outputs : config.outputSize = none)
    {after : List Command} (split : s.commands = before ++ after)
    (reached : walkCommands Compiler.handlers before (.new config) = .ok [] c) {name : String}
    (known : name ∈ before.filterMap Command.declared? ∨ (builtin? name).isSome)
    (others : List String) :
    (s.final config : Compiler α).dimensions.Covers (config.keyIn others name) := by
  obtain ⟨-, fits⟩ := fits_of_walk inputs outputs reached
  exact (fits.covers known others).mono (reaches_final split reached).sizes_le

/-- Sizes that are found in a run of a script, and what is inside them. -/
structure Inferred (α : Type) [Scalar α] (s : Script) (config : Configuration) : Prop where
  /-- In the end the sizes are those that the declarations need, up to the first assertion that
  fails or up to the end of the script. -/
  fits : ∃ visited rest, s.commands = visited ++ rest ∧
    config.Fits (visited.filterMap Command.declared?) (s.final config : Compiler α).dimensions ∧
    (rest = [] ∨ ∃ t after, rest = .assert t :: after ∧ ∃ c e c',
      walkCommands Compiler.handlers visited (.new config : Compiler α) = .ok [] c ∧
        (Command.assert t).walk Compiler.handlers c = .error e c')
  /-- That is all declarations if the script has properties. -/
  whole : ∀ properties : List (Property α), s.compile config = .ok properties →
    config.Fits s.declared (s.final config : Compiler α).dimensions
  /-- At any moment the branches are about components inside the final sizes. -/
  branches : ∀ before after (c : Compiler α), s.commands = before ++ after →
    walkCommands Compiler.handlers before (.new config) = .ok [] c →
      ∀ rows ∈ c.branches.rows, ∀ atom ∈ rows,
        atom.Uses (s.final config : Compiler α).dimensions.Covers
  /-- So is whatever the parts of asserted terms are evaluated to. -/
  values : ∀ before t after (c : Compiler α), s.commands = before ++ .assert t :: after →
    walkCommands Compiler.handlers before (.new config) = .ok [] c →
      ∀ part : Term, part.IsPart t → ∀ c' c'' value, c.Reaches c' →
        Compiler.eval part c' = .ok value c'' →
          value.Uses (s.final config : Compiler α).dimensions.Covers

/-- Sizes that are not given are found for every script that could have been read. -/
theorem inferred_of_readable (inputs : config.inputSize = none)
    (outputs : config.outputSize = none) (readable : AllReadable .empty s.commands) :
    s.Inferred α config where
  fits := by
    obtain ⟨c, reached⟩ | ⟨visited, t, rest, c, e, met, split, reached, failed, ended⟩ :=
      Compiler.walkCommands_cases s.commands (.new config : Compiler α)
    · obtain ⟨-, fits⟩ := fits_of_walk inputs outputs reached
      rw [final_of_ok reached]
      exact ⟨s.commands, [], (List.append_nil _).symm, fits, .inl rfl⟩
    · obtain ⟨-, fits⟩ := fits_of_walk inputs outputs reached
      rw [final_of_error ended]
      exact ⟨visited, _, split, ⟨fits.input, fits.output⟩,
        .inr ⟨t, rest, rfl, c, e, _, reached, failed⟩⟩
  whole := by
    intro properties compiled
    obtain ⟨c, reached⟩ | ⟨_, _, _, c, e, met, _, _, _, ended⟩ :=
      Compiler.walkCommands_cases s.commands (.new config : Compiler α)
    · obtain ⟨-, fits⟩ := fits_of_walk inputs outputs reached
      rw [final_of_ok reached]
      exact fits
    · have failed : s.compile config = .error e := by
        have run : (Compiler.script s).run (.new config) = .error e (c.noting met) :=
          EStateM.bind_of_error ended
        rw [compile, run]
      cases failed.symm.trans compiled
  branches := by
    intro before after c split reached rows branch atom member
    obtain ⟨assertions, evaluated, same⟩ := Compiler.walkCommands_ok reached
    rw [same] at branch
    obtain ⟨assertion, listed, inAtoms⟩ := Branches.mem_atoms_of_mem_rows branch member
    obtain ⟨t, asserted, found⟩ :=
      exists_mem_of_forall₂ (Except.mapM_eq_ok_iff.mp evaluated).flip listed
    have command : .assert t ∈ before := Command.assert_mem_of_asserted asserted
    rw [split] at readable
    have covered : ∀ name ∈ t.names, (s.final config : Compiler α).dimensions.Covers
        (config.keyIn c.others name) := fun name inside =>
      covers_final inputs outputs split reached
        (readable.of_append.declared_or_contains command inside) _
    exact (t.assertion_meets trivial covered).of_ok found atom inAtoms
  values := by
    intro before t after c split reached part inside c' c'' value reaches done
    obtain ⟨sameConfig, -⟩ := fits_of_walk inputs outputs reached
    obtain ⟨evaluated, -⟩ := Compiler.eval_ok done
    rw [reaches.grows.1, sameConfig] at evaluated
    have upTo : AllReadable .empty (before ++ [.assert t]) := by
      rw [split, List.append_cons] at readable
      exact readable.of_append
    have covered : ∀ name ∈ part.names, (s.final config : Compiler α).dimensions.Covers
        (config.keyIn c''.others name) := by
      intro name mem
      have known := upTo.declared_or_contains (by simp) (inside.names_subset mem)
      rw [List.filterMap_append, show [Command.assert t].filterMap Command.declared? = [] from rfl,
        List.append_nil] at known
      exact covers_final inputs outputs split reached known _
    exact (part.evaluate_meets trivial covered).of_ok evaluated

/-- A script that could have been read is not refused for an index. -/
theorem compile_meets (inputs : config.inputSize = none) (outputs : config.outputSize = none)
    (readable : AllReadable .empty s.commands) :
    Except.Meets (fun _ => True) (·.isOutOfRange = false)
      (s.compile config : Except (CompileError α) (List (Property α))) := by
  have fits := config.fits_of_inferred inputs outputs s.declared (s.others config)
  have each : ∀ t ∈ s.asserted, Except.Meets (∀ a ∈ ·.atoms, a.Uses (s.dimensions config).Covers)
      (CompileError.isOutOfRange · = false)
      (t.assertion (s.keyOf config) : Except (CompileError α) (Assertion α)) := by
    intro t asserted
    have covered : ∀ name ∈ t.names, (s.dimensions config).Covers (s.keyOf config name) := by
      intro name inside
      have known := readable.declared_or_contains (Command.assert_mem_of_asserted asserted) inside
      exact fits.covers known _
    exact (t.assertion_meets trivial covered).imp_cause
      fun _ => CompileError.isOutOfRange_of_isAssembly
  rw [compile_eq]
  refine (Except.Meets.mapM each).bind fun assertions covered => ?_
  refine Branches.properties_meets fun rows branch atom member => ?_
  obtain ⟨assertion, listed, inAtoms⟩ := Branches.mem_atoms_of_mem_rows branch member
  exact covered assertion listed atom inAtoms

end Script

/-- No component in a parsed script is out of range when both sizes are inferred: the sizes are
those that the declarations need, and everything that is compiled is inside them. -/
theorem Specification.compile_inferred {text : String} {strict : Bool} {script : Script}
    (parsed : parse (.ofText text) strict = .ok script) (inputName outputName : String)
    (bounded : ∀ name ∈ script.declared, ∀ vector ∈ [inputName, outputName],
      ¬ WritesIndex vector (indexLimit - 1) name) :
    (∀ index size, compile script ⟨inputName, outputName, none, none⟩ ≠
      .error (.compile (.indexOutOfRange index size))) ∧
    script.Inferred Float ⟨inputName, outputName, none, none⟩ ∧
    (script.final ⟨inputName, outputName, none, none⟩ : Compiler Float).inputSize < indexLimit ∧
    (script.final ⟨inputName, outputName, none, none⟩ : Compiler Float).outputSize <
      indexLimit := by
  have readable := Script.readable_of_ofSource (parse_eq_ok_iff.mp parsed)
  have inferred : script.Inferred Float ⟨inputName, outputName, none, none⟩ :=
    Script.inferred_of_readable rfl rfl readable
  refine ⟨fun index size failed => ?_, inferred, ?_⟩
  · have meets : Except.Meets (fun _ => True) (·.isOutOfRange = false)
        (script.compile ⟨inputName, outputName, none, none⟩ : Except (CompileError Float) _) :=
      Script.compile_meets rfl rfl readable
    rw [compile] at failed
    cases found : (script.compile ⟨inputName, outputName, none, none⟩ :
        Except (CompileError Float) _) with
    | ok properties =>
      rw [found] at failed
      cases failed
    | error e =>
      rw [found] at failed
      cases failed
      cases meets.of_error found
  · obtain ⟨visited, rest, split, fits, -⟩ := inferred.fits
    refine fits.lt_indexLimit fun name mem vector listed => bounded name ?_ vector listed
    rw [Script.declared, split, List.filterMap_append]
    exact List.mem_append_left _ mem

/-- An input that is declared alone makes room for those before it. -/
theorem Specification.compile_inferred_gap : ∃ script,
    parse (.ofText "(declare-const X_2 Real) (declare-const Y Real)\n(assert (<= X_2 0.5))") true =
      .ok script ∧
    (∀ index size, compile script ⟨"X", "Y", none, none⟩ ≠
      .error (.compile (.indexOutOfRange index size))) ∧
    script.Inferred Float ⟨"X", "Y", none, none⟩ ∧
    (script.final ⟨"X", "Y", none, none⟩ : Compiler Float).inputSize < indexLimit ∧
    (script.final ⟨"X", "Y", none, none⟩ : Compiler Float).outputSize < indexLimit := by
  have computed : (parse (.ofText
      "(declare-const X_2 Real) (declare-const Y Real)\n(assert (<= X_2 0.5))") true).toOption.any
        (fun script => decide (∀ name ∈ script.declared, ∀ vector ∈ ["X", "Y"],
          ¬ WritesIndex vector (indexLimit - 1) name)) = true := by decide +kernel
  obtain ⟨script, parsed, bounded⟩ := exists_of_parse computed
  exact ⟨script, parsed, compile_inferred parsed "X" "Y" bounded⟩

end NetSpec
