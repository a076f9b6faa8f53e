import NetSpec.Proofs.Order.Renumbering

/-!
# What the order of commands changes about names

Commands in another order meet the same names in another order. The sizes of the vectors come
out the same, because the greatest index does. The other names get other numbers, and
`Script.exists_renumbering` says that the two numberings differ by a permutation. So do those of
any two tables on the names that both know.
-/

namespace NetSpec

namespace Configuration

variable (config : Configuration)

/-- A table lists what it had and what it met, except for components. -/
theorem mem_noteAll {others names : List String} {name : String} :
    name ∈ config.noteAll others names ↔
      name ∈ others ∨ name ∈ names ∧ config.component? name = none := by
  induction names generalizing others with
  | nil => simp [noteAll]
  | cons first names ih =>
    have noted : name ∈ config.note others first ↔
        name ∈ others ∨ name = first ∧ config.component? first = none := by
      simp only [note]
      split
      next known =>
        constructor
        · exact .inl
        · rintro (listed | ⟨rfl, other⟩)
          · exact listed
          · simpa [Knows, other] using known
      next unknown =>
        have other : config.component? first = none := by
          simpa [Knows] using (not_or.mp unknown).1
        simp [other]
    show name ∈ config.noteAll (config.note others first) names ↔ _
    rw [ih, noted, List.mem_cons]
    constructor
    · rintro ((listed | ⟨rfl, other⟩) | ⟨met, other⟩)
      · exact .inl listed
      · exact .inr ⟨.inl rfl, other⟩
      · exact .inr ⟨.inr met, other⟩
    · rintro (listed | ⟨rfl | met, other⟩)
      · exact .inl (.inl listed)
      · exact .inl (.inr ⟨rfl, other⟩)
      · exact .inr ⟨met, other⟩

/-- Names that are known leave no trace. -/
theorem noteAll_of_knows {others names : List String}
    (known : ∀ name ∈ names, config.Knows others name) : config.noteAll others names = others := by
  induction names with
  | nil => rfl
  | cons name names ih =>
    obtain ⟨first, others⟩ := List.forall_mem_cons.mp known
    rw [noteAll, List.foldl_cons, note, if_pos first]
    exact ih others

/-- No name is listed twice. -/
theorem nodup_noteAll {others : List String} (nodup : others.Nodup) (names : List String) :
    (config.noteAll others names).Nodup := by
  induction names generalizing others with
  | nil => exact nodup
  | cons name names ih =>
    refine ih ?_
    simp only [note]
    split
    next => exact nodup
    next unknown =>
      have absent : name ∉ others := (not_or.mp unknown).2
      rw [List.nodup_append]
      refine ⟨nodup, List.nodup_singleton name, ?_⟩
      rintro a listed b here rfl
      exact absent (List.mem_singleton.mp here ▸ listed)

/-- Names met in another order are listed in another order. -/
theorem noteAll_perm {names names' : List String} (perm : names.Perm names') :
    (config.noteAll [] names).Perm (config.noteAll [] names') := by
  rw [List.perm_ext_iff_of_nodup (config.nodup_noteAll .nil names)
    (config.nodup_noteAll .nil names')]
  intro name
  rw [mem_noteAll, mem_noteAll, perm.mem_iff]

/-- Declarations extend a size in any order. -/
instance (given : Option Nat) (index? : Key → Option Nat) :
    RightCommutative (config.sizeWith given index?) where
  right_comm size a b := by
    simp only [sizeWith]
    cases given with
    | some => rfl
    | none =>
      cases (config.component? a).bind index? with
      | none => rfl
      | some i =>
        cases (config.component? b).bind index? with
        | none => rfl
        | some j => exact max_right_comm ..

end Configuration

/-- The position in a list of what another list has at a position. -/
def transfer (names names' : List String) (i : Nat) : Nat :=
  if inside : i < names.length then names'.idxOf names[i] else i

theorem transfer_transfer {names names' : List String} (nodup : names.Nodup)
    (perm : names.Perm names') (i : Nat) : transfer names' names (transfer names names' i) = i := by
  have length := perm.length_eq
  by_cases inside : i < names.length
  · have listed : names[i] ∈ names' := perm.subset (List.getElem_mem inside)
    have inside' := List.idxOf_lt_length_of_mem listed
    rw [transfer, transfer, dif_pos inside, dif_pos inside', List.getElem_idxOf,
      nodup.idxOf_getElem]
  · rw [transfer, transfer, dif_neg inside, dif_neg (length ▸ inside)]

/-- Two tables of the same names differ by a permutation of numbers. -/
theorem exists_renumbering {names names' : List String} (nodup : names.Nodup)
    (perm : names.Perm names') :
    ∃ σ : Equiv.Perm Nat, ∀ name ∈ names, σ (names.idxOf name) = names'.idxOf name := by
  refine ⟨⟨transfer names names', transfer names' names, transfer_transfer nodup perm,
    transfer_transfer (perm.nodup nodup) perm.symm⟩, fun name listed => ?_⟩
  have inside := List.idxOf_lt_length_of_mem listed
  show transfer names names' (names.idxOf name) = _
  rw [transfer, dif_pos inside, List.getElem_idxOf]

/-- Members of a list can be moved to where they are in another one. -/
theorem exists_perm_idxOf {names others others' : List String}
    (listed : ∀ name ∈ names, name ∈ others) (listed' : ∀ name ∈ names, name ∈ others') :
    ∃ σ : Equiv.Perm Nat, ∀ name ∈ names, σ (others.idxOf name) = others'.idxOf name := by
  let places : Set Nat := (others.idxOf ·) '' {name | name ∈ names}
  have finite : places.Finite := names.finite_toSet.image _
  have inj : Function.Injective fun place : places => others'.idxOf place.2.choose := by
    intro a b same
    have memberA := a.2.choose_spec
    have memberB := b.2.choose_spec
    have name := (List.idxOf_inj (listed' _ memberA.1)).mp same
    exact Subtype.ext (memberA.2.symm.trans ((congrArg (others.idxOf ·) name).trans memberB.2))
  have small : Cardinal.mk places < Cardinal.mk Nat := by
    simpa using finite.lt_aleph0
  obtain ⟨σ, moves⟩ := Cardinal.extend_function_of_lt ⟨_, inj⟩ small ⟨Equiv.refl Nat⟩
  refine ⟨σ, fun name member => ?_⟩
  have place : others.idxOf name ∈ places := ⟨name, member, rfl⟩
  have chosen := place.choose_spec
  have same : place.choose = name := (List.idxOf_inj (listed _ chosen.1)).mp chosen.2
  exact (moves ⟨_, place⟩).trans (congrArg (others'.idxOf ·) same)

namespace Configuration

variable (config : Configuration) {σ : Equiv.Perm Nat} {others others' : List String}

/-- The key of a name differs by its number if it is that of another name. -/
theorem keyIn_renumber_of_moves {name : String}
    (moves : config.component? name = none → σ (others.idxOf name) = others'.idxOf name) :
    config.keyIn others' name = (config.keyIn others name).renumber σ := by
  simp only [keyIn]
  cases component : config.component? name with
  | some key =>
    obtain ⟨i, -, rfl⟩ | ⟨j, -, -, rfl⟩ := component?_cases component
    · rfl
    · rfl
  | none => exact congrArg Key.other (moves component).symm

/-- The keys of known names differ by the numbers as the tables do. -/
theorem keyIn_renumber (moves : ∀ name ∈ others, σ (others.idxOf name) = others'.idxOf name)
    {name : String} (known : config.Knows others name) :
    config.keyIn others' name = (config.keyIn others name).renumber σ :=
  config.keyIn_renumber_of_moves fun other => moves name (by simpa [Knows, other] using known)

/-- The keys of names that two tables know differ by their numbers. -/
theorem exists_renumbering_of_knows {names : List String}
    (known : ∀ name ∈ names, config.Knows others name)
    (known' : ∀ name ∈ names, config.Knows others' name) :
    ∃ σ : Equiv.Perm Nat, ∀ name ∈ names,
      config.keyIn others' name = (config.keyIn others name).renumber σ := by
  have listed {others : List String} (known : ∀ name ∈ names, config.Knows others name) :
      ∀ name ∈ names.filter (config.component? · = none), name ∈ others := by
    intro name member
    obtain ⟨member, other⟩ := List.mem_filter.mp member
    simpa [Knows, of_decide_eq_true other] using known name member
  obtain ⟨σ, moves⟩ := exists_perm_idxOf (listed known) (listed known')
  refine ⟨σ, fun name member => config.keyIn_renumber_of_moves fun other => moves name ?_⟩
  exact List.mem_filter.mpr ⟨member, decide_eq_true other⟩

end Configuration

namespace Script

variable {s s' : Script} (perm : s.commands.Perm s'.commands) (config : Configuration)

include perm

theorem asserted_perm : s.asserted.Perm s'.asserted := perm.filterMap _

theorem others_perm : (s.others config).Perm (s'.others config) :=
  config.noteAll_perm (perm.flatMap_right _)

/-- The sizes do not depend on the order of commands. -/
theorem inputSize_perm : (s.dimensions config).inputSize = (s'.dimensions config).inputSize :=
  (perm.filterMap Command.declared?).foldl_eq _

theorem outputSize_perm : (s.dimensions config).outputSize = (s'.dimensions config).outputSize :=
  (perm.filterMap Command.declared?).foldl_eq _

/-- The numbers of names differ by a permutation. -/
theorem exists_renumbering : ∃ σ : Equiv.Perm Nat, ∀ t ∈ s.asserted, ∀ name ∈ t.names,
    s'.keyOf config name = (s.keyOf config name).renumber σ := by
  obtain ⟨σ, transfers⟩ := NetSpec.exists_renumbering (config.nodup_noteAll .nil s.names)
    (others_perm perm config)
  exact ⟨σ, fun t asserted name member =>
    config.keyIn_renumber transfers (s.knows_of_mem_asserted config asserted member [])⟩

end Script

end NetSpec
