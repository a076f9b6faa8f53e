import NetSpec.Compiler.Configuration
import NetSpec.Proofs.Number.Spelling

/-!
# The names of components

A name stands for a component if it writes an index behind the name of a vector and an
underscore. An index is read as a number, so one index has many spellings: any zeros and a plus
may stand in front of its digits. `indexIn?_eq_some_iff` lists all of them.

The name of a vector may itself have underscores in it, but the index has none. So only the last
underscore of a name can stand in front of an index, and a name without one is no component.
-/

namespace NetSpec

namespace Decimal

theorem digitsValue_replicate_zero (zeros : Nat) (cs : List Char) :
    digitsValue (List.replicate zeros '0' ++ cs) = digitsValue cs := by
  induction zeros with
  | zero => rfl
  | succ zeros ih =>
    rw [List.replicate_succ, List.cons_append, digitsValue, Nat.ofDigitChars_cons]
    exact ih

theorem digitsValue_concat (cs : List Char) (d : Char) :
    digitsValue (cs ++ [d]) = 10 * digitsValue cs + (d.toNat - '0'.toNat) := by
  rw [digitsValue, Nat.ofDigitChars_append, Nat.ofDigitChars_cons, Nat.ofDigitChars_nil,
    digitsValue]

theorem digit_lt_ten {d : Char} (digit : d.isDigit = true) : d.toNat - '0'.toNat < 10 := by
  have range := Char.isDigit_iff_toNat.mp digit
  have nine : '9'.toNat = '0'.toNat + 9 := rfl
  omega

/-- A digit is written as itself. -/
theorem toDigits_digit {d : Char} (digit : d.isDigit = true) :
    Nat.toDigits 10 (d.toNat - '0'.toNat) = [d] := by
  have small := digit_lt_ten digit
  rw [Nat.toDigits_of_lt_base small]
  refine congrArg (fun c => [c]) (Char.toNat_inj.mp ?_)
  rw [Nat.toNat_digitChar_of_lt_ten small]
  exact Nat.add_sub_cancel' (Char.isDigit_iff_toNat.mp digit).1

/-- Digits are the number that they write, with zeros in front. -/
theorem exists_zeros {cs : List Char} (nonempty : cs ≠ [])
    (digits : ∀ c ∈ cs, c.isDigit = true) :
    ∃ zeros, cs = List.replicate zeros '0' ++ Nat.toDigits 10 (digitsValue cs) := by
  induction cs using List.reverseRecOn with
  | nil => exact absurd rfl nonempty
  | append_singleton front d ih =>
    have last : d.isDigit = true := digits d (by simp)
    have own := toDigits_digit last
    by_cases alone : front = []
    · have value : digitsValue ([] ++ [d]) = d.toNat - '0'.toNat :=
        (digitsValue_concat [] d).trans (Nat.zero_add _)
      rw [alone, value, own]
      exact ⟨0, rfl⟩
    obtain ⟨zeros, written⟩ := ih alone fun c mem => digits c (by simp [mem])
    rw [digitsValue_concat]
    rcases Nat.eq_zero_or_pos (digitsValue front) with zero | positive
    · -- The front consists of zeros, and its last one is no digit of the number any more.
      refine ⟨zeros + 1, ?_⟩
      rw [zero, Nat.mul_zero, Nat.zero_add, own, List.replicate_succ']
      rw [zero] at written
      exact congrArg (· ++ [d]) written
    · refine ⟨zeros, ?_⟩
      rw [← Nat.toDigits_append_toDigits (by decide) positive (digit_lt_ten last), own,
        ← List.append_assoc, ← written]

/-- The spellings of a number are its digits with zeros in front. -/
theorem digits?_eq_some_iff {cs : List Char} {n : Nat} :
    digits? cs = some n ↔ ∃ zeros, cs = List.replicate zeros '0' ++ Nat.toDigits 10 n := by
  constructor
  · intro read
    simp only [digits?] at read
    split at read
    next => cases read
    next proper =>
      obtain ⟨nonempty, digits⟩ : cs ≠ [] ∧ ∀ c ∈ cs, c.isDigit = true := by simpa using proper
      rw [← Option.some.inj read]
      exact exists_zeros nonempty digits
  · rintro ⟨zeros, rfl⟩
    have digits : ∀ c ∈ List.replicate zeros '0' ++ Nat.toDigits 10 n, c.isDigit = true := by
      intro c mem
      rcases List.mem_append.mp mem with zero | digit
      · rw [List.eq_of_mem_replicate zero]
        rfl
      · exact isDigit_of_mem_toDigits digit
    rw [digits?_eq_some (List.append_ne_nil_of_right_ne_nil _ Nat.toDigits_ne_nil) digits,
      digitsValue_replicate_zero]
    exact congrArg some Nat.ofDigitChars_ten_toDigits

end Decimal

/-- A name writes an index of a vector: the name of the vector and an underscore, then the digits
of the index, with any zeros and perhaps a plus in front. -/
def WritesIndex (vector : String) (i : Nat) (name : String) : Prop :=
  i < indexLimit ∧ ∃ plus ∈ [[], ['+']], ∃ zeros, name.toList =
    vector.toList ++ '_' :: (plus ++ (List.replicate zeros '0' ++ Nat.toDigits 10 i))

theorem index?_eq_some_iff {cs : List Char} {i : Nat} :
    index? cs = some i ↔ i < indexLimit ∧ ∃ plus ∈ [[], ['+']], ∃ zeros,
      cs = plus ++ (List.replicate zeros '0' ++ Nat.toDigits 10 i) := by
  have spelled (digits : List Char) :
      ((Decimal.digits? digits).filter (· < indexLimit)) = some i ↔
        i < indexLimit ∧ ∃ zeros, digits = List.replicate zeros '0' ++ Nat.toDigits 10 i := by
    rw [Option.filter_eq_some_iff, Decimal.digits?_eq_some_iff, decide_eq_true_eq, and_comm]
  have noPlus (zeros : Nat) (digits : List Char) :
      '+' :: digits ≠ List.replicate zeros '0' ++ Nat.toDigits 10 i := by
    intro same
    have read := Decimal.digits?_eq_some_iff.mpr ⟨zeros, same⟩
    cases read
  unfold index?
  split
  next digits =>
    rw [spelled]
    simp [noPlus]
  next none =>
    rw [spelled]
    have other (zeros : Nat) :
        cs ≠ '+' :: (List.replicate zeros '0' ++ Nat.toDigits 10 i) := fun same => none _ same
    simp [other]

/-- Reading an index of a vector accepts its spellings. -/
theorem indexIn?_eq_some_iff {vector name : String} {i : Nat} :
    indexIn? vector name = some i ↔ WritesIndex vector i name := by
  simp only [indexIn?, WritesIndex]
  split
  next begins =>
    obtain ⟨rest, same⟩ := List.isPrefixOf_iff_prefix.mp begins
    rw [← same, List.drop_left, index?_eq_some_iff]
    simp
  next other =>
    refine iff_of_false nofun ?_
    rintro ⟨-, plus, -, zeros, same⟩
    refine other (List.isPrefixOf_iff_prefix.mpr ?_)
    rw [same]
    exact ⟨_, (List.append_cons ..).symm⟩

instance (vector : String) (i : Nat) (name : String) : Decidable (WritesIndex vector i name) :=
  decidable_of_iff _ indexIn?_eq_some_iff

theorem underscore_notMem_index {plus : List Char} (listed : plus ∈ [[], ['+']]) (zeros i : Nat) :
    '_' ∉ plus ++ (List.replicate zeros '0' ++ Nat.toDigits 10 i) := by
  have noDigit : '_' ∉ Nat.toDigits 10 i := fun mem => nomatch isDigit_of_mem_toDigits mem
  have noZero : '_' ∉ List.replicate zeros '0' := fun mem => nomatch List.eq_of_mem_replicate mem
  rcases List.mem_pair.mp listed with rfl | rfl <;> simp [noDigit, noZero]

/-- What stands in front of the last occurrence of something is determined. -/
theorem front_unique {β : Type} {x : β} {front front' back back' : List β} (absent : x ∉ back)
    (absent' : x ∉ back') (same : front ++ x :: back = front' ++ x :: back') : front = front' := by
  -- Otherwise what one front has more than the other contains the occurrence.
  rcases List.append_eq_append_iff.mp same with ⟨more, rfl, behind⟩ | ⟨more, rfl, behind⟩
  · cases more with
    | nil => exact (List.append_nil front).symm
    | cons y more =>
      rw [(List.cons.inj behind).2] at absent
      exact absurd (by simp) absent
  · cases more with
    | nil => exact List.append_nil front'
    | cons y more =>
      rw [(List.cons.inj behind).2] at absent'
      exact absurd (by simp) absent'

/-- A name writes one index of one vector at most. -/
theorem WritesIndex.unique {vector vector' name : String} {i j : Nat}
    (first : WritesIndex vector i name) (second : WritesIndex vector' j name) :
    vector = vector' ∧ i = j := by
  have sameVector : vector = vector' := by
    obtain ⟨-, plus, listed, zeros, same⟩ := first
    obtain ⟨-, plus', listed', zeros', same'⟩ := second
    exact String.toList_inj.mp (front_unique (underscore_notMem_index listed zeros i)
      (underscore_notMem_index listed' zeros' j) (same.symm.trans same'))
  rw [← indexIn?_eq_some_iff] at first second
  rw [sameVector] at first
  exact ⟨sameVector, Option.some.inj (first.symm.trans second)⟩

/-- No component is named without an underscore. -/
theorem WritesIndex.underscore_mem {vector name : String} {i : Nat}
    (writes : WritesIndex vector i name) : '_' ∈ name.toList := by
  obtain ⟨-, plus, -, zeros, same⟩ := writes
  simp [same]

namespace Configuration

variable (config : Configuration)

theorem component?_eq_input_iff {name : String} {i : Nat} :
    config.component? name = some (.input i) ↔ WritesIndex config.inputName i name := by
  rw [← indexIn?_eq_some_iff, component?]
  cases indexIn? config.inputName name with
  | none => simp
  | some j => simp

/-- Two vectors of one name have inputs only. -/
theorem component?_eq_output_iff {name : String} {j : Nat} :
    config.component? name = some (.output j) ↔
      WritesIndex config.outputName j name ∧ config.inputName ≠ config.outputName := by
  rw [component?]
  cases read : indexIn? config.inputName name with
  | some i =>
    refine iff_of_false nofun ?_
    rintro ⟨writes, differ⟩
    exact differ ((indexIn?_eq_some_iff.mp read).unique writes).1
  | none =>
    have differ : WritesIndex config.outputName j name →
        config.inputName ≠ config.outputName := by
      intro writes same
      rw [← same, ← indexIn?_eq_some_iff, read] at writes
      cases writes
    simp only [Option.map_eq_some_iff, Key.output.injEq, exists_eq_right, indexIn?_eq_some_iff]
    exact ⟨fun writes => ⟨writes, differ writes⟩, And.left⟩

/-- Two names are spellings of the same component. -/
def SameComponent (a b : String) : Prop :=
  ∃ vector ∈ [config.inputName, config.outputName], ∃ i,
    WritesIndex vector i a ∧ WritesIndex vector i b

theorem sameComponent_iff {a b : String} : config.SameComponent a b ↔
    (config.component? a).isSome ∧ config.component? a = config.component? b := by
  constructor
  · rintro ⟨vector, listed, i, first, second⟩
    have key : ∃ key, config.component? a = some key ∧ config.component? b = some key := by
      by_cases input : vector = config.inputName
      · subst input
        exact ⟨_, config.component?_eq_input_iff.mpr first,
          config.component?_eq_input_iff.mpr second⟩
      · have output : vector = config.outputName := (List.mem_pair.mp listed).resolve_left input
        subst output
        exact ⟨_, config.component?_eq_output_iff.mpr ⟨first, Ne.symm input⟩,
          config.component?_eq_output_iff.mpr ⟨second, Ne.symm input⟩⟩
    obtain ⟨key, foundA, foundB⟩ := key
    rw [foundA, foundB]
    exact ⟨rfl, rfl⟩
  · rintro ⟨component, same⟩
    obtain ⟨key, foundA⟩ := Option.isSome_iff_exists.mp component
    have foundB := same.symm.trans foundA
    cases key with
    | input i =>
      rw [component?_eq_input_iff] at foundA foundB
      exact ⟨_, List.mem_cons_self, i, foundA, foundB⟩
    | output j =>
      rw [component?_eq_output_iff] at foundA foundB
      exact ⟨_, List.mem_cons_of_mem _ List.mem_cons_self, j, foundA.1, foundB.1⟩
    | constant => exact absurd foundA (by unfold component?; split <;> simp)
    | other id => exact absurd foundA (by unfold component?; split <;> simp)

instance (a b : String) : Decidable (config.SameComponent a b) :=
  decidable_of_iff _ config.sameComponent_iff.symm

/-- A component is named with an underscore. -/
theorem underscore_mem_of_component? {name : String} {key : Key}
    (found : config.component? name = some key) : '_' ∈ name.toList := by
  have same : config.SameComponent name name :=
    config.sameComponent_iff.mpr ⟨by rw [found]; rfl, rfl⟩
  obtain ⟨vector, -, i, writes, -⟩ := same
  exact writes.underscore_mem

end Configuration

end NetSpec
