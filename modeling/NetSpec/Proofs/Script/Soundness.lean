import NetSpec.Proofs.Script.Stream
import NetSpec.Proofs.Script.Tokens

/-!
# What is read is readable

Whatever text a reader accepts, the script it finds names only what is in scope at its place,
declares only sorts that exist, applies functions to arguments and has no negative integers.
Each production of the grammar sees to its part of this, and what is read has been derived.
-/

namespace NetSpec

theorem Constant.readable_of_ofNat? {n : Nat} {c : Constant} (read : ofNat? n = some c) :
    c.Readable := by
  simp only [ofNat?] at read
  split at read
  next small =>
    have bound : n < 2 ^ 63 := small
    cases read
    rw [Readable, Int64.toInt_ofNat_of_lt bound]
    exact Int.natCast_nonneg n
  next => cases read

theorem Constant.readable_of_ofMarked? {value : List Char → Nat} {text : String} {c : Constant}
    (read : ofMarked? value text = some c) : c.Readable := by
  simp only [ofMarked?] at read
  split at read
  next => cases read
  next => exact readable_of_ofNat? read

theorem Constant.readable_of_real {x : Option Float} {c : Constant}
    (read : x.map Constant.real = some c) : c.Readable := by
  obtain ⟨y, -, rfl⟩ := Option.map_eq_some_iff.mp read
  trivial

/-- The value of a literal token is no negative integer. -/
theorem Constant.readable_of_ofToken? {t : Token} {c : Constant} (read : ofToken? t = some c) :
    c.Readable := by
  cases t with
  | numeral text =>
    simp only [ofToken?] at read
    split at read
    next c' whole =>
      cases read
      obtain ⟨n, -, fits⟩ := Option.bind_eq_some_iff.mp whole
      exact readable_of_ofNat? fits
    next => exact readable_of_real read
  | decimal text => exact readable_of_real read
  | hexadecimal text => exact readable_of_ofMarked? read
  | binary text => exact readable_of_ofMarked? read
  | string text =>
    cases read
    trivial
  | eof | openParen | closeParen | symbol name => cases read

variable {scope : Scope}

/-- A symbol stands for a term over names in scope. -/
theorem Scope.Reading.readable {name : String} {t : Term} (reading : scope.Reading name t) :
    t.Readable scope := by
  cases reading with
  | name _ inside => exact inside
  | number _ _ _ => trivial
  | opposite _ _ inside => exact ⟨scope.contains_minus, List.cons_ne_nil _ _, inside, trivial⟩

mutual

theorem Term.Derivation.readable {ts : List Token} {t : Term} (d : t.Derivation scope ts) :
    t.Readable scope := by
  cases d with
  | literal value => exact Constant.readable_of_ofToken? value
  | symbol reading => exact reading.readable
  | apply inside own => exact ⟨inside, own.readable⟩

theorem Term.ArgsDerivation.readable {ts : List Token} {args : List Term}
    (d : Term.ArgsDerivation scope ts args) : args ≠ [] ∧ Term.AllReadable scope args := by
  cases d with
  | one last => exact ⟨List.cons_ne_nil _ _, last.readable, trivial⟩
  | more first others => exact ⟨List.cons_ne_nil _ _, first.readable, others.readable.2⟩

end

theorem Command.Derivation.readable {ts : List Token} {command : Command}
    (d : command.Derivation scope ts) : command.Readable scope := by
  cases d with
  | assert own => exact own.readable
  | declareConst known => exact known

/-- Commands are readable, each behind those before it. -/
theorem Script.Derivation.readable {ts : List Token} {commands : List Command}
    (d : Script.Derivation scope ts commands) : Script.AllReadable scope commands := by
  induction d with
  | nil => trivial
  | cons first _ ih => exact ⟨first.readable, ih⟩

/-- A script that a source holds is readable. -/
theorem Script.readable_of_ofSource {source : Source} {strict : Bool} {s : Script}
    (ok : Script.ofSource source strict = .ok s) : AllReadable .empty s.commands := by
  rw [ofSource_eq_ofStream] at ok
  obtain ⟨ts, ⟨d⟩⟩ := phrase_of_ofStream ok
  exact d.readable

end NetSpec
