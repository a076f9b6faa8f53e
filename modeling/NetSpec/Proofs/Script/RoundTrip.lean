import NetSpec.Proofs.Result
import NetSpec.Proofs.Script.Completeness
import NetSpec.Proofs.Script.Soundness
import NetSpec.Specification

/-!
# Printing and parsing

A parsed script is readable, so if its text can be read at all it is read as the same script:
the parser finds in its tokens what the printer was given. Equality here is equality of trees
down to the bits of the reals, not the weaker comparison of scripts by `==`.
-/

namespace NetSpec.Specification

theorem parse_eq_ok_iff {source : Source} {strict : Bool} {script : Script} :
    parse source strict = .ok script ↔ Script.ofSource source strict = .ok script := by
  simp only [parse]
  cases Script.ofSource source strict with
  | error e => exact ⟨nofun, nofun⟩
  | ok s =>
    rw [Except.mapError]
    exact ⟨fun same => congrArg Except.ok (Except.ok.inj same),
      fun same => congrArg Except.ok (Except.ok.inj same)⟩

/-- The text of a parsed and writable script is parsed as the script. -/
theorem parse_text {text : String} {strict : Bool} {script : Script}
    (parsed : parse (.ofText text) strict = .ok script) (writable : script.Writable strict) :
    parse (.ofText script.text) strict = .ok script := by
  rw [parse_eq_ok_iff] at parsed ⊢
  exact Script.ofSource_text writable (Script.readable_of_ofSource parsed)

/-- Computing that a text is parsed as a script with a property finds the script. -/
theorem exists_of_parse {text : String} {strict : Bool} {P : Script → Prop} [DecidablePred P]
    (computed : (parse (.ofText text) strict).toOption.any (fun script => decide (P script)) =
      true) :
    ∃ script, parse (.ofText text) strict = .ok script ∧ P script :=
  Except.exists_of_any computed

/-- Computing what a text is parsed and printed to finds its script. -/
theorem exists_parsed {text printed : String} {strict : Bool}
    (computed : (parse (.ofText text) strict).toOption.any (fun script =>
      decide (script.Writable strict ∧ script.text = printed)) = true) :
    ∃ script, parse (.ofText text) strict = .ok script ∧ script.Writable strict ∧
      script.text = printed := exists_of_parse computed

/-- Comments, bars and other spellings of numbers are gone from the text of this script, and
it is parsed as the same script. -/
theorem parse_text_bounds : ∃ script,
    parse (.ofText ("; bounds\n(declare-const X Real) (declare-const |Y_0| Real)\n" ++
      "(assert (and (<= -1E-7 X 0.50) (< -Y_0 7) (= X \"\"\"\")))")) true = .ok script ∧
    script.text = "(declare-const X Real)\n(declare-const Y_0 Real)\n" ++
      "(assert (and (<= -1e-7 X 0.5) (< (- Y_0) 7) (= X \"\"\"\")))\n" ∧
    parse (.ofText script.text) true = .ok script := by
  refine (exists_parsed ?_).imp fun script held =>
    ⟨held.1, held.2.2, parse_text held.1 held.2.1⟩
  decide +kernel

end NetSpec.Specification
