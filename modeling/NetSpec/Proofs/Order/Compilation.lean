import NetSpec.Proofs.Order.Numbering
import NetSpec.Proofs.Order.Regions
import NetSpec.Proofs.Property.Joined

/-!
# The order of commands does not matter

A script may state its declarations and assertions in any order. Whether it compiles does not
depend on it, and the properties are the same up to the order of properties, polytopes and
rows, and up to the signs of zeros among the ends of boxes. This is no statement about exact
numbers: `Script.compile_perm` holds of binary64 numbers with every operation rounding.
-/

namespace NetSpec

/-- The rows of a polytope, in no order. -/
def Polytope.rowsOf (polytope : Polytope Float) : Multiset (Row Float) := polytope.rows

namespace Property

/-- The same boxes, and for each of them the same polytopes up to the order of their rows. -/
structure Equivalent (properties properties' : List (Property Float)) : Prop where
  distinct : properties.Pairwise fun p q => (p.box == q.box) = false
  distinct' : properties'.Pairwise fun p q => (p.box == q.box) = false
  boxes : ∀ p ∈ properties, ∃ p' ∈ properties', (p.box == p'.box) = true
  boxes' : ∀ p' ∈ properties', ∃ p ∈ properties, (p.box == p'.box) = true
  polytopes : ∀ p ∈ properties, ∀ p' ∈ properties', (p.box == p'.box) = true →
    (p.polytopes.map Polytope.rowsOf).Perm (p'.polytopes.map Polytope.rowsOf)

namespace Joined

variable {regions regions' : List (Region Float)} {properties properties' : List (Property Float)}

theorem exists_beq (joined : Joined regions properties) (joined' : Joined regions' properties')
    (perm : (regions.map Region.profile).Perm (regions'.map Region.profile)) :
    ∀ p ∈ properties, ∃ p' ∈ properties', (p.box == p'.box) = true := by
  intro p member
  have levels : (regions.map (·.box.levels)).Perm (regions'.map (·.box.levels)) := by
    simpa [Region.profile, Function.comp_def] using perm.map Prod.fst
  have listed := (joined.levels _).mp (List.mem_map_of_mem member)
  rw [levels.mem_iff, ← joined'.levels] at listed
  obtain ⟨p', member', same⟩ := List.mem_map.mp listed
  exact ⟨p', member', (Box.beq_iff (joined.proper p member) (joined'.proper p' member')).mpr
    same.symm⟩

/-- The polytopes of a property are told by the profiles of the regions. -/
theorem map_polytopes (joined : Joined regions properties) {p : Property Float}
    (member : p ∈ properties) : p.polytopes.map Polytope.rowsOf =
      ((regions.map Region.profile).filter fun profile => profile.1 = p.box.levels).map Prod.snd := by
  rw [joined.polytopes p member, List.filter_map, List.map_map, List.map_map]
  rfl

/-- Regions with the same profiles in another order are joined into equivalent properties. -/
theorem equivalent (joined : Joined regions properties) (joined' : Joined regions' properties')
    (perm : (regions.map Region.profile).Perm (regions'.map Region.profile)) :
    Equivalent properties properties' where
  distinct := joined.pairwise_beq
  distinct' := joined'.pairwise_beq
  boxes := joined.exists_beq joined' perm
  boxes' p' member' := by
    obtain ⟨p, member, same⟩ := joined'.exists_beq joined perm.symm p' member'
    have proper := joined.proper p member
    have proper' := joined'.proper p' member'
    rw [Box.beq_iff proper' proper] at same
    exact ⟨p, member, (Box.beq_iff proper proper').mpr same.symm⟩
  polytopes p member p' member' same := by
    rw [Box.beq_iff (joined.proper p member) (joined'.proper p' member')] at same
    rw [joined.map_polytopes member, joined'.map_polytopes member', same]
    exact (perm.filter _).map _

end Joined

end Property

/-- Branches with the same roles in another order have equivalent properties. -/
theorem Branches.properties_alike {branches branches' : Branches Float} {dims dims' : Dimensions}
    (inputs : dims.inputSize = dims'.inputSize)
    (roles : Disjunction.image (fun atom => (atom.role dims).toOption) branches.rows =
      Disjunction.image (fun atom => (atom.role dims').toOption) branches'.rows) :
    Except.Alike Property.Equivalent (branches.properties dims) (branches'.properties dims') := by
  have alike := Except.mapM_alike_of_map_perm (Multiset.coe_eq_coe.mp roles)
    fun rows _ rows' same => Region.ofRows?_alike inputs same
  refine alike.with_ok.bind fun regions regions' ⟨made, made', perm⟩ => .ok ?_
  refine (Property.joined_ofRegions (Region.isProper_of_mapM made)).equivalent
    (Property.joined_ofRegions (Region.isProper_of_mapM made')) ?_
  have filtered := perm.filterMap id
  simpa [List.filterMap_map, List.map_filterMap] using filtered

namespace Script

variable {s s' : Script} (perm : s.commands.Perm s'.commands) (config : Configuration)

include perm

theorem compile_alike : Except.Alike Property.Equivalent
    (s.compile config) (s'.compile config) := by
  have inputs := inputSize_perm perm config
  have outputs := outputSize_perm perm config
  obtain ⟨σ, renumbers⟩ := exists_renumbering perm config
  have assertions : Except.Alike
      (fun assertions assertions' =>
        (assertions.map fun assertion => Disjunction.image
          (fun atom => (atom.role (s.dimensions config)).toOption) assertion.alternatives).Perm
        (assertions'.map fun assertion => Disjunction.image
          (fun atom => (atom.role (s'.dimensions config)).toOption) assertion.alternatives))
      (s.asserted.mapM (Term.assertion (s.keyOf config)) :
        Except (CompileError Float) (List (Assertion Float)))
      (s'.asserted.mapM (Term.assertion (s'.keyOf config))) := by
    refine Except.mapM_alike_of_map_perm ((asserted_perm perm).map id) ?_
    rintro t asserted _ rfl
    refine (Except.Alike.of_agree (t.assertion_renumbered (renumbers t asserted))).imp
      fun _ _ h => h.image_alternatives fun a b renumbered => ?_
    have roles := renumbered.role_agree inputs outputs
    exact Except.alike_eq_iff_toOption_eq.mp (.of_agree roles)
  rw [compile_eq, compile_eq]
  exact assertions.bind fun _ _ same =>
    Branches.properties_alike inputs (Branches.image_rows_perm same)

/-- Commands in another order compile if and only if they do, to equivalent properties. -/
theorem compile_perm :
    ((∃ properties : List (Property Float), s.compile config = .ok properties) ↔
      ∃ properties' : List (Property Float), s'.compile config = .ok properties') ∧
    ∀ properties properties' : List (Property Float), s.compile config = .ok properties →
      s'.compile config = .ok properties' → Property.Equivalent properties properties' :=
  ⟨(compile_alike perm config).exists_ok_iff,
    fun _ _ compiled compiled' => (compile_alike perm config).related compiled compiled'⟩

omit perm

/-- Two other names that cancel out, and a choice that either comes last or first. -/
def cancelling : Script where
  commands := [
    .declareConst "X_0" "Real",
    .declareConst "Y_0" "Real",
    .assert (.apply "<=" [.identifier "slack", .identifier "slack"]),
    .assert (.apply "<=" [
      .apply "+" [.identifier "X_0", .identifier "margin"],
      .apply "+" [.constant (.int 3), .identifier "margin"]]),
    .assert (.apply "or" [
      .apply ">=" [.identifier "Y_0", .constant (.int 1)],
      .apply "<=" [.identifier "X_0", .constant (.int 1)]])]

theorem compile_cancelling_reverse :
    let s := cancelling
    let s' : Script := ⟨cancelling.commands.reverse⟩
    s.commands.Perm s'.commands ∧
      (s.compile {} : Except (CompileError Float) (List (Property Float))).isOk = true ∧
      ((∃ properties : List (Property Float), s.compile {} = .ok properties) ↔
        ∃ properties' : List (Property Float), s'.compile {} = .ok properties') ∧
      ∀ properties properties' : List (Property Float), s.compile {} = .ok properties →
        s'.compile {} = .ok properties' → Property.Equivalent properties properties' := by
  intro s s'
  have perm : s.commands.Perm s'.commands := (List.reverse_perm _).symm
  have compiles : (s.compile {} : Except (CompileError Float) (List (Property Float))).isOk =
      true := by decide +kernel
  exact ⟨perm, compiles, compile_perm perm {}⟩

end Script

end NetSpec
