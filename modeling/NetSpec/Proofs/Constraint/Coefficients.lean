import Mathlib
import NetSpec.Compiler.Value

/-!
# The coefficients of linear forms

The terms of a form stand in the strict order of their keys, so a form is determined by the
coefficients that `LinearForm.find?` gives. Each operation on forms is described here by the
coefficients of its result, one key at a time. No coefficient is ever combined with that of
another key, which is why nothing below depends on how numbers round.

`LinearForm.kept` is the one place where a coefficient may vanish: a sum that is equal to
zero leaves no term. Negation and scaling keep the terms that there are. The constant is the
least key, so the variables of a form stand behind it.
-/

namespace NetSpec

namespace Key

theorem lt_iff (a b : Key) :
    a < b ↔ a.rank.1 < b.rank.1 ∨ a.rank.1 = b.rank.1 ∧ a.rank.2 < b.rank.2 := Iff.rfl

theorem rank_injective {a b : Key} (same : a.rank = b.rank) : a = b := by
  cases a <;> cases b <;> simp_all [rank]

theorem lt_irrefl (a : Key) : ¬ a < a := by
  rw [lt_iff]
  omega

theorem lt_trans {a b c : Key} (first : a < b) (second : b < c) : a < c := by
  rw [lt_iff] at *
  omega

theorem lt_of_not_lt {a b : Key} (differ : a ≠ b) (above : ¬ a < b) : b < a := by
  by_contra below
  rw [lt_iff] at above below
  exact differ (rank_injective (Prod.ext (by omega) (by omega)))

theorem ne_of_lt {a b : Key} (below : a < b) : a ≠ b := by
  rintro rfl
  exact lt_irrefl a below

/-- The constant comes before every variable. -/
theorem constant_lt {key : Key} (differ : key ≠ constant) : constant < key := by
  cases key with
  | constant => exact absurd rfl differ
  | input i => exact .inl (by simp [rank])
  | output i => exact .inl (by simp [rank])
  | other i => exact .inl (by simp [rank])

end Key

namespace LinearForm

variable {α : Type}

/-- The keys of the terms increase strictly. -/
def Ordered (form : LinearForm α) : Prop :=
  form.terms.Pairwise fun a b => a.1 < b.1

theorem lookup_of_below {key : Key} {terms : List (Key × α)}
    (below : ∀ term ∈ terms, key < term.1) : terms.lookup key = none := by
  rw [List.lookup_eq_none_iff]
  intro term member
  simpa using Key.ne_of_lt (below term member)

theorem lookup_map (f : α → α) (key : Key) (terms : List (Key × α)) :
    (terms.map fun (k, c) => (k, f c)).lookup key = (terms.lookup key).map f := by
  induction terms with
  | nil => rfl
  | cons term terms ih =>
    obtain ⟨k, c⟩ := term
    simp only [List.map_cons, List.lookup_cons, ih]
    cases key == k <;> rfl

/-- Terms in order are found by their keys. -/
theorem lookup_of_mem {terms : List (Key × α)} {key : Key} {c : α}
    (ordered : terms.Pairwise fun a b => a.1 < b.1) (member : (key, c) ∈ terms) :
    terms.lookup key = some c := by
  induction terms with
  | nil => simp at member
  | cons term terms ih =>
    obtain ⟨k, d⟩ := term
    rw [List.pairwise_cons] at ordered
    rcases List.mem_cons.mp member with same | member
    · simp [(Prod.mk.inj same).1, (Prod.mk.inj same).2]
    · have differ : key ≠ k := Ne.symm (Key.ne_of_lt (ordered.1 _ member))
      simp [List.lookup_cons, beq_false_of_ne differ, ih ordered.2 member]

theorem mem_of_lookup {terms : List (Key × α)} {key : Key} {c : α}
    (found : terms.lookup key = some c) : (key, c) ∈ terms := by
  induction terms with
  | nil => simp at found
  | cons term terms ih =>
    obtain ⟨k, d⟩ := term
    rw [List.lookup_cons] at found
    split at found
    next same =>
      rw [eq_of_beq same, Option.some.inj found]
      exact List.mem_cons_self
    next => exact List.mem_cons_of_mem _ (ih found)

theorem find?_eq_some_iff {form : LinearForm α} (ordered : form.Ordered) {key : Key} {c : α} :
    form.find? key = some c ↔ (key, c) ∈ form.terms :=
  ⟨mem_of_lookup, lookup_of_mem ordered⟩

/-- Forms in order with the same coefficients are the same. -/
theorem ext_find? {a b : LinearForm α} (orderedA : a.Ordered) (orderedB : b.Ordered)
    (same : ∀ key, a.find? key = b.find? key) : a = b := by
  have distinct {terms : List (Key × α)} (ordered : terms.Pairwise fun a b => a.1 < b.1) :
      terms.Nodup :=
    List.Pairwise.imp (fun below => ne_of_apply_ne Prod.fst (Key.ne_of_lt below)) ordered
  have perm : a.terms.Perm b.terms := by
    rw [List.perm_ext_iff_of_nodup (distinct orderedA) (distinct orderedB)]
    rintro ⟨key, c⟩
    rw [← find?_eq_some_iff orderedA, ← find?_eq_some_iff orderedB, same]
  have antisymmetric : ∀ s t : Key × α, s ∈ a.terms → t ∈ b.terms → s.1 < t.1 → t.1 < s.1 →
      s = t :=
    fun s t _ _ below above => absurd (Key.lt_trans below above) (Key.lt_irrefl _)
  cases a
  cases b
  exact congrArg LinearForm.mk (perm.eq_of_pairwise antisymmetric orderedA orderedB)

/-- The terms of a form are those of its variables, behind the constant if there is one. -/
theorem terms_eq {form : LinearForm α} (ordered : form.Ordered) :
    form.terms = form.variableTerms ∧ form.find? .constant = none ∨
      ∃ k, form.terms = (.constant, k) :: form.variableTerms ∧ form.find? .constant = some k := by
  obtain ⟨terms⟩ := form
  match terms with
  | [] => exact .inl ⟨rfl, rfl⟩
  | (key, c) :: terms =>
    have below := (List.pairwise_cons.mp ordered).1
    have notConstant {first : Key} (least : ∀ term ∈ terms, first < term.1) :
        ∀ term ∈ terms, term.1 ≠ .constant := by
      intro term member same
      have above := same ▸ least term member
      by_cases constant : first = .constant
      · exact Key.lt_irrefl _ (constant ▸ above)
      · exact Key.lt_irrefl _ (Key.lt_trans above (Key.constant_lt constant))
    have kept : terms.filter (fun term => term.1 ≠ .constant) = terms :=
      List.filter_eq_self.mpr fun term member => by simpa using notConstant below term member
    by_cases constant : key = .constant
    · subst constant
      exact .inr ⟨c, by simpa [variableTerms] using kept.symm, by simp [find?]⟩
    · refine .inl ⟨by simpa [variableTerms, constant] using kept.symm, ?_⟩
      refine lookup_of_below fun term member => Key.constant_lt ?_
      rcases List.mem_cons.mp member with rfl | member
      · exact constant
      · exact notConstant below term member

variable [Scalar α]

/-- What is left of a coefficient: nothing if it is equal to zero. -/
def kept (c : α) : Option α := if c == Scalar.zero then none else some c

theorem lookup_consNonzero {k : Key} {terms : List (Key × α)} (absent : terms.lookup k = none)
    (c : α) (key : Key) :
    (consNonzero k c terms).lookup key = if key = k then kept c else terms.lookup key := by
  simp only [consNonzero, kept]
  by_cases same : key = k
  · subst same
    split <;> simp [absent]
  · split <;> simp_all [List.lookup_cons, beq_false_of_ne same]

theorem lookup_insert {terms : List (Key × α)}
    (ordered : terms.Pairwise fun a b => a.1 < b.1) (k : Key) (value : α) (key : Key) :
    (insert k value terms).lookup key =
      if key = k then kept ((terms.lookup k).getD Scalar.zero + value) else terms.lookup key := by
  induction terms with
  | nil => exact lookup_consNonzero rfl (Scalar.zero + value) key
  | cons term terms ih =>
    obtain ⟨k', c⟩ := term
    rw [List.pairwise_cons] at ordered
    simp only [insert]
    by_cases here : k = k'
    · subst here
      rw [if_pos rfl, lookup_consNonzero (lookup_of_below ordered.1)]
      by_cases same : key = k
      · simp [same]
      · simp [List.lookup_cons, beq_false_of_ne same]
    · rw [if_neg here]
      by_cases before : k < k'
      · have absent : ((k', c) :: terms).lookup k = none := by
          refine lookup_of_below fun term member => ?_
          rcases List.mem_cons.mp member with rfl | member
          · exact before
          · exact Key.lt_trans before (ordered.1 _ member)
        rw [if_pos before, lookup_consNonzero absent, absent]
        rfl
      · rw [if_neg before, List.lookup_cons, List.lookup_cons, List.lookup_cons,
          ih ordered.2, beq_false_of_ne here]
        by_cases first : key = k'
        · simp [first, Ne.symm here]
        · simp [beq_false_of_ne first]

/-- An inserted term has the key it is inserted at, or stood there before. -/
theorem key_mem_insert {k : Key} {value : α} {terms : List (Key × α)} {term : Key × α}
    (member : term ∈ insert k value terms) : term.1 = k ∨ term ∈ terms := by
  have front (c : α) (terms : List (Key × α)) (member : term ∈ consNonzero k c terms) :
      term.1 = k ∨ term ∈ terms := by
    simp only [consNonzero] at member
    split at member
    · exact .inr member
    · rcases List.mem_cons.mp member with rfl | member
      · exact .inl rfl
      · exact .inr member
  induction terms with
  | nil => exact front _ _ member
  | cons first terms ih =>
    simp only [insert] at member
    split at member
    · exact (front _ _ member).imp_right (List.mem_cons_of_mem _)
    · split at member
      · exact front _ _ member
      · rcases List.mem_cons.mp member with rfl | member
        · exact .inr List.mem_cons_self
        · exact (ih member).imp_right (List.mem_cons_of_mem _)

theorem pairwise_insert {terms : List (Key × α)}
    (ordered : terms.Pairwise fun a b => a.1 < b.1) (k : Key) (value : α) :
    (insert k value terms).Pairwise fun a b => a.1 < b.1 := by
  have front (c : α) {terms : List (Key × α)} (below : ∀ term ∈ terms, k < term.1)
      (ordered : terms.Pairwise fun a b => a.1 < b.1) :
      (consNonzero k c terms).Pairwise fun a b => a.1 < b.1 := by
    simp only [consNonzero]
    split
    · exact ordered
    · exact List.pairwise_cons.mpr ⟨below, ordered⟩
  induction terms with
  | nil => exact front _ (by simp) .nil
  | cons first terms ih =>
    have parts := List.pairwise_cons.mp ordered
    simp only [insert]
    split
    next here => exact front _ (fun term member => here ▸ parts.1 term member) parts.2
    next differ =>
      split
      next before =>
        refine front _ (fun term member => ?_) ordered
        rcases List.mem_cons.mp member with rfl | member
        · exact before
        · exact Key.lt_trans before (parts.1 term member)
      next after =>
        refine List.pairwise_cons.mpr ⟨fun term member => ?_, ih parts.2⟩
        rcases key_mem_insert member with same | member
        · exact same ▸ Key.lt_of_not_lt differ after
        · exact parts.1 term member

/-- A term that would have the coefficient zero is not inserted. -/
theorem forall_insert_ne_zero {terms : List (Key × α)}
    (nonzero : ∀ term ∈ terms, (term.2 == Scalar.zero) = false) (key : Key) (c : α) :
    ∀ term ∈ insert key c terms, (term.2 == Scalar.zero) = false := by
  have front (d : α) {terms : List (Key × α)}
      (nonzero : ∀ term ∈ terms, (term.2 == Scalar.zero) = false) :
      ∀ term ∈ consNonzero key d terms, (term.2 == Scalar.zero) = false := by
    simp only [consNonzero]
    split
    next => exact nonzero
    next kept => exact List.forall_mem_cons.mpr ⟨Bool.eq_false_iff.mpr kept, nonzero⟩
  induction terms with
  | nil => exact front _ nonzero
  | cons term terms ih =>
    obtain ⟨first, others⟩ := List.forall_mem_cons.mp nonzero
    simp only [insert]
    split
    · exact front _ others
    · split
      · exact front _ nonzero
      · exact List.forall_mem_cons.mpr ⟨first, ih others⟩

omit [Scalar α] in
theorem ordered_zero : (zero : LinearForm α).Ordered := .nil

theorem Ordered.addTerm {form : LinearForm α} (ordered : form.Ordered) (key : Key)
    (value : α) : (form.addTerm key value).Ordered :=
  pairwise_insert ordered key value

theorem ordered_ofScalar (value : α) : (ofScalar value).Ordered :=
  ordered_zero.addTerm .constant value

theorem ordered_ofKey (key : Key) : (ofKey key : LinearForm α).Ordered :=
  ordered_zero.addTerm key Scalar.one

theorem find?_addTerm {form : LinearForm α} (ordered : form.Ordered) (k : Key) (value : α)
    (key : Key) :
    (form.addTerm k value).find? key =
      if key = k then kept (form.coefficient k + value) else form.find? key :=
  lookup_insert ordered k value key

section Fold

/-- Add terms one after another, each coefficient changed by `f` first. Sums and differences
of forms are of this kind. -/
def addTerms (f : α → α) (form : LinearForm α) (terms : List (Key × α)) : LinearForm α :=
  terms.foldl (fun sum (key, c) => sum.addTerm key (f c)) form

theorem add_eq (a b : LinearForm α) : a + b = addTerms id a b.terms := rfl

theorem sub_eq (a b : LinearForm α) : a - b = addTerms (-·) a b.terms := rfl

theorem Ordered.addTerms {form : LinearForm α} (ordered : form.Ordered) (f : α → α)
    (terms : List (Key × α)) : (form.addTerms f terms).Ordered := by
  induction terms generalizing form with
  | nil => exact ordered
  | cons term terms ih => exact ih (ordered.addTerm term.1 (f term.2))

/-- The terms added have different keys, so each meets the coefficient that the form had. -/
theorem find?_addTerms {form : LinearForm α} (ordered : form.Ordered) (f : α → α)
    {terms : List (Key × α)} (increasing : terms.Pairwise fun a b => a.1 < b.1) (key : Key) :
    (form.addTerms f terms).find? key = match terms.lookup key with
      | none => form.find? key
      | some c => kept (form.coefficient key + f c) := by
  induction terms generalizing form with
  | nil => rfl
  | cons term terms ih =>
    obtain ⟨k, c⟩ := term
    rw [List.pairwise_cons] at increasing
    have later : (form.addTerms f ((k, c) :: terms)).find? key = match terms.lookup key with
        | none => (form.addTerm k (f c)).find? key
        | some d => kept ((form.addTerm k (f c)).coefficient key + f d) :=
      ih (ordered.addTerm k (f c)) increasing.2
    by_cases same : key = k
    · subst same
      have absent : terms.lookup key = none := lookup_of_below increasing.1
      simp [later, absent, find?_addTerm ordered]
    · simp only [later, coefficient, find?_addTerm ordered, if_neg same, List.lookup_cons,
        beq_false_of_ne same]

end Fold

theorem Ordered.add {a : LinearForm α} (ordered : a.Ordered) (b : LinearForm α) :
    (a + b).Ordered :=
  ordered.addTerms id b.terms

theorem Ordered.sub {a : LinearForm α} (ordered : a.Ordered) (b : LinearForm α) :
    (a - b).Ordered :=
  ordered.addTerms (-·) b.terms

theorem find?_add {a b : LinearForm α} (orderedA : a.Ordered) (orderedB : b.Ordered)
    (key : Key) :
    (a + b).find? key = match b.find? key with
      | none => a.find? key
      | some c => kept (a.coefficient key + c) :=
  find?_addTerms orderedA id orderedB key

theorem find?_sub {a b : LinearForm α} (orderedA : a.Ordered) (orderedB : b.Ordered)
    (key : Key) :
    (a - b).find? key = match b.find? key with
      | none => a.find? key
      | some c => kept (a.coefficient key + -c) :=
  find?_addTerms orderedA (-·) orderedB key

omit [Scalar α] in
theorem Ordered.map {form : LinearForm α} (ordered : form.Ordered) (f : α → α) :
    (⟨form.terms.map fun (key, c) => (key, f c)⟩ : LinearForm α).Ordered :=
  List.pairwise_map.mpr ordered

theorem Ordered.neg {form : LinearForm α} (ordered : form.Ordered) : (-form).Ordered :=
  ordered.map (-·)

theorem Ordered.scale {form : LinearForm α} (ordered : form.Ordered) (factor : α) :
    (form.scale factor).Ordered := by
  simp only [LinearForm.scale]
  split
  · exact ordered_zero
  · exact ordered.map (· * factor)

theorem find?_neg (form : LinearForm α) (key : Key) :
    (-form).find? key = (form.find? key).map (-·) :=
  lookup_map (-·) key form.terms

theorem find?_scale (form : LinearForm α) (factor : α) (key : Key) :
    (form.scale factor).find? key =
      if factor == Scalar.zero then none else (form.find? key).map (· * factor) := by
  simp only [scale]
  split
  · rfl
  · exact lookup_map (· * factor) key form.terms

omit [Scalar α] in
/-- A form without variables has at most a constant. -/
theorem isConstant_iff {form : LinearForm α} (ordered : form.Ordered) :
    form.isConstant = true ↔ ∀ key, key ≠ .constant → form.find? key = none := by
  simp only [isConstant, variableTerms, List.isEmpty_iff, List.filter_eq_nil_iff,
    decide_eq_true_eq, not_not]
  constructor
  · intro constant key differ
    cases found : form.find? key with
    | none => rfl
    | some c => exact absurd (constant _ ((find?_eq_some_iff ordered).mp found)) differ
  · rintro absent ⟨key, c⟩ member
    by_contra differ
    have found := (find?_eq_some_iff ordered).mpr member
    rw [absent key differ] at found
    simp at found

end LinearForm

end NetSpec
