import NetSpec.Proofs.Compiler.Session
import NetSpec.Proofs.Order.Histories

/-!
# Sessions with compilers that hold the same

Two compilers may have met other names, or the same names in another order, and still have asserted
the same. Whatever is asked of them from then on is answered alike: requests fail for the same
cause on both, and where they go well the properties are the same.

The branches of a compiler do not tell which numbers stand for which names, so two compilers
cannot be compared by their branches. They are compared by the terms that they hold. `Holds` says
that the branches of a compiler are those of some terms, and two compilers with tables of their
own are `Corresponding` if they hold the same ones. What a run makes of corresponding compilers is
`Matched`; there is one rule for each way in which runs are put together, and one lemma for each
kind of run.
-/

namespace NetSpec

variable {α : Type} [Scalar α]

/-- The keys of known names stay, and with them the value of a term. -/
theorem Term.evaluate_of_prefix {config : Configuration} {others later : List String} {t : Term}
    (known : ∀ name ∈ t.names, config.Knows others name) (extended : others <+: later) :
    (t.evaluate (config.keyIn later) : Except (CompileError α) (Value α)) =
      t.evaluate (config.keyIn others) := by
  -- Both are what a compiler with the shorter table makes of the term.
  let c : Compiler α := ⟨config, 0, 0, others, .initial⟩
  have silent : config.noteAll others t.names = others := config.noteAll_of_knows known
  have longer : Compiler.result (Compiler.eval t) c = t.evaluate (config.keyIn later) :=
    Compiler.result_eval t c (by rwa [silent])
  have shorter : Compiler.result (Compiler.eval t) c = t.evaluate (config.keyIn others) :=
    Compiler.result_eval t c (by rw [silent])
  rw [← longer, shorter]

/-- What terms assert differs by the numbers of names only. -/
theorem Term.mapM_assertion_renumbered {σ : Equiv.Perm Nat} {keyOf keyOf' : String → Key}
    {terms : List Term}
    (renumbers : ∀ t ∈ terms, ∀ name ∈ t.names, keyOf' name = (keyOf name).renumber σ) :
    Except.Agree Eq (List.Forall₂ (Assertion.Renumbered σ))
      (terms.mapM (Term.assertion keyOf) : Except (CompileError α) (List (Assertion α)))
      (terms.mapM (Term.assertion keyOf')) := by
  refine Except.Agree.mapM (R := fun t t' => t ∈ terms ∧ t = t') ?_
    (List.forall₂_same.mpr fun t listed => ⟨listed, rfl⟩)
  rintro t _ ⟨listed, rfl⟩
  exact t.assertion_renumbered (renumbers t listed)

namespace Compiler

/-! ### The terms that a compiler holds -/

/-- A compiler knows all names of a term, and the term asserts what is given. -/
structure Asserts (c : Compiler α) (t : Term) (assertion : Assertion α) : Prop where
  knows : ∀ name ∈ t.names, c.config.Knows c.others name
  evaluated : t.assertion (c.config.keyIn c.others) = .ok assertion

/-- The branches of a compiler are those of the terms. -/
def Holds (c : Compiler α) (terms : List Term) : Prop :=
  ∃ assertions, List.Forall₂ c.Asserts terms assertions ∧ c.branches = .ofAssertions assertions

variable {c c' : Compiler α} {terms : List Term}

/-- More names in the table make no difference. -/
theorem Asserts.extend {t : Term} {assertion : Assertion α} (asserts : c.Asserts t assertion)
    (config : c'.config = c.config) (extended : c.others <+: c'.others) :
    c'.Asserts t assertion where
  knows name inside := by
    rw [config]
    exact (asserts.knows name inside).imp id extended.mem
  evaluated := by
    rw [config, Term.assertion, Term.evaluate_of_prefix asserts.knows extended]
    exact asserts.evaluated

namespace Holds

theorem of_initial (clean : c.branches = .initial) : c.Holds [] := ⟨[], .nil, clean⟩

theorem extend (holds : c.Holds terms) (config : c'.config = c.config)
    (extended : c.others <+: c'.others) (branches : c'.branches = c.branches) :
    c'.Holds terms := by
  obtain ⟨assertions, asserted, made⟩ := holds
  exact ⟨assertions, asserted.imp fun _ _ asserts => asserts.extend config extended,
    branches.trans made⟩

theorem noting (holds : c.Holds terms) (names : List String) : (c.noting names).Holds terms :=
  holds.extend rfl (c.config.prefix_noteAll c.others names) rfl

theorem declare (holds : c.Holds terms) (name : String) : (c.declare name).Holds terms := by
  rw [declare_eq]
  exact holds.extend rfl (c.config.prefix_note c.others name) rfl

/-- One more term is asserted. -/
theorem asserting (holds : c.Holds terms) {t : Term} {assertion : Assertion α}
    (evaluated : t.assertion (c.config.keyIn (c.config.noteAll c.others t.names)) =
      .ok assertion) : (c.asserting t assertion).Holds (terms ++ [t]) := by
  obtain ⟨assertions, asserted, made⟩ := holds
  have before : List.Forall₂ (c.asserting t assertion).Asserts terms assertions :=
    asserted.imp fun _ _ asserts => asserts.extend rfl (c.config.prefix_noteAll c.others t.names)
  have last : (c.asserting t assertion).Asserts t assertion :=
    ⟨fun name inside => c.config.knows_noteAll inside c.others, evaluated⟩
  refine ⟨assertions ++ [assertion], List.rel_append before (.cons last .nil), ?_⟩
  rw [Branches.ofAssertions_concat, ← made]
  rfl

end Holds

/-- Two compilers hold the same terms. Their tables may list more names, in any order. -/
structure Corresponding (terms : List Term) (c c' : Compiler α) : Prop where
  config : c.config = c'.config
  inputSize : c.inputSize = c'.inputSize
  outputSize : c.outputSize = c'.outputSize
  holds : c.Holds terms
  holds' : c'.Holds terms

namespace Corresponding

theorem refl (holds : c.Holds terms) : Corresponding terms c c := ⟨rfl, rfl, rfl, holds, holds⟩

theorem noting (h : Corresponding terms c c') (names names' : List String) :
    Corresponding terms (c.noting names) (c'.noting names') :=
  ⟨h.config, h.inputSize, h.outputSize, h.holds.noting names, h.holds'.noting names'⟩

theorem declare (h : Corresponding terms c c') (name : String) :
    Corresponding terms (c.declare name) (c'.declare name) where
  config := by rw [config_declare, config_declare, h.config]
  inputSize := by simp only [declare_eq, h.config, h.inputSize]
  outputSize := by simp only [declare_eq, h.config, h.outputSize]
  holds := h.holds.declare name
  holds' := h.holds'.declare name

theorem reset (h : Corresponding terms c c') : Corresponding [] c.reset c'.reset :=
  ⟨h.config, h.inputSize, h.outputSize, .of_initial rfl, .of_initial rfl⟩

/-- The keys of names that both know differ by their numbers. -/
theorem exists_renumbering (h : Corresponding terms c c') {names : List String}
    (knows : ∀ name ∈ names, c.config.Knows c.others name)
    (knows' : ∀ name ∈ names, c'.config.Knows c'.others name) :
    ∃ σ : Equiv.Perm Nat, ∀ name ∈ names,
      c'.config.keyIn c'.others name = (c.config.keyIn c.others name).renumber σ := by
  rw [← h.config] at knows' ⊢
  exact c.config.exists_renumbering_of_knows knows knows'

/-- The branches differ by the numbers of names. -/
theorem branches_renumbered (h : Corresponding terms c c') :
    ∃ σ : Equiv.Perm Nat, c.branches.Renumbered σ c'.branches := by
  obtain ⟨assertions, asserted, made⟩ := h.holds
  obtain ⟨assertions', asserted', made'⟩ := h.holds'
  have knows {c : Compiler α} {assertions : List (Assertion α)}
      (asserted : List.Forall₂ c.Asserts terms assertions) :
      ∀ name ∈ terms.flatMap Term.names, c.config.Knows c.others name := by
    intro name member
    obtain ⟨t, listed, inside⟩ := List.mem_flatMap.mp member
    obtain ⟨assertion, -, asserts⟩ := exists_mem_of_forall₂ asserted listed
    exact asserts.knows name inside
  obtain ⟨σ, renumbers⟩ := h.exists_renumbering (knows asserted) (knows asserted')
  have agree := Term.mapM_assertion_renumbered (α := α) fun t listed name inside =>
    renumbers name (List.mem_flatMap.mpr ⟨t, listed, inside⟩)
  rw [Except.mapM_eq_ok_iff.mpr (asserted.imp fun _ _ asserts => asserts.evaluated),
    Except.mapM_eq_ok_iff.mpr (asserted'.imp fun _ _ asserts => asserts.evaluated)] at agree
  obtain ⟨_, same, each⟩ := agree.exists_ok rfl
  cases same
  refine ⟨σ, ?_⟩
  rw [made, made']
  exact Branches.Renumbered.initial.foldl each

/-- One more term is asserted. -/
theorem asserting (h : Corresponding terms c c') {t : Term} {assertion assertion' : Assertion α}
    (evaluated : t.assertion (c.config.keyIn (c.config.noteAll c.others t.names)) = .ok assertion)
    (evaluated' : t.assertion (c'.config.keyIn (c'.config.noteAll c'.others t.names)) =
      .ok assertion') :
    Corresponding (terms ++ [t]) (c.asserting t assertion) (c'.asserting t assertion') :=
  ⟨h.config, h.inputSize, h.outputSize, h.holds.asserting evaluated, h.holds'.asserting evaluated'⟩

/-- The names of a term have keys that differ by their numbers once both have met them. -/
theorem exists_renumbering_noting (h : Corresponding terms c c') (names : List String) :
    ∃ σ : Equiv.Perm Nat, ∀ name ∈ names,
      c'.config.keyIn (c'.config.noteAll c'.others names) name =
        (c.config.keyIn (c.config.noteAll c.others names) name).renumber σ :=
  (h.noting names names).exists_renumbering (fun _ met => c.config.knows_noteAll met c.others)
    fun _ met => c'.config.knows_noteAll met c'.others

end Corresponding

/-! ### Runs of corresponding compilers -/

/-- Two runs go well with related results, or fail for causes that are alike. The compilers that
they leave hold the same terms, which are among the given ones. -/
inductive Matched {β γ : Type} (R : β → γ → Prop) (terms : List Term) :
    EStateM.Result (CompileError α) (Compiler α) β →
      EStateM.Result (CompileError α) (Compiler α) γ → Prop where
  | ok {b : β} {b' : γ} {c c' : Compiler α} {held : List Term} (related : R b b')
    (among : held.Sublist terms) (corresponding : Corresponding held c c') :
    Matched R terms (.ok b c) (.ok b' c')
  | error {e e' : CompileError α} {c c' : Compiler α} {held : List Term} (cause : e.Alike e')
    (among : held.Sublist terms) (corresponding : Corresponding held c c') :
    Matched R terms (.error e c) (.error e' c')

namespace Matched

variable {β γ : Type} {R : β → γ → Prop}

theorem mono {more : List Term} {first : EStateM.Result (CompileError α) (Compiler α) β}
    {second : EStateM.Result (CompileError α) (Compiler α) γ}
    (matched : Matched R terms first second) (wider : terms.Sublist more) : Matched R more first second := by
  cases matched with
  | ok related among corresponding => exact .ok related (among.trans wider) corresponding
  | error cause among corresponding => exact .error cause (among.trans wider) corresponding

theorem agree {run : M α β} {run' : M α γ} (matched : Matched R terms (run c) (run' c')) :
    Except.Agree CompileError.Alike R (result run c) (result run' c') := by
  unfold result
  generalize run c = outcome, run' c' = outcome' at matched ⊢
  cases matched with
  | ok related _ _ => exact .ok related
  | error cause _ _ => exact .error cause

theorem left {run : M α β} {run' : M α γ} (matched : Matched R terms (run c) (run' c')) :
    ∃ held, held.Sublist terms ∧ Corresponding held (left run c) (Compiler.left run' c') := by
  unfold Compiler.left
  generalize run c = outcome, run' c' = outcome' at matched ⊢
  cases matched with
  | ok _ among corresponding => exact ⟨_, among, corresponding⟩
  | error _ among corresponding => exact ⟨_, among, corresponding⟩

end Matched

/-- Two runs are matched on compilers that hold the same terms, and assert the given ones at
most. -/
def Parallel {β γ : Type} (R : β → γ → Prop) (asserted : List Term) (run : M α β) (run' : M α γ) :
    Prop :=
  ∀ ⦃terms : List Term⦄ ⦃c c' : Compiler α⦄, Corresponding terms c c' →
    Matched R (terms ++ asserted) (run c) (run' c')

namespace Parallel

variable {β β' γ γ' : Type} {R : β → γ → Prop} {S : β' → γ' → Prop}

theorem pure {b : β} {b' : γ} (related : R b b') :
    Parallel (α := α) R [] (Pure.pure b) (Pure.pure b') := fun _ _ _ h =>
  .ok related (List.sublist_append_left _ []) h

/-- Runs in a row assert the terms of both. -/
theorem bind {asserted more : List Term} {run : M α β} {run' : M α γ} {next : β → M α β'}
    {next' : γ → M α γ'} (first : Parallel R asserted run run')
    (second : ∀ b b', R b b' → Parallel S more (next b) (next' b')) :
    Parallel S (asserted ++ more) (run >>= next) (run' >>= next') := by
  intro terms c c' h
  have started := first h
  rw [← List.append_assoc]
  simp only [Bind.bind, EStateM.bind]
  generalize run c = outcome, run' c' = outcome' at started ⊢
  cases started with
  | ok related among corresponding =>
    exact (second _ _ related corresponding).mono (among.append_right more)
  | error cause among corresponding =>
    exact .error cause (among.trans (List.sublist_append_left _ more)) corresponding

/-- What is done with a result need not assert terms. -/
theorem bind_nil {asserted : List Term} {run : M α β} {run' : M α γ} {next : β → M α β'}
    {next' : γ → M α γ'} (first : Parallel R asserted run run')
    (second : ∀ b b', R b b' → Parallel S [] (next b) (next' b')) :
    Parallel S asserted (run >>= next) (run' >>= next') := by
  simpa using first.bind second

/-- Evaluating a term on both results in values that differ by numbers. -/
theorem eval (t : Term) : Parallel (α := α) (fun value value' => ∃ σ, value.Renumbered σ value') []
    (eval t) (Compiler.eval t) := by
  intro terms c c' h
  obtain ⟨σ, renumbers⟩ := h.exists_renumbering_noting t.names
  have run := follows_walk t c List.prefix_rfl rfl
  have run' := follows_walk t c' List.prefix_rfl rfl
  show Matched _ _ (t.walk handlers c) (t.walk handlers c')
  have agree := t.evaluate_renumbered (α := α) renumbers
  cases outcome : (t.evaluate (c.config.keyIn (c.config.noteAll c.others t.names)) :
      Except (CompileError α) (Value α)) with
  | ok value =>
    obtain ⟨value', outcome', renumbered⟩ := agree.exists_ok outcome
    rw [outcome] at run
    rw [outcome'] at run'
    rw [run, run']
    exact .ok ⟨σ, renumbered⟩ (List.sublist_append_left _ []) (h.noting _ _)
  | error e =>
    obtain ⟨_, outcome', rfl⟩ := agree.exists_error outcome
    rw [outcome] at run
    rw [outcome'] at run'
    obtain ⟨met, -, failed⟩ := run
    obtain ⟨met', -, failed'⟩ := run'
    rw [failed, failed']
    exact .error (.refl e) (List.sublist_append_left _ []) (h.noting met met')

/-- A command asserts its term on both, or fails on both. -/
theorem command (k : Command) : Parallel (α := α) Eq k.asserted?.toList (command k)
    (Compiler.command k) := by
  intro terms c c' h
  cases k with
  | declareConst symbol sort =>
    exact .ok rfl (List.sublist_append_left _ []) (h.declare symbol)
  | assert t =>
    obtain ⟨σ, renumbers⟩ := h.exists_renumbering_noting t.names
    have agree := t.assertion_renumbered (α := α) renumbers
    have run := walk_assert t c List.prefix_rfl rfl
    have run' := walk_assert t c' List.prefix_rfl rfl
    show Matched _ _ ((Command.assert t).walk handlers c) ((Command.assert t).walk handlers c')
    split at run
    next assertion evaluated =>
      obtain ⟨assertion', evaluated', -⟩ := agree.exists_ok evaluated
      rw [evaluated'] at run'
      rw [run, run']
      exact .ok rfl (List.Sublist.refl _) (h.asserting evaluated evaluated')
    next e evaluated =>
      obtain ⟨_, evaluated', rfl⟩ := agree.exists_error evaluated
      rw [evaluated'] at run'
      obtain ⟨met, failed⟩ := run
      obtain ⟨met', failed'⟩ := run'
      rw [failed, failed']
      exact .error (.refl e) (List.sublist_append_left _ [t]) (h.noting met met')

theorem walkCommands (commands : List Command) :
    Parallel (α := α) Eq (commands.filterMap Command.asserted?)
      (Script.walkCommands handlers commands) (Script.walkCommands handlers commands) := by
  induction commands with
  | nil => exact .pure rfl
  | cons k commands ih =>
    have asserted : (k :: commands).filterMap Command.asserted? =
        k.asserted?.toList ++ commands.filterMap Command.asserted? := by
      cases k <;> rfl
    rw [asserted]
    refine (command k).bind fun result _ same => ih.bind_nil fun results _ same' => .pure ?_
    rw [same, same']

/-- Finishing makes the same properties on both. -/
theorem finish (results results' : List Unit) :
    Parallel (α := α) Eq [] (handlers.script results) (handlers.script results') := by
  intro terms c c' h
  obtain ⟨σ, renumbered⟩ := h.branches_renumbered
  have agree : Except.Agree CompileError.Alike Eq (c.branches.properties c.dimensions)
      (c'.branches.properties c'.dimensions) :=
    renumbered.properties_agree h.inputSize h.outputSize
  rw [handlers_script, handlers_script]
  generalize c.branches.properties c.dimensions = assembled,
    c'.branches.properties c'.dimensions = assembled' at agree ⊢
  cases agree with
  | ok same => exact .ok same (List.nil_sublist _) h.reset
  | error cause => exact .error cause (List.nil_sublist _) h.reset

theorem script (s : Script) : Parallel (α := α) Eq s.asserted (script s) (Compiler.script s) :=
  (walkCommands s.commands).bind_nil fun results results' _ => finish results results'

end Parallel

end Compiler

/-- The same answer, but for the numbers of names in a value. -/
inductive Answer.Alike : Answer α → Answer α → Prop where
  | value {σ : Equiv.Perm Nat} {value value' : Value α} (renumbered : value.Renumbered σ value') :
    Alike (.value value) (.value value')
  | done : Alike .done .done
  | properties (properties : List (Property α)) :
    Alike (.properties properties) (.properties properties)

namespace Compiler

variable {c c' : Compiler α} {terms : List Term}

theorem parallel_serve (request : Request) :
    Parallel (α := α) Answer.Alike request.asserted (serve request) (serve request) := by
  cases request with
  | eval t => exact (Parallel.eval t).bind_nil fun _ _ ⟨_, renumbered⟩ => .pure (.value renumbered)
  | command k => exact (Parallel.command k).bind_nil fun _ _ _ => .pure .done
  | script s =>
    exact (Parallel.script s).bind_nil fun properties _ same =>
      .pure (same ▸ .properties properties)
  | finish =>
    exact (Parallel.finish [] []).bind_nil fun properties _ same =>
      .pure (same ▸ .properties properties)

/-- Compilers that hold the same terms answer all requests alike. -/
theorem Corresponding.session (h : Corresponding terms c c') (requests : List Request) :
    List.Forall₂ (Except.Agree CompileError.Alike Answer.Alike) (answers requests c)
      (answers requests c') ∧
    ∃ held, held.Sublist (terms ++ requests.flatMap Request.asserted) ∧
      Corresponding held (session requests c) (Compiler.session requests c') := by
  induction requests generalizing terms c c' with
  | nil => exact ⟨.nil, terms, List.sublist_append_left _ _, h⟩
  | cons request requests ih =>
    have matched := parallel_serve request h
    obtain ⟨between, among, corresponding⟩ := matched.left
    obtain ⟨later, held, among', behind⟩ := ih corresponding
    refine ⟨.cons matched.agree later, held, among'.trans ?_, behind⟩
    rw [List.flatMap_cons, ← List.append_assoc]
    exact among.append_right _

/-- Every session ends with the terms that it has asserted, or with some of them. -/
theorem exists_holds (config : Configuration) (requests : List Request) :
    ∃ held, held.Sublist (requests.flatMap Request.asserted) ∧
      (session requests (new config : Compiler α)).Holds held := by
  have start : Corresponding [] (new config : Compiler α) (new config) := .refl (.of_initial rfl)
  obtain ⟨-, held, among, behind⟩ := start.session requests
  exact ⟨held, among, behind.holds⟩

end Compiler

end NetSpec
