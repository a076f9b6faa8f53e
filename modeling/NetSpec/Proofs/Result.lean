import Mathlib

/-!
# Steps that may fail

A sequence of steps succeeds when every step does, with the result of each handed to the next,
and a list of steps succeeds with the results of all its members, or fails where the first of
them fails. These are the forms in which
the proofs about evaluating and assembling take such sequences apart; a list of results is
matched with the list of steps, member by member.
-/

namespace NetSpec

/-- Two steps succeed when the first does and the second does with its result. -/
theorem Except.bind_eq_ok_iff {ε β γ : Type} {first : Except ε β} {next : β → Except ε γ}
    {c : γ} : first >>= next = .ok c ↔ ∃ b, first = .ok b ∧ next b = .ok c := by
  cases first with
  | error e => simp [bind, Except.bind]
  | ok b => simp [bind, Except.bind]

/-- A step that cannot fail has no part in a failure. -/
theorem Except.eq_error_of_bind {ε β γ : Type} {first : Except ε β} {next : β → Except ε γ} {e : ε}
    (failed : first >>= next = .error e) (fine : ∀ b, ∃ c, next b = .ok c) : first = .error e := by
  cases first with
  | error e' =>
    cases failed
    rfl
  | ok b =>
    obtain ⟨c, done⟩ := fine b
    cases done.symm.trans failed

/-- A list of steps succeeds with the results of its members. -/
theorem Except.mapM_eq_ok_iff {ε β γ : Type} {f : β → Except ε γ} {bs : List β} {cs : List γ} :
    bs.mapM f = .ok cs ↔ List.Forall₂ (fun b c => f b = .ok c) bs cs := by
  induction bs generalizing cs with
  | nil =>
    rw [List.mapM_nil, List.forall₂_nil_left_iff]
    exact ⟨fun same => (Except.ok.inj same).symm, fun same => congrArg _ same.symm⟩
  | cons b bs ih =>
    simp only [List.mapM_cons, bind_eq_ok_iff, List.forall₂_cons_left_iff, ih]
    constructor
    · rintro ⟨c, first, cs, others, same⟩
      exact ⟨c, cs, first, others, (Except.ok.inj same).symm⟩
    · rintro ⟨c, cs, first, others, rfl⟩
      exact ⟨c, first, cs, others, rfl⟩

/-- A list of steps fails at a member if those in front of it succeed. -/
theorem Except.mapM_eq_error_iff {ε β γ : Type} {f : β → Except ε γ} {bs : List β} {e : ε} :
    bs.mapM f = .error e ↔ ∃ before b after, bs = before ++ b :: after ∧
      (∀ earlier ∈ before, ∃ c, f earlier = .ok c) ∧ f b = .error e := by
  induction bs with
  | nil => simp [pure, Except.pure]
  | cons b bs ih =>
    rw [List.mapM_cons]
    cases first : f b with
    | error e' =>
      constructor
      · intro failed
        cases failed
        exact ⟨[], b, bs, rfl, List.forall_mem_nil _, first⟩
      · rintro ⟨before, b', after, split, fine, failed⟩
        cases before with
        | nil =>
          obtain rfl := (List.cons.inj split).1
          rw [first] at failed
          cases failed
          rfl
        | cons b'' before =>
          obtain rfl := (List.cons.inj split).1
          obtain ⟨c, done⟩ := fine b List.mem_cons_self
          rw [first] at done
          cases done
    | ok c =>
      have later : (do let cs ← bs.mapM f; pure (c :: cs) : Except ε (List γ)) = .error e ↔
          bs.mapM f = .error e := by
        cases bs.mapM f with
        | error e' => exact ⟨fun same => same, fun same => same⟩
        | ok cs => exact ⟨nofun, nofun⟩
      refine later.trans (ih.trans ⟨?_, ?_⟩)
      · rintro ⟨before, b', after, rfl, fine, failed⟩
        exact ⟨b :: before, b', after, rfl, List.forall_mem_cons.mpr ⟨⟨c, first⟩, fine⟩, failed⟩
      · rintro ⟨before, b', after, split, fine, failed⟩
        cases before with
        | nil =>
          obtain rfl := (List.cons.inj split).1
          rw [first] at failed
          cases failed
        | cons b'' before =>
          exact ⟨before, b', after, (List.cons.inj split).2, (List.forall_mem_cons.mp fine).2,
            failed⟩

/-- A list of steps that either have a result or fail for one cause does so as well. -/
theorem Except.mapM_eq_ite {ε β γ : Type} {f : β → Except ε γ} {p : β → Bool} {g : β → γ} {e : ε}
    {bs : List β} (each : ∀ b ∈ bs, f b = if p b then .ok (g b) else .error e) :
    bs.mapM f = if bs.all p then .ok (bs.map g) else .error e := by
  induction bs with
  | nil => rfl
  | cons b bs ih =>
    obtain ⟨first, others⟩ := List.forall_mem_cons.mp each
    rw [List.mapM_cons, first, ih others, List.all_cons]
    cases p b with
    | false => rfl
    | true => cases bs.all p <;> rfl

/-- Computing that a result has a property finds the result. -/
theorem Except.exists_of_any {ε β : Type} {result : Except ε β} {P : β → Prop} [DecidablePred P]
    (computed : result.toOption.any (fun b => decide (P b)) = true) :
    ∃ b, result = .ok b ∧ P b := by
  cases result with
  | error e => cases computed
  | ok b => exact ⟨b, rfl, of_decide_eq_true computed⟩

/-- Members of a list are matched by members of the other. -/
theorem exists_mem_of_forall₂ {β γ : Type} {R : β → γ → Prop} {bs : List β} {cs : List γ}
    (matched : List.Forall₂ R bs cs) {b : β} (member : b ∈ bs) : ∃ c ∈ cs, R b c := by
  induction matched with
  | nil => simp at member
  | cons here _ ih =>
    rcases List.mem_cons.mp member with rfl | later
    · exact ⟨_, List.mem_cons_self, here⟩
    · obtain ⟨c, inside, related⟩ := ih later
      exact ⟨c, List.mem_cons_of_mem _ inside, related⟩

/-- A computation succeeds with a result of one kind, or fails for a cause of another. -/
inductive Except.Meets {ε β : Type} (good : β → Prop) (cause : ε → Prop) : Except ε β → Prop where
  | error {e : ε} (held : cause e) : Meets good cause (.error e)
  | ok {b : β} (held : good b) : Meets good cause (.ok b)

namespace Except.Meets

variable {ε β γ : Type} {good : β → Prop} {cause : ε → Prop}

theorem of_ok {result : Except ε β} (meets : Meets good cause result) {b : β}
    (found : result = .ok b) : good b := by
  cases meets with
  | error _ => cases found
  | ok held => exact Except.ok.inj found ▸ held

theorem of_error {result : Except ε β} (meets : Meets good cause result) {e : ε}
    (failed : result = .error e) : cause e := by
  cases meets with
  | error held => exact Except.error.inj failed ▸ held
  | ok _ => cases failed

theorem imp_cause {cause' : ε → Prop} (weaker : ∀ e, cause e → cause' e) {result : Except ε β}
    (meets : Meets good cause result) : Meets good cause' result := by
  cases meets with
  | error held => exact .error (weaker _ held)
  | ok held => exact .ok held

/-- Steps in a row fail for a cause of either. -/
theorem bind {good' : γ → Prop} {first : Except ε β} {next : β → Except ε γ}
    (meets : Meets good cause first) (each : ∀ b, good b → Meets good' cause (next b)) :
    Meets good' cause (first >>= next) := by
  cases meets with
  | error held => exact .error held
  | ok held => exact each _ held

/-- A list of steps has the results of its members. -/
theorem mapM {good : γ → Prop} {f : β → Except ε γ} {bs : List β}
    (each : ∀ b ∈ bs, Meets good cause (f b)) : Meets (∀ c ∈ ·, good c) cause (bs.mapM f) := by
  induction bs with
  | nil => exact .ok (List.forall_mem_nil _)
  | cons b bs ih =>
    obtain ⟨first, others⟩ := List.forall_mem_cons.mp each
    rw [List.mapM_cons]
    exact first.bind fun c held => (ih others).bind fun cs all =>
      .ok (List.forall_mem_cons.mpr ⟨held, all⟩)

end Except.Meets

/-- Two computations both fail, for related causes, or both succeed with related results. -/
inductive Except.Agree {ε ε' β γ : Type} (E : ε → ε' → Prop) (R : β → γ → Prop) :
    Except ε β → Except ε' γ → Prop where
  | error {e : ε} {e' : ε'} (cause : E e e') : Agree E R (.error e) (.error e')
  | ok {b : β} {c : γ} (related : R b c) : Agree E R (.ok b) (.ok c)

namespace Except.Agree

variable {ε ε' β β' γ γ' : Type} {E : ε → ε' → Prop} {R : β → γ → Prop}

theorem imp {F : ε → ε' → Prop} {S : β → γ → Prop} (weakerCause : ∀ e e', E e e' → F e e')
    (weaker : ∀ b c, R b c → S b c) {first : Except ε β} {second : Except ε' γ}
    (agree : Agree E R first second) : Agree F S first second := by
  cases agree with
  | error cause => exact .error (weakerCause _ _ cause)
  | ok related => exact .ok (weaker _ _ related)

/-- What agrees with a result is a result. -/
theorem exists_ok {first : Except ε β} {second : Except ε' γ} (agree : Agree E R first second)
    {b : β} (done : first = .ok b) : ∃ c, second = .ok c ∧ R b c := by
  cases agree with
  | error cause => cases done
  | ok related => exact ⟨_, rfl, Except.ok.inj done ▸ related⟩

/-- What agrees with a failure is a failure. -/
theorem exists_error {first : Except ε β} {second : Except ε' γ} (agree : Agree E R first second)
    {e : ε} (failed : first = .error e) : ∃ e', second = .error e' ∧ E e e' := by
  cases agree with
  | error cause => exact ⟨_, rfl, Except.error.inj failed ▸ cause⟩
  | ok related => cases failed

theorem of_eq {E : ε → ε → Prop} {R : β → β → Prop} (reflCause : ∀ e, E e e)
    (refl : ∀ b, R b b) {first second : Except ε β} (same : first = second) :
    Agree E R first second := by
  subst same
  cases first with
  | error e => exact .error (reflCause e)
  | ok b => exact .ok (refl b)

/-- Steps in a row agree if the first ones do, and the second ones on related results. -/
theorem bind {S : β' → γ' → Prop} {first : Except ε β} {second : Except ε' γ}
    {f : β → Except ε β'} {g : γ → Except ε' γ'} (agree : Agree E R first second)
    (next : ∀ b c, R b c → Agree E S (f b) (g c)) : Agree E S (first >>= f) (second >>= g) := by
  cases agree with
  | error cause => exact .error cause
  | ok related => exact next _ _ related

/-- Lists of steps agree if their members do, because the first one that fails is at the same
position in both. -/
theorem mapM {S : β' → γ' → Prop} {f : β → Except ε β'} {g : γ → Except ε' γ'}
    (each : ∀ b c, R b c → Agree E S (f b) (g c)) {bs : List β} {cs : List γ}
    (matched : List.Forall₂ R bs cs) : Agree E (List.Forall₂ S) (bs.mapM f) (cs.mapM g) := by
  induction matched with
  | nil => exact .ok .nil
  | cons here _ ih =>
    rw [List.mapM_cons, List.mapM_cons]
    exact (each _ _ here).bind fun b c first => ih.bind fun bs cs others =>
      .ok (.cons first others)

end Except.Agree

/-- Two computations both fail, or both succeed with related results. -/
inductive Except.Alike {ε β γ : Type} (R : β → γ → Prop) : Except ε β → Except ε γ → Prop where
  | error (e e' : ε) : Alike R (.error e) (.error e')
  | ok {b : β} {c : γ} (related : R b c) : Alike R (.ok b) (.ok c)

namespace Except.Alike

variable {ε β β' γ γ' : Type} {R : β → γ → Prop}

theorem imp {S : β → γ → Prop} (weaker : ∀ b c, R b c → S b c) {first : Except ε β}
    {second : Except ε γ} (alike : Alike R first second) : Alike S first second := by
  cases alike with
  | error e e' => exact .error e e'
  | ok related => exact .ok (weaker _ _ related)

/-- Related results are results. -/
theorem with_ok {first : Except ε β} {second : Except ε γ} (alike : Alike R first second) :
    Alike (fun b c => first = .ok b ∧ second = .ok c ∧ R b c) first second := by
  cases alike with
  | error e e' => exact .error e e'
  | ok related => exact .ok ⟨rfl, rfl, related⟩

/-- Alike is agreeing, whatever the causes of failures. -/
theorem iff_agree {first : Except ε β} {second : Except ε γ} :
    Alike R first second ↔ Agree (fun _ _ => True) R first second := by
  constructor
  · rintro (⟨e, e'⟩ | ⟨related⟩)
    · exact .error trivial
    · exact .ok related
  · rintro (⟨-⟩ | ⟨related⟩)
    · exact .error _ _
    · exact .ok related

theorem of_agree {E : ε → ε → Prop} {first : Except ε β} {second : Except ε γ}
    (agree : Agree E R first second) : Alike R first second :=
  iff_agree.mpr (agree.imp (fun _ _ _ => trivial) fun _ _ related => related)

/-- Steps in a row are alike if the first ones are, and the second ones on related results. -/
theorem bind {S : β' → γ' → Prop} {first : Except ε β} {second : Except ε γ}
    {f : β → Except ε β'} {g : γ → Except ε γ'} (alike : Alike R first second)
    (next : ∀ b c, R b c → Alike S (f b) (g c)) : Alike S (first >>= f) (second >>= g) :=
  iff_agree.mpr <| (iff_agree.mp alike).bind fun b c related => iff_agree.mp (next b c related)

/-- Lists of steps are alike if their members are. -/
theorem mapM {S : β' → γ' → Prop} {f : β → Except ε β'} {g : γ → Except ε γ'}
    (each : ∀ b c, R b c → Alike S (f b) (g c)) {bs : List β} {cs : List γ}
    (matched : List.Forall₂ R bs cs) : Alike (List.Forall₂ S) (bs.mapM f) (cs.mapM g) :=
  iff_agree.mpr <| Agree.mapM (fun b c related => iff_agree.mp (each b c related)) matched

theorem refl (first : Except ε β) : Alike Eq first first := by
  cases first with
  | error e => exact .error e e
  | ok b => exact .ok rfl

theorem trans {S : γ → β' → Prop} {first : Except ε β} {second : Except ε γ}
    {third : Except ε β'} (alike : Alike R first second) (later : Alike S second third) :
    Alike (fun b b' => ∃ c, R b c ∧ S c b') first third := by
  cases alike with
  | error e e' =>
    cases later with
    | error _ e'' => exact .error e e''
  | ok related =>
    cases later with
    | ok onward => exact .ok ⟨_, related, onward⟩

theorem exists_ok_iff {first : Except ε β} {second : Except ε γ} (alike : Alike R first second) :
    (∃ b, first = .ok b) ↔ ∃ c, second = .ok c := by
  cases alike with
  | error e e' => simp
  | ok related => simp

theorem related {first : Except ε β} {second : Except ε γ} (alike : Alike R first second) {b : β}
    {c : γ} (okFirst : first = .ok b) (okSecond : second = .ok c) : R b c := by
  cases alike with
  | error e e' => cases okFirst
  | ok related => exact Except.ok.inj okFirst ▸ Except.ok.inj okSecond ▸ related

end Except.Alike

theorem Except.alike_eq_iff_toOption_eq {ε β : Type} {first second : Except ε β} :
    Alike Eq first second ↔ first.toOption = second.toOption := by
  cases first with
  | error e =>
    cases second with
    | error e' => exact ⟨fun _ => rfl, fun _ => .error e e'⟩
    | ok b' => exact ⟨nofun, nofun⟩
  | ok b =>
    cases second with
    | error e' => exact ⟨nofun, nofun⟩
    | ok b' => exact ⟨fun | .ok same => congrArg some same, fun same => .ok (Option.some.inj same)⟩

/-- A list of steps in another order fails or succeeds alike, with the results in another
order. -/
theorem Except.mapM_perm {ε β γ : Type} (f : β → Except ε γ) {bs bs' : List β}
    (perm : bs.Perm bs') : Alike List.Perm (bs.mapM f) (bs'.mapM f) := by
  induction perm with
  | nil => exact .ok .nil
  | cons b _ ih =>
    rw [List.mapM_cons, List.mapM_cons]
    refine (Alike.refl (f b)).bind fun c c' same => ih.bind fun cs cs' others => ?_
    exact .ok (same ▸ others.cons c)
  | swap b b' bs =>
    simp only [List.mapM_cons]
    cases f b with
    | error e =>
      cases f b' with
      | error e' => exact .error e' e
      | ok c' => exact .error e e
    | ok c =>
      cases f b' with
      | error e' => exact .error e' e'
      | ok c' =>
        cases bs.mapM f with
        | error e => exact .error e e
        | ok cs => exact .ok (.swap c c' cs)
  | trans _ _ first second =>
    refine (first.trans second).imp ?_
    rintro _ _ ⟨_, perm, perm'⟩
    exact perm.trans perm'

/-- Members have the same images if the lists of images are the same. -/
theorem forall₂_eq_iff_map_eq {β γ δ : Type} {f : β → δ} {g : γ → δ} {bs : List β} {cs : List γ} :
    List.Forall₂ (fun b c => f b = g c) bs cs ↔ bs.map f = cs.map g := by
  rw [← List.forall₂_eq_eq_eq, List.forall₂_map_left_iff, List.forall₂_map_right_iff]

/-- Lists with the same images in another order are matched up to order. -/
theorem exists_forall₂_of_map_perm {β γ δ : Type} {f : β → δ} {g : γ → δ} {bs : List β}
    {cs : List γ} (perm : (bs.map f).Perm (cs.map g)) :
    ∃ bs', bs.Perm bs' ∧ List.Forall₂ (fun b c => f b = g c) bs' cs := by
  have images : (Relation.Comp (· = List.map f ·) List.Perm) (cs.map g) bs := by
    rw [List.eq_map_comp_perm]
    exact perm.symm
  obtain ⟨bs', same, reordered⟩ := images
  exact ⟨bs', reordered.symm, forall₂_eq_iff_map_eq.mpr same.symm⟩

/-- Lists of steps are alike up to order if steps with the same image are alike. -/
theorem Except.mapM_alike_of_map_perm {ε β β' γ γ' δ δ' : Type} {f : β → δ} {g : γ → δ}
    {m : β → Except ε β'} {n : γ → Except ε γ'} {p : β' → δ'} {q : γ' → δ'} {bs : List β}
    {cs : List γ} (perm : (bs.map f).Perm (cs.map g))
    (each : ∀ b ∈ bs, ∀ c, f b = g c → Alike (fun x y => p x = q y) (m b) (n c)) :
    Alike (fun xs ys => (xs.map p).Perm (ys.map q)) (bs.mapM m) (cs.mapM n) := by
  obtain ⟨bs', reordered, matched⟩ := exists_forall₂_of_map_perm perm
  have inside : List.Forall₂ (fun b c => b ∈ bs ∧ f b = g c) bs' cs :=
    (List.forall₂_and_left _ _).mpr ⟨fun b member => reordered.mem_iff.mpr member, matched⟩
  have alike : Alike (List.Forall₂ fun x y => p x = q y) (bs'.mapM m) (cs.mapM n) :=
    Alike.mapM (fun b c h => each b h.1 c h.2) inside
  refine ((mapM_perm m reordered).trans alike).imp ?_
  rintro xs ys ⟨zs, perm, same⟩
  exact (perm.map p).trans (.of_eq (forall₂_eq_iff_map_eq.mp same))

/-- Going on after a success. -/
theorem EStateM.bind_of_ok {ε σ β γ : Type} {m : EStateM ε σ β} {f : β → EStateM ε σ γ}
    {s s' : σ} {b : β} (done : m s = .ok b s') : (m >>= f) s = f b s' := by
  simp [bind, EStateM.bind, done]

/-- A failure is the end. -/
theorem EStateM.bind_of_error {ε σ β γ : Type} {m : EStateM ε σ β} {f : β → EStateM ε σ γ}
    {s s' : σ} {e : ε} (failed : m s = .error e s') : (m >>= f) s = .error e s' := by
  simp [bind, EStateM.bind, failed]

/-- A step that cannot fail has no part in a failure. -/
theorem EStateM.eq_error_of_bind {ε σ β γ : Type} {m : EStateM ε σ β} {f : β → EStateM ε σ γ}
    {s s' : σ} {e : ε} (failed : (m >>= f) s = .error e s')
    (fine : ∀ b s, ∃ c s', f b s = .ok c s') : m s = .error e s' := by
  cases outcome : m s with
  | error e' s'' =>
    cases (bind_of_error outcome).symm.trans failed
    rfl
  | ok b s'' =>
    obtain ⟨c, s₃, done⟩ := fine b s''
    cases ((bind_of_ok outcome).trans done).symm.trans failed

end NetSpec
