import NetSpec.Property.Region
import NetSpec.Proofs.Number.Level
import NetSpec.Proofs.Result

/-!
# Boxes by the levels of their ends

A box of binary64 intervals is known up to `==` by the levels of its ends, as
`Box.beq_iff` says. Restricting an interval joins its levels with those of the bound in a
lattice: lower ends by the greater, upper ends by the lesser. Joins commute, so the levels of a
box that has been restricted by roles do not depend on their order, although the ends
themselves do where zeros of different signs meet.

A bound that cannot be compared has no effect. So the ends of a box always can be compared,
and `Box.IsProper` keeps track of that.
-/

namespace NetSpec

open Binary64

/-- Levels of numbers with one below and one above all of them. -/
abbrev End.Level := WithBot (WithTop Binary64.Level)

namespace End

/-- An end that can be compared. -/
def IsProper : End Float → Prop
  | number a => IsNumber a
  | _ => True

instance (e : End Float) : Decidable e.IsProper :=
  match e with
  | bottom => isTrue trivial
  | number a => inferInstanceAs (Decidable (IsNumber a))
  | top => isTrue trivial

/-- The place of an end among the others. -/
def level : End Float → Level
  | bottom => ⊥
  | number a => ((Binary64.level a : WithTop Binary64.Level) : Level)
  | top => ⊤

theorem number_lt_top (a : Float) : (number a).level < top.level :=
  WithBot.coe_lt_coe.mpr (WithTop.coe_lt_top _)

theorem less_iff {a b : End Float} :
    a.less b = true ↔ a.IsProper ∧ b.IsProper ∧ a.level < b.level := by
  cases a with
  | bottom =>
    cases b with
    | bottom => simp [less, level]
    | number b =>
      show (b == b) = true ↔ _
      rw [Binary64.beq_iff]
      simp [level, IsProper]
    | top => simp [less, level, IsProper]
  | number a =>
    cases b with
    | bottom => simp [less, level]
    | number b => simpa [less, level, IsProper, Scalar.less] using Binary64.lt_iff
    | top =>
      show (a == a) = true ↔ _
      rw [Binary64.beq_iff]
      simpa [IsProper] using fun _ => number_lt_top a
  | top => cases b <;> simp [less, level]

theorem beq_iff {a b : End Float} :
    (a == b) = true ↔ a.IsProper ∧ b.IsProper ∧ a.level = b.level := by
  show beq a b = true ↔ _
  cases a with
  | bottom =>
    cases b with
    | bottom => simp [beq, IsProper]
    | number b => simp [beq, level]
    | top => simp [beq, level]
  | number a =>
    cases b with
    | bottom => simp [beq, level]
    | number b => simpa [beq, level, IsProper] using Binary64.beq_iff
    | top => simp [beq, level]
  | top =>
    cases b with
    | bottom => simp [beq, level]
    | number b => simp [beq, level]
    | top => simp [beq, IsProper]

end End

/-- Levels of two ends, ordered so that a join is a smaller interval. -/
abbrev Interval.Levels := End.Level × End.Levelᵒᵈ

namespace Interval

/-- Both ends can be compared. -/
def IsProper (i : Interval Float) : Prop := i.low.IsProper ∧ i.high.IsProper

def levels (i : Interval Float) : Levels := (i.low.level, OrderDual.toDual i.high.level)

theorem beq_iff {i j : Interval Float} (properI : i.IsProper) (properJ : j.IsProper) :
    (i == j) = true ↔ i.levels = j.levels := by
  show (i.low == j.low && i.high == j.high) = true ↔ _
  rw [Bool.and_eq_true, End.beq_iff, End.beq_iff]
  simp [levels, properI.1, properI.2, properJ.1, properJ.2]

/-- The levels that the constraint `c * x + k ≤ 0` joins to those of an interval. -/
def limit (c k : Float) : Levels :=
  let bound := End.ofScalar (bound c k)
  if bound.IsProper then
    if Scalar.less Scalar.zero c then (⊥, OrderDual.toDual bound.level) else (bound.level, ⊥)
  else ⊥

theorem levels_capHigh {i : Interval Float} (proper : i.IsProper) (bound : End Float) :
    (i.capHigh bound).IsProper ∧ (i.capHigh bound).levels =
      i.levels ⊔ if bound.IsProper then (⊥, OrderDual.toDual bound.level) else ⊥ := by
  have unchanged : i.levels ⊔ (⊥, OrderDual.toDual bound.level) =
      (i.low.level, OrderDual.toDual (i.high.level ⊓ bound.level)) := by
    rw [levels, Prod.mk_sup_mk, sup_bot_eq, toDual_inf]
  simp only [capHigh]
  split
  next lower =>
    obtain ⟨properBound, _, below⟩ := End.less_iff.mp lower
    refine ⟨⟨proper.1, properBound⟩, ?_⟩
    rw [if_pos properBound, unchanged, inf_eq_right.mpr below.le]
    rfl
  next notLower =>
    refine ⟨proper, ?_⟩
    split
    next properBound =>
      have above : i.high.level ≤ bound.level := by
        rw [End.less_iff] at notLower
        exact not_lt.mp fun below => notLower ⟨properBound, proper.2, below⟩
      rw [unchanged, inf_eq_left.mpr above]
      rfl
    next => rw [sup_bot_eq]

theorem levels_capLow {i : Interval Float} (proper : i.IsProper) (bound : End Float) :
    (i.capLow bound).IsProper ∧ (i.capLow bound).levels =
      i.levels ⊔ if bound.IsProper then (bound.level, ⊥) else ⊥ := by
  have unchanged : i.levels ⊔ (bound.level, ⊥) =
      (i.low.level ⊔ bound.level, OrderDual.toDual i.high.level) := by
    rw [levels, Prod.mk_sup_mk, sup_bot_eq]
  simp only [capLow]
  split
  next higher =>
    obtain ⟨_, properBound, above⟩ := End.less_iff.mp higher
    refine ⟨⟨properBound, proper.2⟩, ?_⟩
    rw [if_pos properBound, unchanged, sup_eq_right.mpr above.le]
    rfl
  next notHigher =>
    refine ⟨proper, ?_⟩
    split
    next properBound =>
      have below : bound.level ≤ i.low.level := by
        rw [End.less_iff] at notHigher
        exact not_lt.mp fun above => notHigher ⟨proper.1, properBound, above⟩
      rw [unchanged, sup_eq_left.mpr below]
      rfl
    next => rw [sup_bot_eq]

/-- Restricting joins the levels with a limit that depends on the constraint alone. -/
theorem levels_restrict {i : Interval Float} (proper : i.IsProper) (c k : Float) :
    (i.restrict c k).IsProper ∧ (i.restrict c k).levels = i.levels ⊔ limit c k := by
  simp only [restrict, limit]
  split
  next => exact levels_capHigh proper _
  next => exact levels_capLow proper _

end Interval

namespace Box

def IsProper (box : Box Float) : Prop := ∀ i ∈ box.intervals, i.IsProper

def levels (box : Box Float) : List Interval.Levels := box.intervals.map Interval.levels

theorem beq_iff {a b : Box Float} (properA : a.IsProper) (properB : b.IsProper) :
    (a == b) = true ↔ a.levels = b.levels := by
  obtain ⟨is⟩ := a
  obtain ⟨js⟩ := b
  show (is == js) = true ↔ is.map Interval.levels = js.map Interval.levels
  induction is generalizing js with
  | nil => cases js <;> simp
  | cons i is ih =>
    cases js with
    | nil => simp
    | cons j js =>
      obtain ⟨properI, properIs⟩ := List.forall_mem_cons.mp properA
      obtain ⟨properJ, properJs⟩ := List.forall_mem_cons.mp properB
      rw [List.cons_beq_cons, Bool.and_eq_true, Interval.beq_iff properI properJ,
        ih properIs js properJs, List.map_cons, List.map_cons, List.cons.injEq]

theorem isProper_unbounded (size : Nat) : (unbounded size : Box Float).IsProper := by
  intro i member
  rw [List.eq_of_mem_replicate member]
  exact ⟨trivial, trivial⟩

theorem levels_restrict {box : Box Float} (proper : box.IsProper) (index : Nat) (c k : Float) :
    (box.restrict index c k).IsProper ∧
      (box.restrict index c k).levels = box.levels.modify index (· ⊔ Interval.limit c k) := by
  obtain ⟨intervals⟩ := box
  show (∀ i ∈ intervals.modify index (·.restrict c k), i.IsProper) ∧
    (intervals.modify index (·.restrict c k)).map Interval.levels =
      (intervals.map Interval.levels).modify index (· ⊔ Interval.limit c k)
  induction intervals generalizing index with
  | nil => simp
  | cons i intervals ih =>
    obtain ⟨properFirst, properOthers⟩ := List.forall_mem_cons.mp proper
    cases index with
    | zero =>
      obtain ⟨restricted, levels⟩ := Interval.levels_restrict properFirst c k
      refine ⟨List.forall_mem_cons.mpr ⟨restricted, properOthers⟩, ?_⟩
      simp only [List.modify_zero_cons, List.map_cons, levels]
    | succ index =>
      obtain ⟨restricted, levels⟩ := ih index properOthers
      refine ⟨List.forall_mem_cons.mpr ⟨properFirst, restricted⟩, ?_⟩
      simp only [List.modify_succ_cons, List.map_cons, levels]

end Box

namespace Role

/-- What a role does to the levels of a box. -/
def tighten (levels : List Interval.Levels) : Role Float → List Interval.Levels
  | bound index c k => levels.modify index (· ⊔ Interval.limit c k)
  | _ => levels

/-- Roles tighten levels in any order. -/
instance : RightCommutative tighten where
  right_comm levels a b := by
    cases a with
    | constant k => rfl
    | row r => rfl
    | bound i c k =>
      cases b with
      | constant k => rfl
      | row r => rfl
      | bound j d l =>
        by_cases same : i = j
        · subst same
          simp only [tighten, List.modify_modify_eq, Function.comp_def, sup_right_comm]
        · exact List.modify_modify_ne _ _ _ same

theorem levels_restrict {box : Box Float} (proper : box.IsProper) (role : Role Float) :
    (role.restrict box).IsProper ∧ (role.restrict box).levels = tighten box.levels role := by
  cases role with
  | constant k => exact ⟨proper, rfl⟩
  | row r => exact ⟨proper, rfl⟩
  | bound index c k => exact Box.levels_restrict proper index c k

theorem levels_foldl_restrict {box : Box Float} (proper : box.IsProper)
    (roles : List (Role Float)) :
    (roles.foldl restrict box).IsProper ∧
      (roles.foldl restrict box).levels = roles.foldl tighten box.levels := by
  induction roles generalizing box with
  | nil => exact ⟨proper, rfl⟩
  | cons role roles ih =>
    obtain ⟨restricted, levels⟩ := levels_restrict proper role
    rw [List.foldl_cons, List.foldl_cons, ← levels]
    exact ih restricted

end Role

namespace Region

/-- A region has a box whose ends can be compared. -/
theorem isProper_of_ofRows? {rows : Conjunction Float} {dims : Dimensions} {region : Region Float}
    (found : ofRows? rows dims = .ok (some region)) : region.box.IsProper := by
  obtain ⟨roles, _, made⟩ := Except.bind_eq_ok_iff.mp found
  split at made
  next => cases made
  next =>
    obtain rfl := Option.some.inj (Except.ok.inj made)
    exact (Role.levels_foldl_restrict (Box.isProper_unbounded _) roles).1

/-- So have all regions of branches. -/
theorem isProper_of_mapM {branches : Disjunction Float} {dims : Dimensions}
    {regions : List (Option (Region Float))} (made : branches.mapM (ofRows? · dims) = .ok regions) :
    ∀ region ∈ regions.filterMap id, region.box.IsProper := by
  intro region member
  obtain ⟨_, listed, rfl⟩ := List.mem_filterMap.mp member
  obtain ⟨rows, _, found⟩ := exists_mem_of_forall₂ (Except.mapM_eq_ok_iff.mp made).flip listed
  exact isProper_of_ofRows? found

end Region

end NetSpec
