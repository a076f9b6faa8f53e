import NetSpec.Proofs.Property.Levels

/-!
# The bounds of a box

Each end of an interval is the best of the bounds that have been taken into account: the greatest
of the lower ones, the least of the upper ones. It is one of them, although another may be equal
to it. This is what one restriction keeps, so it holds after any number of them, with the bounds
of all.
-/

namespace NetSpec

open Binary64

namespace End

/-- An end is at most another one if it is less or equal. -/
instance : LE (End Float) := ⟨fun a b => a.less b = true ∨ (a == b) = true⟩

theorem le_iff {a b : End Float} : a ≤ b ↔ a.IsProper ∧ b.IsProper ∧ a.level ≤ b.level := by
  show (a.less b = true ∨ (a == b) = true) ↔ _
  rw [less_iff, beq_iff, le_iff_lt_or_eq, ← and_or_left, ← and_or_left]

theorem le_refl {a : End Float} (proper : a.IsProper) : a ≤ a :=
  le_iff.mpr ⟨proper, proper, le_rfl⟩

theorem le_trans {a b c : End Float} (first : a ≤ b) (second : b ≤ c) : a ≤ c := by
  rw [le_iff] at *
  exact ⟨first.1, second.2.1, first.2.2.trans second.2.2⟩

theorem isProper_of_le {a b : End Float} (le : a ≤ b) : a.IsProper := (le_iff.mp le).1

theorem isLeast_singleton {a : End Float} (proper : a.IsProper) : IsLeast {a} a := by
  refine ⟨rfl, ?_⟩
  rintro _ rfl
  exact le_refl proper

theorem isGreatest_singleton {a : End Float} (proper : a.IsProper) : IsGreatest {a} a := by
  refine ⟨rfl, ?_⟩
  rintro _ rfl
  exact le_refl proper

/-- The end at a number can be compared. -/
theorem isProper_ofScalar {x : Float} (number : IsNumber x) : (ofScalar x).IsProper := by
  simp only [ofScalar]
  split
  next => trivial
  next =>
    split
    next => trivial
    next => exact number

end End

namespace Interval

/-- The ends of an interval are the best of those that it could have. -/
structure IsTightest (lowers uppers : Set (End Float)) (i : Interval Float) : Prop where
  low : IsGreatest lowers i.low
  high : IsLeast uppers i.high

/-- An interval has its own ends. -/
theorem isTightest_self {i : Interval Float} (proper : i.IsProper) :
    i.IsTightest {i.low} {i.high} :=
  ⟨End.isGreatest_singleton proper.1, End.isLeast_singleton proper.2⟩

/-- The best of the best is the best. -/
theorem IsTightest.trans {lowers uppers lowers' uppers' : Set (End Float)} {i j : Interval Float}
    (first : i.IsTightest lowers uppers)
    (second : j.IsTightest (insert i.low lowers') (insert i.high uppers')) :
    j.IsTightest (lowers ∪ lowers') (uppers ∪ uppers') where
  low := by
    refine ⟨?_, fun low member => ?_⟩
    · rcases second.low.1 with same | later
      · exact .inl (same ▸ first.low.1)
      · exact .inr later
    · rcases member with member | member
      · exact End.le_trans (first.low.2 member) (second.low.2 (.inl rfl))
      · exact second.low.2 (.inr member)
  high := by
    refine ⟨?_, fun high member => ?_⟩
    · rcases second.high.1 with same | later
      · exact .inl (same ▸ first.high.1)
      · exact .inr later
    · rcases member with member | member
      · exact End.le_trans (second.high.2 (.inl rfl)) (first.high.2 member)
      · exact second.high.2 (.inr member)

theorem isTightest_capHigh {i : Interval Float} {bound : End Float} (proper : i.IsProper)
    (properBound : bound.IsProper) : (i.capHigh bound).IsTightest {i.low} {i.high, bound} := by
  have low := End.isGreatest_singleton proper.1
  simp only [capHigh]
  split
  next below =>
    refine ⟨low, .inr rfl, ?_⟩
    rintro _ (rfl | rfl)
    · exact .inl below
    · exact End.le_refl properBound
  next notBelow =>
    refine ⟨low, .inl rfl, ?_⟩
    rintro _ (rfl | rfl)
    · exact End.le_refl proper.2
    · rw [End.less_iff] at notBelow
      exact End.le_iff.mpr ⟨proper.2, properBound,
        not_lt.mp fun below => notBelow ⟨properBound, proper.2, below⟩⟩

theorem isTightest_capLow {i : Interval Float} {bound : End Float} (proper : i.IsProper)
    (properBound : bound.IsProper) : (i.capLow bound).IsTightest {i.low, bound} {i.high} := by
  have high := End.isLeast_singleton proper.2
  simp only [capLow]
  split
  next above =>
    refine ⟨⟨.inr rfl, ?_⟩, high⟩
    rintro _ (rfl | rfl)
    · exact .inl above
    · exact End.le_refl properBound
  next notAbove =>
    refine ⟨⟨.inl rfl, ?_⟩, high⟩
    rintro _ (rfl | rfl)
    · exact End.le_refl proper.1
    · rw [End.less_iff] at notAbove
      exact End.le_iff.mpr ⟨properBound, proper.1,
        not_lt.mp fun above => notAbove ⟨proper.1, properBound, above⟩⟩

/-- An interval whose ends are the best of some is one whose ends can be compared. -/
theorem IsTightest.isProper {lowers uppers : Set (End Float)} {i : Interval Float}
    (tightest : i.IsTightest lowers uppers) : i.IsProper :=
  ⟨End.isProper_of_le (tightest.low.2 tightest.low.1),
    End.isProper_of_le (tightest.high.2 tightest.high.1)⟩

end Interval

namespace Role

/-- The lower bounds that a role puts on an input. -/
def lowers (index : Nat) : Role Float → Set (End Float)
  | bound i c k => {low | i = index ∧ ¬ 0.0 < c ∧ low = .ofScalar (Interval.bound c k)}
  | _ => ∅

/-- The upper bounds that a role puts on an input. -/
def uppers (index : Nat) : Role Float → Set (End Float)
  | bound i c k => {high | i = index ∧ 0.0 < c ∧ high = .ofScalar (Interval.bound c k)}
  | _ => ∅

theorem size_restrict (box : Box Float) (role : Role Float) :
    (role.restrict box).size = box.size := by
  cases role with
  | constant k => rfl
  | row r => rfl
  | bound i c k => exact Box.size_restrict box i c k

theorem size_foldl_restrict (box : Box Float) (roles : List (Role Float)) :
    (roles.foldl restrict box).size = box.size := by
  induction roles generalizing box with
  | nil => rfl
  | cons role roles ih => rw [List.foldl_cons, ih, size_restrict]

/-- What a role does to the interval of an input. -/
def restrictAt (index : Nat) (interval : Interval Float) : Role Float → Interval Float
  | bound i c k => if i = index then interval.restrict c k else interval
  | _ => interval

/-- A bound on an input can be compared. -/
def IsProper : Role Float → Prop
  | bound _ c k => (End.ofScalar (Interval.bound c k)).IsProper
  | _ => True

theorem getElem?_restrict (box : Box Float) (role : Role Float) (index : Nat) :
    (role.restrict box).intervals[index]? =
      box.intervals[index]?.map (restrictAt index · role) := by
  cases role with
  | constant k => simp [restrict, restrictAt]
  | row r => simp [restrict, restrictAt]
  | bound i c k =>
    simp only [restrict, restrictAt, Box.restrict, List.getElem?_modify]
    split <;> simp

theorem getElem?_foldl_restrict (box : Box Float) (roles : List (Role Float)) (index : Nat) :
    (roles.foldl restrict box).intervals[index]? =
      box.intervals[index]?.map (roles.foldl (restrictAt index)) := by
  induction roles generalizing box with
  | nil => simp
  | cons role roles ih =>
    rw [List.foldl_cons, ih, getElem?_restrict, Option.map_map]
    rfl

/-- One role tightens an interval by the bounds that it puts on the input. -/
theorem isTightest_restrictAt {interval : Interval Float} (proper : interval.IsProper)
    {role : Role Float} (properRole : role.IsProper) (index : Nat) :
    (restrictAt index interval role).IsTightest (insert interval.low (role.lowers index))
      (insert interval.high (role.uppers index)) := by
  cases role with
  | constant k => simpa [lowers, uppers, restrictAt] using Interval.isTightest_self proper
  | row r => simpa [lowers, uppers, restrictAt] using Interval.isTightest_self proper
  | bound i c k =>
    simp only [restrictAt, lowers, uppers]
    split
    next here =>
      by_cases positive : 0.0 < c
      · have restricted :
            interval.restrict c k = interval.capHigh (.ofScalar (Interval.bound c k)) :=
          if_pos (decide_eq_true positive)
        rw [restricted]
        simpa [here, positive] using Interval.isTightest_capHigh proper properRole
      · have restricted :
            interval.restrict c k = interval.capLow (.ofScalar (Interval.bound c k)) :=
          if_neg fun less => positive (of_decide_eq_true less)
        rw [restricted]
        simpa [here, positive] using Interval.isTightest_capLow proper properRole
    next elsewhere => simpa [elsewhere] using Interval.isTightest_self proper

/-- So all roles tighten it by all of these bounds. -/
theorem isTightest_foldl_restrictAt {interval : Interval Float} (proper : interval.IsProper)
    {roles : List (Role Float)} (properRoles : ∀ role ∈ roles, role.IsProper) (index : Nat) :
    (roles.foldl (restrictAt index) interval).IsTightest
      (insert interval.low {low | ∃ role ∈ roles, low ∈ role.lowers index})
      (insert interval.high {high | ∃ role ∈ roles, high ∈ role.uppers index}) := by
  induction roles generalizing interval with
  | nil => simpa using Interval.isTightest_self proper
  | cons role roles ih =>
    obtain ⟨properRole, properRoles⟩ := List.forall_mem_cons.mp properRoles
    have first := isTightest_restrictAt proper properRole index
    have all := first.trans (ih first.isProper properRoles)
    simpa [Set.insert_union, Set.ofPred_or] using all

end Role

end NetSpec
