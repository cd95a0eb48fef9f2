import Mathlib.Tactic.Tauto
import StreamGrammar.CharSet

/-!
# The algebra of code point sets

Every operation on sets works on lists of ranges that are in order, non-empty and
separated by missing numbers. Such a list is called spaced here. This file shows
that the operations keep lists spaced and that they denote what they are named
for: a number is in a union, an overlap or a complement exactly when it should be.
Being spaced is needed for the denotation too, since the overlaps of two lists are
found in a single sweep that never looks back.
-/

namespace StreamGrammar

namespace CodeRange

/-- The number lies in one of the listed ranges. -/
def InSome (ranges : List CodeRange) (number : Nat) : Prop :=
  ∃ range ∈ ranges, range.Contains number

@[simp]
theorem not_inSome_nil (number : Nat) : ¬InSome [] number := by
  simp [InSome]

@[simp]
theorem inSome_cons {range : CodeRange} {rest : List CodeRange} {number : Nat} :
    InSome (range :: rest) number ↔ range.Contains number ∨ InSome rest number := by
  simp [InSome]

theorem inSome_append {left right : List CodeRange} {number : Nat} :
    InSome (left ++ right) number ↔ InSome left number ∨ InSome right number := by
  simp only [InSome, List.mem_append, or_and_right, exists_or]

theorem inSome_congr {left right : List CodeRange}
    (same : ∀ range, range ∈ left ↔ range ∈ right) (number : Nat) :
    InSome left number ↔ InSome right number := by
  simp only [InSome, same]

/-- The left range ends before the right one begins, with a number between them. -/
def EndsBefore (left right : CodeRange) : Prop :=
  left.last + 1 < right.first

/-- The ranges are in order, none is empty, and numbers are missing between any two of them. -/
structure Spaced (ranges : List CodeRange) : Prop where
  nonempty : ∀ range ∈ ranges, range.first ≤ range.last
  apart : ranges.Pairwise EndsBefore

namespace Spaced

theorem nil : Spaced [] := ⟨by simp, .nil⟩

theorem sublist {part ranges : List CodeRange} (spaced : Spaced ranges)
    (isPart : part.Sublist ranges) : Spaced part :=
  ⟨fun range range_mem => spaced.nonempty range (isPart.mem range_mem), spaced.apart.sublist isPart⟩

theorem tail {range : CodeRange} {rest : List CodeRange} (spaced : Spaced (range :: rest)) :
    Spaced rest :=
  spaced.sublist (List.sublist_cons_self range rest)

theorem head_nonempty {range : CodeRange} {rest : List CodeRange}
    (spaced : Spaced (range :: rest)) : range.first ≤ range.last :=
  spaced.nonempty range List.mem_cons_self

theorem endsBefore {range later : CodeRange} {rest : List CodeRange}
    (spaced : Spaced (range :: rest)) (later_mem : later ∈ rest) : range.EndsBefore later :=
  List.rel_of_pairwise_cons spaced.apart later_mem

theorem cons {range : CodeRange} {rest : List CodeRange} (nonempty : range.first ≤ range.last)
    (before : ∀ later ∈ rest, range.EndsBefore later) (spaced : Spaced rest) :
    Spaced (range :: rest) := by
  refine ⟨?_, List.pairwise_cons.mpr ⟨before, spaced.apart⟩⟩
  intro member member_mem
  rcases List.mem_cons.mp member_mem with rfl | member_mem
  · exact nonempty
  · exact spaced.nonempty member member_mem

end Spaced

theorem mem_insertOrdered {range member : CodeRange} {ranges : List CodeRange} :
    member ∈ insertOrdered range ranges ↔ member = range ∨ member ∈ ranges := by
  induction ranges with
  | nil => simp [insertOrdered]
  | cons next rest ih =>
      simp only [insertOrdered]
      split
      · simp
      · simp only [List.mem_cons, ih]
        exact or_left_comm

theorem mem_ordered {member : CodeRange} {ranges : List CodeRange} :
    member ∈ ordered ranges ↔ member ∈ ranges := by
  induction ranges with
  | nil => simp [ordered]
  | cons range rest ih =>
      change member ∈ insertOrdered range (ordered rest) ↔ _
      rw [mem_insertOrdered, ih, List.mem_cons]

theorem pairwise_insertOrdered {range : CodeRange} {ranges : List CodeRange}
    (inOrder : ranges.Pairwise fun left right => left.first ≤ right.first) :
    (insertOrdered range ranges).Pairwise fun left right => left.first ≤ right.first := by
  induction ranges with
  | nil => simp [insertOrdered]
  | cons next rest ih =>
      have next_le := List.pairwise_cons.mp inOrder |>.1
      simp only [insertOrdered]
      split
      next first =>
        have range_le : range.first ≤ next.first := by
          simp only [precedes, Bool.or_eq_true, decide_eq_true_eq, Bool.and_eq_true,
            beq_iff_eq] at first
          omega
        refine List.pairwise_cons.mpr ⟨?_, inOrder⟩
        intro later later_mem
        rcases List.mem_cons.mp later_mem with rfl | later_mem
        · exact range_le
        · exact Nat.le_trans range_le (next_le later later_mem)
      next notFirst =>
        refine List.pairwise_cons.mpr ⟨?_, ih inOrder.tail⟩
        intro later later_mem
        rcases mem_insertOrdered.mp later_mem with rfl | later_mem
        · simp only [precedes, Bool.or_eq_true, decide_eq_true_eq] at notFirst
          omega
        · exact next_le later later_mem

theorem pairwise_ordered (ranges : List CodeRange) :
    (ordered ranges).Pairwise fun left right => left.first ≤ right.first := by
  induction ranges with
  | nil => exact .nil
  | cons range rest ih => exact pairwise_insertOrdered ih

/-- Joining ordered ranges changes none of the numbers that they hold. -/
theorem inSome_coalesceFrom {current : CodeRange} {ranges : List CodeRange}
    (nonempty : ∀ range ∈ current :: ranges, range.first ≤ range.last)
    (inOrder : (current :: ranges).Pairwise fun left right => left.first ≤ right.first)
    (number : Nat) :
    InSome (coalesceFrom current ranges) number ↔ InSome (current :: ranges) number := by
  induction ranges generalizing current with
  | nil => simp [coalesceFrom]
  | cons next rest ih =>
      simp only [List.mem_cons, forall_eq_or_imp] at nonempty
      rcases nonempty with ⟨current_nonempty, next_nonempty, rest_nonempty⟩
      rcases List.pairwise_cons.mp inOrder with ⟨current_le, rest_inOrder⟩
      have current_le_next := current_le next List.mem_cons_self
      simp only [coalesceFrom]
      split
      next touches =>
        rw [ih, inSome_cons, inSome_cons, inSome_cons, ← or_assoc]
        · refine or_congr_left ?_
          simp only [Contains]
          omega
        · simp only [List.mem_cons, forall_eq_or_imp]
          exact ⟨by omega, rest_nonempty⟩
        · refine List.pairwise_cons.mpr ⟨?_, rest_inOrder.tail⟩
          intro later later_mem
          exact current_le later (.tail _ later_mem)
      next apart =>
        rw [inSome_cons, ih, ← inSome_cons]
        · simp only [List.mem_cons, forall_eq_or_imp]
          exact ⟨next_nonempty, rest_nonempty⟩
        · exact rest_inOrder

/-- Joining ordered ranges leaves none that overlap or touch, and none that begins earlier. -/
theorem spaced_coalesceFrom {current : CodeRange} {ranges : List CodeRange}
    (nonempty : ∀ range ∈ current :: ranges, range.first ≤ range.last)
    (inOrder : (current :: ranges).Pairwise fun left right => left.first ≤ right.first) :
    Spaced (coalesceFrom current ranges) ∧
      ∀ range ∈ coalesceFrom current ranges, current.first ≤ range.first := by
  induction ranges generalizing current with
  | nil =>
      have current_nonempty := nonempty current List.mem_cons_self
      simp only [coalesceFrom]
      exact ⟨.cons current_nonempty (by simp) .nil, by simp⟩
  | cons next rest ih =>
      simp only [List.mem_cons, forall_eq_or_imp] at nonempty
      rcases nonempty with ⟨current_nonempty, next_nonempty, rest_nonempty⟩
      rcases List.pairwise_cons.mp inOrder with ⟨current_le, rest_inOrder⟩
      have current_le_next := current_le next List.mem_cons_self
      simp only [coalesceFrom]
      split
      next touches =>
        apply ih
        · simp only [List.mem_cons, forall_eq_or_imp]
          exact ⟨by omega, rest_nonempty⟩
        · refine List.pairwise_cons.mpr ⟨?_, rest_inOrder.tail⟩
          intro later later_mem
          exact current_le later (.tail _ later_mem)
      next apart =>
        have next_rest_nonempty : ∀ range ∈ next :: rest, range.first ≤ range.last := by
          simp only [List.mem_cons, forall_eq_or_imp]
          exact ⟨next_nonempty, rest_nonempty⟩
        rcases ih next_rest_nonempty rest_inOrder with ⟨spaced, next_le⟩
        refine ⟨.cons current_nonempty ?_ spaced, ?_⟩
        · intro later later_mem
          have := next_le later later_mem
          simp only [EndsBefore]
          omega
        · intro member member_mem
          rcases List.mem_cons.mp member_mem with rfl | member_mem
          · exact Nat.le_refl _
          · exact Nat.le_trans current_le_next (next_le member member_mem)

theorem inSome_coalesce_ordered {ranges : List CodeRange}
    (nonempty : ∀ range ∈ ranges, range.first ≤ range.last) (number : Nat) :
    InSome (coalesce (ordered ranges)) number ↔ InSome ranges number := by
  have same := inSome_congr (fun range => @mem_ordered range ranges) number
  rw [← same]
  have ordered_nonempty : ∀ range ∈ ordered ranges, range.first ≤ range.last :=
    fun range range_mem => nonempty range (mem_ordered.mp range_mem)
  have inOrder := pairwise_ordered ranges
  cases shape : ordered ranges with
  | nil => rfl
  | cons first rest =>
      rw [shape] at ordered_nonempty inOrder
      exact inSome_coalesceFrom ordered_nonempty inOrder number

theorem spaced_coalesce_ordered {ranges : List CodeRange}
    (nonempty : ∀ range ∈ ranges, range.first ≤ range.last) :
    Spaced (coalesce (ordered ranges)) := by
  have ordered_nonempty : ∀ range ∈ ordered ranges, range.first ≤ range.last :=
    fun range range_mem => nonempty range (mem_ordered.mp range_mem)
  have inOrder := pairwise_ordered ranges
  cases shape : ordered ranges with
  | nil => exact .nil
  | cons first rest =>
      rw [shape] at ordered_nonempty inOrder
      exact (spaced_coalesceFrom ordered_nonempty inOrder).1

theorem inSome_overlapBefore {left right : CodeRange} {rest : List CodeRange} {number : Nat} :
    InSome (overlapBefore left right rest) number ↔
      (left.Contains number ∧ right.Contains number) ∨ InSome rest number := by
  simp only [overlapBefore]
  split
  next meet =>
    rw [inSome_cons]
    refine or_congr_left ?_
    simp only [Contains]
    omega
  next miss =>
    refine (or_iff_right ?_).symm
    simp only [Contains]
    omega

/-- Nothing that ends before another range begins shares a number with it or with what follows. -/
theorem not_inSome_of_endsBefore {range : CodeRange} {later : List CodeRange} {number : Nat}
    (before : ∀ other ∈ later, range.last < other.first) (contained : number ≤ range.last) :
    ¬InSome later number := by
  rintro ⟨other, other_mem, holds⟩
  have := before other other_mem
  simp only [Contains] at holds
  omega

/-- A sweep finds what its range shares with the list, and leaves the rest to what follows. -/
theorem inSome_sweep {range : CodeRange} {rest others : List CodeRange}
    (restSpaced : Spaced (range :: rest)) (othersSpaced : Spaced others)
    (following : ∀ {ranges}, Spaced ranges → ∀ number,
      InSome (overlaps rest ranges) number ↔ InSome rest number ∧ InSome ranges number)
    (number : Nat) :
    InSome (sweep range (overlaps rest) others) number ↔
      InSome (range :: rest) number ∧ InSome others number := by
  induction others with
  | nil => simp [sweep]
  | cons other further ih =>
      have other_nonempty := othersSpaced.head_nonempty
      simp only [sweep]
      rw [inSome_overlapBefore]
      split
      next endsLater =>
        -- what the range shares with later members of the list is nothing
        have range_further : range.Contains number → ¬InSome further number := by
          intro holds
          have number_le : number ≤ other.last := by
            simp only [Contains] at holds
            omega
          refine not_inSome_of_endsBefore ?_ number_le
          intro later later_mem
          have := othersSpaced.endsBefore later_mem
          simp only [EndsBefore] at this
          omega
        rw [following othersSpaced, inSome_cons, inSome_cons]
        tauto
      next endsEarlier =>
        have rest_other : other.Contains number → ¬InSome rest number := by
          intro holds
          have number_le : number ≤ range.last := by
            simp only [Contains] at holds
            omega
          refine not_inSome_of_endsBefore ?_ number_le
          intro later later_mem
          have := restSpaced.endsBefore later_mem
          simp only [EndsBefore] at this
          omega
        rw [ih othersSpaced.tail, inSome_cons, inSome_cons]
        tauto

/-- The overlaps of two spaced lists hold the numbers that both lists hold. -/
theorem inSome_overlaps {left right : List CodeRange} (leftSpaced : Spaced left)
    (rightSpaced : Spaced right) (number : Nat) :
    InSome (overlaps left right) number ↔ InSome left number ∧ InSome right number := by
  induction left generalizing right number with
  | nil => simp [overlaps]
  | cons range rest ih =>
      simp only [overlaps]
      apply inSome_sweep leftSpaced rightSpaced
      intro ranges rangesSpaced member
      exact ih leftSpaced.tail rangesSpaced member

theorem sweepApart_eq {range : CodeRange} {rest : List CodeRange}
    (following : ∀ ranges, areApart rest ranges = (overlaps rest ranges).isEmpty)
    (others : List CodeRange) :
    sweepApart range (areApart rest) others = (sweep range (overlaps rest) others).isEmpty := by
  induction others with
  | nil => rfl
  | cons other further ih =>
      simp only [sweepApart, sweep, overlapBefore]
      split
      · rfl
      · split
        · exact following (other :: further)
        · exact ih

/-- Two lists are apart if they have no overlaps. -/
theorem areApart_eq (left right : List CodeRange) :
    areApart left right = (overlaps left right).isEmpty := by
  induction left generalizing right with
  | nil => rfl
  | cons range rest ih => exact sweepApart_eq ih right

section Search

variable {ranges before after : List CodeRange} {middle : CodeRange} {number : Nat}

/-- Once a member of a spaced list ends before a number, only what follows can hold the number. -/
theorem inSome_iff_after (spaced : Spaced ranges) (ranges_eq : before ++ middle :: after = ranges)
    (passed : middle.last < number) : InSome ranges number ↔ InSome after number := by
  subst ranges_eq
  have middle_nonempty := spaced.nonempty middle (by simp)
  have middle_missing : ¬middle.Contains number := by
    simp only [Contains]
    omega
  have before_missing : ¬InSome before number := by
    rintro ⟨range, range_mem, holds⟩
    have ends := (List.pairwise_append.mp spaced.apart).2.2 range range_mem middle
      List.mem_cons_self
    simp only [EndsBefore, Contains] at ends holds
    omega
  rw [inSome_append, inSome_cons]
  simp only [before_missing, middle_missing, false_or]

/-- While a member of a spaced list begins after a number, only what precedes it can hold the
number. -/
theorem inSome_iff_before (spaced : Spaced ranges) (ranges_eq : before ++ middle :: after = ranges)
    (ahead : number < middle.first) : InSome ranges number ↔ InSome before number := by
  subst ranges_eq
  have later := spaced.sublist (List.sublist_append_right before (middle :: after))
  have middle_nonempty := later.head_nonempty
  have middle_missing : ¬middle.Contains number := by
    simp only [Contains]
    omega
  have after_missing : ¬InSome after number := by
    rintro ⟨range, range_mem, holds⟩
    have ends := later.endsBefore range_mem
    simp only [EndsBefore, Contains] at ends holds
    omega
  rw [inSome_append, inSome_cons]
  simp only [after_missing, middle_missing, or_false]

/-- In a spaced list the search by halves finds exactly the numbers that some member holds. -/
theorem search_iff (spaced : Spaced ranges) :
    search number ranges = true ↔ InSome ranges number := by
  fun_induction search number ranges with
  | case1 ranges shape =>
      have ranges_eq : ranges = [] := by
        have lengths := congrArg List.length shape
        simp only [List.length_drop, List.length_nil] at lengths
        exact List.eq_nil_of_length_eq_zero (by omega)
      simp [ranges_eq]
  | case2 ranges middle after shape passed ih =>
      have halves := List.take_append_drop (ranges.length / 2) ranges
      rw [shape] at halves
      have later : Spaced (middle :: after) := shape ▸ spaced.sublist (List.drop_sublist _ _)
      exact (ih later.tail).trans (inSome_iff_after spaced halves passed).symm
  | case3 ranges middle after shape notPassed ahead ih =>
      have halves := List.take_append_drop (ranges.length / 2) ranges
      rw [shape] at halves
      have earlier : Spaced (ranges.take (ranges.length / 2)) :=
        spaced.sublist (List.take_sublist _ _)
      exact (ih earlier).trans (inSome_iff_before spaced halves ahead).symm
  | case4 ranges middle after shape notPassed notAhead =>
      have middle_mem : middle ∈ ranges := List.mem_of_mem_drop (shape ▸ List.mem_cons_self)
      have holds : middle.Contains number := ⟨Nat.le_of_not_lt notAhead, Nat.le_of_not_lt notPassed⟩
      exact iff_of_true rfl ⟨middle, middle_mem, holds⟩

end Search

/-- The range lies between the ends of some range of the list. -/
def WithinSome (ranges : List CodeRange) (range : CodeRange) : Prop :=
  ∃ outer ∈ ranges, outer.first ≤ range.first ∧ range.last ≤ outer.last

theorem WithinSome.of_tail {outer range : CodeRange} {rest : List CodeRange}
    (within : WithinSome rest range) : WithinSome (outer :: rest) range := by
  rcases within with ⟨found, found_mem, bounds⟩
  exact ⟨found, .tail _ found_mem, bounds⟩

theorem endsBefore_of_withinSome {range part : CodeRange} {rest : List CodeRange}
    (spaced : Spaced (range :: rest)) (within : WithinSome rest part) : range.EndsBefore part := by
  rcases within with ⟨outer, outer_mem, first_le, _⟩
  exact Nat.lt_of_lt_of_le (spaced.endsBefore outer_mem) first_le

/-- What a list of overlaps has to fulfil: it is spaced, and its ranges are parts of those of both
lists. -/
structure PartsOf (left right parts : List CodeRange) : Prop where
  spaced : Spaced parts
  withinLeft : ∀ part ∈ parts, WithinSome left part
  withinRight : ∀ part ∈ parts, WithinSome right part

theorem partsOf_overlapBefore {range other : CodeRange} {left right parts : List CodeRange}
    (range_mem : range ∈ left) (other_mem : other ∈ right) (partsOf : PartsOf left right parts)
    (before : (∀ part ∈ parts, range.EndsBefore part) ∨ ∀ part ∈ parts, other.EndsBefore part) :
    PartsOf left right (overlapBefore range other parts) := by
  simp only [overlapBefore]
  split
  next meet =>
    refine ⟨.cons meet ?_ partsOf.spaced, ?_, ?_⟩
    · intro part part_mem
      simp only [EndsBefore] at before ⊢
      rcases before with before | before
      · have := before part part_mem
        omega
      · have := before part part_mem
        omega
    · simp only [List.mem_cons, forall_eq_or_imp]
      exact ⟨⟨range, range_mem, Nat.le_max_left _ _, Nat.min_le_left _ _⟩, partsOf.withinLeft⟩
    · simp only [List.mem_cons, forall_eq_or_imp]
      exact ⟨⟨other, other_mem, Nat.le_max_right _ _, Nat.min_le_right _ _⟩, partsOf.withinRight⟩
  next => exact partsOf

theorem partsOf_sweep {range : CodeRange} {rest others : List CodeRange}
    (restSpaced : Spaced (range :: rest)) (othersSpaced : Spaced others)
    (following : ∀ {ranges}, Spaced ranges → PartsOf rest ranges (overlaps rest ranges)) :
    PartsOf (range :: rest) others (sweep range (overlaps rest) others) := by
  induction others with
  | nil => exact ⟨.nil, by simp [sweep], by simp [sweep]⟩
  | cons other further ih =>
      simp only [sweep]
      split
      · have parts := following othersSpaced
        refine partsOf_overlapBefore List.mem_cons_self List.mem_cons_self
          ⟨parts.spaced, fun part part_mem => (parts.withinLeft part part_mem).of_tail,
            parts.withinRight⟩ (.inl ?_)
        intro part part_mem
        exact endsBefore_of_withinSome restSpaced (parts.withinLeft part part_mem)
      · have parts := ih othersSpaced.tail
        refine partsOf_overlapBefore List.mem_cons_self List.mem_cons_self
          ⟨parts.spaced, parts.withinLeft,
            fun part part_mem => (parts.withinRight part part_mem).of_tail⟩ (.inr ?_)
        intro part part_mem
        exact endsBefore_of_withinSome othersSpaced (parts.withinRight part part_mem)

theorem partsOf_overlaps {left right : List CodeRange} (leftSpaced : Spaced left)
    (rightSpaced : Spaced right) : PartsOf left right (overlaps left right) := by
  induction left generalizing right with
  | nil => exact ⟨.nil, by simp [overlaps], by simp [overlaps]⟩
  | cons range rest ih =>
      simp only [overlaps]
      exact partsOf_sweep leftSpaced rightSpaced fun rangesSpaced =>
        ih leftSpaced.tail rangesSpaced

/-- The gaps of a spaced list hold the numbers up to the limit that the list does not hold. -/
theorem inSome_gaps {limit next : Nat} {ranges : List CodeRange} (spaced : Spaced ranges)
    (next_le : ∀ range ∈ ranges, next ≤ range.first)
    (bounded : ∀ range ∈ ranges, range.last ≤ limit)
    (number : Nat) :
    InSome (gaps limit next ranges) number ↔
      (next ≤ number ∧ number ≤ limit) ∧ ¬InSome ranges number := by
  induction ranges generalizing next with
  | nil =>
      simp only [gaps, not_inSome_nil, not_false_eq_true, and_true]
      split
      · simp [Contains]
      · simp only [not_inSome_nil, false_iff]
        omega
  | cons range rest ih =>
      have next_le_range := next_le range List.mem_cons_self
      have range_nonempty := spaced.head_nonempty
      have range_le_limit := bounded range List.mem_cons_self
      have after_le : ∀ later ∈ rest, range.last + 1 ≤ later.first := by
        intro later later_mem
        have := spaced.endsBefore later_mem
        simp only [EndsBefore] at this
        omega
      have inSome_after := ih spaced.tail after_le fun later later_mem =>
        bounded later (.tail _ later_mem)
      have not_rest_of_le : number ≤ range.last → ¬InSome rest number :=
        not_inSome_of_endsBefore fun later later_mem => after_le later later_mem
      simp only [gaps]
      split
      · rw [inSome_cons, inSome_cons, inSome_after]
        simp only [Contains]
        by_cases passed : number ≤ range.last
        · have := not_rest_of_le passed
          simp only [this, or_false, not_false_eq_true, and_true]
          omega
        · have : ¬(range.first ≤ number ∧ number ≤ range.last) := by omega
          simp only [this, false_or]
          refine ⟨?_, fun ⟨_, unlisted⟩ => .inr ⟨by omega, unlisted⟩⟩
          rintro (_ | ⟨_, unlisted⟩)
          · omega
          · exact ⟨by omega, unlisted⟩
      · rw [inSome_cons, inSome_after]
        simp only [Contains]
        by_cases passed : number ≤ range.last
        · have := not_rest_of_le passed
          simp only [this, or_false, not_false_eq_true, and_true]
          omega
        · have : ¬(range.first ≤ number ∧ number ≤ range.last) := by omega
          simp only [this, false_or]
          refine ⟨fun ⟨_, unlisted⟩ => ⟨by omega, unlisted⟩,
            fun ⟨_, unlisted⟩ => ⟨by omega, unlisted⟩⟩

theorem spaced_gaps {limit next : Nat} {ranges : List CodeRange} (spaced : Spaced ranges)
    (next_le : ∀ range ∈ ranges, next ≤ range.first)
    (bounded : ∀ range ∈ ranges, range.last ≤ limit) :
    Spaced (gaps limit next ranges) ∧
      ∀ gap ∈ gaps limit next ranges, next ≤ gap.first ∧ gap.last ≤ limit := by
  induction ranges generalizing next with
  | nil =>
      simp only [gaps]
      split
      next inside => exact ⟨.cons inside (by simp) .nil, by simp⟩
      next => exact ⟨.nil, by simp⟩
  | cons range rest ih =>
      have next_le_range := next_le range List.mem_cons_self
      have range_nonempty := spaced.head_nonempty
      have range_le_limit := bounded range List.mem_cons_self
      have after_le : ∀ later ∈ rest, range.last + 1 ≤ later.first := by
        intro later later_mem
        have := spaced.endsBefore later_mem
        simp only [EndsBefore] at this
        omega
      rcases ih spaced.tail after_le fun later later_mem => bounded later (.tail _ later_mem) with
        ⟨gapsSpaced, gapsWithin⟩
      simp only [gaps]
      split
      · refine ⟨.cons (by dsimp only; omega) ?_ gapsSpaced, ?_⟩
        · intro gap gap_mem
          have := gapsWithin gap gap_mem
          simp only [EndsBefore]
          omega
        · simp only [List.mem_cons, forall_eq_or_imp]
          refine ⟨⟨Nat.le_refl _, by omega⟩, ?_⟩
          intro gap gap_mem
          have := gapsWithin gap gap_mem
          omega
      · refine ⟨gapsSpaced, ?_⟩
        intro gap gap_mem
        have := gapsWithin gap gap_mem
        omega

end CodeRange

namespace CharSet

open CodeRange (InSome Spaced)

/-- The ranges of the set are spaced and lie within the universe. -/
structure IsCanonical (set : CharSet) : Prop where
  spaced : Spaced set.ranges
  bounded : ∀ range ∈ set.ranges, range.last ≤ maxCodePoint

theorem mem_iff_inSome {set : CharSet} {number : Nat} :
    number ∈ set ↔ InSome set.ranges number :=
  Iff.rfl

/-- Looking a character up in a canonical set tells whether the set holds its number. -/
theorem contains_iff_mem {set : CharSet} (canonical : set.IsCanonical) {character : Char} :
    set.contains character = true ↔ character.toNat ∈ set :=
  CodeRange.search_iff canonical.spaced

theorem le_maxCodePoint (character : Char) : character.toNat ≤ maxCodePoint := by
  have valid : character.toNat.isValidChar := character.valid
  simp only [maxCodePoint]
  rcases valid with small | ⟨_, large⟩
  · omega
  · omega

theorem isCanonical_empty : empty.IsCanonical := ⟨.nil, by simp [empty]⟩

theorem not_mem_empty (number : Nat) : number ∉ empty := CodeRange.not_inSome_nil number

theorem isCanonical_full : full.IsCanonical :=
  ⟨.cons (Nat.zero_le _) (by simp) .nil, by simp [full]⟩

theorem mem_full {number : Nat} : number ∈ full ↔ number ≤ maxCodePoint := by
  simp [mem_iff_inSome, full, CodeRange.Contains]

theorem isCanonical_range (first last : Char) : (range first last).IsCanonical := by
  simp only [range]
  split
  next inOrder =>
    refine ⟨.cons inOrder (by simp) .nil, ?_⟩
    simp [le_maxCodePoint]
  next => exact isCanonical_empty

theorem mem_range {first last : Char} {number : Nat} :
    number ∈ range first last ↔ first.toNat ≤ number ∧ number ≤ last.toNat := by
  simp only [range]
  split
  next => simp [mem_iff_inSome, CodeRange.Contains]
  next reversed =>
    have : ¬first.toNat ≤ last.toNat := reversed
    simp only [not_mem_empty, false_iff]
    omega

theorem mem_ofRanges {ranges : List CodeRange}
    (nonempty : ∀ range ∈ ranges, range.first ≤ range.last) {number : Nat} :
    number ∈ ofRanges ranges ↔ InSome ranges number :=
  CodeRange.inSome_coalesce_ordered nonempty number

/-- Joining ranges creates no end that was not there before. -/
theorem last_mem_of_coalesceFrom {current : CodeRange} {ranges : List CodeRange}
    {bound : Nat} (bounded : ∀ range ∈ current :: ranges, range.last ≤ bound) :
    ∀ range ∈ CodeRange.coalesceFrom current ranges, range.last ≤ bound := by
  induction ranges generalizing current with
  | nil => simpa [CodeRange.coalesceFrom] using bounded
  | cons next rest ih =>
      simp only [List.mem_cons, forall_eq_or_imp] at bounded
      rcases bounded with ⟨current_le, next_le, rest_le⟩
      simp only [CodeRange.coalesceFrom]
      split
      · apply ih
        simp only [List.mem_cons, forall_eq_or_imp]
        exact ⟨by omega, rest_le⟩
      · simp only [List.mem_cons, forall_eq_or_imp]
        exact ⟨current_le, ih (by simpa using ⟨next_le, rest_le⟩)⟩

theorem isCanonical_ofRanges {ranges : List CodeRange}
    (nonempty : ∀ range ∈ ranges, range.first ≤ range.last)
    (bounded : ∀ range ∈ ranges, range.last ≤ maxCodePoint) : (ofRanges ranges).IsCanonical := by
  refine ⟨CodeRange.spaced_coalesce_ordered nonempty, ?_⟩
  have ordered_bounded : ∀ range ∈ CodeRange.ordered ranges, range.last ≤ maxCodePoint :=
    fun range range_mem => bounded range (CodeRange.mem_ordered.mp range_mem)
  simp only [ofRanges]
  cases shape : CodeRange.ordered ranges with
  | nil => simp [CodeRange.coalesce]
  | cons first rest =>
      rw [shape] at ordered_bounded
      exact last_mem_of_coalesceFrom ordered_bounded

theorem isCanonical_ofChars (characters : List Char) : (ofChars characters).IsCanonical := by
  apply isCanonical_ofRanges
  · simp
  · simp [le_maxCodePoint]

theorem mem_ofChars_iff_exists {characters : List Char} {number : Nat} :
    number ∈ ofChars characters ↔ ∃ character ∈ characters, character.toNat = number := by
  rw [ofChars, mem_ofRanges (by simp)]
  simp only [InSome, List.mem_map, exists_exists_and_eq_and, CodeRange.Contains,
    ← Nat.le_antisymm_iff]

theorem mem_ofChars {characters : List Char} {character : Char} :
    character.toNat ∈ ofChars characters ↔ character ∈ characters := by
  simp only [mem_ofChars_iff_exists, Char.toNat_inj, exists_eq_right]

theorem isCanonical_union {left right : CharSet} (leftCanonical : left.IsCanonical)
    (rightCanonical : right.IsCanonical) : (left.union right).IsCanonical := by
  apply isCanonical_ofRanges
  · intro range range_mem
    rcases List.mem_append.mp range_mem with left_mem | right_mem
    · exact leftCanonical.spaced.nonempty range left_mem
    · exact rightCanonical.spaced.nonempty range right_mem
  · intro range range_mem
    rcases List.mem_append.mp range_mem with left_mem | right_mem
    · exact leftCanonical.bounded range left_mem
    · exact rightCanonical.bounded range right_mem

theorem mem_union {left right : CharSet} (leftCanonical : left.IsCanonical)
    (rightCanonical : right.IsCanonical) {number : Nat} :
    number ∈ left.union right ↔ number ∈ left ∨ number ∈ right := by
  rw [union, mem_ofRanges, CodeRange.inSome_append]
  · rfl
  · intro range range_mem
    rcases List.mem_append.mp range_mem with left_mem | right_mem
    · exact leftCanonical.spaced.nonempty range left_mem
    · exact rightCanonical.spaced.nonempty range right_mem

theorem isCanonical_inter {left right : CharSet} (leftCanonical : left.IsCanonical)
    (rightCanonical : right.IsCanonical) : (left.inter right).IsCanonical := by
  have parts := CodeRange.partsOf_overlaps leftCanonical.spaced rightCanonical.spaced
  refine ⟨parts.spaced, ?_⟩
  intro part part_mem
  rcases parts.withinLeft part part_mem with ⟨outer, outer_mem, _, last_le⟩
  exact Nat.le_trans last_le (leftCanonical.bounded outer outer_mem)

theorem mem_inter {left right : CharSet} (leftCanonical : left.IsCanonical)
    (rightCanonical : right.IsCanonical) {number : Nat} :
    number ∈ left.inter right ↔ number ∈ left ∧ number ∈ right :=
  CodeRange.inSome_overlaps leftCanonical.spaced rightCanonical.spaced number

theorem isCanonical_complement {set : CharSet} (canonical : set.IsCanonical) :
    set.complement.IsCanonical := by
  have gaps := CodeRange.spaced_gaps canonical.spaced (fun _ _ => Nat.zero_le _) canonical.bounded
  exact ⟨gaps.1, fun gap gap_mem => (gaps.2 gap gap_mem).2⟩

theorem mem_complement {set : CharSet} (canonical : set.IsCanonical) {number : Nat} :
    number ∈ set.complement ↔ number ≤ maxCodePoint ∧ number ∉ set := by
  rw [mem_iff_inSome, complement, CodeRange.inSome_gaps canonical.spaced
    (fun _ _ => Nat.zero_le _) canonical.bounded, ← mem_iff_inSome]
  simp only [Nat.zero_le, true_and]

theorem isDisjoint_eq (left right : CharSet) :
    left.isDisjoint right = (left.inter right).isEmpty :=
  CodeRange.areApart_eq left.ranges right.ranges

theorem not_mem_of_isDisjoint {left right : CharSet} (leftCanonical : left.IsCanonical)
    (rightCanonical : right.IsCanonical) (disjoint : left.isDisjoint right = true) {number : Nat}
    (left_mem : number ∈ left) : number ∉ right := by
  intro right_mem
  rcases (mem_inter leftCanonical rightCanonical).mpr ⟨left_mem, right_mem⟩ with
    ⟨range, range_mem, _⟩
  simp only [isDisjoint_eq, isEmpty, List.isEmpty_iff] at disjoint
  simp [disjoint] at range_mem

theorem mem_of_isSubset {left right : CharSet} (leftCanonical : left.IsCanonical)
    (rightCanonical : right.IsCanonical) (subset : left.isSubset right = true) {number : Nat}
    (left_mem : number ∈ left) : number ∈ right := by
  have same : left.inter right = left := by simpa [isSubset] using subset
  rw [← same] at left_mem
  exact ((mem_inter leftCanonical rightCanonical).mp left_mem).2

end CharSet

end StreamGrammar
