import Mathlib.Data.Set.Lattice
import Mathlib.Order.Interval.Set.Basic
import StreamGrammar.Proofs.CharSetAlgebra

/-!
# The laws of code point sets

A canonical set is determined by its numbers, since spaced ranges with the same numbers
are the same ranges. Comparing stored ranges is therefore comparing sets of numbers,
and whatever holds of sets of numbers in the universe holds of the stored ones as an
equality. An `Expression` writes down how a set is made; it has two readings, the stored
set that the operations make and the numbers that it is meant to denote.
-/

namespace StreamGrammar

namespace CodeRange

namespace Spaced

variable {range other : CodeRange} {rest further : List CodeRange} {number : Nat}

theorem first_le (spaced : Spaced (range :: rest)) (holds : InSome (range :: rest) number) :
    range.first ≤ number := by
  have nonempty := spaced.head_nonempty
  rcases inSome_cons.mp holds with inside | ⟨later, later_mem, inside⟩
  · exact inside.1
  · have ends := spaced.endsBefore later_mem
    simp only [EndsBefore, Contains] at ends inside
    omega

/-- The numbers of all ranges but the first are those behind the end of the first. -/
theorem inSome_tail_iff (spaced : Spaced (range :: rest)) :
    InSome rest number ↔ InSome (range :: rest) number ∧ range.last < number := by
  rw [inSome_cons]
  constructor
  · rintro ⟨later, later_mem, inside⟩
    have ends := spaced.endsBefore later_mem
    refine ⟨.inr ⟨later, later_mem, inside⟩, ?_⟩
    simp only [EndsBefore, Contains] at ends inside
    omega
  · rintro ⟨inside | holds, behind⟩
    · simp only [Contains] at inside
      omega
    · exact holds

theorem not_inSome_after_first (spaced : Spaced (range :: rest)) :
    ¬InSome (range :: rest) (range.last + 1) := by
  intro holds
  rcases (spaced.inSome_tail_iff).mpr ⟨holds, Nat.lt_succ_self _⟩ with ⟨later, later_mem, inside⟩
  have ends := spaced.endsBefore later_mem
  simp only [EndsBefore, Contains] at ends inside
  omega

theorem inSome_head_first (spaced : Spaced (range :: rest)) :
    InSome (range :: rest) range.first :=
  inSome_cons.mpr (.inl ⟨Nat.le_refl _, spaced.head_nonempty⟩)

/-- A first range that begins like another one ends no later if the other list holds its numbers:
the number behind the other's end is missing there. -/
theorem last_le_of_inSome (otherSpaced : Spaced (other :: further))
    (first_eq : range.first = other.first)
    (held : ∀ number, InSome (range :: rest) number → InSome (other :: further) number) :
    range.last ≤ other.last := by
  by_contra longer
  have other_nonempty := otherSpaced.head_nonempty
  apply otherSpaced.not_inSome_after_first
  apply held
  rw [inSome_cons]
  left
  simp only [Contains]
  omega

end Spaced

/-- Spaced lists that hold the same numbers are equal. -/
theorem Spaced.eq_of_inSome_iff {left right : List CodeRange} (leftSpaced : Spaced left)
    (rightSpaced : Spaced right) (same : ∀ number, InSome left number ↔ InSome right number) :
    left = right := by
  induction left generalizing right with
  | nil =>
      cases right with
      | nil => rfl
      | cons other further =>
          exact (not_inSome_nil _ ((same _).mpr rightSpaced.inSome_head_first)).elim
  | cons range rest ih =>
      cases right with
      | nil => exact (not_inSome_nil _ ((same _).mp leftSpaced.inSome_head_first)).elim
      | cons other further =>
          -- The first ranges begin at the least number, and the number behind their end is missing.
          have first_eq : range.first = other.first := by
            apply Nat.le_antisymm
            · exact leftSpaced.first_le ((same _).mpr rightSpaced.inSome_head_first)
            · exact rightSpaced.first_le ((same _).mp leftSpaced.inSome_head_first)
          have last_eq : range.last = other.last := by
            apply Nat.le_antisymm
            · exact rightSpaced.last_le_of_inSome first_eq fun number => (same number).mp
            · exact leftSpaced.last_le_of_inSome first_eq.symm fun number => (same number).mpr
          have range_eq : range = other := by
            cases range
            cases other
            simp_all
          have rest_eq : rest = further := by
            apply ih leftSpaced.tail rightSpaced.tail
            intro number
            rw [leftSpaced.inSome_tail_iff, rightSpaced.inSome_tail_iff, same, last_eq]
          rw [range_eq, rest_eq]

end CodeRange

namespace CharSet

/-- The numbers that a set holds. -/
def numbers (set : CharSet) : Set Nat := { number | number ∈ set }

section Canonical

variable {left right : CharSet}

theorem eq_of_numbers_eq (leftCanonical : left.IsCanonical) (rightCanonical : right.IsCanonical)
    (same : left.numbers = right.numbers) : left = right := by
  have ranges_eq : left.ranges = right.ranges := by
    apply leftCanonical.spaced.eq_of_inSome_iff rightCanonical.spaced
    intro number
    exact Set.ext_iff.mp same number
  cases left
  cases right
  exact congrArg CharSet.mk ranges_eq

theorem numbers_subset (canonical : left.IsCanonical) : left.numbers ⊆ Set.Iic maxCodePoint := by
  rintro number ⟨range, range_mem, _, le_last⟩
  exact Nat.le_trans le_last (canonical.bounded range range_mem)

theorem numbers_empty : empty.numbers = ∅ :=
  Set.eq_empty_of_forall_notMem not_mem_empty

theorem numbers_union (leftCanonical : left.IsCanonical) (rightCanonical : right.IsCanonical) :
    (left.union right).numbers = left.numbers ∪ right.numbers := by
  ext number
  exact mem_union leftCanonical rightCanonical

theorem numbers_inter (leftCanonical : left.IsCanonical) (rightCanonical : right.IsCanonical) :
    (left.inter right).numbers = left.numbers ∩ right.numbers := by
  ext number
  exact mem_inter leftCanonical rightCanonical

theorem numbers_complement (canonical : left.IsCanonical) :
    left.complement.numbers = Set.Iic maxCodePoint \ left.numbers := by
  ext number
  exact mem_complement canonical

theorem isDisjoint_iff (leftCanonical : left.IsCanonical) (rightCanonical : right.IsCanonical) :
    left.isDisjoint right = true ↔ left.numbers ∩ right.numbers = ∅ := by
  constructor
  · intro disjoint
    apply Set.eq_empty_of_forall_notMem
    rintro number ⟨left_mem, right_mem⟩
    exact not_mem_of_isDisjoint leftCanonical rightCanonical disjoint left_mem right_mem
  · intro none_eq
    have inter_eq : left.inter right = empty := by
      apply eq_of_numbers_eq (isCanonical_inter leftCanonical rightCanonical) isCanonical_empty
      rw [numbers_inter leftCanonical rightCanonical, none_eq, numbers_empty]
    rw [isDisjoint_eq, inter_eq]
    rfl

theorem isSubset_iff (leftCanonical : left.IsCanonical) (rightCanonical : right.IsCanonical) :
    left.isSubset right = true ↔ left.numbers ⊆ right.numbers := by
  constructor
  · intro subset number left_mem
    exact mem_of_isSubset leftCanonical rightCanonical subset left_mem
  · intro included
    have same : left.inter right = left := by
      apply eq_of_numbers_eq (isCanonical_inter leftCanonical rightCanonical) leftCanonical
      rw [numbers_inter leftCanonical rightCanonical]
      exact Set.inter_eq_left.mpr included
    simpa [isSubset] using same

end Canonical

/-- The laws of a Boolean algebra, as equalities of stored sets. -/
structure FulfilLaws (first second third : CharSet) : Prop where
  union_comm : first.union second = second.union first
  inter_comm : first.inter second = second.inter first
  union_assoc : (first.union second).union third = first.union (second.union third)
  inter_assoc : (first.inter second).inter third = first.inter (second.inter third)
  union_inter_self : first.union (first.inter second) = first
  inter_union_self : first.inter (first.union second) = first
  union_inter_distrib :
    first.union (second.inter third) = (first.union second).inter (first.union third)
  inter_union_distrib :
    first.inter (second.union third) = (first.inter second).union (first.inter third)
  union_empty : first.union empty = first
  inter_full : first.inter full = first
  union_complement : first.union first.complement = full
  inter_complement : first.inter first.complement = empty
  complement_complement : first.complement.complement = first
  complement_union : (first.union second).complement = first.complement.inter second.complement
  complement_inter : (first.inter second).complement = first.complement.union second.complement

/-- How a set of code points is made. -/
inductive Expression where
  | empty
  | full
  | single (character : Char)
  | range (first last : Char)
  | ofChars (characters : List Char)
  | union (left right : Expression)
  | inter (left right : Expression)
  | complement (expression : Expression)
deriving Repr

namespace Expression

/-- The set that the operations make. -/
def value : Expression → CharSet
  | .empty => CharSet.empty
  | .full => CharSet.full
  | .single character => CharSet.single character
  | .range first last => CharSet.range first last
  | .ofChars characters => CharSet.ofChars characters
  | .union left right => left.value.union right.value
  | .inter left right => left.value.inter right.value
  | .complement expression => expression.value.complement

/-- The numbers that are meant, in the algebra of all sets of numbers up to the largest one. -/
def denotation : Expression → Set Nat
  | .empty => ∅
  | .full => Set.Iic maxCodePoint
  | .single character => {character.toNat}
  | .range first last => Set.Icc first.toNat last.toNat
  | .ofChars characters => { number | ∃ character ∈ characters, character.toNat = number }
  | .union left right => left.denotation ∪ right.denotation
  | .inter left right => left.denotation ∩ right.denotation
  | .complement expression => Set.Iic maxCodePoint \ expression.denotation

theorem isCanonical_value (expression : Expression) : expression.value.IsCanonical := by
  induction expression with
  | empty => exact isCanonical_empty
  | full => exact isCanonical_full
  | single character => exact isCanonical_range character character
  | range first last => exact isCanonical_range first last
  | ofChars characters => exact isCanonical_ofChars characters
  | union left right leftCanonical rightCanonical =>
      exact isCanonical_union leftCanonical rightCanonical
  | inter left right leftCanonical rightCanonical =>
      exact isCanonical_inter leftCanonical rightCanonical
  | complement expression canonical => exact isCanonical_complement canonical

/-- The set that is made holds the numbers that are meant. -/
theorem numbers_value (expression : Expression) :
    expression.value.numbers = expression.denotation := by
  induction expression with
  | empty => exact numbers_empty
  | full =>
      ext number
      exact mem_full
  | single character =>
      ext number
      exact mem_range.trans (Nat.le_antisymm_iff.symm.trans eq_comm)
  | range first last =>
      ext number
      exact mem_range
  | ofChars characters =>
      ext number
      exact mem_ofChars_iff_exists
  | union left right left_eq right_eq =>
      have numbers_eq := numbers_union left.isCanonical_value right.isCanonical_value
      rw [left_eq, right_eq] at numbers_eq
      exact numbers_eq
  | inter left right left_eq right_eq =>
      have numbers_eq := numbers_inter left.isCanonical_value right.isCanonical_value
      rw [left_eq, right_eq] at numbers_eq
      exact numbers_eq
  | complement expression expression_eq =>
      have numbers_eq := numbers_complement expression.isCanonical_value
      rw [expression_eq] at numbers_eq
      exact numbers_eq

/-- Expressions that mean the same numbers make the same set. -/
theorem value_eq_of_denotation_eq (left right : Expression)
    (same : left.denotation = right.denotation) : left.value = right.value := by
  apply eq_of_numbers_eq left.isCanonical_value right.isCanonical_value
  rw [left.numbers_value, right.numbers_value, same]

theorem denotation_subset (expression : Expression) :
    expression.denotation ⊆ Set.Iic maxCodePoint := by
  rw [← expression.numbers_value]
  exact numbers_subset expression.isCanonical_value

/-- The laws hold of the sets that are made since they hold of the numbers that are meant. -/
theorem fulfilLaws (first second third : Expression) :
    FulfilLaws first.value second.value third.value where
  union_comm := value_eq_of_denotation_eq (.union first second) (.union second first)
    (Set.union_comm _ _)
  inter_comm := value_eq_of_denotation_eq (.inter first second) (.inter second first)
    (Set.inter_comm _ _)
  union_assoc := value_eq_of_denotation_eq (.union (.union first second) third)
    (.union first (.union second third)) (Set.union_assoc _ _ _)
  inter_assoc := value_eq_of_denotation_eq (.inter (.inter first second) third)
    (.inter first (.inter second third)) (Set.inter_assoc _ _ _)
  union_inter_self := value_eq_of_denotation_eq (.union first (.inter first second)) first
    (Set.union_eq_self_of_subset_right Set.inter_subset_left)
  inter_union_self := value_eq_of_denotation_eq (.inter first (.union first second)) first
    (Set.inter_eq_self_of_subset_left Set.subset_union_left)
  union_inter_distrib := value_eq_of_denotation_eq (.union first (.inter second third))
    (.inter (.union first second) (.union first third)) (Set.union_inter_distrib_left _ _ _)
  inter_union_distrib := value_eq_of_denotation_eq (.inter first (.union second third))
    (.union (.inter first second) (.inter first third)) (Set.inter_union_distrib_left _ _ _)
  union_empty := value_eq_of_denotation_eq (.union first .empty) first (Set.union_empty _)
  inter_full := value_eq_of_denotation_eq (.inter first .full) first
    (Set.inter_eq_self_of_subset_left first.denotation_subset)
  union_complement := value_eq_of_denotation_eq (.union first (.complement first)) .full
    (Set.union_sdiff_cancel first.denotation_subset)
  inter_complement := value_eq_of_denotation_eq (.inter first (.complement first)) .empty
    (Set.inter_sdiff_self _ _)
  complement_complement := value_eq_of_denotation_eq (.complement (.complement first)) first
    (Set.sdiff_sdiff_cancel_left first.denotation_subset)
  complement_union := value_eq_of_denotation_eq (.complement (.union first second))
    (.inter (.complement first) (.complement second)) Set.sdiff_inter_sdiff.symm
  complement_inter := value_eq_of_denotation_eq (.complement (.inter first second))
    (.union (.complement first) (.complement second)) Set.sdiff_inter

end Expression

/-- The sets that the operations make are stored in order, without empty, overlapping or touching
ranges, within the universe. They hold the numbers that are meant; comparing them compares those
numbers, and they are equal exactly if they hold the same. -/
theorem expressions_are_canonical_algebra (left right third : Expression) :
    left.value.IsCanonical ∧ left.value.numbers = left.denotation ∧
    (left.value.union right.value).numbers = left.value.numbers ∪ right.value.numbers ∧
    (left.value.inter right.value).numbers = left.value.numbers ∩ right.value.numbers ∧
    left.value.complement.numbers = Set.Iic maxCodePoint \ left.value.numbers ∧
    (left.value.isDisjoint right.value = true ↔
      left.value.numbers ∩ right.value.numbers = ∅) ∧
    (left.value.isSubset right.value = true ↔ left.value.numbers ⊆ right.value.numbers) ∧
    (left.value = right.value ↔ left.value.numbers = right.value.numbers) ∧
    FulfilLaws left.value right.value third.value := by
  have leftCanonical := left.isCanonical_value
  have rightCanonical := right.isCanonical_value
  have equal_iff : left.value = right.value ↔ left.value.numbers = right.value.numbers :=
    ⟨congrArg numbers, eq_of_numbers_eq leftCanonical rightCanonical⟩
  exact ⟨leftCanonical, left.numbers_value, numbers_union leftCanonical rightCanonical,
    numbers_inter leftCanonical rightCanonical, numbers_complement leftCanonical,
    isDisjoint_iff leftCanonical rightCanonical, isSubset_iff leftCanonical rightCanonical,
    equal_iff, Expression.fulfilLaws left right third⟩

end CharSet

end StreamGrammar
