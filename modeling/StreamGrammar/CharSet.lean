import StreamGrammar.Text.Hexadecimal

/-!
# Sets of code points

A `CharSet` is the exact set of code points that a matcher accepts, stored as
inclusive ranges of code point numbers. Every operation leaves the ranges
ordered, non-empty and separated by at least one number that is missing, so that
two sets are equal as values exactly when they hold the same numbers. The
universe is the interval from zero to the largest code point; the surrogate
numbers inside it, which no character has, belong to a set like any others.
-/

namespace StreamGrammar

/-- An inclusive interval of code point numbers. -/
structure CodeRange where
  first : Nat
  last : Nat
deriving DecidableEq, Repr

namespace CodeRange

/-- The number lies between the two ends. -/
def Contains (range : CodeRange) (number : Nat) : Prop :=
  range.first ≤ number ∧ number ≤ range.last

instance (range : CodeRange) (number : Nat) : Decidable (range.Contains number) :=
  inferInstanceAs (Decidable (_ ∧ _))

/-- Ranges are ordered by their first number, and by their last one where the first ones agree. -/
def precedes (left right : CodeRange) : Bool :=
  left.first < right.first || (left.first == right.first && left.last ≤ right.last)

/-- Inserts a range into an ordered list, before the first range that it precedes. -/
def insertOrdered (range : CodeRange) : List CodeRange → List CodeRange
  | [] => [range]
  | next :: rest =>
      if range.precedes next then range :: next :: rest
      else next :: insertOrdered range rest

/-- The same ranges in ascending order. -/
def ordered (ranges : List CodeRange) : List CodeRange :=
  ranges.foldr insertOrdered []

/-- Joins the ranges of an ordered list that overlap or touch, `current` being the first of them. -/
def coalesceFrom (current : CodeRange) : List CodeRange → List CodeRange
  | [] => [current]
  | next :: rest =>
      if next.first ≤ current.last + 1 then
        coalesceFrom ⟨current.first, max current.last next.last⟩ rest
      else
        current :: coalesceFrom next rest

/-- Joins the ranges of an ordered list that overlap or touch. -/
def coalesce : List CodeRange → List CodeRange
  | [] => []
  | first :: rest => coalesceFrom first rest

/-- The numbers that two ranges share, if there are any, put before `rest`. -/
def overlapBefore (left right : CodeRange) (rest : List CodeRange) : List CodeRange :=
  let first := max left.first right.first
  let last := min left.last right.last
  if first ≤ last then ⟨first, last⟩ :: rest else rest

/-- Sweeps `range` over an ordered list. Once a member of the list ends after `range`, the part of
the list from that member on is left to the ranges that follow `range`, given as `following`. -/
def sweep (range : CodeRange) (following : List CodeRange → List CodeRange) :
    List CodeRange → List CodeRange
  | [] => []
  | other :: rest =>
      overlapBefore range other <|
        if range.last < other.last then following (other :: rest)
        else sweep range following rest

def overlaps : List CodeRange → List CodeRange → List CodeRange
  | [] => fun _ => []
  | range :: rest => sweep range (overlaps rest)

/-- Sweeps `range` over an ordered list in the same way, up to the first member that it shares a
number with. -/
def sweepApart (range : CodeRange) (following : List CodeRange → Bool) : List CodeRange → Bool
  | [] => true
  | other :: rest =>
      if max range.first other.first ≤ min range.last other.last then false
      else if range.last < other.last then following (other :: rest)
      else sweepApart range following rest

/-- Whether no range of one ordered list shares a number with a range of another one. -/
def areApart : List CodeRange → List CodeRange → Bool
  | [] => fun _ => true
  | range :: rest => sweepApart range (areApart rest)

/-- Looks a number up in an ordered list by halves. The range in the middle tells which half can
hold the number. -/
def search (number : Nat) (ranges : List CodeRange) : Bool :=
  match shape : ranges.drop (ranges.length / 2) with
  | [] => false
  | middle :: after =>
      if middle.last < number then search number after
      else if number < middle.first then search number (ranges.take (ranges.length / 2))
      else true
termination_by ranges.length
decreasing_by
  all_goals
    have lengths := congrArg List.length shape
    simp only [List.length_drop, List.length_cons, List.length_take] at lengths ⊢
    omega

/-- The numbers from `next` up to `limit` that no range of an ordered list holds. -/
def gaps (limit next : Nat) : List CodeRange → List CodeRange
  | [] => if next ≤ limit then [⟨next, limit⟩] else []
  | range :: rest =>
      if next < range.first then ⟨next, range.first - 1⟩ :: gaps limit (range.last + 1) rest
      else gaps limit (range.last + 1) rest

/-- A range of one number is shown as that number, a longer one as its two ends. -/
def text (range : CodeRange) : String :=
  if range.first = range.last then Text.codePointName range.first
  else Text.codePointName range.first ++ ".." ++ Text.codePointName range.last

end CodeRange

/-- A set of code points, as inclusive ranges of their numbers. -/
structure CharSet where
  ranges : List CodeRange
deriving DecidableEq, Repr

namespace CharSet

def maxCodePoint : Nat := 0x10FFFF

instance : Membership Nat CharSet where
  mem set number := ∃ range ∈ set.ranges, range.Contains number

instance (number : Nat) (set : CharSet) : Decidable (number ∈ set) :=
  inferInstanceAs (Decidable (∃ range ∈ set.ranges, range.Contains number))

def empty : CharSet := ⟨[]⟩

def full : CharSet := ⟨[⟨0, maxCodePoint⟩]⟩

/-- The code points from `first` to `last`, none if they are in reverse order. -/
def range (first last : Char) : CharSet :=
  if first ≤ last then ⟨[⟨first.toNat, last.toNat⟩]⟩ else empty

def single (character : Char) : CharSet := range character character

/-- The set that covers the given ranges, in whatever order they come. -/
def ofRanges (ranges : List CodeRange) : CharSet :=
  ⟨CodeRange.coalesce (CodeRange.ordered ranges)⟩

def ofChars (characters : List Char) : CharSet :=
  ofRanges (characters.map fun character => ⟨character.toNat, character.toNat⟩)

def isEmpty (set : CharSet) : Bool := set.ranges.isEmpty

/-- Whether the character's number is in the set. -/
def contains (set : CharSet) (character : Char) : Bool :=
  CodeRange.search character.toNat set.ranges

def union (left right : CharSet) : CharSet :=
  ofRanges (left.ranges ++ right.ranges)

def inter (left right : CharSet) : CharSet :=
  ⟨CodeRange.overlaps left.ranges right.ranges⟩

def complement (set : CharSet) : CharSet :=
  ⟨CodeRange.gaps maxCodePoint 0 set.ranges⟩

def isDisjoint (left right : CharSet) : Bool :=
  CodeRange.areApart left.ranges right.ranges

def isSubset (left right : CharSet) : Bool :=
  left.inter right = left

/-- The ranges in order between braces. -/
def text (set : CharSet) : String :=
  "\x7b" ++ ", ".intercalate (set.ranges.map CodeRange.text) ++ "\x7d"

end CharSet

end StreamGrammar
