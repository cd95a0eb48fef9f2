import Mathlib.Data.List.Count
import Mathlib.Data.List.Perm.Subperm
import StreamGrammar.Input.Location

/-!
# Line breaks

The carriage returns and line feeds of a text belong to its line breaks, each of which is
a carriage return and the line feed right after it, or one of the two alone. A text may be
divided among breaks in several ways; its line breaks are those of the division with the
most pairs, and there is exactly one such division. A location knows of the text before it
only whether that ends with a carriage return. This is enough for it to count the breaks
that have begun, and what comes after the last of them, at every position of every text.
-/

namespace StreamGrammar

namespace Location

inductive Newline where
  | lineFeed
  | carriageReturn
  | returnLineFeed
deriving DecidableEq, Repr

def Newline.text : Newline → List Char
  | lineFeed => ['\n']
  | carriageReturn => ['\r']
  | returnLineFeed => ['\r', '\n']

/-- A newline at some position of a text. -/
structure LineBreak where
  start : Nat
  newline : Newline
deriving DecidableEq, Repr

namespace LineBreak

/-- The position after the break. -/
def stop (lineBreak : LineBreak) : Nat := lineBreak.start + lineBreak.newline.text.length

theorem start_lt_stop (lineBreak : LineBreak) : lineBreak.start < lineBreak.stop := by
  rcases lineBreak with ⟨start, newline⟩
  cases newline <;> simp [stop, Newline.text]

def Covers (lineBreak : LineBreak) (position : Nat) : Prop :=
  lineBreak.start ≤ position ∧ position < lineBreak.stop

theorem covers_start (lineBreak : LineBreak) : lineBreak.Covers lineBreak.start :=
  ⟨Nat.le_refl _, lineBreak.start_lt_stop⟩

end LineBreak

/-- The breaks are found in the text one after the other, and each carriage return and line feed
belongs to one of them. -/
structure IsDivision (text : List Char) (breaks : List LineBreak) : Prop where
  found : ∀ lineBreak ∈ breaks, lineBreak.newline.text <+: text.drop lineBreak.start
  ordered : breaks.Pairwise fun earlier later => earlier.stop ≤ later.start
  complete : ∀ position, text[position]? = some '\r' ∨ text[position]? = some '\n' →
    ∃ lineBreak ∈ breaks, lineBreak.Covers position

/-- The number of carriage returns that are joined with the line feed after them. -/
def pairCount (breaks : List LineBreak) : Nat := breaks.countP (·.newline = .returnLineFeed)

/-- The breaks divide the text, and no other division of it has more pairs. -/
structure AreBreaksOf (text : List Char) (breaks : List LineBreak) : Prop
    extends IsDivision text breaks where
  maximal : ∀ other, IsDivision text other → pairCount other ≤ pairCount breaks

/-- The position after the last of the breaks, where the last line begins. -/
def lineStart (breaks : List LineBreak) : Nat := breaks.getLast?.elim 0 LineBreak.stop

/-- The location is the end of what has been read, in which the given breaks have begun. -/
structure Counts (location : Location) (read : List Char) (breaks : List LineBreak) : Prop where
  offset : location.offset = read.length
  line : location.line = 1 + breaks.length
  column : location.column = 1 + (read.drop (lineStart breaks)).length

section Finding

variable {text : List Char} {position : Nat} {lineBreak : LineBreak}

/-- There is a carriage return right before the position. -/
def returnBefore (text : List Char) : Nat → Bool
  | 0 => false
  | position + 1 => text[position]? == some '\r'

/-- Such a break begins at the position, and is not a part of a pair. -/
def Newline.BeginsAt (text : List Char) (position : Nat) : Newline → Prop
  | lineFeed => text[position]? = some '\n' ∧ returnBefore text position = false
  | carriageReturn => text[position]? = some '\r' ∧ text[position + 1]? ≠ some '\n'
  | returnLineFeed => text[position]? = some '\r' ∧ text[position + 1]? = some '\n'

/-- The break that begins at the position. -/
def breakAt? (text : List Char) (position : Nat) : Option LineBreak :=
  if text[position]? = some '\r' then
    some ⟨position, if text[position + 1]? = some '\n' then .returnLineFeed else .carriageReturn⟩
  else if text[position]? = some '\n' ∧ returnBefore text position = false then
    some ⟨position, .lineFeed⟩
  else none

theorem breakAt?_return (found : text[position]? = some '\r') :
    breakAt? text position = some ⟨position,
      if text[position + 1]? = some '\n' then .returnLineFeed else .carriageReturn⟩ :=
  if_pos found

theorem breakAt?_lineFeed (found : text[position]? = some '\n') :
    breakAt? text position =
      if returnBefore text position = true then none else some ⟨position, .lineFeed⟩ := by
  cases before : returnBefore text position <;> simp [breakAt?, found, before]

theorem breakAt?_ordinary (noReturn : text[position]? ≠ some '\r')
    (noLineFeed : text[position]? ≠ some '\n') : breakAt? text position = none := by
  simp [breakAt?, noReturn, noLineFeed]

theorem breakAt?_eq_some_iff :
    breakAt? text position = some lineBreak ↔
      lineBreak.start = position ∧ lineBreak.newline.BeginsAt text position := by
  rcases lineBreak with ⟨start, newline⟩
  cases newline <;> grind [breakAt?, Newline.BeginsAt]

/-- The breaks that begin before the position. -/
def breaksBefore (text : List Char) (position : Nat) : List LineBreak :=
  (List.range position).filterMap (breakAt? text)

theorem breaksBefore_succ (text : List Char) (position : Nat) :
    breaksBefore text (position + 1) =
      breaksBefore text position ++ (breakAt? text position).toList := by
  rw [breaksBefore, List.range_succ, List.filterMap_append, ← breaksBefore]
  cases found : breakAt? text position <;> simp [found]

theorem mem_breaksBefore_iff :
    lineBreak ∈ breaksBefore text position ↔
      lineBreak.start < position ∧ lineBreak.newline.BeginsAt text lineBreak.start := by
  simp only [breaksBefore, List.mem_filterMap, List.mem_range, breakAt?_eq_some_iff]
  constructor
  · rintro ⟨_, before, rfl, begins⟩
    exact ⟨before, begins⟩
  · rintro ⟨before, begins⟩
    exact ⟨_, before, rfl, begins⟩

/-- Of the breaks before a limit, those that begin before an earlier position. -/
theorem filter_breaksBefore {limit : Nat} (inside : position ≤ limit) :
    (breaksBefore text limit).filter (·.start < position) = breaksBefore text position := by
  induction inside with
  | refl =>
      refine List.filter_eq_self.mpr fun lineBreak lineBreak_mem => ?_
      exact decide_eq_true (mem_breaksBefore_iff.mp lineBreak_mem).1
  | step inside ih =>
      rw [breaksBefore_succ, List.filter_append, ih, List.append_right_eq_self,
        List.filter_eq_nil_iff]
      intro lineBreak lineBreak_mem
      obtain ⟨rfl, _⟩ := breakAt?_eq_some_iff.mp (Option.mem_toList.mp lineBreak_mem)
      simpa using inside

/-- All breaks of the text. -/
def lineBreaks (text : List Char) : List LineBreak := breaksBefore text text.length

theorem mem_lineBreaks_iff :
    lineBreak ∈ lineBreaks text ↔ lineBreak.newline.BeginsAt text lineBreak.start := by
  refine mem_breaksBefore_iff.trans (and_iff_right_of_imp fun begins => ?_)
  rcases lineBreak with ⟨start, newline⟩
  cases newline <;> exact (List.getElem?_eq_some_iff.mp begins.1).1

end Finding

section Counting

variable {text : List Char} {position : Nat}

@[simp]
theorem lineStart_append_singleton (breaks : List LineBreak) (last : LineBreak) :
    lineStart (breaks ++ [last]) = last.stop := by
  simp [lineStart]

/-- Between the two parts of a pair, the line begins after it. -/
theorem lineStart_between (before : returnBefore text position = true)
    (next : text[position]? = some '\n') :
    lineStart (breaksBefore text position) = position + 1 := by
  cases position with
  | zero => cases before
  | succ position =>
      have isReturn : text[position]? = some '\r' := eq_of_beq before
      rw [breaksBefore_succ, breakAt?_return isReturn, if_pos next, Option.toList_some,
        lineStart_append_singleton]
      rfl

/-- Everywhere else, a line begins no later than its positions. -/
theorem lineStart_le (next : text[position]? ≠ some '\n') :
    lineStart (breaksBefore text position) ≤ position := by
  induction position with
  | zero => exact Nat.le_refl 0
  | succ position ih =>
      rw [breaksBefore_succ]
      by_cases isReturn : text[position]? = some '\r'
      · rw [breakAt?_return isReturn, if_neg next, Option.toList_some,
          lineStart_append_singleton]
        exact Nat.le_refl _
      by_cases isLineFeed : text[position]? = some '\n'
      · rw [breakAt?_lineFeed isLineFeed]
        split
        next before =>
          rw [Option.toList_none, List.append_nil]
          exact Nat.le_of_eq (lineStart_between before isLineFeed)
        next =>
          rw [Option.toList_some, lineStart_append_singleton]
          exact Nat.le_refl _
      · rw [breakAt?_ordinary isReturn isLineFeed, Option.toList_none, List.append_nil]
        exact Nat.le_succ_of_le (ih isLineFeed)

/-- What a location knows at a position of the text. -/
structure IsAt (location : Location) (text : List Char) (position : Nat) : Prop where
  offset : location.offset = position
  line : location.line = 1 + (breaksBefore text position).length
  column : location.column = 1 + (position - lineStart (breaksBefore text position))
  afterReturn : location.afterReturn = returnBefore text position

theorem isAt_start (text : List Char) : start.IsAt text 0 := ⟨rfl, rfl, rfl, rfl⟩

namespace IsAt

variable {location : Location}

/-- A break that begins right before is counted, and what comes after it is not on its line. -/
theorem of_break (offset_eq : location.offset = position + 1)
    (line_eq : location.line = 1 + (breaksBefore text position).length + 1)
    (column_eq : location.column = 1)
    (after : location.afterReturn = returnBefore text (position + 1)) {lineBreak : LineBreak}
    (began : breakAt? text position = some lineBreak) : location.IsAt text (position + 1) := by
  have started := (breakAt?_eq_some_iff.mp began).1
  have passed := lineBreak.start_lt_stop
  rw [started] at passed
  refine ⟨offset_eq, ?_, ?_, after⟩
  · rw [line_eq, breaksBefore_succ, began, Option.toList_some, List.length_append,
      List.length_singleton, Nat.add_assoc]
  · rw [column_eq, breaksBefore_succ, began, Option.toList_some, lineStart_append_singleton,
      Nat.sub_eq_zero_of_le passed]

theorem advance_return (isAt : location.IsAt text position)
    (next : text[position]? = some '\r') : (location.advance '\r').IsAt text (position + 1) := by
  refine of_break ?_ ?_ rfl ?_ (breakAt?_return next)
  · rw [offset_advance, isAt.offset]
  · simp [Location.advance, isAt.line]
  · simp [Location.advance, returnBefore, next]

/-- A line feed after a carriage return is the second part of a break that was counted before. -/
theorem advance_lineFeed (isAt : location.IsAt text position)
    (next : text[position]? = some '\n') : (location.advance '\n').IsAt text (position + 1) := by
  have after : returnBefore text (position + 1) = false := by simp [returnBefore, next]
  have none_or_began := breakAt?_lineFeed next
  cases before : returnBefore text position with
  | false =>
      have alone : location.afterReturn = false := by rw [isAt.afterReturn, before]
      rw [before, if_neg Bool.false_ne_true] at none_or_began
      refine of_break ?_ ?_ ?_ ?_ none_or_began
      · rw [offset_advance, isAt.offset]
      · simp [Location.advance, alone, isAt.line]
      · simp [Location.advance, alone]
      · simp [Location.advance, alone, after]
  | true =>
      have paired : location.afterReturn = true := by rw [isAt.afterReturn, before]
      rw [before, if_pos rfl] at none_or_began
      have same : breaksBefore text (position + 1) = breaksBefore text position := by
        rw [breaksBefore_succ, none_or_began, Option.toList_none, List.append_nil]
      have started := lineStart_between before next
      refine ⟨?_, ?_, ?_, ?_⟩
      · rw [offset_advance, isAt.offset]
      · simp [Location.advance, paired, isAt.line, same]
      · rw [same, started, Nat.sub_self]
        simp [Location.advance, paired, isAt.column, started]
      · simp [Location.advance, paired, after]

theorem advance_ordinary (isAt : location.IsAt text position) {character : Char}
    (next : text[position]? = some character) (noReturn : character ≠ '\r')
    (noLineFeed : character ≠ '\n') :
    (location.advance character).IsAt text (position + 1) := by
  have advanced : location.advance character =
      ⟨location.line, location.column + 1, location.offset + 1, false⟩ := by
    simp [Location.advance, noReturn, noLineFeed]
  have none : breakAt? text position = none :=
    breakAt?_ordinary (by simpa [next]) (by simpa [next])
  have same : breaksBefore text (position + 1) = breaksBefore text position := by
    rw [breaksBefore_succ, none, Option.toList_none, List.append_nil]
  have started : lineStart (breaksBefore text position) ≤ position :=
    lineStart_le (by simpa [next])
  rw [advanced]
  refine ⟨?_, ?_, ?_, ?_⟩
  · rw [isAt.offset]
  · rw [isAt.line, same]
  · rw [isAt.column, same, Nat.succ_sub started]
    rfl
  · simp [returnBefore, next, noReturn]

/-- Passing one more code point, a location counts the break that begins there. -/
theorem advance (isAt : location.IsAt text position) {character : Char}
    (next : text[position]? = some character) :
    (location.advance character).IsAt text (position + 1) := by
  by_cases isReturn : character = '\r'
  · subst isReturn
    exact isAt.advance_return next
  · by_cases isLineFeed : character = '\n'
    · subst isLineFeed
      exact isAt.advance_lineFeed next
    · exact isAt.advance_ordinary next isReturn isLineFeed

end IsAt

theorem isAt_advanceAll_take (text : List Char) (inside : position ≤ text.length) :
    (start.advanceAll (text.take position)).IsAt text position := by
  induction position with
  | zero => exact isAt_start text
  | succ position ih =>
      have next := List.getElem?_eq_getElem inside
      rw [List.take_add_one, next, Option.toList_some, advanceAll_append]
      exact (ih (Nat.le_of_succ_le inside)).advance next

/-- The breaks of a text have all begun at its end, and at the positions beyond. -/
theorem filter_lineBreaks_eq_self (beyond : text.length ≤ position) :
    (lineBreaks text).filter (·.start < position) = lineBreaks text := by
  refine List.filter_eq_self.mpr fun lineBreak lineBreak_mem => ?_
  exact decide_eq_true (Nat.lt_of_lt_of_le (mem_breaksBefore_iff.mp lineBreak_mem).1 beyond)

theorem counts_take (inside : position ≤ text.length) :
    (start.advanceAll (text.take position)).Counts (text.take position)
      ((lineBreaks text).filter (·.start < position)) := by
  have isAt := isAt_advanceAll_take text inside
  have length_eq := List.length_take_of_le inside
  rw [lineBreaks, filter_breaksBefore inside]
  refine ⟨?_, isAt.line, ?_⟩
  · rw [isAt.offset, length_eq]
  · rw [isAt.column, List.length_drop, length_eq]

theorem counts_text (text : List Char) :
    (start.advanceAll text).Counts text (lineBreaks text) := by
  have atEnd := counts_take (Nat.le_refl text.length)
  rwa [List.take_length, filter_lineBreaks_eq_self (Nat.le_refl _)] at atEnd

end Counting

section Dividing

variable {text : List Char} {position : Nat} {breaks : List LineBreak} {lineBreak : LineBreak}

theorem prefix_drop_iff (newline : Newline) :
    newline.text <+: text.drop position ↔
      match newline with
      | .lineFeed => text[position]? = some '\n'
      | .carriageReturn => text[position]? = some '\r'
      | .returnLineFeed => text[position]? = some '\r' ∧ text[position + 1]? = some '\n' := by
  cases newline with
  | lineFeed | carriageReturn => simp [List.prefix_iff_getElem?, Newline.text]
  | returnLineFeed =>
      simp only [List.prefix_iff_getElem?, Newline.text, List.getElem?_drop]
      constructor
      · intro found
        exact ⟨found 0 (by decide), found 1 (by decide)⟩
      · rintro ⟨isReturn, isLineFeed⟩ offset inside
        match offset, inside with
        | 0, _ => exact isReturn
        | 1, _ => exact isLineFeed

theorem Newline.BeginsAt.found {newline : Newline} (begins : newline.BeginsAt text position) :
    newline.text <+: text.drop position := by
  rw [prefix_drop_iff]
  cases newline with
  | lineFeed | carriageReturn => exact begins.1
  | returnLineFeed => exact begins

namespace IsDivision

/-- No position belongs to two breaks. -/
theorem eq_of_covers (division : IsDivision text breaks) {first second : LineBreak}
    (first_mem : first ∈ breaks) (second_mem : second ∈ breaks)
    (firstCovers : first.Covers position) (secondCovers : second.Covers position) :
    first = second := by
  have apart := List.pairwise_iff_getElem.mp division.ordered
  rcases List.getElem_of_mem first_mem with ⟨firstIndex, first_lt, rfl⟩
  rcases List.getElem_of_mem second_mem with ⟨secondIndex, second_lt, rfl⟩
  rcases Nat.lt_trichotomy firstIndex secondIndex with before | rfl | after
  · have beyond := apart firstIndex secondIndex first_lt second_lt before
    exact absurd firstCovers.2 (Nat.not_lt_of_le (Nat.le_trans beyond secondCovers.1))
  · rfl
  · have beyond := apart secondIndex firstIndex second_lt first_lt after
    exact absurd secondCovers.2 (Nat.not_lt_of_le (Nat.le_trans beyond firstCovers.1))

theorem nodup (division : IsDivision text breaks) : breaks.Nodup := by
  refine division.ordered.imp fun {earlier later} before same => ?_
  subst same
  exact Nat.not_lt_of_le before earlier.start_lt_stop

theorem beginsAt_of_pair (division : IsDivision text breaks) (lineBreak_mem : lineBreak ∈ breaks)
    (isPair : lineBreak.newline = .returnLineFeed) :
    lineBreak.newline.BeginsAt text lineBreak.start := by
  have found := division.found lineBreak lineBreak_mem
  rw [isPair, prefix_drop_iff] at found
  rwa [isPair]

end IsDivision

/-- A break that begins after another one ended does so at its end or later. -/
theorem Newline.BeginsAt.stop_le {earlier later : LineBreak}
    (earlierBegins : earlier.newline.BeginsAt text earlier.start)
    (laterBegins : later.newline.BeginsAt text later.start)
    (before : earlier.start < later.start) : earlier.stop ≤ later.start := by
  rcases earlier with ⟨start, newline⟩
  cases newline with
  | lineFeed | carriageReturn => exact before
  | returnLineFeed =>
      refine Nat.lt_of_le_of_ne before fun between => ?_
      rcases earlierBegins with ⟨isReturn, isLineFeed⟩
      rcases later with ⟨_, newline⟩
      subst between
      cases newline with
      | lineFeed => simp [BeginsAt, returnBefore, isReturn] at laterBegins
      | carriageReturn | returnLineFeed => simp [BeginsAt, isLineFeed] at laterBegins

/-- A carriage return is joined with a line feed after it. -/
theorem exists_pair (before : returnBefore text position = true)
    (next : text[position]? = some '\n') :
    ∃ pair ∈ lineBreaks text, pair.newline = .returnLineFeed ∧ pair.Covers position := by
  cases position with
  | zero => cases before
  | succ position =>
      refine ⟨⟨position, .returnLineFeed⟩, ?_, rfl, Nat.le_succ position, Nat.lt_succ_self _⟩
      exact mem_lineBreaks_iff.mpr ⟨eq_of_beq before, next⟩

/-- The breaks that begin in the text divide it. -/
theorem isDivision_lineBreaks (text : List Char) : IsDivision text (lineBreaks text) where
  found lineBreak lineBreak_mem := (mem_lineBreaks_iff.mp lineBreak_mem).found
  ordered := by
    refine List.pairwise_filterMap.mpr (List.pairwise_lt_range.imp ?_)
    intro position next before earlier earlier_eq later later_eq
    obtain ⟨rfl, earlierBegins⟩ := breakAt?_eq_some_iff.mp earlier_eq
    obtain ⟨rfl, laterBegins⟩ := breakAt?_eq_some_iff.mp later_eq
    exact earlierBegins.stop_le laterBegins before
  complete position isNewline := by
    cases began : breakAt? text position with
    | some lineBreak =>
        obtain ⟨rfl, begins⟩ := breakAt?_eq_some_iff.mp began
        exact ⟨lineBreak, mem_lineBreaks_iff.mpr begins, lineBreak.covers_start⟩
    | none =>
        -- Only at the line feed of a pair no break begins.
        rcases isNewline with isReturn | isLineFeed
        · simp [breakAt?_return isReturn] at began
        · rw [breakAt?_lineFeed isLineFeed] at began
          split at began
          next before =>
            rcases exists_pair before isLineFeed with ⟨pair, pair_mem, _, covers⟩
            exact ⟨pair, pair_mem, covers⟩
          next => cases began

/-- The pairs of any division are pairs of the text. -/
theorem IsDivision.pairs_subset (division : IsDivision text breaks) :
    breaks.filter (·.newline = .returnLineFeed) ⊆
      (lineBreaks text).filter (·.newline = .returnLineFeed) := by
  intro lineBreak lineBreak_mem
  rw [List.mem_filter, decide_eq_true_eq] at lineBreak_mem ⊢
  exact ⟨mem_lineBreaks_iff.mpr (division.beginsAt_of_pair lineBreak_mem.1 lineBreak_mem.2),
    lineBreak_mem.2⟩

theorem areBreaksOf_lineBreaks (text : List Char) : AreBreaksOf text (lineBreaks text) where
  toIsDivision := isDivision_lineBreaks text
  maximal other division := by
    simp only [pairCount, List.countP_eq_length_filter]
    exact (List.subperm_of_subset (division.nodup.filter _) division.pairs_subset).length_le

namespace AreBreaksOf

/-- A division with the most pairs has all pairs of the text. -/
theorem pair_mem (areBreaks : AreBreaksOf text breaks) (lineBreak_mem : lineBreak ∈ lineBreaks text)
    (isPair : lineBreak.newline = .returnLineFeed) : lineBreak ∈ breaks := by
  have subset := areBreaks.pairs_subset
  have most := areBreaks.maximal _ (isDivision_lineBreaks text)
  simp only [pairCount, List.countP_eq_length_filter] at most
  have same := (List.subperm_of_subset (areBreaks.nodup.filter _) subset).perm_of_length_le most
  have filtered : lineBreak ∈ (lineBreaks text).filter (·.newline = .returnLineFeed) :=
    List.mem_filter.mpr ⟨lineBreak_mem, decide_eq_true isPair⟩
  exact (List.mem_filter.mp (same.mem_iff.mpr filtered)).1

/-- No part of a pair is a break of its own. -/
theorem beginsAt (areBreaks : AreBreaksOf text breaks) (lineBreak_mem : lineBreak ∈ breaks) :
    lineBreak.newline.BeginsAt text lineBreak.start := by
  have alone : ∀ pair ∈ lineBreaks text, pair.newline = .returnLineFeed →
      pair.Covers lineBreak.start → pair = lineBreak := fun pair pair_mem isPair covers =>
    areBreaks.eq_of_covers (areBreaks.pair_mem pair_mem isPair) lineBreak_mem covers
      lineBreak.covers_start
  have found := areBreaks.found lineBreak lineBreak_mem
  rw [prefix_drop_iff] at found
  rcases lineBreak with ⟨start, newline⟩
  cases newline with
  | returnLineFeed => exact found
  | carriageReturn =>
      refine ⟨found, fun next => ?_⟩
      have pair_mem : ⟨start, .returnLineFeed⟩ ∈ lineBreaks text :=
        mem_lineBreaks_iff.mpr ⟨found, next⟩
      cases alone _ pair_mem rfl (LineBreak.covers_start _)
  | lineFeed =>
      refine ⟨found, Bool.eq_false_iff.mpr fun before => ?_⟩
      rcases exists_pair before found with ⟨pair, pair_mem, isPair, covers⟩
      cases alone pair pair_mem isPair covers
      cases isPair

theorem mem_iff (areBreaks : AreBreaksOf text breaks) :
    lineBreak ∈ breaks ↔ lineBreak ∈ lineBreaks text := by
  constructor
  · intro lineBreak_mem
    exact mem_lineBreaks_iff.mpr (areBreaks.beginsAt lineBreak_mem)
  · intro lineBreak_mem
    have isNewline : text[lineBreak.start]? = some '\r' ∨ text[lineBreak.start]? = some '\n' := by
      have begins := mem_lineBreaks_iff.mp lineBreak_mem
      rcases lineBreak with ⟨start, newline⟩
      cases newline with
      | lineFeed => exact .inr begins.1
      | carriageReturn | returnLineFeed => exact .inl begins.1
    rcases areBreaks.complete _ isNewline with ⟨other, other_mem, covers⟩
    have other_begins := mem_lineBreaks_iff.mpr (areBreaks.beginsAt other_mem)
    rwa [(isDivision_lineBreaks text).eq_of_covers lineBreak_mem other_begins
      lineBreak.covers_start covers]

theorem eq_lineBreaks (areBreaks : AreBreaksOf text breaks) : breaks = lineBreaks text := by
  have division := isDivision_lineBreaks text
  have same : breaks.Perm (lineBreaks text) :=
    (List.perm_ext_iff_of_nodup areBreaks.nodup division.nodup).mpr fun _ => areBreaks.mem_iff
  refine same.eq_of_pairwise ?_ areBreaks.ordered division.ordered
  intro first second _ _ before after
  have firstLength := first.start_lt_stop
  have secondLength := second.start_lt_stop
  omega

end AreBreaksOf

theorem areBreaksOf_iff : AreBreaksOf text breaks ↔ breaks = lineBreaks text := by
  constructor
  · exact AreBreaksOf.eq_lineBreaks
  · rintro rfl
    exact areBreaksOf_lineBreaks text

end Dividing

/-- In every text a carriage return and the line feed right after it are one line break, and all
other carriage returns and line feeds are one each. This is the division with the most pairs, and
the only such one. At the end of the text, and at every position before, a location tells how many
code points there are so far, how many breaks have begun, and how many code points there are after
the last of them, which are none between the two parts of a pair. -/
theorem counts_line_breaks (text : List Char) :
    ∃ breaks, (∀ other, AreBreaksOf text other ↔ other = breaks) ∧
      (∀ position, ⟨position, .returnLineFeed⟩ ∈ breaks ↔ ['\r', '\n'] <+: text.drop position) ∧
      (start.advanceAll text).Counts text breaks ∧
      ∀ position, (start.advanceAll (text.take position)).Counts (text.take position)
        (breaks.filter (·.start < position)) := by
  refine ⟨lineBreaks text, fun _ => areBreaksOf_iff, fun position => ?_, counts_text text,
    fun position => ?_⟩
  · rw [mem_lineBreaks_iff]
    exact (prefix_drop_iff .returnLineFeed).symm
  · rcases Nat.le_total position text.length with inside | beyond
    · exact counts_take inside
    · rw [List.take_of_length_le beyond, filter_lineBreaks_eq_self beyond]
      exact counts_text text

example : start.advanceAll "a\r\r\n\nb".toList = ⟨4, 2, 6, false⟩ := by decide

example : start.advanceAll "a\r\r".toList = ⟨3, 1, 3, true⟩ := by decide

end Location

end StreamGrammar
