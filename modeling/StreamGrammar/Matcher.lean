import StreamGrammar.CharSet
import StreamGrammar.Symbol

/-!
# Matchers

A matcher is a predicate on one code point, composed from single code points,
ranges and lists of them by the Boolean connectives. It has two readings:
`Matcher.accepts` tests a code point, and `Matcher.charSet` computes the set of
all code points that pass the test. No matcher accepts the end of the input.
-/

namespace StreamGrammar

/-- A predicate over a single code point. -/
inductive Matcher where
  /-- Every code point. -/
  | any
  | char (character : Char)
  /-- The code points between two, both included. -/
  | range (first last : Char)
  /-- The listed code points, as they were written. -/
  | set (characters : List Char)
  | not (matcher : Matcher)
  | and (matchers : List Matcher)
  | or (matchers : List Matcher)
deriving Repr

namespace Matcher

mutual

def accepts (character : Char) : Matcher → Bool
  | .any => true
  | .char expected => expected == character
  | .range first last => first ≤ character && character ≤ last
  | .set characters => characters.contains character
  | .not matcher => !matcher.accepts character
  | .and matchers => allAccept character matchers
  | .or matchers => anyAccepts character matchers

/-- Whether every listed matcher accepts the code point. -/
def allAccept (character : Char) : List Matcher → Bool
  | [] => true
  | matcher :: rest => matcher.accepts character && allAccept character rest

/-- Whether some listed matcher accepts the code point. -/
def anyAccepts (character : Char) : List Matcher → Bool
  | [] => false
  | matcher :: rest => matcher.accepts character || anyAccepts character rest

end

mutual

def charSet : Matcher → CharSet
  | .any => .full
  | .char character => .single character
  | .range first last => .range first last
  | .set characters => .ofChars characters
  | .not matcher => matcher.charSet.complement
  | .and matchers => interAll .full matchers
  | .or matchers => unionAll .empty matchers

/-- The given set, cut down to what every listed matcher accepts. -/
def interAll (set : CharSet) : List Matcher → CharSet
  | [] => set
  | matcher :: rest => interAll (set.inter matcher.charSet) rest

/-- The given set, widened by what the listed matchers accept. -/
def unionAll (set : CharSet) : List Matcher → CharSet
  | [] => set
  | matcher :: rest => unionAll (set.union matcher.charSet) rest

end

/-- Whether the matcher accepts the symbol, which the end of the input never is. -/
def matchesSymbol (matcher : Matcher) : Symbol → Bool
  | .char character => matcher.accepts character
  | .endOfInput => false

theorem allAccept_eq_all (character : Char) (matchers : List Matcher) :
    allAccept character matchers = matchers.all (·.accepts character) := by
  induction matchers with
  | nil => simp [allAccept]
  | cons matcher rest ih => simp [allAccept, ih]

theorem anyAccepts_eq_any (character : Char) (matchers : List Matcher) :
    anyAccepts character matchers = matchers.any (·.accepts character) := by
  induction matchers with
  | nil => simp [anyAccepts]
  | cons matcher rest ih => simp [anyAccepts, ih]

theorem interAll_eq_foldl (set : CharSet) (matchers : List Matcher) :
    interAll set matchers =
      matchers.foldl (fun current matcher => current.inter matcher.charSet) set := by
  induction matchers generalizing set with
  | nil => simp [interAll]
  | cons matcher rest ih => simp [interAll, ih]

theorem unionAll_eq_foldl (set : CharSet) (matchers : List Matcher) :
    unionAll set matchers =
      matchers.foldl (fun current matcher => current.union matcher.charSet) set := by
  induction matchers generalizing set with
  | nil => simp [unionAll]
  | cons matcher rest ih => simp [unionAll, ih]

end Matcher

end StreamGrammar
