import StreamGrammar.Matcher.Printer

/-!
# Matcher definitions

A grammar refers to its matchers through definitions: a matcher, the name under
which messages mention it, if it has one, and the set of the code points that it
accepts, computed once.
-/

namespace StreamGrammar

/-- A matcher as a grammar holds it. -/
structure MatcherDef where
  name : Option String := none
  matcher : Matcher
  /-- The set that the matcher accepts, kept because decisions compare it over and over. -/
  charSet : CharSet := matcher.charSet
  charSet_eq : charSet = matcher.charSet := by rfl

namespace MatcherDef

instance : Inhabited MatcherDef := ⟨{ matcher := .any }⟩

def matchesSymbol (definition : MatcherDef) (symbol : Symbol) : Bool :=
  definition.matcher.matchesSymbol symbol

/-- The name if there is one, otherwise the text of the matcher. -/
def describe (definition : MatcherDef) : String :=
  definition.name.getD definition.matcher.text

end MatcherDef

end StreamGrammar
