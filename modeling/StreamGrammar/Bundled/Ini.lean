import StreamGrammar.Grammar

/-!
# Configuration files

Lines that are section headers in brackets, entries of a key and a value, comments
or blank.
-/

namespace StreamGrammar.Ini

open Assembly

/-- The matchers that the rules of a configuration file share. -/
structure Matchers where
  key : MatcherId
  newline : MatcherId
  blank : MatcherId
  text : MatcherId
  comment : MatcherId

def matchers : Assembly Matchers := do
  let key ← namedMatcher "KEY"
    (.or [.range 'a' 'z', .range 'A' 'Z', .range '0' '9', .set ['_', '.', '-']])
  let newline ← namedMatcher "NEWLINE" (.set ['\r', '\n'])
  let blank ← namedMatcher "BLANK" (.set [' ', '\t'])
  let text ← namedMatcher "TEXT" (.not (.set ['\r', '\n']))
  let comment ← namedMatcher "COMMENT" (.set [';', '#'])
  return { key, newline, blank, text, comment }

/-- Declares a file: lines of all kinds, with the headers and the comments. -/
def fileRule (file entry : RuleId) (matchers : Matchers) : Assembly Unit := do
  let line ← namedNode file "line"
  let done ← node file
  let _ ← consumeEdge file line matchers.newline line
  let _ ← consumeEdge file line matchers.blank line
  let _ ← callEdge file line entry line
  let _ ← gotoEdge file line done
  let opened ← node file
  let begun ← node file .beginCapture
  let inSection ← namedNode file "section"
  let closed ← node file (.publish "section" 0 0)
  let _ ← charEdge file line '[' opened
  let _ ← gotoEdge file opened begun
  let _ ← consumeEdge file begun matchers.key inSection
  let _ ← consumeEdge file inSection matchers.key inSection
  let _ ← charEdge file inSection ']' closed
  let _ ← consumeEdge file closed matchers.newline line
  let _ ← gotoEdge file closed done
  let comment ← namedNode file "comment"
  let _ ← consumeEdge file line matchers.comment comment
  let _ ← consumeEdge file comment matchers.text comment
  let _ ← consumeEdge file comment matchers.newline line
  let _ ← gotoEdge file comment done

/-- Declares an entry: a key, an equals sign, and a value that ends with the line or the input. -/
def entryRule (entry : RuleId) (matchers : Matchers) : Assembly Unit := do
  let start ← node entry
  let keyBegun ← node entry .beginCapture
  let key ← namedNode entry "key"
  let keyClosed ← node entry (.publish "key" 0 0)
  let valueBegun ← node entry .beginCapture
  let value ← namedNode entry "value"
  let lineEnded ← node entry (.publish "value" 0 0)
  let inputEnded ← node entry (.publish "value" 0 0)
  let _ ← gotoEdge entry start keyBegun
  let _ ← consumeEdge entry keyBegun matchers.key key
  let _ ← consumeEdge entry key matchers.key key
  let _ ← charEdge entry key '=' keyClosed
  let _ ← gotoEdge entry keyClosed valueBegun
  let _ ← gotoEdge entry valueBegun value
  let _ ← consumeEdge entry value matchers.text value
  let _ ← consumeEdge entry value matchers.newline lineEnded
  let _ ← gotoEdge entry value inputEnded

def declarations : Assembly Unit := do
  let file ← rule "ini"
  let entry ← rule "entry"
  let matchers ← Ini.matchers
  fileRule file entry matchers
  entryRule entry matchers

/-- Every decision looks at one code point. -/
def config : GrammarConfig := { start := "ini" }

end StreamGrammar.Ini
