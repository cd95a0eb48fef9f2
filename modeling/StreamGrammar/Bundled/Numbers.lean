import StreamGrammar.Grammar

/-!
# Lists of numbers

Unsigned integers with commas between them, and perhaps a line feed at the end.
-/

namespace StreamGrammar.Numbers

open Assembly

def listRule (list number : RuleId) : Assembly Unit := do
  let start ← node list
  let separator ← namedNode list "separator"
  let lineEnded ← node list
  let done ← node list (.event "end")
  let _ ← callEdge list start number separator
  let _ ← charEdge list separator ',' start
  let _ ← charEdge list separator '\n' lineEnded
  let _ ← gotoEdge list separator done
  let _ ← gotoEdge list lineEnded done

def numberRule (number : RuleId) (digit : MatcherId) : Assembly Unit := do
  let start ← node number
  let begun ← node number .beginCapture
  let digits ← namedNode number "digits"
  let closed ← node number (.publish "number" 0 0)
  let _ ← gotoEdge number start begun
  let _ ← consumeEdge number begun digit digits
  let _ ← consumeEdge number digits digit digits
  let _ ← gotoEdge number digits closed

def declarations : Assembly Unit := do
  let list ← rule "list"
  let number ← rule "number"
  let digit ← namedMatcher "DIGIT" (.range '0' '9')
  listRule list number
  numberRule number digit

/-- Every decision looks at one code point. -/
def config : GrammarConfig := { start := "list" }

end StreamGrammar.Numbers
