import StreamGrammar.Grammar

/-!
# Comma separated values

Records of fields, one record to a line. A field is plain, or stands between
double quotes, inside which a quote is written twice.
-/

namespace StreamGrammar.Csv

open Assembly

/-- Declares a branch of a record that captures and publishes an empty field. Gives its end. -/
def emptyField (record : RuleId) (source : NodeId) : Assembly NodeId := do
  let opened ← node record .beginCapture
  let closed ← node record (.publish "field" 0 0)
  let _ ← gotoEdge record source opened
  let _ ← gotoEdge record opened closed
  return closed

/-- Declares a file: records, each followed by one or more line breaks except perhaps the last. -/
def fileRule (file record : RuleId) : Assembly Unit := do
  let start ← namedNode file "start"
  let afterRecord ← namedNode file "record"
  let afterReturn ← node file
  let line ← namedNode file "line"
  let done ← node file
  let _ ← callEdge file start record afterRecord
  let _ ← gotoEdge file start done
  let _ ← charEdge file afterRecord '\n' line
  let _ ← charEdge file afterRecord '\r' afterReturn
  let _ ← charEdge file afterReturn '\n' line
  let _ ← gotoEdge file afterRecord done
  let _ ← charEdge file line '\n' line
  let _ ← callEdge file line record afterRecord
  let _ ← gotoEdge file line done

/-- Declares a record: fields with commas between them. Empty fields are captured here, so that a
field always consumes something. -/
def recordRule (record field : RuleId) : Assembly Unit := do
  let start ← node record
  let separator ← namedNode record "separator"
  let next ← namedNode record "next"
  let done ← node record (.event "record")
  let _ ← callEdge record start field separator
  let _ ← charEdge record separator ',' next
  let _ ← gotoEdge record separator done
  let _ ← callEdge record next field separator
  let emptyFirst ← emptyField record start
  let _ ← charEdge record emptyFirst ',' next
  let emptyNext ← emptyField record next
  let _ ← gotoEdge record emptyNext separator

/-- Declares a field that is not empty. The edge for a quote inside a quoted field comes before the
one for the closing quote, which counts only when no second quote follows. -/
def fieldRule (field : RuleId) (plain quoted : MatcherId) : Assembly Unit := do
  let start ← node field
  let opened ← node field
  let begun ← node field .beginCapture
  let inside ← namedNode field "quoted"
  let quote ← node field
  let closed ← node field (.publish "field" 0 0)
  let _ ← charEdge field start '"' opened
  let _ ← gotoEdge field opened begun
  let _ ← gotoEdge field begun inside
  let _ ← consumeEdge field inside quoted inside
  let _ ← charEdge field inside '"' quote
  let _ ← charEdge field quote '"' inside
  let _ ← charEdge field inside '"' closed
  let begun ← node field .beginCapture
  let inside ← namedNode field "plain"
  let closed ← node field (.publish "field" 0 0)
  let _ ← gotoEdge field start begun
  let _ ← consumeEdge field begun plain inside
  let _ ← consumeEdge field inside plain inside
  let _ ← gotoEdge field inside closed

def declarations : Assembly Unit := do
  let file ← rule "csv"
  let record ← rule "record"
  let field ← rule "field"
  let plain ← namedMatcher "PLAIN" (.not (.set [',', '"', '\r', '\n']))
  let quoted ← namedMatcher "QUOTED" (.not (.char '"'))
  fileRule file record
  recordRule record field
  fieldRule field plain quoted

/-- Decisions look at two code points, to tell a doubled quote from a closing one. -/
def config : GrammarConfig := { start := "csv", maxLookahead := 2 }

end StreamGrammar.Csv
