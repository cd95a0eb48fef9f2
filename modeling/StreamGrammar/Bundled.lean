import StreamGrammar.Bundled.Csv
import StreamGrammar.Bundled.Ini
import StreamGrammar.Bundled.Numbers

/-!
# Bundled grammars

The grammars that the command line offers.
-/

namespace StreamGrammar

/-- One of the bundled grammars. -/
inductive BundledGrammar where
  | csv
  | ini
  | numbers
deriving DecidableEq, Repr

namespace BundledGrammar

/-- The name by which a grammar is asked for. -/
def name : BundledGrammar → String
  | .csv => "csv"
  | .ini => "ini"
  | .numbers => "numbers"

/-- The name by which messages mention a grammar. -/
def title : BundledGrammar → String
  | .csv => "Csv"
  | .ini => "Ini"
  | .numbers => "Numbers"

def ofName? (name : String) : Option BundledGrammar :=
  [BundledGrammar.csv, .ini, .numbers].find? (·.name == name)

/-- The declarations of a grammar and how it is built. -/
def declarations : BundledGrammar → Assembly Unit × GrammarConfig
  | .csv => (Csv.declarations, Csv.config)
  | .ini => (Ini.declarations, Ini.config)
  | .numbers => (Numbers.declarations, Numbers.config)

def build (bundled : BundledGrammar) (strict : Bool) : BuildReport :=
  let (declarations, config) := bundled.declarations
  (Assembly.assemble declarations).2.build { config with strict }

end BundledGrammar

end StreamGrammar
