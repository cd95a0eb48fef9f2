/-!
# Input symbols

The unit of parsing is a symbol: a decoded code point, or the mark that ends the
input.
-/

namespace StreamGrammar

/-- One unit of input: a code point, or the end of the input. -/
inductive Symbol where
  | char (character : Char)
  | endOfInput
deriving DecidableEq, Repr

/-- A code point stands for itself, and the end of the input is spelled out. -/
def Symbol.text : Symbol → String
  | .char character => character.toString
  | .endOfInput => "<EOF>"

end StreamGrammar
