import StreamGrammar.Symbol

/-!
# Lookahead

The symbols that have arrived and wait to be consumed. A decision that needs
more of them than one piece of input provides is taken up again when the next
piece arrives. Once the end of the input has arrived it is the last symbol, and
every position after it reads as the end of the input too.
-/

namespace StreamGrammar

/-- Symbols received and not yet consumed, the next one first. -/
structure Lookahead where
  symbols : List Symbol := []
deriving DecidableEq, Repr

namespace Lookahead

def empty : Lookahead := {}

def length (lookahead : Lookahead) : Nat := lookahead.symbols.length

def isEmpty (lookahead : Lookahead) : Bool := lookahead.symbols.isEmpty

def push (lookahead : Lookahead) (symbol : Symbol) : Lookahead :=
  ⟨lookahead.symbols ++ [symbol]⟩

/-- The symbol to be consumed next. -/
def front? (lookahead : Lookahead) : Option Symbol := lookahead.symbols.head?

/-- Whether the end of the input has arrived. -/
def hasEnd (lookahead : Lookahead) : Bool :=
  lookahead.symbols.getLast? == some .endOfInput

/-- The symbol at a position, counted from the next one. -/
def get? (lookahead : Lookahead) (position : Nat) : Option Symbol :=
  match lookahead.symbols[position]? with
  | some symbol => some symbol
  | none => if lookahead.hasEnd then some .endOfInput else none

/-- Whether a decision that looks at `depth` symbols can be taken. -/
def satisfies (lookahead : Lookahead) (depth : Nat) : Bool :=
  depth ≤ lookahead.length || lookahead.hasEnd

/-- Removes the symbol that has been consumed. -/
def commit (lookahead : Lookahead) : Lookahead := ⟨lookahead.symbols.tail⟩

/-- The waiting symbols, written one after the other. -/
def text (lookahead : Lookahead) : String :=
  String.join (lookahead.symbols.map Symbol.text)

end Lookahead

end StreamGrammar
