import StreamGrammar.Encoding
import StreamGrammar.Input.Location

/-!
# Failures of a parse

A parse fails at a location for one of four causes: units that encode no text,
symbols that no decision accepts, and captures that are published without being
open or still open at the end.
-/

namespace StreamGrammar

/-- Why a parse fails. -/
inductive FailureCause where
  | decoding (malformation : Malformation)
  /-- The waiting symbols are none of what could have come. -/
  | syntaxError (found : String) (expected : List String)
  /-- The input ended while captures were open. -/
  | unterminatedCapture (depth : Nat)
  /-- Something was published while no capture was open. -/
  | captureUnderflow (name : String)
deriving DecidableEq, Repr

/-- A cause, and the place of the first code point that was not consumed. -/
structure Failure where
  cause : FailureCause
  location : Location
deriving DecidableEq, Repr

def Failure.message (failure : Failure) : String :=
  match failure.cause with
  | .decoding malformation => malformation.message
  | .syntaxError found expected =>
      s!"Found: '{found}' Expected: " ++ " OR ".intercalate expected
  | .unterminatedCapture depth =>
      s!"Found: '<EOF>' Expected: end of {depth} open capture(s)"
  | .captureUnderflow name => s!"'{name}' published without an open capture"

/-- Whether a parse goes on, and how it ended if it does not. -/
inductive Status where
  | running
  | succeeded
  | failed (failure : Failure)
deriving DecidableEq, Repr

namespace Status

/-- The name of a status. -/
def text : Status → String
  | .running => "Running"
  | .succeeded => "Succeeded"
  | .failed _ => "Failed"

def isRunning : Status → Bool
  | .running => true
  | _ => false

end Status

/-- Why a call to an engine is answered by an error. -/
inductive CallError where
  /-- The call made the parse fail. -/
  | parseFailed (failure : Failure)
  /-- The parse had ended before. -/
  | notRunning (status : Status)
deriving DecidableEq, Repr

namespace CallError

def message : CallError → String
  | .parseFailed failure => failure.message
  | .notRunning status => s!"engine is not running ({status.text})"

/-- The place of the error in the input, if it has one. -/
def location? : CallError → Option Location
  | .parseFailed failure => some failure.location
  | .notRunning _ => none

end CallError

end StreamGrammar
