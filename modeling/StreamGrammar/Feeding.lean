import StreamGrammar.Engine

/-!
# Feeding input piece by piece

A whole input is handed to an engine in pieces of one size. Whatever a call leaves
untaken, because the piece ends in the middle of a code point, is handed over again
together with the next piece. When all pieces have been handed over, the engine is
told that the input has ended, unless something is still left untaken.
-/

namespace StreamGrammar

/-- How feeding a whole input ended. -/
inductive Feeding where
  /-- The parse succeeded after a number of calls. -/
  | finished (calls : Nat)
  /-- A call was answered by an error. -/
  | refused (error : CallError)
  /-- The input ends in the middle of a code point. -/
  | truncated (location : Location)
deriving DecidableEq, Repr

namespace Feeding

def error? : Feeding → Option CallError
  | .finished _ => none
  | .refused error => some error
  | .truncated location => some (.parseFailed ⟨.decoding .truncated, location⟩)

/-- The number of calls that a successful parse took. -/
def calls : Feeding → Nat
  | .finished calls => calls
  | _ => 0

/-- What is reported of how feeding ended. -/
def log : Feeding → List Log.Record
  | .truncated _ => [⟨.warn, .feeding, "input ends inside an encoded code point"⟩]
  | _ => []

end Feeding

namespace Engine

variable (grammar : Grammar) (consumer : Consumer)

/-- Feeds the pieces of an input that are left. The first `offered` of the units have been handed
over and were left untaken, and `unoffered` units come after them. -/
def feedFrom {Unit : Type} (encoding : Encoding Unit) (size : Nat) (positive : 0 < size)
    (units : List Unit) (offered unoffered calls : Nat) (engine : Engine) : Feeding × Engine :=
  if unoffered = 0 then
    if units.isEmpty then
      match engine.endInput grammar consumer with
      | (.ok _, after) => (.finished calls, after)
      | (.error error, after) => (.refused error, after)
    else (.truncated engine.location, engine)
  else
    let piece := min size unoffered
    match engine.consume grammar consumer encoding (units.take (offered + piece)) with
    | (.ok taken, after) =>
        feedFrom encoding size positive (units.drop taken) (offered + piece - taken)
          (unoffered - piece) (calls + 1) after
    | (.error error, after) => (.refused error, after)
termination_by unoffered

def feedAll {Unit : Type} (encoding : Encoding Unit) (size : Nat) (positive : 0 < size)
    (engine : Engine) (units : List Unit) : Feeding × Engine :=
  engine.feedFrom grammar consumer encoding size positive units 0 units.length 0

end Engine

end StreamGrammar
