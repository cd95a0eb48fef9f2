import StreamGrammar.CommandLine

/-!
# The program

Reads what a run needs from the outside, and writes what it leaves behind.
-/

namespace StreamGrammar.CommandLine

/-- The system's number of an error, which some operations report with its sign changed. -/
def errorNumber (code : UInt32) : Nat :=
  if code.toNat < 0x80000000 then code.toNat else 0x100000000 - code.toNat

/-- The fault behind an error of reading. -/
def ReadFault.ofError (error : IO.Error) : ReadFault :=
  match error with
  | .noFileOrDirectory .. => .notFound
  | .permissionDenied .. => .permissionDenied
  | .inappropriateType _ code _ =>
      if errorNumber code = 20 then .notDirectory else .isDirectory
  | .invalidArgument _ code _ =>
      if errorNumber code = 36 then .nameTooLong else .other (toString error)
  | _ => .other (toString error)

def readAll (stream : IO.FS.Stream) : IO ByteArray := do
  let mut bytes := ByteArray.empty
  repeat
    let piece ← stream.read 65536
    if piece.isEmpty then break
    bytes := bytes ++ piece
  return bytes

def Job.readInput (job : Job) : IO ByteArray := do
  match job.arguments.file with
  | some file => IO.FS.readBinFile file
  | none => readAll (← IO.getStdin)

/-- Writes what a run leaves behind. -/
def Outcome.write (outcome : Outcome) : IO UInt32 := do
  IO.print outcome.stdout
  IO.eprint outcome.stderr
  return outcome.code.toUInt32

def runProgram (arguments : List String) : IO UInt32 := do
  match prepare (← IO.getEnv "RUST_LOG") arguments with
  | .error outcome => outcome.write
  | .ok job =>
      match ← job.readInput.toBaseIO with
      | .ok input => (job.run input.toList).write
      | .error error => (job.refuse (.ofError error)).write

end StreamGrammar.CommandLine

def main (arguments : List String) : IO UInt32 :=
  StreamGrammar.CommandLine.runProgram arguments
