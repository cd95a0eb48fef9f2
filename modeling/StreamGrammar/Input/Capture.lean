/-!
# Captured text

Regions of the consumed text are captured between an opening and a closing, and
may be nested. All open regions share one text: a region is what the text holds
from the region's start on, so an outer region also contains the text of every
region nested in it. While no region is open nothing is kept.
-/

namespace StreamGrammar

/-- The text of the open regions, and where each of them starts, the innermost first. -/
structure CaptureBuffer where
  text : Array Char := #[]
  starts : List Nat := []
deriving DecidableEq, Repr

namespace CaptureBuffer

def empty : CaptureBuffer := {}

/-- The number of open regions. -/
def depth (buffer : CaptureBuffer) : Nat := buffer.starts.length

def isCapturing (buffer : CaptureBuffer) : Bool := !buffer.starts.isEmpty

/-- Opens a region at the end of the text. -/
def begin (buffer : CaptureBuffer) : CaptureBuffer :=
  { buffer with starts := buffer.text.size :: buffer.starts }

/-- Adds a consumed code point to the open regions. -/
def push (buffer : CaptureBuffer) (character : Char) : CaptureBuffer :=
  if buffer.isCapturing then { buffer with text := buffer.text.push character } else buffer

/-- A region without `trimStart` leading and `trimEnd` trailing code points, which is empty if
there are not as many. -/
def trim (trimStart trimEnd : Nat) (region : List Char) : List Char :=
  (region.take (region.length - trimEnd)).drop trimStart

/-- Closes the innermost region and gives its trimmed text, if a region is open. -/
def finish? (buffer : CaptureBuffer) (trimStart trimEnd : Nat) :
    Option (String × CaptureBuffer) :=
  match buffer.starts with
  | [] => none
  | start :: outer =>
      let region := (buffer.text.extract start buffer.text.size).toList
      let kept := if outer.isEmpty then #[] else buffer.text
      some (String.ofList (trim trimStart trimEnd region), ⟨kept, outer⟩)

end CaptureBuffer

end StreamGrammar
