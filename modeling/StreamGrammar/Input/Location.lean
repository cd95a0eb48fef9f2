/-!
# Locations

A location is the place of the next code point to be consumed: its line and
column, both counted from one, and the number of code points before it. A line
ends with a line feed, a carriage return, or a carriage return and the line feed
right after it, which count as one break.
-/

namespace StreamGrammar

/-- The place of the next code point of a text. -/
structure Location where
  line : Nat
  column : Nat
  offset : Nat
  /-- The code point just passed is a carriage return, which a line feed may complete. -/
  afterReturn : Bool
deriving DecidableEq, Repr

namespace Location

def start : Location := ⟨1, 1, 0, false⟩

/-- The place after one more code point. -/
def advance (location : Location) (character : Char) : Location :=
  let offset := location.offset + 1
  if character = '\n' then
    if location.afterReturn then { location with offset, afterReturn := false }
    else ⟨location.line + 1, 1, offset, false⟩
  else if character = '\r' then ⟨location.line + 1, 1, offset, true⟩
  else ⟨location.line, location.column + 1, offset, false⟩

def advanceAll (location : Location) (text : List Char) : Location :=
  text.foldl advance location

def text (location : Location) : String :=
  toString location.line ++ ":" ++ toString location.column

@[simp]
theorem advanceAll_nil (location : Location) : location.advanceAll [] = location := rfl

@[simp]
theorem advanceAll_cons (location : Location) (character : Char) (rest : List Char) :
    location.advanceAll (character :: rest) = (location.advance character).advanceAll rest := rfl

theorem advanceAll_append (location : Location) (left right : List Char) :
    location.advanceAll (left ++ right) = (location.advanceAll left).advanceAll right := by
  simp [advanceAll]

@[simp]
theorem offset_advance (location : Location) (character : Char) :
    (location.advance character).offset = location.offset + 1 := by
  simp only [advance]
  split
  · split <;> rfl
  · split <;> rfl

end Location

end StreamGrammar
