import StreamGrammar.Matcher

/-!
# The text of a matcher

Matchers are shown in error messages and route tables much as in a regular
expression: a code point stands for itself, ranges and lists are written as
bracketed classes, a negated class starts with a caret, and the connectives are
written between parentheses.
-/

namespace StreamGrammar.Matcher

/-- The code points that have a meaning inside a bracketed class. -/
def isClassSpecial (character : Char) : Bool :=
  ['\\', '[', ']', '^', '-'].contains character

/-- The control characters of Unicode: the first thirty-two numbers, and those from 127 to 159. -/
def isControl (character : Char) : Bool :=
  character.toNat < 0x20 || (0x7F ≤ character.toNat && character.toNat < 0xA0)

/-- A code point that stands alone. A blank is quoted, since it could not be seen otherwise. -/
def charText (character : Char) : String :=
  if character = '\n' then "\\n"
  else if character = '\r' then "\\r"
  else if character = '\t' then "\\t"
  else if character = ' ' then "' '"
  else if isControl character then Text.unicodeEscape character
  else character.toString

/-- A code point inside a bracketed class. -/
def classCharText (character : Char) : String :=
  if character = '\n' then "\\n"
  else if character = '\r' then "\\r"
  else if character = '\t' then "\\t"
  else if isClassSpecial character then "\\" ++ character.toString
  else if isControl character then Text.unicodeEscape character
  else character.toString

/-- What a matcher puts between the brackets of a class, for the matchers that are written so. -/
def classBody? : Matcher → Option String
  | .char character => some (classCharText character)
  | .range first last => some (classCharText first ++ "-" ++ classCharText last)
  | .set characters => some (String.join (characters.map classCharText))
  | _ => none

mutual

def text : Matcher → String
  | .any => "ANY"
  | .char character => charText character
  | .range first last => "[" ++ classCharText first ++ "-" ++ classCharText last ++ "]"
  | .set characters => "[" ++ String.join (characters.map classCharText) ++ "]"
  | .not matcher =>
      match classBody? matcher with
      | some body => "[^" ++ body ++ "]"
      | none => "!" ++ matcher.text
  | .and matchers => "(" ++ "&".intercalate (texts matchers) ++ ")"
  | .or matchers => "(" ++ "|".intercalate (texts matchers) ++ ")"

def texts : List Matcher → List String
  | [] => []
  | matcher :: rest => matcher.text :: texts rest

end

theorem texts_eq_map (matchers : List Matcher) : texts matchers = matchers.map text := by
  induction matchers with
  | nil => simp [texts]
  | cons matcher rest ih => simp [texts, ih]

end StreamGrammar.Matcher
