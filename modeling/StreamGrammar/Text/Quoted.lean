import StreamGrammar.Text.Hidden

/-!
# Quoted text

Published text is shown between double quotes, with the code points that would be
misread replaced by escape sequences.
-/

namespace StreamGrammar.Text

/-- How a code point is written inside quotes. -/
def quotedChar (character : Char) : String :=
  if character = '\x00' then "\\0"
  else if character = '\t' then "\\t"
  else if character = '\r' then "\\r"
  else if character = '\n' then "\\n"
  else if character = '"' then "\\\""
  else if character = '\\' then "\\\\"
  else if isHidden character then unicodeEscape character
  else character.toString

/-- The text between double quotes, every code point of it recognisable. -/
def quoted (text : String) : String :=
  "\"" ++ String.join (text.toList.map quotedChar) ++ "\""

end StreamGrammar.Text
